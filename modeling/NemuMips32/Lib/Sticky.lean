/-
  Rounding a quotient that is known only in part. A word stands for a quotient at the multiples
  of `h` (`Stands`) if it lies between the same two of them, or on the same one; roundings to a
  multiple of `2 * h` then agree (`Stands.roundQuot`). A sticky bit does this (`stands_jam`), and
  so does any word in the same open interval (`stands_between`). Nothing here knows about a
  particular machine.
-/
import NemuMips32.Lib.Ieee

namespace Ieee

/-- The word `z` lies where `n / m` does between the multiples of `h`, and on one exactly when
    `n / m` does. -/
structure Stands (h z n m : Nat) : Prop where
  floor : z / h = n / (m * h)
  exact : z % h = 0 ↔ n % (m * h) = 0

theorem Stands.self (h n : Nat) : Stands h n n 1 := by
  constructor <;> rw [Nat.one_mul]

section Stands

variable {h z n m : Nat}

/-- What is decided at multiples of `2 * h` and half way between them, rounding included, can be
    decided on the word. -/
theorem Stands.roundQuot (hs : Stands h z n m) (hh : 0 < h) (hm : 0 < m) (c : Nat) :
    roundQuot z (2 * h * c) = roundQuot n (m * (2 * h * c)) := by
  obtain ⟨hf, he⟩ := hs
  have hmh : 0 < m * h := Nat.mul_pos hm hh
  have hz : 2 * h * c = h * (2 * c) := by ring
  rw [hz, ← Nat.mul_assoc m]
  have hdz : z / (h * (2 * c)) = z / h / (2 * c) := (Nat.div_div_eq_div_mul ..).symm
  have hdn : n / (m * h * (2 * c)) = n / (m * h) / (2 * c) := (Nat.div_div_eq_div_mul ..).symm
  have hrz : z % (h * (2 * c)) = z % h + h * (z / h % (2 * c)) := Nat.mod_mul
  have hrn : n % (m * h * (2 * c)) = n % (m * h) + m * h * (n / (m * h) % (2 * c)) := Nat.mod_mul
  have hlz := Nat.mod_lt z hh
  have hln := Nat.mod_lt n hmh
  -- both remainders compare to the half as the floors do, or by being exact
  have hlt : ∀ k r i, r < k → (2 * (r + k * i) < k * (2 * c) ↔ i < c) := by
    intro k r i hr
    constructor
    · intro hlt
      refine Nat.lt_of_not_le fun hci => absurd (Nat.mul_le_mul_left k hci) (Nat.not_le.2 ?_)
      have : k * (2 * c) = 2 * (k * c) := by ring
      omega
    · intro hlt
      have := Nat.mul_le_mul_left k hlt
      have h2 : k * (2 * c) = 2 * (k * c) := by ring
      rw [Nat.mul_succ] at this
      omega
  have hgt : ∀ k r i, r < k → (k * (2 * c) < 2 * (r + k * i) ↔ c < i ∨ (c = i ∧ r ≠ 0)) := by
    intro k r i hr
    have h2 : k * (2 * c) = 2 * (k * c) := by ring
    rcases lt_trichotomy c i with hlt | heq | hlt
    · have := Nat.mul_le_mul_left k hlt
      rw [Nat.mul_succ] at this
      exact iff_of_true (by omega) (.inl hlt)
    · subst heq
      constructor
      · exact fun hlt => .inr ⟨rfl, by omega⟩
      · rintro (hlt | ⟨-, hr0⟩)
        · exact absurd hlt (lt_irrefl c)
        · omega
    · have := Nat.mul_le_mul_left k hlt
      rw [Nat.mul_succ] at this
      exact iff_of_false (by omega) (by omega)
  rw [Ieee.roundQuot, Ieee.roundQuot, hdz, hdn, hrz, hrn, hf]
  simp only [hlt h _ _ hlz, hlt (m * h) _ _ hln, hgt h _ _ hlz, hgt (m * h) _ _ hln, ne_eq, he]

theorem Stands.le_iff (hs : Stands h z n m) (hh : 0 < h) (hm : 0 < m) (c : Nat) :
    h * c ≤ z ↔ m * (h * c) ≤ n := by
  rw [Nat.mul_comm h, ← Nat.le_div_iff_mul_le hh, hs.floor,
    Nat.le_div_iff_mul_le (Nat.mul_pos hm hh)]
  rw [show m * (c * h) = c * (m * h) by ring]

/-- Scaling. -/
theorem Stands.mul (hs : Stands h z n m) {s : Nat} (hp : 0 < s) :
    Stands (h * s) (z * s) (n * s) m := by
  obtain ⟨hf, he⟩ := hs
  constructor
  · rw [Nat.mul_div_mul_right _ _ hp, ← Nat.mul_assoc, Nat.mul_div_mul_right _ _ hp, hf]
  · rw [Nat.mul_mod_mul_right, ← Nat.mul_assoc, Nat.mul_mod_mul_right]
    simp only [Nat.mul_eq_zero, hp.ne', or_false, he]

/-- A common factor of the quotient. -/
theorem Stands.cancel {k : Nat} (hk : 0 < k) : Stands h z (n * k) (m * k) ↔ Stands h z n m := by
  have hd : n * k / (m * k * h) = n / (m * h) := by
    rw [Nat.mul_right_comm, Nat.mul_div_mul_right _ _ hk]
  have hr : n * k % (m * k * h) = 0 ↔ n % (m * h) = 0 := by
    rw [Nat.mul_right_comm, Nat.mul_mod_mul_right, Nat.mul_eq_zero]
    simp [hk.ne']
  constructor
  · exact fun hs => ⟨hs.floor.trans hd, hs.exact.trans hr⟩
  · exact fun hs => ⟨hs.floor.trans hd.symm, hs.exact.trans hr.symm⟩

/-- What divides without a remainder. -/
theorem Stands.of_mul (h z : Nat) {m : Nat} (hm : 0 < m) : Stands h z (z * m) m := by
  have := (Stands.cancel (h := h) (z := z) (n := z) (m := 1) hm).2 (Stands.self h z)
  rwa [Nat.one_mul] at this

/-- A sticky bit is enough for even `h`. -/
theorem stands_jam (n : Nat) {m : Nat} (hm : 0 < m) (hh : 2 ∣ h) : Stands h (jam n m) n m := by
  obtain ⟨t, rfl⟩ := hh
  have hfloor : n / (m * (2 * t)) = n / m / (2 * t) := (Nat.div_div_eq_div_mul n m _).symm
  have hrem : n % (m * (2 * t)) = n % m + m * (n / m % (2 * t)) := Nat.mod_mul
  by_cases hr : n % m = 0
  · rw [jam, if_pos hr]
    refine ⟨hfloor.symm, ?_⟩
    rw [hrem, hr, Nat.zero_add, Nat.mul_eq_zero]
    simp [hm.ne']
  · rw [jam, if_neg hr, or_one]
    have hhalf : ∀ q : Nat, (q + 1 - q % 2) / 2 = q / 2 := fun q => by omega
    have hodd : ∀ q : Nat, (q + 1 - q % 2) % 2 = 1 := fun q => by omega
    refine ⟨?_, ?_⟩
    · rw [hfloor, ← Nat.div_div_eq_div_mul, hhalf, Nat.div_div_eq_div_mul]
    · have h1 : (n / m + 1 - n / m % 2) % (2 * t) % 2 = 1 := by
        rw [Nat.mod_mul_right_mod]
        exact hodd _
      rw [hrem]
      exact iff_of_false (fun h0 => by rw [h0] at h1; exact absurd h1 (by decide))
        (fun h0 => hr (Nat.eq_zero_of_add_eq_zero_right h0))

/-- Inside an interval between two multiples of `h`, nothing more has to be known. -/
theorem stands_between {t : Nat} (hh : 0 < h) (hm : 0 < m) (hz : h * t < z)
    (hz' : z < h * (t + 1)) (hn : m * h * t < n) (hn' : n < m * h * (t + 1)) : Stands h z n m := by
  have hmh : 0 < m * h := Nat.mul_pos hm hh
  have key : ∀ k y, 0 < k → k * t < y → y < k * (t + 1) → y / k = t ∧ y % k ≠ 0 := by
    intro k y hk hlo hhi
    have hd : y / k = t := by
      rw [Nat.div_eq_iff hk]
      rw [Nat.mul_comm t]
      rw [Nat.mul_succ] at hhi
      omega
    refine ⟨hd, fun h0 => ?_⟩
    have := Nat.div_add_mod y k
    rw [hd, h0] at this
    omega
  obtain ⟨h1, h2⟩ := key h z hh hz hz'
  obtain ⟨h3, h4⟩ := key (m * h) n hmh hn hn'
  exact ⟨h1.trans h3.symm, iff_of_false h2 h4⟩

end Stands

end Ieee
