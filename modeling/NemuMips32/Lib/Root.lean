/-
  Square roots: Newton's method on natural numbers, and rounding to a floating point format of a
  number that is not rational. Nothing here knows about a particular machine.

  `newton_lower` and `newton_upper` bound the root by one step of the method, rounded down.
  `StandsRoot` says of a word what `Stands` does for a quotient: it lies where the root does
  between the multiples of `h`. The root rounded down does, with a sticky bit
  (`standsRoot_sqrt`), and so does an estimate that is in the same cell (`StandsRoot.of_bounds`).
  `Format.RoundsReal` is `Format.Rounds` for a real number, and `roundsReal_of_between` gets it
  from the rationals around that number.
-/
import Mathlib.Analysis.Real.Sqrt
import NemuMips32.Lib.Arithmetic
import NemuMips32.Lib.Sticky

namespace Ieee

/-! ## Newton's method -/

section Newton

variable {m h : Nat}

/-- A step is never too small by more than what is rounded off. -/
theorem newton_lower (m : Nat) (hh : 0 < h) : 2 * m < (m / (2 * h) + h + 1) ^ 2 := by
  have hm : m < 2 * h * (m / (2 * h) + 1) := Nat.lt_mul_div_succ m (by omega)
  generalize m / (2 * h) = q at *
  -- the arithmetic mean is at least the geometric one
  have hmean : 4 * (q + 1) * h ≤ (q + h + 1) ^ 2 := by
    zify
    nlinarith [sq_nonneg ((q : ℤ) + 1 - h)]
  calc 2 * m < 2 * (2 * h * (q + 1)) := by omega
    _ = 4 * (q + 1) * h := by ring
    _ ≤ (q + h + 1) ^ 2 := hmean

/-- How far the two halves of a step are apart. -/
theorem newton_gap {c : Nat} (hh : 0 < h) (hlo : 2 * h * h ≤ m + 2 * h * c)
    (hhi : m ≤ 2 * h * h + 2 * h * c) : h ≤ m / (2 * h) + c ∧ m / (2 * h) ≤ h + c := by
  have hpos : 0 < 2 * h := by omega
  constructor
  · have h1 : (h - c) * (2 * h) ≤ m := by
      rw [Nat.mul_comm, Nat.mul_sub]
      omega
    have := (Nat.le_div_iff_mul_le hpos).2 h1
    omega
  · refine (Nat.div_le_iff_le_mul_add_pred hpos).2 ?_
    rw [Nat.mul_add]
    omega

/-- A step is too large by the square of that gap, over twice the root. -/
theorem newton_upper {c k : Nat} (hgap : h ≤ m / (2 * h) + c ∧ m / (2 * h) ≤ h + c)
    (hc : c ^ 2 + k ^ 2 ≤ 2 * k * (m / (2 * h) + h)) :
    (m / (2 * h) + h - k) ^ 2 ≤ 2 * m := by
  have hm : m / (2 * h) * (2 * h) ≤ m := Nat.div_mul_le_self m _
  obtain ⟨h1, h2⟩ := hgap
  generalize m / (2 * h) = q at *
  by_cases hk : k ≤ q + h
  · have hsq : ((q : ℤ) - h) ^ 2 ≤ c ^ 2 := sq_le_sq' (by omega) (by omega)
    zify [hk] at hc hm ⊢
    nlinarith
  · rw [Nat.sub_eq_zero_of_le (by omega)]
    exact Nat.zero_le _

end Newton

/-! ## Roots -/

/-- The word `z` lies where the root of `n` does between the multiples of `h`. -/
inductive StandsRoot (h z n : Nat) : Prop where
  | exact : z * z = n → StandsRoot h z n
  | between (t : Nat) : h * t < z → z < h * (t + 1) → (h * t) * (h * t) < n →
      n < (h * (t + 1)) * (h * (t + 1)) → StandsRoot h z n

/-- Bounds at multiples of `h` carry over. -/
theorem StandsRoot.le_iff {h z n : Nat} (hs : StandsRoot h z n) (c : Nat) :
    h * c ≤ z ↔ (h * c) * (h * c) ≤ n := by
  cases hs with
  | exact hz =>
    rw [← hz]
    exact Nat.mul_self_le_mul_self_iff.symm
  | between t h1 h2 h3 h4 =>
    constructor
    · intro hle
      have hct : c ≤ t := Nat.lt_succ_iff.1 (Nat.lt_of_mul_lt_mul_left (hle.trans_lt h2))
      exact (Nat.mul_self_le_mul_self (Nat.mul_le_mul_left h hct)).trans h3.le
    · intro hle
      have hlt := Nat.mul_self_lt_mul_self_iff.1 (hle.trans_lt h4)
      have hct : c ≤ t := Nat.lt_succ_iff.1 (Nat.lt_of_mul_lt_mul_left hlt)
      exact (Nat.mul_le_mul_left h hct).trans h1.le

theorem succ_mul_succ (n : Nat) : (n + 1) * (n + 1) = n * n + 2 * n + 1 := by ring

/-- The root rounded down, and the next number. -/
theorem sqrt_bounds (n : Nat) :
    Nat.sqrt n * Nat.sqrt n ≤ n ∧ n < Nat.sqrt n * Nat.sqrt n + 2 * Nat.sqrt n + 1 :=
  ⟨Nat.sqrt_le n, succ_mul_succ (Nat.sqrt n) ▸ Nat.lt_succ_sqrt n⟩

/-- The root lies between `l` and `u`, which are in the cell of `z`. -/
theorem StandsRoot.of_bounds {h z n t l u : Nat} (hl : l * l ≤ n) (hu : n < u * u)
    (hlt : h * t < l ∨ (h * t = l ∧ l * l < n)) (hut : u ≤ h * (t + 1)) (hz : h * t < z)
    (hz' : z < h * (t + 1)) : StandsRoot h z n := by
  refine .between t hz hz' ?_ (hu.trans_le (Nat.mul_self_le_mul_self hut))
  rcases hlt with hlt | ⟨rfl, hlt⟩
  · exact (Nat.mul_self_lt_mul_self_iff.2 hlt).trans_le hl
  · exact hlt

/-- Halving a word that stands for a root, with a sticky bit. -/
theorem StandsRoot.half {h z n : Nat} (hh : 2 ∣ h) (hs : StandsRoot (2 * h) z (4 * n)) :
    StandsRoot h (jam z 2) n := by
  cases hs with
  | exact hz =>
    rcases Nat.even_or_odd' z with ⟨k, rfl | rfl⟩
    · rw [jam, if_pos (Nat.mul_mod_right 2 k), Nat.mul_div_cancel_left k Nat.two_pos]
      refine .exact ?_
      have : 2 * k * (2 * k) = 4 * (k * k) := by ring
      omega
    · have : (2 * k + 1) * (2 * k + 1) = 4 * (k * k + k) + 1 := by ring
      omega
  | between t h1 h2 h3 h4 =>
    obtain ⟨g, rfl⟩ := hh
    have hcell : 2 * (2 * g) * t = 2 * (2 * (g * t)) := by ring
    have hcell' : 2 * (2 * g) * (t + 1) = 2 * (2 * (g * t) + 2 * g) := by ring
    rw [hcell] at h1 h3
    rw [hcell'] at h2 h4
    have hlo : 2 * g * t = 2 * (g * t) := by ring
    have hhi : 2 * g * (t + 1) = 2 * (g * t) + 2 * g := by ring
    have hz : 2 * (g * t) < jam z 2 ∧ jam z 2 < 2 * (g * t) + 2 * g := by
      rw [jam, or_one]
      split_ifs <;> omega
    refine .between t (by omega) (by omega) ?_ ?_
    · rw [hlo]
      have : 2 * (2 * (g * t)) * (2 * (2 * (g * t))) = 4 * (2 * (g * t) * (2 * (g * t))) := by ring
      omega
    · rw [hhi]
      have : 2 * (2 * (g * t) + 2 * g) * (2 * (2 * (g * t) + 2 * g)) =
          4 * ((2 * (g * t) + 2 * g) * (2 * (g * t) + 2 * g)) := by ring
      omega

/-- The corrected root: rounded down, with a sticky bit. -/
theorem standsRoot_sqrt (n : Nat) {h : Nat} (hh : 2 ∣ h) (hpos : 0 < h) :
    StandsRoot h (Nat.sqrt n ||| if n - Nat.sqrt n * Nat.sqrt n ≠ 0 then 1 else 0) n := by
  obtain ⟨h1, h2⟩ := sqrt_bounds n
  by_cases hx : n = Nat.sqrt n * Nat.sqrt n
  · rw [if_neg (by omega), Nat.or_zero]
    exact .exact hx.symm
  · obtain ⟨g, rfl⟩ := hh
    have hdm := Nat.div_add_mod (Nat.sqrt n) (2 * g)
    have hmod := Nat.mod_lt (Nat.sqrt n) hpos
    have hnext : 2 * g * (Nat.sqrt n / (2 * g) + 1) = 2 * g * (Nat.sqrt n / (2 * g)) + 2 * g := by
      ring
    have heven : 2 * g * (Nat.sqrt n / (2 * g)) = 2 * (g * (Nat.sqrt n / (2 * g))) := by ring
    rw [if_pos (by omega), or_one]
    refine StandsRoot.of_bounds (t := Nat.sqrt n / (2 * g)) (l := Nat.sqrt n)
      (u := Nat.sqrt n + 1) h1 ?_ ?_ (by omega) (by omega) (by omega)
    · have := succ_mul_succ (Nat.sqrt n)
      omega
    · rcases Nat.eq_zero_or_pos (Nat.sqrt n % (2 * g)) with h0 | h0
      · exact .inr ⟨by omega, by omega⟩
      · exact .inl (by omega)

/-! ## Rounding a real number -/

namespace Format

variable {F : Format} {y : Nat}

/-- The pattern `y` is the real number `v` rounded to nearest, ties to even. -/
structure RoundsReal (F : Format) (v : ℝ) (y : Nat) : Prop where
  sign : v ≠ 0 → (F.negative y = true ↔ v < 0)
  nearest : |v| < F.overflow → F.isFinite y = true ∧ ∀ z, F.isFinite z = true →
    |v - F.value y| < |v - F.value z| ∨
      |v - F.value y| = |v - F.value z| ∧ (F.value z = F.value y ∨ F.fraction y % 2 = 0)
  infinite : F.overflow ≤ |v| → F.isFinite y = false ∧ F.fraction y = 0

theorem roundsReal_cast (q : ℚ) (y : Nat) : F.RoundsReal q y ↔ F.Rounds q y := by
  have hdist : ∀ z, |(q : ℝ) - F.value z| = (|q - F.value z| : ℚ) := fun z => by push_cast; rfl
  have habs : |(q : ℝ)| = (|q| : ℚ) := by push_cast; rfl
  constructor
  · rintro ⟨h1, h2, h3⟩
    refine ⟨fun hq => ?_, fun hq => ?_, fun hq => ?_⟩
    · rw [Bool.eq_iff_iff, decide_eq_true_eq, h1 (by exact_mod_cast hq)]
      exact_mod_cast Iff.rfl
    · obtain ⟨hf, h⟩ := h2 (by rw [habs]; exact_mod_cast hq)
      refine ⟨hf, fun z hz => ?_⟩
      have := h z hz
      simp only [hdist] at this
      exact_mod_cast this
    · exact h3 (by rw [habs]; exact_mod_cast hq)
  · rintro ⟨h1, h2, h3⟩
    refine ⟨fun hq => ?_, fun hq => ?_, fun hq => ?_⟩
    · rw [h1 (by exact_mod_cast hq), decide_eq_true_eq]
      exact_mod_cast Iff.rfl
    · rw [habs] at hq
      obtain ⟨hf, h⟩ := h2 (by exact_mod_cast hq)
      refine ⟨hf, fun z hz => ?_⟩
      simp only [hdist]
      exact_mod_cast h z hz
    · rw [habs] at hq
      exact h3 (by exact_mod_cast hq)

/-- All rationals of an interval round to `y`, so the reals in it do. A real number as far from
    `y` as from another number is half way between them, hence rational. -/
theorem roundsReal_of_between {l u : ℚ} (hlo : 0 ≤ l)
    (h : ∀ q : ℚ, l < q → q < u → F.Rounds q y) {v : ℝ} (hv : (l : ℝ) < v)
    (hv' : v < (u : ℝ)) : F.RoundsReal v y := by
  have hpos : 0 < v := lt_of_le_of_lt (by exact_mod_cast hlo) hv
  -- rationals close to `v`, on either side
  have hbelow : ∀ b < v, ∃ q : ℚ, b < q ∧ (q : ℝ) < v ∧ F.Rounds q y ∧ 0 < q := by
    intro b hb
    obtain ⟨q, hq, hq'⟩ := exists_rat_btwn (max_lt hb hv)
    have hl : l < q := by exact_mod_cast (le_max_right _ _).trans_lt hq
    exact ⟨q, (le_max_left _ _).trans_lt hq, hq', h q hl (by exact_mod_cast hq'.trans hv'),
      hlo.trans_lt hl⟩
  have habove : ∀ b > v, ∃ q : ℚ, (q : ℝ) < b ∧ v < q ∧ F.Rounds q y := by
    intro b hb
    obtain ⟨q, hq, hq'⟩ := exists_rat_btwn (lt_min hb hv')
    exact ⟨q, hq'.trans_le (min_le_left _ _), hq, h q (by exact_mod_cast hv.trans hq)
      (by exact_mod_cast hq'.trans_le (min_le_right _ _))⟩
  refine ⟨fun _ => ?_, fun hover => ?_, fun hover => ?_⟩
  · obtain ⟨q, -, -, hr, hq⟩ := hbelow l hv
    rw [hr.sign hq.ne', decide_eq_true_eq]
    exact iff_of_false hq.le.not_gt hpos.le.not_gt
  · rw [abs_of_pos hpos] at hover
    have hfar : ∀ q : ℚ, (q : ℝ) < v → 0 < q → |q| < F.overflow := by
      intro q hq hq0
      rw [abs_of_pos hq0]
      exact_mod_cast hq.trans hover
    obtain ⟨q₀, -, hq₀, hr₀, hq₀pos⟩ := hbelow l hv
    refine ⟨(hr₀.nearest (hfar q₀ hq₀ hq₀pos)).1, fun z hz => ?_⟩
    rcases lt_trichotomy |v - F.value y| |v - F.value z| with hlt | heq | hgt
    · exact .inl hlt
    · by_cases hyz : F.value z = F.value y
      · exact .inr ⟨heq, .inl hyz⟩
      · -- `v` is half way, and rational
        have hmid : v = ((F.value y + F.value z) / 2 : ℚ) := by
          rcases abs_eq_abs.1 heq with h1 | h1
          · exact absurd (by exact_mod_cast (by linarith : (F.value z : ℝ) = F.value y)) hyz
          · push_cast
            linarith
        rw [hmid] at hv hv' hover ⊢
        have hr := h _ (by exact_mod_cast hv) (by exact_mod_cast hv')
        refine ((roundsReal_cast _ _).2 hr).nearest ?_ |>.2 z hz
        rw [abs_of_nonneg (le_trans (by exact_mod_cast hlo) hv.le)]
        exact hover
    · -- a rational close to `v` would be closer to `z`
      exfalso
      obtain ⟨q, hq, hq', hr, hq0⟩ := hbelow (v - (|v - F.value y| - |v - F.value z|) / 2)
        (by linarith)
      have hle : |q - F.value y| ≤ |q - F.value z| := by
        rcases (hr.nearest (hfar q hq' hq0)).2 z hz with h1 | h1
        · exact h1.le
        · exact h1.1.le
      have hle' : |(q : ℝ) - F.value y| ≤ |(q : ℝ) - F.value z| := by exact_mod_cast hle
      have hdist : |v - q| < (|v - F.value y| - |v - F.value z|) / 2 := by
        rw [abs_of_pos (by linarith)]
        linarith
      have h1 := abs_sub_le v (q : ℝ) (F.value y)
      have h2 := abs_sub_le (q : ℝ) v (F.value z)
      rw [abs_sub_comm (q : ℝ) v] at h2
      linarith
  · rw [abs_of_pos hpos] at hover
    obtain ⟨q, -, hq, hr⟩ := habove _ hv'
    refine hr.infinite ?_
    have hqpos : 0 < q := by exact_mod_cast hpos.trans hq
    rw [abs_of_pos hqpos]
    exact_mod_cast hover.trans hq.le

theorem RoundsReal.mod {v : ℝ} (h : F.RoundsReal v y) :
    F.RoundsReal v (y % 2 ^ (F.fracBits + F.expBits + 1)) := by
  refine ⟨fun hv => ?_, fun hv => ?_, fun hv => ?_⟩
  · rw [negative_mod]
    exact h.sign hv
  · rw [isFinite_mod, value_mod, fraction_mod]
    exact h.nearest hv
  · rw [isFinite_mod, fraction_mod]
    exact h.infinite hv

/-- The pattern `y` is the root of the pattern `x`: the real root, rounded. A zero is its own root,
    other negative numbers have none, and a NaN is made quiet. -/
def RootOf (F : Format) (x y : Nat) : Prop :=
  if F.isNaN x then y = x ||| 2 ^ (F.fracBits - 1)
  else if F.isZero x then y = x
  else if F.negative x then F.isNaN y = true
  else if F.isFinite x then F.RoundsReal √(F.value x) y
  else y = x

theorem RootOf.mod {x : Nat} (hx : x < 2 ^ (F.fracBits + F.expBits + 1)) (h : F.RootOf x y) :
    F.RootOf x (y % 2 ^ (F.fracBits + F.expBits + 1)) := by
  unfold RootOf at h ⊢
  split_ifs at h ⊢
  · rw [h]
    exact Nat.mod_eq_of_lt (Nat.or_lt_two_pow hx (Nat.pow_lt_pow_right (by decide) (by omega)))
  · rw [h, Nat.mod_eq_of_lt hx]
  · rw [isNaN, isFinite_mod, fraction_mod]
    exact h
  · exact h.mod
  · rw [h, Nat.mod_eq_of_lt hx]

end Format

end Ieee
