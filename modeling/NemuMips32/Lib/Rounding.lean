/-
  Rounding to a binary floating point format: to the nearest number, ties to the even one, and
  to infinity from half a last place above the greatest number on. Nothing here knows about a
  particular machine.

  `Format.Rounds` says this of a pattern without a formula for it; `Format.rounds_quot` is the
  formula. A magnitude is counted in steps of the smallest subnormal number. Where numbers lie
  `2 ^ k` steps apart, the pattern is the rounded quotient plus `k` exponents, and a carry runs
  into the exponent by itself.
-/
import NemuMips32.Lib.Ieee
import Mathlib.Tactic.FieldSimp
import Mathlib.Tactic.GCongr

namespace Ieee

/-! ## Quotients -/

theorem roundQuot_le (n d : Nat) : roundQuot n d ≤ n / d + 1 := by
  unfold roundQuot
  split_ifs <;> omega

/-- No multiple of `d` is closer to `n` than the rounded quotient, and of two the even one is
    taken. -/
theorem roundQuot_nearest (n : Nat) {d : Nat} (hd : 0 < d) (j : Nat) :
    |(n : ℤ) - roundQuot n d * d| < |(n : ℤ) - j * d| ∨
      |(n : ℤ) - roundQuot n d * d| = |(n : ℤ) - j * d| ∧
        (j = roundQuot n d ∨ roundQuot n d % 2 = 0) := by
  have hn : ((d * (n / d) + n % d : Nat) : ℤ) = n := by rw [Nat.div_add_mod]
  have hm : n % d < d := Nat.mod_lt n hd
  push_cast at hn
  -- the distance of a multiple, from the quotient below
  have hdist : ∀ i : ℤ, (n : ℤ) - i * d = (n % d : ℕ) - (i - (n / d : ℕ)) * d := by
    intro i
    rw [← hn]
    push_cast
    ring
  have hfar : ∀ i : ℤ, 1 ≤ i → (d : ℤ) ≤ i * d := fun i hi => by nlinarith
  generalize hq : n / d = q at *
  generalize hr : n % d = m at *
  have hj := lt_trichotomy (j : ℤ) q
  have hround : roundQuot n d = q ∧ (2 * m < d ∨ 2 * m = d ∧ q % 2 = 0) ∨
      roundQuot n d = q + 1 ∧ (d < 2 * m ∨ 2 * m = d ∧ q % 2 = 1) := by
    unfold roundQuot
    rw [hq, hr]
    split_ifs <;> omega
  rw [hdist, hdist]
  rcases hround with ⟨he, hc⟩ | ⟨he, hc⟩
  · rw [he]
    have hself : |((m : ℕ) : ℤ) - ((q : ℤ) - q) * d| = m := by
      rw [sub_self, zero_mul, sub_zero, abs_of_nonneg (Int.natCast_nonneg m)]
    rw [hself]
    rcases hj with h | h | h
    · have := hfar (q - j) (by omega)
      left
      rw [abs_of_nonneg (by nlinarith)]
      nlinarith
    · have hjq : j = q := by omega
      right
      rw [hjq, hself]
      exact ⟨rfl, .inl rfl⟩
    · have := hfar (j - q) (by omega)
      rw [abs_of_nonpos (by nlinarith)]
      by_cases ht : 2 * m < d
      · left
        nlinarith
      · have h2 : (2 * m : ℤ) = d := by omega
        by_cases hone : (m : ℤ) < -(↑m - (↑j - ↑q) * ↑d)
        · exact .inl hone
        · exact .inr ⟨by nlinarith, .inr (by omega)⟩
  · rw [he]
    have hself : |((m : ℕ) : ℤ) - (((q + 1 : ℕ) : ℤ) - q) * d| = d - m := by
      rw [show (((q + 1 : ℕ) : ℤ) - q) * d = d by push_cast; ring, abs_of_nonpos (by omega)]
      ring
    rw [hself]
    rcases lt_trichotomy (j : ℤ) (q + 1) with h | h | h
    · have := hfar (q + 1 - j) (by omega)
      rw [abs_of_nonneg (by nlinarith)]
      by_cases ht : d < 2 * m
      · left
        nlinarith
      · have h2 : (2 * m : ℤ) = d := by omega
        by_cases hone : (d - m : ℤ) < ↑m - (↑j - ↑q) * ↑d
        · exact .inl hone
        · exact .inr ⟨by nlinarith, .inr (by omega)⟩
    · have hjq : j = q + 1 := by omega
      right
      rw [hjq, hself]
      exact ⟨rfl, .inl rfl⟩
    · have := hfar (j - q - 1) (by omega)
      left
      rw [abs_of_nonpos (by nlinarith)]
      nlinarith

/-! ## Steps -/

namespace Format

variable (F : Format) (x y : Nat)

/-- The smallest subnormal number. -/
def unit : ℚ := 2 ^ F.scale 0

/-- The magnitude of a pattern, counted in these. -/
def steps : Nat := F.significand x * 2 ^ (F.exponent x - 1)

/-- The magnitude of infinity as a pattern. -/
def infinity : Nat := (2 ^ F.expBits - 1) * 2 ^ F.fracBits

/-- A pattern from a sign and a magnitude. -/
def withSign (neg : Bool) (y : Nat) : Nat := (if neg then 2 ^ (F.fracBits + F.expBits) else 0) + y

/-- Half way between the greatest number and the next power of two. -/
def overflow : ℚ := ((2 ^ (F.fracBits + 2) - 1 : ℕ) : ℚ) / 2 * 2 ^ (2 ^ F.expBits - 3) * F.unit

/-- The pattern `y` is the number `v` rounded to nearest, ties to even. -/
structure Rounds (v : ℚ) (y : Nat) : Prop where
  sign : v ≠ 0 → F.negative y = decide (v < 0)
  nearest : |v| < F.overflow → F.isFinite y = true ∧ ∀ z, F.isFinite z = true →
    |v - F.value y| < |v - F.value z| ∨
      |v - F.value y| = |v - F.value z| ∧ (F.value z = F.value y ∨ F.fraction y % 2 = 0)
  infinite : F.overflow ≤ |v| → F.isFinite y = false ∧ F.fraction y = 0

variable {F x y}

theorem unit_pos : 0 < F.unit := zpow_pos (by norm_num) _

theorem magnitude_eq_steps : F.magnitude x = F.steps x * F.unit := by
  have hs : F.scale x = (F.exponent x - 1 : ℕ) + F.scale 0 := by
    unfold scale
    have h0 : F.exponent 0 = 0 := by simp [exponent]
    rw [h0]
    omega
  rw [magnitude, hs, zpow_add₀ (by norm_num), zpow_natCast, steps, unit]
  push_cast
  ring

theorem value_eq_steps : F.value x = if F.negative x then -(F.steps x * F.unit) else F.steps x * F.unit := by
  rw [value, magnitude_eq_steps]

theorem fraction_withSign (neg : Bool) (y : Nat) : F.fraction (F.withSign neg y) = F.fraction y := by
  unfold fraction withSign
  rw [pow_add]
  cases neg <;> simp

theorem exponent_withSign (neg : Bool) (y : Nat) : F.exponent (F.withSign neg y) = F.exponent y := by
  unfold exponent withSign
  rw [pow_add]
  cases neg
  · simp
  · rw [if_pos rfl, Nat.mul_add_div (Nat.two_pow_pos _), Nat.add_mod_left]

theorem negative_withSign (neg : Bool) (hy : y < 2 ^ (F.fracBits + F.expBits)) :
    F.negative (F.withSign neg y) = neg := by
  unfold negative withSign
  cases neg
  · simp [Nat.div_eq_of_lt hy]
  · rw [if_pos rfl, Nat.add_div_left _ (Nat.two_pow_pos _), Nat.div_eq_of_lt hy]
    rfl

theorem steps_withSign (neg : Bool) (y : Nat) : F.steps (F.withSign neg y) = F.steps y := by
  rw [steps, significand, exponent_withSign, fraction_withSign]
  rfl

theorem isFinite_withSign (neg : Bool) (y : Nat) :
    F.isFinite (F.withSign neg y) = F.isFinite y := by
  rw [isFinite, exponent_withSign]
  rfl

/-! ## Numbers `2 ^ k` steps apart -/

section Binade

variable {k r : Nat}

/-- A significand that is rounded up to the next power of two carries into the exponent. -/
theorem fields_binade (hlt : k * 2 ^ F.fracBits + r < F.infinity) :
    F.exponent (k * 2 ^ F.fracBits + r) = k + r / 2 ^ F.fracBits ∧
      F.fraction (k * 2 ^ F.fracBits + r) = r % 2 ^ F.fracBits ∧
      F.isFinite (k * 2 ^ F.fracBits + r) = true := by
  have hpos : 0 < 2 ^ F.fracBits := Nat.two_pow_pos _
  have hdiv : (k * 2 ^ F.fracBits + r) / 2 ^ F.fracBits = k + r / 2 ^ F.fracBits := by
    rw [Nat.mul_comm, Nat.mul_add_div hpos]
  have hexp : k + r / 2 ^ F.fracBits < 2 ^ F.expBits - 1 := by
    rw [← hdiv, Nat.div_lt_iff_lt_mul hpos]
    exact hlt
  have he : F.exponent (k * 2 ^ F.fracBits + r) = k + r / 2 ^ F.fracBits := by
    rw [exponent, hdiv, Nat.mod_eq_of_lt (hexp.trans_le (Nat.sub_le _ _))]
  refine ⟨he, ?_, ?_⟩
  · rw [fraction, Nat.mul_comm, Nat.mul_add_mod]
  · rw [isFinite, he, bne_iff_ne]
    exact hexp.ne

theorem steps_binade (hr : r ≤ 2 ^ (F.fracBits + 1)) (hk : k = 0 ∨ 2 ^ F.fracBits ≤ r)
    (hlt : k * 2 ^ F.fracBits + r < F.infinity) :
    F.steps (k * 2 ^ F.fracBits + r) = r * 2 ^ k := by
  obtain ⟨he, hf, -⟩ := fields_binade hlt
  have hpos : 0 < 2 ^ F.fracBits := Nat.two_pow_pos _
  rw [Nat.pow_succ] at hr
  rw [steps, significand, he, hf]
  rcases Nat.lt_or_ge r (2 ^ F.fracBits) with h | h
  · obtain rfl : k = 0 := hk.resolve_right (by omega)
    rw [Nat.div_eq_of_lt h, Nat.mod_eq_of_lt h, if_pos rfl]
  · rcases Nat.lt_or_ge r (2 ^ F.fracBits * 2) with h2 | h2
    · have hd : r / 2 ^ F.fracBits = 1 := Nat.div_eq_of_lt_le (by omega) (by omega)
      have hm : r % 2 ^ F.fracBits = r - 2 ^ F.fracBits := by
        rw [Nat.mod_eq_sub_mod h, Nat.mod_eq_of_lt (by omega)]
      rw [hd, hm, if_neg (by omega), Nat.add_sub_cancel, Nat.add_sub_cancel' h]
    · obtain rfl : r = 2 ^ F.fracBits * 2 := by omega
      rw [Nat.mul_div_cancel_left _ hpos, Nat.mul_mod_right, if_neg (by omega), Nat.add_zero,
        show k + 2 - 1 = k + 1 by omega, Nat.pow_succ, Nat.mul_assoc, Nat.mul_comm 2]

end Binade

/-- Numbers lie on the `2 ^ k` grid, or below the numbers that are `2 ^ k` apart. -/
theorem steps_grid (z k : Nat) :
    (∃ j, F.steps z = j * 2 ^ k) ∨ F.steps z < 2 ^ F.fracBits * 2 ^ k := by
  have hsig := F.significand_lt z
  rcases Nat.lt_or_ge (F.exponent z - 1) k with h | h
  · right
    calc F.steps z < 2 ^ (F.fracBits + 1) * 2 ^ (F.exponent z - 1) :=
          Nat.mul_lt_mul_of_pos_right hsig (Nat.two_pow_pos _)
      _ = 2 ^ (F.fracBits + (F.exponent z - 1 + 1)) := by rw [← pow_add]; congr 1; omega
      _ ≤ 2 ^ (F.fracBits + k) := Nat.pow_le_pow_right (by decide) (by omega)
      _ = 2 ^ F.fracBits * 2 ^ k := pow_add ..
  · left
    refine ⟨F.significand z * 2 ^ (F.exponent z - 1 - k), ?_⟩
    rw [steps, Nat.mul_assoc, ← pow_add]
    congr 2
    omega

/-- The rounded quotient is closest among all numbers, not only among those on the grid. -/
theorem roundQuot_closest {k n d : Nat} (hd : 0 < d)
    (hlo : k = 0 ∨ 2 ^ F.fracBits * (d * 2 ^ k) ≤ n) (z : Nat) :
    |(n : ℤ) - roundQuot n (d * 2 ^ k) * (d * 2 ^ k : ℕ)| < |(n : ℤ) - F.steps z * d| ∨
      |(n : ℤ) - roundQuot n (d * 2 ^ k) * (d * 2 ^ k : ℕ)| = |(n : ℤ) - F.steps z * d| ∧
        (F.steps z = roundQuot n (d * 2 ^ k) * 2 ^ k ∨ roundQuot n (d * 2 ^ k) % 2 = 0) := by
  have hD : 0 < d * 2 ^ k := Nat.mul_pos hd (Nat.two_pow_pos k)
  have hgrid : ∀ j : Nat, F.steps z = j * 2 ^ k →
      (F.steps z : ℤ) * d = j * (d * 2 ^ k : ℕ) := by
    intro j hj
    rw [hj]
    push_cast
    ring
  by_cases hz : ∃ j, F.steps z = j * 2 ^ k
  · obtain ⟨j, hj⟩ := hz
    rw [hgrid j hj, hj]
    refine (roundQuot_nearest n hD j).imp_right fun h => ⟨h.1, h.2.imp_left fun h => by rw [h]⟩
  · have hlt := (steps_grid z k).resolve_left hz
    have hk : k ≠ 0 := by
      rintro rfl
      exact hz ⟨F.steps z, by rw [pow_zero, Nat.mul_one]⟩
    have hn := hlo.resolve_left hk
    -- `z` is below the first number of the grid, and that one below `n`
    have hbelow : F.steps z * d < 2 ^ F.fracBits * (d * 2 ^ k) := by
      calc F.steps z * d < 2 ^ F.fracBits * 2 ^ k * d := Nat.mul_lt_mul_of_pos_right hlt hd
        _ = 2 ^ F.fracBits * (d * 2 ^ k) := by ring
    have hfirst : |(n : ℤ) - (2 ^ F.fracBits : ℕ) * (d * 2 ^ k : ℕ)| < |(n : ℤ) - F.steps z * d| := by
      have h1 : ((2 ^ F.fracBits : ℕ) : ℤ) * (d * 2 ^ k : ℕ) ≤ n := by exact_mod_cast hn
      have h2 : (F.steps z : ℤ) * d < (2 ^ F.fracBits : ℕ) * (d * 2 ^ k : ℕ) := by
        exact_mod_cast hbelow
      rw [abs_of_nonneg (by linarith), abs_of_nonneg (by linarith)]
      linarith
    left
    rcases roundQuot_nearest n hD (2 ^ F.fracBits) with h | ⟨h, -⟩
    · exact h.trans hfirst
    · rw [h]
      exact hfirst

/-! ## Rounding a quotient -/

theorem infinity_lt : F.infinity < 2 ^ (F.fracBits + F.expBits) := by
  rw [infinity, pow_add, Nat.mul_comm]
  have h : 0 < 2 ^ F.expBits := Nat.two_pow_pos _
  exact Nat.mul_lt_mul_of_pos_left (by omega) (Nat.two_pow_pos _)

theorem fields_infinity : F.isFinite F.infinity = false ∧ F.fraction F.infinity = 0 := by
  have h : 0 < 2 ^ F.expBits := Nat.two_pow_pos _
  refine ⟨?_, ?_⟩
  · rw [isFinite, exponent, infinity, Nat.mul_div_cancel _ (Nat.two_pow_pos _),
      Nat.mod_eq_of_lt (by omega), bne_self_eq_false]
  · rw [fraction, infinity, Nat.mul_mod_left]

/-- Rounding the significand up to the last power of two is what overflows. -/
theorem roundQuot_lt_iff {n d m : Nat} (hd : 0 < d) (hhi : n < 2 * m * d) (hm : 0 < m) :
    roundQuot n d < 2 * m ↔ 2 * n < (4 * m - 1) * d := by
  have hn := Nat.div_add_mod n d
  have hr : n % d < d := Nat.mod_lt n hd
  have hq : n / d < 2 * m := (Nat.div_lt_iff_lt_mul hd).2 hhi
  have hle := roundQuot_le n d
  by_cases h : n / d = 2 * m - 1
  · have h4 : (4 * m - 1) * d = 2 * (d * (n / d)) + d := by
      rw [h, show 4 * m - 1 = 2 * (2 * m - 1) + 1 by omega]
      ring
    rw [h4, roundQuot]
    split_ifs <;> omega
  · have h4 : 2 * (d * (n / d)) + 2 * d ≤ (4 * m - 1) * d := by
      calc 2 * (d * (n / d)) + 2 * d = 2 * (n / d + 1) * d := by ring
        _ ≤ (4 * m - 1) * d := Nat.mul_le_mul_right d (by omega)
    constructor
    · intro _
      omega
    · intro _
      omega

section Quot

variable {k n d : Nat}

theorem le_roundQuot (hd : 0 < d) (hlo : k = 0 ∨ 2 ^ F.fracBits * (d * 2 ^ k) ≤ n) :
    k = 0 ∨ 2 ^ F.fracBits ≤ roundQuot n (d * 2 ^ k) := by
  have hD : 0 < d * 2 ^ k := Nat.mul_pos hd (Nat.two_pow_pos k)
  exact hlo.imp_right fun h =>
    ((Nat.le_div_iff_mul_le hD).2 h).trans (div_le_roundQuot n _)

theorem roundQuot_le_pow (hd : 0 < d) (hhi : n < 2 ^ (F.fracBits + 1) * (d * 2 ^ k)) :
    roundQuot n (d * 2 ^ k) ≤ 2 ^ (F.fracBits + 1) := by
  have hD : 0 < d * 2 ^ k := Nat.mul_pos hd (Nat.two_pow_pos k)
  have hq := (Nat.div_lt_iff_lt_mul hD).2 hhi
  have hle := roundQuot_le n (d * 2 ^ k)
  omega

/-- The pattern stays below infinity exactly below half a last place above the greatest
    number. -/
theorem lt_infinity_iff (he : 2 ≤ F.expBits) (hd : 0 < d)
    (hlo : k = 0 ∨ 2 ^ F.fracBits * (d * 2 ^ k) ≤ n)
    (hhi : n < 2 ^ (F.fracBits + 1) * (d * 2 ^ k)) :
    k * 2 ^ F.fracBits + roundQuot n (d * 2 ^ k) < F.infinity ↔
      2 * n < (2 ^ (F.fracBits + 2) - 1) * (d * 2 ^ (2 ^ F.expBits - 3)) := by
  have hE : 2 ^ 2 ≤ 2 ^ F.expBits := Nat.pow_le_pow_right (by decide) he
  have hP : 0 < 2 ^ F.fracBits := Nat.two_pow_pos _
  have hle := roundQuot_le_pow hd hhi
  have hge := le_roundQuot hd hlo
  rw [Nat.pow_succ] at hle hhi
  obtain ⟨t, ht⟩ : ∃ t, 2 ^ F.expBits = t + 3 := ⟨2 ^ F.expBits - 3, by omega⟩
  have hinf : F.infinity = (t + 2) * 2 ^ F.fracBits := by rw [infinity, ht]; rfl
  have h4 : 2 ^ (F.fracBits + 2) = 4 * 2 ^ F.fracBits := by ring
  rw [hinf, h4, ht, Nat.add_sub_cancel]
  generalize hPe : 2 ^ F.fracBits = m at *
  rcases lt_trichotomy k t with h | h | h
  · -- below the last binade
    have hy : k * m + roundQuot n (d * 2 ^ k) < (t + 2) * m := by
      have : (k + 2) * m < (t + 2) * m := Nat.mul_lt_mul_of_pos_right (by omega) hP
      have : (k + 2) * m = k * m + m * 2 := by ring
      omega
    have hpow : d * 2 ^ k * 2 ≤ d * 2 ^ t := by
      rw [Nat.mul_assoc, ← Nat.pow_succ]
      exact Nat.mul_le_mul_left d (Nat.pow_le_pow_right (by decide) h)
    refine ⟨fun _ => ?_, fun _ => hy⟩
    calc 2 * n < 2 * (m * 2 * (d * 2 ^ k)) := by omega
      _ = 2 * m * (d * 2 ^ k * 2) := by ring
      _ ≤ 2 * m * (d * 2 ^ t) := Nat.mul_le_mul_left _ hpow
      _ ≤ (4 * m - 1) * (d * 2 ^ t) := Nat.mul_le_mul_right _ (by omega)
  · subst h
    have hD : 0 < d * 2 ^ k := Nat.mul_pos hd (Nat.two_pow_pos k)
    rw [← roundQuot_lt_iff hD (by rw [Nat.mul_comm 2]; exact hhi) hP, Nat.add_mul]
    omega
  · have hk : k ≠ 0 := by omega
    have hge := hge.resolve_left hk
    have hn := hlo.resolve_left hk
    have hy : (t + 2) * m ≤ k * m + roundQuot n (d * 2 ^ k) := by
      have : (t + 1) * m ≤ k * m := Nat.mul_le_mul_right m h
      have : (t + 2) * m = (t + 1) * m + m := by ring
      omega
    have hpow : d * 2 ^ t * 2 ≤ d * 2 ^ k := by
      rw [Nat.mul_assoc, ← Nat.pow_succ]
      exact Nat.mul_le_mul_left d (Nat.pow_le_pow_right (by decide) h)
    refine ⟨fun hc => absurd hc (by omega), fun hc => absurd hc (Nat.not_lt.2 ?_)⟩
    calc (4 * m - 1) * (d * 2 ^ t) ≤ 4 * m * (d * 2 ^ t) := Nat.mul_le_mul_right _ (by omega)
      _ = 2 * (m * (d * 2 ^ t * 2)) := by ring
      _ ≤ 2 * (m * (d * 2 ^ k)) := by gcongr
      _ ≤ 2 * n := by omega

end Quot

/-- The distance of two signed quotients over the same denominator. -/
theorem abs_sub_signed (neg neg' : Bool) (n : Nat) {d : Nat} (hd : 0 < d) (s : Nat) :
    |signedQuot neg n d * F.unit - (if neg' then -(s * F.unit) else s * F.unit)| =
      F.unit / d * ((|(n : ℤ) - (if neg' = neg then (s : ℤ) else -s) * d| : ℤ) : ℚ) := by
  have hd' : (d : ℚ) ≠ 0 := by positivity
  have hu : (0 : ℚ) ≤ F.unit / d := div_nonneg F.unit_pos.le (Nat.cast_nonneg d)
  have hself : ∀ t : ℚ, |(n : ℚ) / d * F.unit - t * F.unit| = F.unit / d * |(n : ℚ) - t * d| := by
    intro t
    have h : (n : ℚ) / d * F.unit - t * F.unit = F.unit / d * (n - t * d) := by
      field_simp
    rw [h, abs_mul, abs_of_nonneg hu]
  rw [Int.cast_abs]
  push_cast
  cases neg <;> cases neg' <;> simp only [signedQuot, if_true, if_false, Bool.false_eq_true,
    reduceCtorEq, neg_mul]
  · exact hself s
  · rw [← neg_mul (s : ℚ), hself (-s), neg_mul]
  · rw [show -((n : ℚ) / d * F.unit) - s * F.unit = -((n : ℚ) / d * F.unit - -s * F.unit) by ring,
      abs_neg, hself (-s), neg_mul]
  · rw [show -((n : ℚ) / d * F.unit) - -(s * F.unit) = -((n : ℚ) / d * F.unit - s * F.unit) by ring,
      abs_neg, hself s]

theorem abs_signed (neg : Bool) (n d : Nat) :
    |signedQuot neg n d * F.unit| = (n : ℚ) / d * F.unit := by
  have h : (0 : ℚ) ≤ (n : ℚ) / d * F.unit := mul_nonneg (by positivity) F.unit_pos.le
  cases neg
  · exact abs_of_nonneg h
  · rw [signedQuot, if_pos rfl, neg_mul, abs_neg, abs_of_nonneg h]

theorem overflow_iff (n : Nat) {d : Nat} (hd : 0 < d) :
    (n : ℚ) / d * F.unit < F.overflow ↔
      2 * n < (2 ^ (F.fracBits + 2) - 1) * (d * 2 ^ (2 ^ F.expBits - 3)) := by
  have hd' : (0 : ℚ) < d := by exact_mod_cast hd
  rw [overflow, mul_lt_mul_iff_left₀ F.unit_pos, div_lt_iff₀ hd']
  generalize 2 ^ (F.fracBits + 2) - 1 = m
  generalize 2 ^ F.expBits - 3 = t
  rw [← Nat.cast_lt (α := ℚ)]
  push_cast
  constructor
  · intro h
    linarith
  · intro h
    linarith

/-- A quotient is rounded by rounding it to a whole number of `2 ^ k` steps, where numbers of
    its size are `2 ^ k` steps apart. -/
theorem rounds_quot (hp : 1 ≤ F.fracBits) (he : 2 ≤ F.expBits) {k n d : Nat} (hd : 0 < d)
    (hlo : k = 0 ∨ 2 ^ F.fracBits * (d * 2 ^ k) ≤ n)
    (hhi : n < 2 ^ (F.fracBits + 1) * (d * 2 ^ k)) (neg : Bool) :
    F.Rounds (signedQuot neg n d * F.unit)
      (F.withSign neg (min (k * 2 ^ F.fracBits + roundQuot n (d * 2 ^ k)) F.infinity)) := by
  have hinf := F.infinity_lt
  have hlt := lt_infinity_iff he hd hlo hhi
  rw [← overflow_iff n hd] at hlt
  refine ⟨fun hv => ?_, fun hv => ?_, fun hv => ?_⟩
  · rw [negative_withSign neg (lt_of_le_of_lt (min_le_right _ _) hinf)]
    have hn : (0 : ℚ) < (n : ℚ) / d * F.unit := by
      refine lt_of_le_of_ne (mul_nonneg (by positivity) F.unit_pos.le) fun h => hv ?_
      rw [← abs_eq_zero, abs_signed, ← h]
    cases neg
    · exact (decide_eq_false (not_lt.2 hn.le)).symm
    · rw [signedQuot, if_pos rfl, neg_mul]
      exact (decide_eq_true (neg_lt_zero.2 hn)).symm
  · rw [abs_signed] at hv
    have hy := hlt.2 hv
    have hr := roundQuot_le_pow hd hhi
    have hk := le_roundQuot hd hlo
    obtain ⟨-, hfrac, hfin⟩ := fields_binade hy
    have hsteps := steps_binade hr hk hy
    rw [min_eq_left hy.le]
    refine ⟨by rw [isFinite_withSign, hfin], fun z hz => ?_⟩
    have hparity : F.fraction (F.withSign neg (k * 2 ^ F.fracBits + roundQuot n (d * 2 ^ k))) % 2 =
        roundQuot n (d * 2 ^ k) % 2 := by
      rw [fraction_withSign, hfrac]
      exact Nat.mod_mod_of_dvd _ (dvd_pow_self 2 (by omega))
    have hval : F.value (F.withSign neg (k * 2 ^ F.fracBits + roundQuot n (d * 2 ^ k))) =
        if neg then -((roundQuot n (d * 2 ^ k) * 2 ^ k : ℕ) * F.unit)
        else (roundQuot n (d * 2 ^ k) * 2 ^ k : ℕ) * F.unit := by
      rw [value_eq_steps, negative_withSign neg (hy.trans hinf), steps_withSign, hsteps]
    -- the distances, as whole multiples of `unit / d`
    have hu : (0 : ℚ) < F.unit / d := div_pos F.unit_pos (by exact_mod_cast hd)
    have hdy : ((roundQuot n (d * 2 ^ k) * 2 ^ k : ℕ) : ℤ) * d =
        roundQuot n (d * 2 ^ k) * (d * 2 ^ k : ℕ) := by
      push_cast
      ring
    rw [hparity, hval, value_eq_steps, abs_sub_signed neg neg n hd, abs_sub_signed neg _ n hd,
      mul_lt_mul_iff_right₀ hu, mul_right_inj' hu.ne', Int.cast_lt, Int.cast_inj, if_pos rfl, hdy]
    by_cases hneg : F.negative z = neg
    · rw [if_pos hneg, hneg]
      refine (roundQuot_closest hd hlo z).imp_right fun h => ⟨h.1, h.2.imp_left fun h => by rw [h]⟩
    · -- on the other side of zero: no closer than zero itself
      have h0 := roundQuot_closest hd hlo (F := F) 0
      have hz0 : F.steps 0 = 0 := by
        rw [steps, significand, fraction, exponent]
        simp
      rw [hz0, Nat.cast_zero, zero_mul, sub_zero, abs_of_nonneg (Int.natCast_nonneg n)] at h0
      have hopp : |(n : ℤ) - -(F.steps z : ℤ) * d| = n + F.steps z * d := by
        rw [neg_mul, sub_neg_eq_add, abs_of_nonneg (by positivity)]
      rw [if_neg hneg, hopp]
      rcases Nat.eq_zero_or_pos (F.steps z) with hs | hs
      · rw [hs, Nat.cast_zero, zero_mul, add_zero]
        refine h0.imp_right fun h => ⟨h.1, h.2.imp_left fun h => ?_⟩
        rw [← h]
        simp
      · left
        have hpos : (0 : ℤ) < F.steps z * d := by positivity
        rcases h0 with h | ⟨h, -⟩ <;> linarith
  · rw [abs_signed] at hv
    have hy : F.infinity ≤ k * 2 ^ F.fracBits + roundQuot n (d * 2 ^ k) :=
      Nat.not_lt.1 fun h => absurd (hlt.1 h) (not_lt.2 hv)
    rw [min_eq_right hy, isFinite_withSign, fraction_withSign]
    exact fields_infinity

end Format

end Ieee
