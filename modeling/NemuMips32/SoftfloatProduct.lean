/-
  Multiplication and division (`float32_mul`, `float32_div` and their 64-bit copies) with the
  zeroed status. The significands are normalized, subnormal ones with an exponent below 1, and
  their product or quotient is rounded once.

  What differs between the widths is the machine arithmetic: how a product is reduced to its high
  word (`mulHigh`) and how the quotient is found (`quotient`). The proofs here take either by what
  it computes: the high word with a sticky bit, and a word that stands for the quotient.
-/
import NemuMips32.SoftfloatSum

namespace NemuMips32

namespace Softfloat

open Ieee (Format Stands jam)

section Format

variable {F : Format} {a b : Nat}

/-! ## Normalized significands -/

theorem or_two_pow_self {x k : Nat} (h : 2 ^ k ≤ x) (h' : x < 2 ^ (k + 1)) : x ||| 2 ^ k = x := by
  have hlt : x - 2 ^ k < 2 ^ k := by
    rw [Nat.pow_succ] at h'
    omega
  have hx : x = (x - 2 ^ k) ||| 2 ^ k := by
    rw [or_two_pow hlt]
    omega
  rw [hx, Nat.or_assoc, Nat.or_self]

/-- A number other than zero, normalized. -/
theorem normalized_spec (hF : Usable F) (ha : F.steps a ≠ 0) :
    2 ^ F.fracBits ≤ (normalized F (F.fraction a) (F.exponent a)).1 ||| 2 ^ F.fracBits ∧
      (normalized F (F.fraction a) (F.exponent a)).1 ||| 2 ^ F.fracBits < 2 ^ (F.fracBits + 1) ∧
      -100 ≤ (normalized F (F.fraction a) (F.exponent a)).2 ∧
      (normalized F (F.fraction a) (F.exponent a)).2 < 2 ^ 14 ∧
      (F.steps a : ℚ) =
        ((normalized F (F.fraction a) (F.exponent a)).1 ||| 2 ^ F.fracBits : ℕ) *
          2 ^ ((normalized F (F.fraction a) (F.exponent a)).2 - 1) := by
  have hlt := F.fraction_lt a
  have hexp := exponent_lt a hF
  unfold normalized
  by_cases h0 : F.exponent a = 0
  · -- a subnormal number
    have hsteps : F.steps a = F.fraction a := by
      rw [Format.steps, significand_of_eq h0, h0]
      exact Nat.mul_one _
    have hwidth : width F - F.expBits = F.fracBits + 1 := by
      unfold width
      omega
    have hge := hF.exp_ge
    have hle := hF.exp_le
    have hfrac := hF.frac_le
    have hbounds := normalize_bounds (w := width F) (k := F.expBits) (by unfold width; omega)
      (hsteps ▸ ha) (by rw [hwidth, Nat.pow_succ]; omega)
    rw [hwidth, show width F - 1 - F.expBits = F.fracBits by unfold width; omega] at hbounds
    have hclz : countLeadingZeros (width F) (F.fraction a) ≤ width F := by
      unfold countLeadingZeros
      split_ifs <;> omega
    rw [if_pos h0, normalizeSubnormal]
    simp only []
    rw [or_two_pow_self hbounds.1 hbounds.2]
    refine ⟨hbounds.1, hbounds.2, ?_, by omega, ?_⟩
    · have hw : width F ≤ 79 := by
        unfold width
        omega
      omega
    · rw [hsteps, Nat.shiftLeft_eq]
      generalize countLeadingZeros (width F) (F.fraction a) - F.expBits = s
      rw [show (1 : ℤ) - s - 1 = -s by ring, zpow_neg, zpow_natCast]
      push_cast
      field_simp
  · rw [if_neg h0]
    simp only []
    rw [or_two_pow hlt]
    refine ⟨by omega, by rw [Nat.pow_succ]; omega, by omega, by omega, ?_⟩
    have hcast : (F.exponent a : ℤ) - 1 = (F.exponent a - 1 : ℕ) := by omega
    rw [Format.steps, significand_of_ne h0, Nat.add_comm, hcast, zpow_natCast]
    push_cast
    rfl

theorem unit_eq : F.unit = 2 ^ ((1 : ℤ) - bias F - F.fracBits) := by
  have h0 : F.exponent 0 = 0 := by simp [Format.exponent]
  have hone : 1 ≤ 2 ^ (F.expBits - 1) := Nat.one_le_two_pow
  have hcast : ((2 ^ (F.expBits - 1) - 1 : ℕ) : ℤ) = 2 ^ (F.expBits - 1) - 1 := by
    push_cast [hone]
    rfl
  rw [Format.unit, Format.scale, h0]
  congr 1
  unfold bias
  rw [hcast]
  simp
  ring

theorem value_mul : F.value a * F.value b =
    signedSteps F (F.negative a ^^ F.negative b) ((F.steps a : ℚ) * F.steps b * F.unit) := by
  rw [value_eq_signedSteps, value_eq_signedSteps]
  cases F.negative a <;> cases F.negative b <;> simp [signedSteps] <;> ring

theorem value_div : F.value a / F.value b =
    signedSteps F (F.negative a ^^ F.negative b) ((F.steps a : ℚ) / F.steps b / F.unit) := by
  have hu : F.unit ≠ 0 := Format.unit_pos.ne'
  rw [value_eq_signedSteps, value_eq_signedSteps]
  cases F.negative a <;> cases F.negative b <;> simp [signedSteps] <;> field_simp

/-! ## The product of significands -/

/-- `mulHigh` is the high word of a product, with a sticky bit. -/
def IsMulHigh (F : Format) (mulHigh : Nat → Nat → Nat) : Prop :=
  ∀ x y, x < 2 ^ width F → y < 2 ^ width F → mulHigh x y = jam (x * y) (2 ^ width F)

theorem shifted_bounds {x s : Nat} (hx : 2 ^ F.fracBits ≤ x) (hx' : x < 2 ^ (F.fracBits + 1)) :
    2 ^ (F.fracBits + s) ≤ x <<< s ∧ x <<< s < 2 ^ (F.fracBits + s + 1) := by
  rw [Nat.shiftLeft_eq, Nat.add_right_comm, Nat.pow_add, Nat.pow_add _ (F.fracBits + 1)]
  exact ⟨Nat.mul_le_mul_right _ hx, Nat.mul_lt_mul_of_pos_right hx' (Nat.two_pow_pos s)⟩

/-- The product of two normalized significands. -/
theorem mulSigs_rounds (hF : Usable F) {mulHigh : Nat → Nat → Nat} (hmul : IsMulHigh F mulHigh)
    (neg : Bool) {x y : Nat} {i j : ℤ} (hx : 2 ^ F.fracBits ≤ x) (hx' : x < 2 ^ (F.fracBits + 1))
    (hy : 2 ^ F.fracBits ≤ y) (hy' : y < 2 ^ (F.fracBits + 1)) (hi : -100 ≤ i) (hi' : i < 2 ^ 14)
    (hj : -100 ≤ j) (hj' : j < 2 ^ 14) :
    F.Rounds (signedSteps F neg (x * 2 ^ (i - 1) * (y * 2 ^ (j - 1)) * F.unit))
      (if mulHigh (x <<< guardBits F) (y <<< (guardBits F + 1)) * 2 % 2 ^ width F <
          2 ^ (width F - 1) then
        roundAndPackFloat F default neg (i + j - bias F - 1)
          (mulHigh (x <<< guardBits F) (y <<< (guardBits F + 1)) * 2 % 2 ^ width F)
      else roundAndPackFloat F default neg (i + j - bias F)
        (mulHigh (x <<< guardBits F) (y <<< (guardBits F + 1)))) := by
  have hge := hF.exp_ge
  have hbias : bias F < 2 ^ 13 := by
    have : 2 ^ (F.expBits - 1) ≤ 2 ^ 13 :=
      Nat.pow_le_pow_right (by decide) (by have := hF.exp_le; omega)
    unfold bias
    omega
  have hw := width_eq hF
  obtain ⟨ha, ha'⟩ := shifted_bounds (s := guardBits F) hx hx'
  obtain ⟨hb, hb'⟩ := shifted_bounds (s := guardBits F + 1) hy hy'
  have hword : x <<< guardBits F < 2 ^ width F :=
    lt_of_lt_of_le ha' (Nat.pow_le_pow_right (by decide) (by omega))
  have hword' : y <<< (guardBits F + 1) < 2 ^ width F :=
    lt_of_lt_of_le hb' (Nat.pow_le_pow_right (by decide) (by omega))
  have hz := hmul _ _ hword hword'
  -- the high word has one or two places before the binary point
  have hbound : ∀ k, 2 * 2 ^ k ≤ mulHigh (x <<< guardBits F) (y <<< (guardBits F + 1)) ↔
      2 ^ width F * (2 * 2 ^ k) ≤ x <<< guardBits F * y <<< (guardBits F + 1) := by
    intro k
    rw [hz]
    exact (Ieee.stands_jam _ (Nat.two_pow_pos _) (dvd_refl 2)).le_iff Nat.two_pos
      (Nat.two_pow_pos _) _
  have hlow : 2 ^ (F.fracBits + guardBits F - 1) ≤
      mulHigh (x <<< guardBits F) (y <<< (guardBits F + 1)) := by
    have hsplit : 2 ^ (F.fracBits + guardBits F - 1) =
        2 * 2 ^ (F.fracBits + guardBits F - 2) := by
      rw [← Nat.pow_succ']
      congr 1
      have := hF.frac_ge
      unfold guardBits
      omega
    rw [hsplit, hbound, ← hsplit]
    calc 2 ^ width F * 2 ^ (F.fracBits + guardBits F - 1)
        = 2 ^ (F.fracBits + guardBits F) * 2 ^ (F.fracBits + (guardBits F + 1)) := by
          rw [← Nat.pow_add, ← Nat.pow_add]
          congr 1
          have := hF.frac_ge
          omega
      _ ≤ _ := Nat.mul_le_mul ha hb
  have hhigh : mulHigh (x <<< guardBits F) (y <<< (guardBits F + 1)) <
      2 ^ (F.fracBits + guardBits F + 1) := by
    rw [← Nat.not_le, Nat.pow_succ', hbound, Nat.not_le, ← Nat.pow_succ']
    calc x <<< guardBits F * y <<< (guardBits F + 1)
        < 2 ^ (F.fracBits + guardBits F + 1) * 2 ^ (F.fracBits + (guardBits F + 1) + 1) :=
          Nat.mul_lt_mul_of_lt_of_le ha' hb'.le (Nat.two_pow_pos _)
      _ = _ := by
          rw [hw, Nat.mul_comm]
          rfl
  refine onePlace_rounds hF neg (by omega) (by omega) (Nat.two_pow_pos _) hz hlow hhigh ?_
  have hpow : (2 : ℚ) ^ guardBits F * 2 ^ (guardBits F + 1) / 2 ^ width F *
      2 ^ (i + j - bias F - guardBits F) = 2 ^ (i - 1) * 2 ^ (j - 1) * F.unit := by
    rw [unit_eq, ← pow_add, ← zpow_natCast, ← zpow_natCast, ← zpow_sub₀ (by norm_num),
      ← zpow_add₀ (by norm_num), ← zpow_add₀ (by norm_num), ← zpow_add₀ (by norm_num), hw]
    congr 1
    push_cast
    ring
  rw [Nat.shiftLeft_eq, Nat.shiftLeft_eq]
  push_cast
  linear_combination (x : ℚ) * y * hpow

theorem isFinite_false_iff : F.isFinite a = false ↔ F.exponent a = maxExp F := by
  rw [← Bool.not_eq_true, isFinite_iff, not_not]

theorem steps_of_isZero (h : F.exponent a = 0 ∧ F.fraction a = 0) : F.steps a = 0 :=
  beq_iff_eq.1 (Format.isZero_iff.2 h)

theorem steps_ne_zero (h : ¬ (F.exponent a = 0 ∧ F.fraction a = 0)) : F.steps a ≠ 0 :=
  fun h0 => h (Format.isZero_iff.1 (beq_iff_eq.2 h0))

theorem not_zero_of_infinite (hF : Usable F) (h : F.exponent a = maxExp F) :
    F.isZero a = false := by
  have hmax := maxExp_lt hF
  rw [← Bool.not_eq_true, Format.isZero_iff]
  rintro ⟨h0, -⟩
  omega

/-- A zero of either sign is the exact zero. -/
theorem delivers_zero (hF : Usable F) (neg : Bool) :
    F.Delivers (.number 0 neg) (packFloat F neg 0 0) := by
  refine ⟨?_, fun _ => packFloat_zero neg⟩
  have h := subnormal_rounds hF neg (Nat.two_pow_pos (F.fracBits + 1))
  have hz : signedSteps F neg ((0 : ℕ) : ℚ) = 0 := by
    cases neg <;> simp [signedSteps]
  rw [hz] at h
  exact h

/-- The number `q` of sign `neg`, which is not zero. -/
theorem delivers_rounds {neg zeroNeg : Bool} {q : ℚ} {z : Nat} (hq : q ≠ 0)
    (h : F.Rounds (signedSteps F neg q) z) : F.Delivers (.number (signedSteps F neg q) zeroNeg) z := by
  refine ⟨h, fun h0 => absurd h0 ?_⟩
  have hu : F.unit ≠ 0 := Format.unit_pos.ne'
  cases neg
  · exact mul_ne_zero hq hu
  · exact neg_ne_zero.2 (mul_ne_zero hq hu)

theorem floatMul_delivers (hF : Usable F) {mulHigh : Nat → Nat → Nat} (hmul : IsMulHigh F mulHigh)
    (ha : a < 2 ^ width F) (hb : b < 2 ^ width F) (hna : F.isNaN a = false)
    (hnb : F.isNaN b = false) : F.Delivers (F.product a b) (floatMul F default mulHigh a b) := by
  have hsq : ∀ c, squashInputDenormal F default c = c := fun _ => rfl
  unfold floatMul Format.product
  simp only [hsq]
  by_cases hae : F.exponent a = maxExp F
  · -- the first operand is infinite
    obtain ⟨haz, -⟩ := eq_infinity ha hae hna
    have hfin : ¬ (F.isFinite a && F.isFinite b) = true := by
      simp [isFinite_false_iff.2 hae]
    have hnan : ¬ (F.fraction a ≠ 0 ∨ (F.exponent b = maxExp F ∧ F.fraction b ≠ 0)) := by
      rintro (h | h)
      · exact h haz
      · exact h.2 (eq_infinity hb h.1 hnb).1
    have hcond : (F.isZero a || F.isZero b) = true ↔ F.exponent b ||| F.fraction b = 0 := by
      rw [not_zero_of_infinite hF hae, Bool.false_or, Format.isZero_iff, Nat.or_eq_zero_iff]
    rw [if_neg hfin, if_pos hae, if_neg hnan]
    by_cases hz : F.exponent b ||| F.fraction b = 0
    · rw [if_pos (hcond.2 hz), if_pos hz]
      exact isNaN_defaultNan hF
    · rw [if_neg (fun h => hz (hcond.1 h)), if_neg hz]
      exact packFloat_infinity _
  have hfa := (isFinite_iff a).2 hae
  rw [if_neg hae]
  by_cases hbe : F.exponent b = maxExp F
  · obtain ⟨hbz, -⟩ := eq_infinity hb hbe hnb
    have hfin : ¬ (F.isFinite a && F.isFinite b) = true := by
      simp [isFinite_false_iff.2 hbe]
    have hnan : ¬ F.fraction b ≠ 0 := not_not.2 hbz
    have hcond : (F.isZero a || F.isZero b) = true ↔ F.exponent a ||| F.fraction a = 0 := by
      rw [not_zero_of_infinite hF hbe, Bool.or_false, Format.isZero_iff, Nat.or_eq_zero_iff]
    rw [if_neg hfin, if_pos hbe, if_neg hnan]
    by_cases hz : F.exponent a ||| F.fraction a = 0
    · rw [if_pos (hcond.2 hz), if_pos hz]
      exact isNaN_defaultNan hF
    · rw [if_neg (fun h => hz (hcond.1 h)), if_neg hz]
      exact packFloat_infinity _
  have hfb := (isFinite_iff b).2 hbe
  rw [if_neg hbe, if_pos (by simp [hfa, hfb]), value_mul]
  have hzero : ∀ q : ℚ, q = 0 → signedSteps F (F.negative a ^^ F.negative b) q = 0 := by
    rintro q rfl
    cases F.negative a ^^ F.negative b <;> simp [signedSteps]
  by_cases haz : F.exponent a = 0 ∧ F.fraction a = 0
  · rw [if_pos haz, steps_of_isZero haz, hzero _ (by simp)]
    exact delivers_zero hF _
  rw [if_neg haz]
  by_cases hbz : F.exponent b = 0 ∧ F.fraction b = 0
  · rw [if_pos hbz, steps_of_isZero hbz, hzero _ (by simp)]
    exact delivers_zero hF _
  rw [if_neg hbz]
  have hsa := steps_ne_zero haz
  have hsb := steps_ne_zero hbz
  obtain ⟨h1, h2, h3, h4, h5⟩ := normalized_spec hF hsa
  obtain ⟨g1, g2, g3, g4, g5⟩ := normalized_spec hF hsb
  have hq : (F.steps a : ℚ) * F.steps b * F.unit ≠ 0 :=
    mul_ne_zero (mul_ne_zero (by exact_mod_cast hsa) (by exact_mod_cast hsb)) Format.unit_pos.ne'
  refine delivers_rounds hq ?_
  rw [h5, g5]
  exact mulSigs_rounds hF hmul _ h1 h2 g1 g2 h3 h4 g3 g4

/-! ## The quotient -/

/-- `quotient` finds a word that stands for the quotient of a significand, shifted left by a word,
    and another one, where that is between one quarter and one half. -/
def IsQuotient (F : Format) (quotient : Nat → Nat → Option Nat) : Prop :=
  ∀ x y, 2 ^ (width F - 1) ≤ y → y < 2 ^ width F → y ≤ 4 * x → 2 * x < y →
    ∃ z, quotient x y = some z ∧ Stands (2 ^ (guardBits F - 1)) z (x * 2 ^ width F) y

/-- The end of the division: `x / y` is between one quarter and one half. -/
theorem quotient_rounds (hF : Usable F) {quotient : Nat → Nat → Option Nat}
    (hdiv : IsQuotient F quotient) (neg : Bool) {zExp : ℤ} (hlo : -2 ^ 15 ≤ zExp)
    (hhi : zExp < 2 ^ 15) {x y : Nat} (hy : 2 ^ (width F - 1) ≤ y) (hy' : y < 2 ^ width F)
    (hxy : y ≤ 4 * x) (hxy' : 2 * x < y) {q : ℚ}
    (hq : (x : ℚ) / y * 2 ^ (zExp + F.fracBits + 2) = q) :
    ∃ z, (quotient x y).map (roundAndPackFloat F default neg zExp) = some z ∧
      F.Rounds (signedSteps F neg q) z := by
  obtain ⟨z, hz, hs⟩ := hdiv x y hy hy' hxy hxy'
  have hw := width_eq hF
  have hy0 : 0 < y := lt_of_lt_of_le (Nat.two_pow_pos _) hy
  have hle := hs.le_iff (Nat.two_pow_pos _) hy0
  have hsplit : ∀ k, 2 ^ (F.fracBits + guardBits F + k) =
      2 ^ (guardBits F - 1) * 2 ^ (F.fracBits + 1 + k) := by
    intro k
    rw [← Nat.pow_add]
    congr 1
    have := hF.exp_ge
    unfold guardBits
    omega
  have hpow : 2 ^ width F = 2 ^ (F.fracBits + guardBits F) * 4 := by
    rw [hw, Nat.pow_add]
  have hlow : 2 ^ (F.fracBits + guardBits F) ≤ z := by
    have h := (hle (2 ^ (F.fracBits + 1 + 0))).2
    rw [← hsplit] at h
    refine h ?_
    rw [hpow, Nat.add_zero]
    calc y * 2 ^ (F.fracBits + guardBits F) ≤ 4 * x * 2 ^ (F.fracBits + guardBits F) :=
          Nat.mul_le_mul_right _ hxy
      _ = _ := by ring
  have hhigh : z < 2 ^ (F.fracBits + guardBits F + 1) := by
    have h := (hle (2 ^ (F.fracBits + 1 + 1))).1
    rw [← hsplit] at h
    rw [← Nat.not_le]
    refine fun hc => absurd (h hc) (Nat.not_le.2 ?_)
    rw [hpow, Nat.pow_succ]
    calc x * (2 ^ (F.fracBits + guardBits F) * 4) = 2 * x * (2 ^ (F.fracBits + guardBits F) * 2) := by
          ring
      _ < y * (2 ^ (F.fracBits + guardBits F) * 2) :=
          Nat.mul_lt_mul_of_pos_right hxy' (Nat.mul_pos (Nat.two_pow_pos _) Nat.two_pos)
  refine ⟨_, by rw [hz, Option.map_some], ?_⟩
  refine roundAndPackFloat_rounds hF neg hlo hhi hlow hhigh hy0 hs ?_
  have hexp : (2 : ℚ) ^ width F * 2 ^ (zExp - guardBits F) = 2 ^ (zExp + F.fracBits + 2) := by
    rw [← zpow_natCast, ← zpow_add₀ (by norm_num), hw]
    congr 1
    push_cast
    ring
  rw [← hq, ← hexp]
  push_cast
  ring

/-- The quotient of two normalized significands. -/
theorem divSigs_rounds (hF : Usable F) {quotient : Nat → Nat → Option Nat}
    (hdiv : IsQuotient F quotient) (neg : Bool) {x y : Nat} {i j : ℤ} (hx : 2 ^ F.fracBits ≤ x)
    (hx' : x < 2 ^ (F.fracBits + 1)) (hy : 2 ^ F.fracBits ≤ y) (hy' : y < 2 ^ (F.fracBits + 1))
    (hi : -100 ≤ i) (hi' : i < 2 ^ 14) (hj : -100 ≤ j) (hj' : j < 2 ^ 14) :
    ∃ z, (if y <<< (guardBits F + 1) ≤ x <<< guardBits F + x <<< guardBits F then
        (quotient (x <<< guardBits F >>> 1) (y <<< (guardBits F + 1))).map
          (roundAndPackFloat F default neg (i - j + (bias F - 2) + 1))
      else (quotient (x <<< guardBits F) (y <<< (guardBits F + 1))).map
        (roundAndPackFloat F default neg (i - j + (bias F - 2)))) = some z ∧
      F.Rounds (signedSteps F neg (x * 2 ^ (i - 1) / (y * 2 ^ (j - 1)) / F.unit)) z := by
  have hge := hF.exp_ge
  have hbias : bias F < 2 ^ 13 := by
    have : 2 ^ (F.expBits - 1) ≤ 2 ^ 13 :=
      Nat.pow_le_pow_right (by decide) (by have := hF.exp_le; omega)
    unfold bias
    omega
  have hw := width_eq hF
  have hw1 := width_sub_one hF
  obtain ⟨ha, ha'⟩ := shifted_bounds (s := guardBits F) hx hx'
  obtain ⟨hb, hb'⟩ := shifted_bounds (s := guardBits F + 1) hy hy'
  rw [← Nat.add_assoc, ← hw1] at hb
  rw [show F.fracBits + (guardBits F + 1) + 1 = width F by omega] at hb'
  have hpos : 0 < 2 ^ (F.fracBits + guardBits F) := Nat.two_pow_pos _
  have htop : 2 ^ width F = 2 ^ (F.fracBits + guardBits F) * 4 := by rw [hw, Nat.pow_add]
  have htop1 : 2 ^ (width F - 1) = 2 ^ (F.fracBits + guardBits F) * 2 := by rw [hw1, Nat.pow_succ]
  rw [Nat.pow_succ] at ha'
  have hunit : ∀ k : ℤ, (x <<< guardBits F : ℕ) / (y <<< (guardBits F + 1) : ℕ) *
      2 ^ (i - j + (bias F - 2) + k + F.fracBits + 2) =
        (x * 2 ^ (i - 1) / (y * 2 ^ (j - 1)) / F.unit * 2 ^ k : ℚ) := by
    intro k
    have hy0 : (y : ℚ) ≠ 0 := by
      have := Nat.two_pow_pos F.fracBits
      exact_mod_cast (by omega : y ≠ 0)
    have hpow : (2 : ℚ) ^ (i - j + (bias F - 2) + k + F.fracBits + 2) * (2 ^ (j - 1) * F.unit) =
        2 * (2 ^ (i - 1) * 2 ^ k) := by
      rw [unit_eq, ← zpow_add₀ (by norm_num), ← zpow_add₀ (by norm_num),
        ← zpow_add₀ (by norm_num), ← zpow_one_add₀ (by norm_num)]
      congr 1
      ring
    have hu : F.unit ≠ 0 := Format.unit_pos.ne'
    rw [Nat.shiftLeft_eq, Nat.shiftLeft_eq, Nat.pow_succ]
    push_cast
    field_simp
    linear_combination (x : ℚ) * hpow
  by_cases hc : y <<< (guardBits F + 1) ≤ x <<< guardBits F + x <<< guardBits F
  · -- the first significand is halved, which is exact
    have heven : x <<< guardBits F >>> 1 * 2 = x <<< guardBits F := by
      obtain ⟨t, ht⟩ : 2 ∣ 2 ^ guardBits F := dvd_pow_self 2 (by unfold guardBits; omega)
      rw [Nat.shiftLeft_eq, ht, Nat.shiftRight_eq_div_pow, Nat.mul_left_comm]
      omega
    rw [if_pos hc]
    refine quotient_rounds hF hdiv neg (by omega) (by omega) hb hb' (by omega) (by omega) ?_
    have h := hunit 1
    rw [← heven] at h
    push_cast at h ⊢
    linear_combination h / 2
  · rw [if_neg hc]
    refine quotient_rounds hF hdiv neg (by omega) (by omega) hb hb' (by omega) (by omega) ?_
    have h := hunit 0
    rwa [add_zero, zpow_zero, mul_one] at h

theorem floatDiv_delivers (hF : Usable F) {quotient : Nat → Nat → Option Nat}
    (hdiv : IsQuotient F quotient) (ha : a < 2 ^ width F) (hb : b < 2 ^ width F)
    (hna : F.isNaN a = false) (hnb : F.isNaN b = false) :
    ∃ z, floatDiv F default quotient a b = some z ∧ F.Delivers (F.quotient a b) z := by
  have hsq : ∀ c, squashInputDenormal F default c = c := fun _ => rfl
  unfold floatDiv Format.quotient
  simp only [hsq]
  by_cases hae : F.exponent a = maxExp F
  · -- the first operand is infinite
    obtain ⟨haz, -⟩ := eq_infinity ha hae hna
    have hfin : ¬ F.isFinite a = true := by simp [isFinite_false_iff.2 hae]
    rw [if_neg hfin, if_pos hae, if_neg (not_not.2 haz)]
    by_cases hbe : F.exponent b = maxExp F
    · obtain ⟨hbz, -⟩ := eq_infinity hb hbe hnb
      have hfin' : ¬ F.isFinite b = true := by simp [isFinite_false_iff.2 hbe]
      rw [if_neg hfin', if_pos hbe, if_neg (not_not.2 hbz)]
      exact ⟨_, rfl, isNaN_defaultNan hF⟩
    · rw [if_pos ((isFinite_iff b).2 hbe), if_neg hbe]
      exact ⟨_, rfl, packFloat_infinity _⟩
  have hfa := (isFinite_iff a).2 hae
  rw [if_pos hfa, if_neg hae]
  by_cases hbe : F.exponent b = maxExp F
  · obtain ⟨hbz, -⟩ := eq_infinity hb hbe hnb
    have hfin' : ¬ F.isFinite b = true := by simp [isFinite_false_iff.2 hbe]
    rw [if_neg hfin', if_pos hbe, if_neg (not_not.2 hbz)]
    exact ⟨_, rfl, delivers_zero hF _⟩
  have hfb := (isFinite_iff b).2 hbe
  rw [if_pos hfb, if_neg hbe]
  by_cases hbz : F.exponent b = 0 ∧ F.fraction b = 0
  · -- division by zero
    have hcond : F.isZero a = true ↔ F.exponent a ||| F.fraction a = 0 := by
      rw [Format.isZero_iff, Nat.or_eq_zero_iff]
    rw [if_pos (Format.isZero_iff.2 hbz), if_pos hbz]
    by_cases hz : F.exponent a ||| F.fraction a = 0
    · rw [if_pos (hcond.2 hz), if_pos hz]
      exact ⟨_, rfl, isNaN_defaultNan hF⟩
    · rw [if_neg (fun h => hz (hcond.1 h)), if_neg hz]
      exact ⟨_, rfl, packFloat_infinity _⟩
  rw [if_neg (fun h => hbz (Format.isZero_iff.1 h)), if_neg hbz, value_div]
  by_cases haz : F.exponent a = 0 ∧ F.fraction a = 0
  · have hzero : signedSteps F (F.negative a ^^ F.negative b)
        ((F.steps a : ℚ) / F.steps b / F.unit) = 0 := by
      rw [steps_of_isZero haz]
      cases F.negative a ^^ F.negative b <;> simp [signedSteps]
    rw [if_pos haz, hzero]
    exact ⟨_, rfl, delivers_zero hF _⟩
  rw [if_neg haz]
  have hsa := steps_ne_zero haz
  have hsb := steps_ne_zero hbz
  obtain ⟨h1, h2, h3, h4, h5⟩ := normalized_spec hF hsa
  obtain ⟨g1, g2, g3, g4, g5⟩ := normalized_spec hF hsb
  have hq : (F.steps a : ℚ) / F.steps b / F.unit ≠ 0 :=
    div_ne_zero (div_ne_zero (by exact_mod_cast hsa) (by exact_mod_cast hsb)) Format.unit_pos.ne'
  obtain ⟨z, hz, hr⟩ := divSigs_rounds hF hdiv (F.negative a ^^ F.negative b) h1 h2 g1 g2 h3 h4 g3 g4
  rw [← h5, ← g5] at hr
  exact ⟨z, hz, delivers_rounds hq hr⟩

end Format

end Softfloat

end NemuMips32
