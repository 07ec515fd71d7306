/-
  NaN operands (`softfloat-specialize.h`), with the zeroed status. Every operation hands them to
  `propagateFloat32NaN` or `propagateFloat64NaN` before anything else is looked at, and the result
  is one of them with its quiet bit set (`propagateNan_eq`): the payload survives, and no default
  NaN is made up.
-/
import NemuMips32.SoftfloatProduct

namespace NemuMips32

namespace Softfloat

open Ieee (Format)

section Format

variable {F : Format} {a b : Nat}

/-! ## Quiet and signaling -/

theorem isNaN_iff : F.isNaN a = true ↔ F.exponent a = maxExp F ∧ F.fraction a ≠ 0 := by
  rw [Format.isNaN, Bool.and_eq_true, Bool.not_eq_true', isFinite_false_iff, bne_iff_ne]

/-- The place of the quiet bit. -/
theorem two_pow_frac (hF : Usable F) : 2 ^ F.fracBits = 2 ^ (F.fracBits - 1) * 2 := by
  have := hF.frac_ge
  rw [← Nat.pow_succ]
  congr 1
  omega

theorem isQuietNan_iff (hF : Usable F) :
    isQuietNan F a = true ↔ F.exponent a = maxExp F ∧ 2 ^ (F.fracBits - 1) ≤ F.fraction a := by
  have hp := two_pow_frac hF
  have hf := F.fraction_lt a
  have hexp : F.exponent a < 2 ^ F.expBits := Nat.mod_lt _ (Nat.two_pow_pos _)
  have hw : 2 ^ width F = 2 ^ F.fracBits * 2 ^ F.expBits * 2 := by
    rw [width, Nat.pow_succ, Nat.pow_add]
  have hmod : a * 2 % 2 ^ width F = (F.fraction a + 2 ^ F.fracBits * F.exponent a) * 2 := by
    rw [hw, Nat.mul_mod_mul_right, Nat.mod_mul]
    rfl
  have hmul : 2 ^ F.fracBits * (F.exponent a + 1) ≤ 2 ^ F.fracBits * 2 ^ F.expBits :=
    Nat.mul_le_mul_left _ hexp
  rw [Nat.mul_succ] at hmul
  rw [isQuietNan, decide_eq_true_eq, hmod, hw]
  rcases Nat.lt_or_ge (F.exponent a + 1) (2 ^ F.expBits) with h | h
  · have hmul' : 2 ^ F.fracBits * (F.exponent a + 2) ≤ 2 ^ F.fracBits * 2 ^ F.expBits :=
      Nat.mul_le_mul_left _ h
    rw [Nat.mul_add] at hmul'
    refine iff_of_false (by omega) fun hc => ?_
    have := hc.1
    unfold maxExp at this
    omega
  · have heq : F.exponent a = maxExp F := by
      unfold maxExp
      omega
    have hmul' : 2 ^ F.fracBits * (F.exponent a + 1) = 2 ^ F.fracBits * 2 ^ F.expBits := by
      rw [show F.exponent a + 1 = 2 ^ F.expBits by omega]
    rw [Nat.mul_succ] at hmul'
    rw [and_iff_right heq]
    omega

theorem isSignalingNan_iff (hF : Usable F) :
    isSignalingNan F a = true ↔
      F.exponent a = maxExp F ∧ F.fraction a < 2 ^ (F.fracBits - 1) ∧ F.fraction a ≠ 0 := by
  have hp := two_pow_frac hF
  have hf := F.fraction_lt a
  have hexp : F.exponent a < 2 ^ F.expBits := Nat.mod_lt _ (Nat.two_pow_pos _)
  have hh := Nat.two_pow_pos (F.fracBits - 1)
  have hlow : a / 2 ^ (F.fracBits - 1) % 2 = F.fraction a / 2 ^ (F.fracBits - 1) := by
    rw [Format.fraction, hp, Nat.mod_mul_right_div_self]
  have hfield : a / 2 ^ (F.fracBits - 1) % 2 ^ (F.expBits + 1) =
      F.fraction a / 2 ^ (F.fracBits - 1) + 2 * F.exponent a := by
    rw [Nat.pow_succ', Nat.mod_mul, hlow, Nat.div_div_eq_div_mul, ← hp]
    rfl
  have hrest : a % 2 ^ (F.fracBits - 1) = F.fraction a % 2 ^ (F.fracBits - 1) := by
    rw [Format.fraction, hp, Nat.mod_mul_right_mod]
  have hbit : F.fraction a / 2 ^ (F.fracBits - 1) < 2 := by
    rw [Nat.div_lt_iff_lt_mul hh, Nat.mul_comm, ← hp]
    exact hf
  have hE : 2 ^ (F.expBits + 1) = 2 * 2 ^ F.expBits := Nat.pow_succ' ..
  rw [isSignalingNan, Bool.and_eq_true, beq_iff_eq, bne_iff_ne, hfield, hrest, hE]
  rcases Nat.lt_or_ge (F.fraction a) (2 ^ (F.fracBits - 1)) with h | h
  · rw [Nat.div_eq_of_lt h, Nat.mod_eq_of_lt h, and_iff_right h]
    unfold maxExp
    refine and_congr_left fun _ => ?_
    omega
  · have hone : 1 ≤ F.fraction a / 2 ^ (F.fracBits - 1) := (Nat.one_le_div_iff hh).2 h
    refine iff_of_false (fun hc => ?_) (fun hc => absurd hc.2.1 (by omega))
    have := hc.1
    omega

/-! ## Propagation -/

theorem or_two_pow_of_bit {x k : Nat} (h : x / 2 ^ k % 2 = 1) : x ||| 2 ^ k = x := by
  apply Nat.eq_of_testBit_eq
  intro i
  rw [Nat.testBit_or, Nat.testBit_two_pow]
  by_cases hi : k = i
  · subst hi
    have hb : x.testBit k = true := by
      rw [Nat.testBit_eq_decide_div_mod_eq, h]
      rfl
    simp [hb]
  · simp [hi]

theorem maybeSilenceNan_eq (hF : Usable F) (ha : F.isNaN a = true) :
    maybeSilenceNan F a = a ||| 2 ^ (F.fracBits - 1) := by
  obtain ⟨hexp, hfrac⟩ := isNaN_iff.1 ha
  unfold maybeSilenceNan
  split_ifs with h
  · rfl
  · -- already quiet
    have hq : 2 ^ (F.fracBits - 1) ≤ F.fraction a := by
      refine Nat.le_of_not_lt fun hlt => h ((isSignalingNan_iff hF).2 ⟨hexp, hlt, hfrac⟩)
    have hp := two_pow_frac hF
    have hf := F.fraction_lt a
    have hh := Nat.two_pow_pos (F.fracBits - 1)
    refine (or_two_pow_of_bit ?_).symm
    have hlow : a / 2 ^ (F.fracBits - 1) % 2 = F.fraction a / 2 ^ (F.fracBits - 1) := by
      rw [Format.fraction, hp, Nat.mod_mul_right_div_self]
    rw [hlow]
    exact Nat.div_eq_of_lt_le (by omega) (by omega)

/-- The result for a NaN operand: one of the NaNs, quiet. -/
theorem propagateNan_eq (hF : Usable F) (h : F.isNaN a = true ∨ F.isNaN b = true) :
    ∃ c, (c = a ∨ c = b) ∧ F.isNaN c = true ∧
      propagateNan F default a b = c ||| 2 ^ (F.fracBits - 1) := by
  have hmode : (default : ArithStatus).defaultNanMode = false := rfl
  have hnone : ∀ c, F.isNaN c = false → isQuietNan F c = false ∧ isSignalingNan F c = false := by
    intro c hc
    constructor
    · rw [← Bool.not_eq_true, isQuietNan_iff hF]
      rintro ⟨h1, h2⟩
      have := Nat.two_pow_pos (F.fracBits - 1)
      rw [isNaN_iff.2 ⟨h1, by omega⟩] at hc
      exact absurd hc (by decide)
    · rw [← Bool.not_eq_true, isSignalingNan_iff hF]
      rintro ⟨h1, -, h2⟩
      rw [isNaN_iff.2 ⟨h1, h2⟩] at hc
      exact absurd hc (by decide)
  have hsome : ∀ c, F.isNaN c = true → (isQuietNan F c = true ∨ isSignalingNan F c = true) := by
    intro c hc
    obtain ⟨h1, h2⟩ := isNaN_iff.1 hc
    rcases Nat.lt_or_ge (F.fraction c) (2 ^ (F.fracBits - 1)) with hlt | hge
    · exact .inr ((isSignalingNan_iff hF).2 ⟨h1, hlt, h2⟩)
    · exact .inl ((isQuietNan_iff hF).2 ⟨h1, hge⟩)
  -- the one chosen is a NaN
  have hpick : ∀ larger, F.isNaN (if pickNan (isQuietNan F a) (isSignalingNan F a)
      (isQuietNan F b) (isSignalingNan F b) larger then b else a) = true := by
    intro larger
    by_cases ha : F.isNaN a = true
    · by_cases hb : F.isNaN b = true
      · split_ifs
        · exact hb
        · exact ha
      · obtain ⟨h1, h2⟩ := hnone b (by simpa using hb)
        rcases hsome a ha with hq | hs
        · simp [pickNan, h1, h2, hq, ha]
        · simp [pickNan, h1, h2, hs, ha]
    · obtain ⟨h1, h2⟩ := hnone a (by simpa using ha)
      simp [pickNan, h1, h2, h.resolve_left ha]
  unfold propagateNan
  rw [hmode]
  simp only [Bool.false_eq_true, if_false]
  generalize (if a * 2 % 2 ^ width F < b * 2 % 2 ^ width F then false
    else if b * 2 % 2 ^ width F < a * 2 % 2 ^ width F then true else decide (a < b)) = larger
  have hc := hpick larger
  by_cases hp : pickNan (isQuietNan F a) (isSignalingNan F a) (isQuietNan F b)
      (isSignalingNan F b) larger = true
  · rw [if_pos hp] at hc ⊢
    exact ⟨b, .inr rfl, hc, maybeSilenceNan_eq hF hc⟩
  · rw [if_neg hp] at hc ⊢
    exact ⟨a, .inl rfl, hc, maybeSilenceNan_eq hF hc⟩

/-! ## Operands -/

theorem shiftLeft_ne_zero {n : Nat} (h : n ≠ 0) (s : Nat) : n <<< s ≠ 0 := by
  rw [Nat.shiftLeft_eq]
  exact Nat.mul_ne_zero h (Nat.two_pow_pos s).ne'

theorem addFloatSigs_nan (neg : Bool) (h : F.isNaN a = true ∨ F.isNaN b = true) :
    addFloatSigs F default a b neg = propagateNan F default a b := by
  rw [isNaN_iff, isNaN_iff] at h
  have ha := exponent_le (F := F) a
  have hb := exponent_le (F := F) b
  unfold addFloatSigs
  simp only []
  rcases lt_trichotomy (F.exponent b) (F.exponent a) with hlt | heq | hlt
  · obtain ⟨h1, h2⟩ := h.resolve_right fun hc => by omega
    rw [if_pos hlt, if_pos h1, if_pos (shiftLeft_ne_zero h2 _)]
  · have h1 : F.exponent a = maxExp F := h.elim And.left fun hc => heq ▸ hc.1
    have h2 : F.fraction a <<< (guardBits F - 1) ||| F.fraction b <<< (guardBits F - 1) ≠ 0 := by
      rw [ne_eq, Nat.or_eq_zero_iff]
      rintro ⟨hza, hzb⟩
      rcases h with ⟨-, h⟩ | ⟨-, h⟩
      · exact shiftLeft_ne_zero h _ hza
      · exact shiftLeft_ne_zero h _ hzb
    rw [if_neg (by omega), if_neg (by omega), if_pos h1, if_pos h2]
  · obtain ⟨h1, h2⟩ := h.resolve_left fun hc => by omega
    rw [if_neg (by omega), if_pos hlt, if_pos h1, if_pos (shiftLeft_ne_zero h2 _)]

theorem subFloatSigs_nan (neg : Bool) (h : F.isNaN a = true ∨ F.isNaN b = true) :
    subFloatSigs F default a b neg = propagateNan F default a b := by
  rw [isNaN_iff, isNaN_iff] at h
  have ha := exponent_le (F := F) a
  have hb := exponent_le (F := F) b
  unfold subFloatSigs
  simp only []
  rcases lt_trichotomy (F.exponent b) (F.exponent a) with hlt | heq | hlt
  · obtain ⟨h1, h2⟩ := h.resolve_right fun hc => by omega
    rw [if_pos hlt, if_pos h1, if_pos (shiftLeft_ne_zero h2 _)]
  · have h1 : F.exponent a = maxExp F := h.elim And.left fun hc => heq ▸ hc.1
    have h2 : F.fraction a <<< guardBits F ||| F.fraction b <<< guardBits F ≠ 0 := by
      rw [ne_eq, Nat.or_eq_zero_iff]
      rintro ⟨hza, hzb⟩
      rcases h with ⟨-, h⟩ | ⟨-, h⟩
      · exact shiftLeft_ne_zero h _ hza
      · exact shiftLeft_ne_zero h _ hzb
    rw [if_neg (by omega), if_neg (by omega), if_pos h1, if_pos h2]
  · obtain ⟨h1, h2⟩ := h.resolve_left fun hc => by omega
    rw [if_neg (by omega), if_pos hlt, if_pos h1, if_pos (shiftLeft_ne_zero h2 _)]

theorem floatAdd_nan (h : F.isNaN a = true ∨ F.isNaN b = true) :
    floatAdd F default a b = propagateNan F default a b := by
  have hsq : ∀ c, squashInputDenormal F default c = c := fun _ => rfl
  unfold floatAdd
  simp only [hsq]
  split_ifs
  · exact addFloatSigs_nan _ h
  · exact subFloatSigs_nan _ h

theorem floatSub_nan (h : F.isNaN a = true ∨ F.isNaN b = true) :
    floatSub F default a b = propagateNan F default a b := by
  have hsq : ∀ c, squashInputDenormal F default c = c := fun _ => rfl
  unfold floatSub
  simp only [hsq]
  split_ifs
  · exact subFloatSigs_nan _ h
  · exact addFloatSigs_nan _ h

theorem floatMul_nan (mulHigh : Nat → Nat → Nat) (h : F.isNaN a = true ∨ F.isNaN b = true) :
    floatMul F default mulHigh a b = propagateNan F default a b := by
  have hsq : ∀ c, squashInputDenormal F default c = c := fun _ => rfl
  rw [isNaN_iff, isNaN_iff] at h
  unfold floatMul
  simp only [hsq]
  by_cases ha : F.exponent a = maxExp F
  · have hn : F.fraction a ≠ 0 ∨ (F.exponent b = maxExp F ∧ F.fraction b ≠ 0) := h.imp_left And.right
    rw [if_pos ha, if_pos hn]
  · obtain ⟨h1, h2⟩ := h.resolve_left fun hc => ha hc.1
    rw [if_neg ha, if_pos h1, if_pos h2]

theorem floatDiv_nan (quotient : Nat → Nat → Option Nat)
    (h : F.isNaN a = true ∨ F.isNaN b = true) :
    floatDiv F default quotient a b = some (propagateNan F default a b) := by
  have hsq : ∀ c, squashInputDenormal F default c = c := fun _ => rfl
  rw [isNaN_iff, isNaN_iff] at h
  unfold floatDiv
  simp only [hsq]
  by_cases ha : F.exponent a = maxExp F
  · rw [if_pos ha]
    by_cases hf : F.fraction a ≠ 0
    · rw [if_pos hf]
    · obtain ⟨h1, h2⟩ := h.resolve_left fun hc => hf hc.2
      rw [if_neg hf, if_pos h1, if_pos h2]
  · obtain ⟨h1, h2⟩ := h.resolve_left fun hc => ha hc.1
    rw [if_neg ha, if_pos h1, if_pos h2]

end Format

end Softfloat

end NemuMips32
