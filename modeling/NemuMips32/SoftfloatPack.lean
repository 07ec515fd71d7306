/-
  Rounding and packing (`roundAndPackFloat32`, `roundAndPackFloat64`) with the zeroed status:
  the result is the nearest pattern, ties to even, and infinity from the overflow threshold on
  (`roundAndPackFloat_rounds`). A result below the normal range is shifted right first, with a
  sticky bit, and a carry out of the significand adds to the exponent field.
-/
import NemuMips32.Lib.Rounding
import NemuMips32.Lib.Sticky
import NemuMips32.SoftfloatArith

namespace NemuMips32

namespace Softfloat

open Ieee (Format Stands jam roundQuot signedQuot)

/-! ## Words -/

/-- `a << (w - count)` drops all bits but the low `count` ones. -/
theorem shiftLeft_mod_ne_zero_iff (a : Nat) {w count : Nat} (hc : count < w) :
    a <<< (w - count) % 2 ^ w ≠ 0 ↔ a % 2 ^ count ≠ 0 := by
  have hpow : 2 ^ w = 2 ^ count * 2 ^ (w - count) := by
    rw [← Nat.pow_add]
    congr 1
    omega
  rw [Nat.shiftLeft_eq, hpow, Nat.mul_mod_mul_right, ne_eq, Nat.mul_eq_zero]
  simp

theorem shiftRightJamming_eq {w a : Nat} (ha : a < 2 ^ w) (count : Nat) :
    shiftRightJamming w a count = jam a (2 ^ count) := by
  unfold shiftRightJamming
  by_cases h0 : count = 0
  · rw [if_pos h0, h0]
    simp [jam, Nat.mod_one]
  rw [if_neg h0]
  by_cases hw : count < w
  · rw [if_pos hw]
    by_cases hs : a % 2 ^ count = 0
    · rw [if_neg (fun h => (shiftLeft_mod_ne_zero_iff a hw).1 h hs), jam, if_pos hs,
        Nat.shiftRight_eq_div_pow]
      simp
    · rw [if_pos ((shiftLeft_mod_ne_zero_iff a hw).2 hs), jam, if_neg hs,
        Nat.shiftRight_eq_div_pow]
  · have hlt : a < 2 ^ count := Nat.lt_of_lt_of_le ha (Nat.pow_le_pow_right (by decide) (by omega))
    rw [if_neg hw, jam, Nat.mod_eq_of_lt hlt, Nat.div_eq_of_lt hlt]
    by_cases ha0 : a = 0
    · simp [ha0]
    · rw [if_pos ha0, if_neg ha0]
      rfl

/-- Adding one half and cutting rounds to nearest, up to the tie. -/
theorem roundQuot_half (n : Nat) {h : Nat} (hh : 0 < h) :
    (if n % (2 * h) = h then (n + h) / (2 * h) - (n + h) / (2 * h) % 2 else (n + h) / (2 * h)) =
      roundQuot n (2 * h) := by
  have hdm := Nat.div_add_mod n (2 * h)
  have hlt := Nat.mod_lt n (Nat.mul_pos Nat.two_pos hh)
  unfold roundQuot
  generalize n / (2 * h) = q at *
  generalize n % (2 * h) = r at *
  have hsum : (n + h) / (2 * h) = if h ≤ r then q + 1 else q := by
    rw [← hdm, Nat.add_assoc, Nat.mul_add_div (by omega)]
    split_ifs with hr
    · rw [Nat.div_eq_of_lt_le (k := 1) (by omega) (by omega)]
    · rw [Nat.div_eq_of_lt (by omega), Nat.add_zero]
  rw [hsum]
  split_ifs <;> omega

/-! ## Formats -/

/-- What the proofs need of a format. -/
structure Usable (F : Format) : Prop where
  exp_ge : 4 ≤ F.expBits
  exp_le : F.expBits ≤ 14
  frac_ge : 2 ≤ F.fracBits
  frac_le : F.fracBits ≤ 64

theorem usable32 : Usable Ieee.binary32 := ⟨by decide, by decide, by decide, by decide⟩
theorem usable64 : Usable Ieee.binary64 := ⟨by decide, by decide, by decide, by decide⟩

section Format

variable {F : Format}

theorem width_eq (hF : Usable F) : width F = F.fracBits + guardBits F + 2 := by
  have := hF.exp_ge
  unfold width guardBits
  omega

theorem maxExp_lt (hF : Usable F) : 15 ≤ maxExp F ∧ maxExp F < 2 ^ 14 := by
  have h1 : 2 ^ 4 ≤ 2 ^ F.expBits := Nat.pow_le_pow_right (by decide) hF.exp_ge
  have h2 : 2 ^ F.expBits ≤ 2 ^ 14 := Nat.pow_le_pow_right (by decide) hF.exp_le
  unfold maxExp
  omega

theorem infinity_eq : F.infinity = maxExp F * 2 ^ F.fracBits := rfl

theorem infinity_le : F.infinity < 2 ^ (width F - 1) := F.infinity_lt

/-- Fields that leave the sign bit alone. -/
theorem packFloat_eq (zSign : Bool) (k z : Nat) (h : k * 2 ^ F.fracBits + z < 2 ^ (width F - 1)) :
    packFloat F zSign k z = F.withSign zSign (k * 2 ^ F.fracBits + z) := by
  have hw : 2 ^ width F = 2 ^ (width F - 1) * 2 := (Nat.pow_succ ..).symm
  have hsign : (if zSign then (2 : ℤ) ^ (width F - 1) else 0) =
      ((if zSign then 2 ^ (width F - 1) else 0 : ℕ) : ℤ) := by
    cases zSign
    · rfl
    · push_cast
      rfl
  have hlt : (if zSign then 2 ^ (width F - 1) else 0) + (k * 2 ^ F.fracBits + z) < 2 ^ width F := by
    split_ifs <;> omega
  unfold packFloat Format.withSign
  rw [hsign]
  have hcast : (((if zSign then 2 ^ (width F - 1) else 0 : ℕ) : ℤ) + (k : ℤ) * 2 ^ F.fracBits + z) %
      2 ^ width F = (((if zSign then 2 ^ (width F - 1) else 0) + (k * 2 ^ F.fracBits + z) : ℕ) : ℤ) := by
    rw [← Nat.mod_eq_of_lt hlt]
    push_cast
    rw [Int.add_assoc]
  rw [hcast, Int.toNat_natCast]
  rfl

/-! ## Rounding -/

theorem two_pow_guard (hF : Usable F) : 2 ^ guardBits F = 2 * 2 ^ (guardBits F - 1) := by
  have := hF.exp_ge
  rw [← Nat.pow_succ']
  congr 1
  unfold guardBits
  omega

theorem two_pow_width (hF : Usable F) :
    2 ^ (width F - 1) = 2 ^ F.fracBits * 2 ^ guardBits F * 2 ∧
      2 ^ width F = 2 ^ (width F - 1) * 2 := by
  rw [width_eq hF, ← Nat.pow_add, ← Nat.pow_succ, ← Nat.pow_succ]
  exact ⟨rfl, rfl⟩

theorem finishRounding_eq (hF : Usable F) (zSign : Bool) (zExp : ℤ) {zSig : Nat}
    (h : zSig < 2 ^ (width F - 1)) :
    finishRounding F default zSign zExp zSig = packFloat F zSign
      (if roundQuot zSig (2 ^ guardBits F) = 0 then 0 else zExp)
      (roundQuot zSig (2 ^ guardBits F) : Nat) := by
  have hg := two_pow_guard hF
  have hlt : 2 ^ (guardBits F - 1) ≤ 2 ^ (width F - 1) := by
    refine Nat.pow_le_pow_right (by decide) ?_
    rw [width_eq hF]
    omega
  have hw := (two_pow_width hF).2
  have hmod : (zSig + 2 ^ (guardBits F - 1)) % 2 ^ width F = zSig + 2 ^ (guardBits F - 1) :=
    Nat.mod_eq_of_lt (by omega)
  have hround := roundQuot_half zSig (Nat.two_pow_pos (guardBits F - 1))
  rw [← hg] at hround
  rw [← hround]
  unfold finishRounding
  have hmode : (default : ArithStatus).roundingMode = .nearestEven := rfl
  simp only [hmode, roundingIncrement, hmod, and_true]

/-- Rounding carries into the next power of two where adding one half does. -/
theorem roundQuot_carry_iff (hF : Usable F) {zSig : Nat}
    (hz : zSig < 2 ^ F.fracBits * 2 ^ guardBits F * 2) :
    roundQuot zSig (2 ^ guardBits F) < 2 * 2 ^ F.fracBits ↔
      zSig + 2 ^ (guardBits F - 1) < 2 ^ (width F - 1) := by
  have hg := two_pow_guard hF
  have hw := (two_pow_width hF).1
  have hP : 0 < 2 ^ F.fracBits := Nat.two_pow_pos _
  rw [Ieee.Format.roundQuot_lt_iff (Nat.two_pow_pos _) (by rwa [Nat.mul_comm 2, Nat.mul_right_comm]) hP, hw, hg]
  generalize 2 ^ (guardBits F - 1) = h
  generalize 2 ^ F.fracBits = m at *
  have h4 : (4 * m - 1) * (2 * h) = 8 * (m * h) - 2 * h := by
    rw [Nat.sub_mul, Nat.one_mul]
    congr 1
    ring
  have hm : m * (2 * h) * 2 = 4 * (m * h) := by ring
  rw [h4, hm]
  have : 1 * h ≤ m * h := Nat.mul_le_mul_right h hP
  omega

/-! ### Below, in and above the normal range -/

section Regimes

variable (hF : Usable F) (zSign : Bool) {zSig : Nat}
  (hz : 2 ^ F.fracBits * 2 ^ guardBits F ≤ zSig) (hz' : zSig < 2 ^ F.fracBits * 2 ^ guardBits F * 2)
include hF hz'

/-- Adding one half does not leave the word. -/
theorem increment_mod :
    (zSig + 2 ^ (guardBits F - 1)) % 2 ^ width F = zSig + 2 ^ (guardBits F - 1) := by
  obtain ⟨hsum, hw⟩ := two_pow_width hF
  have hg := two_pow_guard hF
  refine Nat.mod_eq_of_lt ?_
  have : 2 ^ guardBits F ≤ 2 ^ F.fracBits * 2 ^ guardBits F :=
    Nat.le_mul_of_pos_left _ (Nat.two_pow_pos _)
  omega

omit hF in
theorem roundQuot_le_carry : roundQuot zSig (2 ^ guardBits F) ≤ 2 ^ F.fracBits * 2 := by
  have hdiv : zSig / 2 ^ guardBits F < 2 ^ F.fracBits * 2 := by
    rw [Nat.div_lt_iff_lt_mul (Nat.two_pow_pos _)]
    calc zSig < 2 ^ F.fracBits * 2 ^ guardBits F * 2 := hz'
      _ = _ := by ring
  have := Ieee.roundQuot_le zSig (2 ^ guardBits F)
  omega

/-- Below the normal range the significand is shifted first. -/
theorem roundAndPackFloat_subnormal {zExp : ℤ} (hlo : -2 ^ 15 ≤ zExp) (hneg : zExp < 0) :
    roundAndPackFloat F default zSign zExp zSig =
        F.withSign zSign (roundQuot zSig (2 ^ guardBits F * 2 ^ (-zExp).toNat)) ∧
      roundQuot zSig (2 ^ guardBits F * 2 ^ (-zExp).toNat) ≤ F.infinity := by
  have hmax := maxExp_lt hF
  have hge := hF.exp_ge
  obtain ⟨hsum, hw⟩ := two_pow_width hF
  have hP : 2 ≤ 2 ^ F.fracBits :=
    Nat.pow_le_pow_right (by decide : 0 < 2) (le_trans (by decide : 1 ≤ 2) hF.frac_ge)
  have hinf : F.infinity < 2 ^ (width F - 1) := infinity_le
  have hj : 2 ^ 1 ≤ 2 ^ (-zExp).toNat := Nat.pow_le_pow_right (by decide) (by omega)
  have hjam : jam zSig (2 ^ (-zExp).toNat) < 2 ^ (width F - 1) := by
    have hdiv : zSig / 2 ^ (-zExp).toNat ≤ zSig / 2 := Nat.div_le_div_left hj (by decide)
    rw [jam, Ieee.or_one]
    split_ifs <;> omega
  have h4 : 4 ∣ 2 ^ guardBits F := Nat.pow_dvd_pow 2 (by unfold guardBits; omega : 2 ≤ guardBits F)
  have hr : roundQuot (jam zSig (2 ^ (-zExp).toNat)) (2 ^ guardBits F) =
      roundQuot zSig (2 ^ guardBits F * 2 ^ (-zExp).toNat) := by
    rw [Ieee.roundQuot_jam _ (Nat.two_pow_pos _) h4 (Nat.two_pow_pos _), Nat.mul_comm]
  have hle : roundQuot zSig (2 ^ guardBits F * 2 ^ (-zExp).toNat) ≤ F.infinity := by
    have hdiv : zSig / (2 ^ guardBits F * 2 ^ (-zExp).toNat) < 2 ^ F.fracBits := by
      rw [Nat.div_lt_iff_lt_mul (Nat.mul_pos (Nat.two_pow_pos _) (Nat.two_pow_pos _))]
      have := Nat.mul_le_mul_left (2 ^ F.fracBits * 2 ^ guardBits F) hj
      have h2 : 2 ^ F.fracBits * (2 ^ guardBits F * 2 ^ (-zExp).toNat) =
        2 ^ F.fracBits * 2 ^ guardBits F * 2 ^ (-zExp).toNat := by ring
      omega
    have := Ieee.roundQuot_le zSig (2 ^ guardBits F * 2 ^ (-zExp).toNat)
    have hone : 1 * 2 ^ F.fracBits ≤ maxExp F * 2 ^ F.fracBits :=
      Nat.mul_le_mul_right _ (by omega)
    rw [infinity_eq]
    omega
  have hemod : (maxExp F : ℤ) - 2 ≤ zExp % 2 ^ 16 := by omega
  have hover : ¬ ((maxExp F : ℤ) - 2 < zExp ∨ (zExp = maxExp F - 2 ∧
      2 ^ (width F - 1) ≤ (zSig + 2 ^ (guardBits F - 1)) % 2 ^ width F)) := by omega
  have hflush : ¬ (default : ArithStatus).flushToZero = true := Bool.false_ne_true
  have hpack := packFloat_eq (F := F) zSign 0
    (roundQuot zSig (2 ^ guardBits F * 2 ^ (-zExp).toNat)) (by omega)
  have hinc : roundingIncrement F (default : ArithStatus).roundingMode zSign =
      2 ^ (guardBits F - 1) := rfl
  refine ⟨?_, hle⟩
  unfold roundAndPackFloat
  simp only [hinc]
  rw [if_pos hemod, if_neg hover, if_pos hneg, if_neg hflush, shiftRightJamming_eq (by omega),
    finishRounding_eq hF _ _ hjam, hr, ite_self]
  rwa [Nat.zero_mul, Nat.zero_add] at hpack

include hz

/-- In the normal range, the last binade without its carry included. -/
theorem roundAndPackFloat_normal {k : Nat} (hk : k < 2 ^ 15)
    (h : k + 2 < maxExp F ∨
      k + 2 = maxExp F ∧ zSig + 2 ^ (guardBits F - 1) < 2 ^ (width F - 1)) :
    roundAndPackFloat F default zSign k zSig =
        F.withSign zSign (k * 2 ^ F.fracBits + roundQuot zSig (2 ^ guardBits F)) ∧
      k * 2 ^ F.fracBits + roundQuot zSig (2 ^ guardBits F) ≤ F.infinity := by
  have hmax := maxExp_lt hF
  have hsum := (two_pow_width hF).1
  have hP : 0 < 2 ^ F.fracBits := Nat.two_pow_pos _
  have hinf : F.infinity < 2 ^ (width F - 1) := infinity_le
  have hq : 2 ^ F.fracBits ≤ roundQuot zSig (2 ^ guardBits F) :=
    le_trans ((Nat.le_div_iff_mul_le (Nat.two_pow_pos _)).2 hz) (Ieee.div_le_roundQuot _ _)
  have hinc : roundingIncrement F (default : ArithStatus).roundingMode zSign =
      2 ^ (guardBits F - 1) := rfl
  have hle : k * 2 ^ F.fracBits + roundQuot zSig (2 ^ guardBits F) ≤ F.infinity := by
    rw [infinity_eq]
    rcases h with h | ⟨h, hc⟩
    · have hcarry := roundQuot_le_carry hz'
      have hkm : (k + 1) * 2 ^ F.fracBits + 2 * 2 ^ F.fracBits ≤ maxExp F * 2 ^ F.fracBits := by
        rw [← Nat.add_mul]
        exact Nat.mul_le_mul_right _ (by omega)
      rw [Nat.add_mul] at hkm
      omega
    · have hcarry := (roundQuot_carry_iff hF hz').2 hc
      have hkm : k * 2 ^ F.fracBits + 2 * 2 ^ F.fracBits = maxExp F * 2 ^ F.fracBits := by
        rw [← Nat.add_mul, h]
      omega
  have hfinish : finishRounding F default zSign k zSig =
      F.withSign zSign (k * 2 ^ F.fracBits + roundQuot zSig (2 ^ guardBits F)) := by
    rw [finishRounding_eq hF _ _ (by omega), if_neg (by omega), packFloat_eq _ _ _ (by omega)]
  refine ⟨?_, hle⟩
  unfold roundAndPackFloat
  simp only [hinc]
  rcases h with h | ⟨h, hc⟩
  · rw [if_neg (by omega), hfinish]
  · rw [if_pos (by omega), if_neg (by rw [increment_mod hF hz']; omega), if_neg (by omega), hfinish]

/-- Above it the result is infinity. -/
theorem roundAndPackFloat_overflow {k : Nat} (hk : k < 2 ^ 15)
    (h : ¬ (k + 2 < maxExp F ∨
      k + 2 = maxExp F ∧ zSig + 2 ^ (guardBits F - 1) < 2 ^ (width F - 1))) :
    roundAndPackFloat F default zSign k zSig = F.withSign zSign F.infinity ∧
      F.infinity ≤ k * 2 ^ F.fracBits + roundQuot zSig (2 ^ guardBits F) := by
  have hmax := maxExp_lt hF
  have hgp : 0 < 2 ^ (guardBits F - 1) := Nat.two_pow_pos _
  have hinf : F.infinity < 2 ^ (width F - 1) := infinity_le
  have hq : 2 ^ F.fracBits ≤ roundQuot zSig (2 ^ guardBits F) :=
    le_trans ((Nat.le_div_iff_mul_le (Nat.two_pow_pos _)).2 hz) (Ieee.div_le_roundQuot _ _)
  have hinc : roundingIncrement F (default : ArithStatus).roundingMode zSign =
      2 ^ (guardBits F - 1) := rfl
  refine ⟨?_, ?_⟩
  · have hover : (maxExp F : ℤ) - 2 < k ∨ ((k : ℤ) = maxExp F - 2 ∧
        2 ^ (width F - 1) ≤ (zSig + 2 ^ (guardBits F - 1)) % 2 ^ width F) := by
      rw [increment_mod hF hz']
      omega
    have hpack := packFloat_eq (F := F) zSign (maxExp F) 0 (by rw [← infinity_eq]; omega)
    unfold roundAndPackFloat
    simp only [hinc]
    rw [if_pos (by omega), if_pos hover, if_neg (by omega)]
    rwa [Nat.add_zero] at hpack
  · rw [infinity_eq]
    rcases Nat.lt_or_ge (k + 1) (maxExp F) with hk1 | hk1
    · have hcarry := mt (roundQuot_carry_iff hF hz').1 (by omega)
      have hkm : k * 2 ^ F.fracBits + 2 * 2 ^ F.fracBits = maxExp F * 2 ^ F.fracBits := by
        rw [← Nat.add_mul]
        congr 1
        omega
      omega
    · have hkm : (maxExp F) * 2 ^ F.fracBits ≤ (k + 1) * 2 ^ F.fracBits :=
        Nat.mul_le_mul_right _ hk1
      rw [Nat.add_mul] at hkm
      omega

end Regimes

/-- The formula for rounding and packing a normalized significand. -/
theorem roundAndPackFloat_eq (hF : Usable F) (zSign : Bool) {zExp : ℤ} (hlo : -2 ^ 15 ≤ zExp)
    (hhi : zExp < 2 ^ 15) {zSig : Nat} (hz : 2 ^ (F.fracBits + guardBits F) ≤ zSig)
    (hz' : zSig < 2 ^ (F.fracBits + guardBits F + 1)) :
    roundAndPackFloat F default zSign zExp zSig = F.withSign zSign
      (min (zExp.toNat * 2 ^ F.fracBits +
        roundQuot zSig (2 ^ guardBits F * 2 ^ (-zExp).toNat)) F.infinity) := by
  rw [Nat.pow_succ, Nat.pow_add] at hz'
  rw [Nat.pow_add] at hz
  rcases lt_or_ge zExp 0 with hneg | hpos
  · obtain ⟨heq, hle⟩ := roundAndPackFloat_subnormal hF zSign hz' hlo hneg
    rw [heq, Int.toNat_of_nonpos hneg.le, Nat.zero_mul, Nat.zero_add, min_eq_left hle]
  · obtain ⟨k, rfl⟩ := Int.eq_ofNat_of_zero_le hpos
    rw [Int.toNat_of_nonpos (by omega : -(k : ℤ) ≤ 0), Nat.pow_zero, Nat.mul_one,
      Int.toNat_natCast]
    by_cases h : k + 2 < maxExp F ∨
        k + 2 = maxExp F ∧ zSig + 2 ^ (guardBits F - 1) < 2 ^ (width F - 1)
    · obtain ⟨heq, hle⟩ := roundAndPackFloat_normal hF zSign hz hz' (by omega) h
      rw [heq, min_eq_left hle]
    · obtain ⟨heq, hle⟩ := roundAndPackFloat_overflow hF zSign hz hz' (by omega) h
      rw [heq, min_eq_right hle]

/-- The number of sign `neg` and magnitude `q`, counted in the smallest subnormal number. -/
def signedSteps (F : Format) (neg : Bool) (q : ℚ) : ℚ := if neg then -(q * F.unit) else q * F.unit

theorem value_eq_signedSteps (a : Nat) : F.value a = signedSteps F (F.negative a) (F.steps a) :=
  Format.value_eq_steps

/-- A significand that stands for `n / m` is rounded and packed as `n / m` would be. -/
theorem roundAndPackFloat_rounds (hF : Usable F) (neg : Bool) {zExp : ℤ} (hlo : -2 ^ 15 ≤ zExp)
    (hhi : zExp < 2 ^ 15) {zSig n m : Nat} (hz : 2 ^ (F.fracBits + guardBits F) ≤ zSig)
    (hz' : zSig < 2 ^ (F.fracBits + guardBits F + 1)) (hm : 0 < m)
    (hs : Stands (2 ^ (guardBits F - 1)) zSig n m) {q : ℚ}
    (hq : (n : ℚ) / m * 2 ^ (zExp - guardBits F) = q) :
    F.Rounds (signedSteps F neg q) (roundAndPackFloat F default neg zExp zSig) := by
  have hg := two_pow_guard hF
  have hh : 0 < 2 ^ (guardBits F - 1) := Nat.two_pow_pos _
  have hx : 0 < 2 ^ guardBits F := Nat.two_pow_pos _
  have hj : 0 < 2 ^ (-zExp).toNat := Nat.two_pow_pos _
  have hk : 0 < 2 ^ zExp.toNat := Nat.two_pow_pos _
  have hd : 0 < m * (2 ^ guardBits F * 2 ^ (-zExp).toNat) := Nat.mul_pos hm (Nat.mul_pos hx hj)
  -- the bounds of the word are bounds of the quotient
  have hbound : ∀ i, 2 ^ (F.fracBits + guardBits F + i) =
      2 ^ (guardBits F - 1) * (2 ^ (F.fracBits + 1 + i)) := by
    intro i
    have := hF.exp_ge
    rw [← Nat.pow_add]
    congr 1
    unfold guardBits
    omega
  have hn : m * 2 ^ (F.fracBits + guardBits F) ≤ n := by
    have := (hs.le_iff hh hm (2 ^ (F.fracBits + 1))).1 (by rwa [← hbound 0])
    rwa [← hbound 0] at this
  have hn' : n < m * 2 ^ (F.fracBits + guardBits F + 1) := by
    have := mt (hs.le_iff hh hm (2 ^ (F.fracBits + 1 + 1))).2 (by rw [← hbound 1]; omega)
    rw [← hbound 1] at this
    omega
  have hlow : zExp.toNat = 0 ∨
      2 ^ F.fracBits * (m * (2 ^ guardBits F * 2 ^ (-zExp).toNat) * 2 ^ zExp.toNat) ≤
        n * 2 ^ zExp.toNat := by
    rcases Nat.eq_zero_or_pos zExp.toNat with h0 | h0
    · exact .inl h0
    · have hj0 : (-zExp).toNat = 0 := by omega
      refine .inr ?_
      rw [← Nat.mul_assoc]
      refine Nat.mul_le_mul_right _ ?_
      calc 2 ^ F.fracBits * (m * (2 ^ guardBits F * 2 ^ (-zExp).toNat))
          = m * 2 ^ (F.fracBits + guardBits F) := by rw [hj0, Nat.pow_add]; ring
        _ ≤ n := hn
  have hhigh : n * 2 ^ zExp.toNat <
      2 ^ (F.fracBits + 1) * (m * (2 ^ guardBits F * 2 ^ (-zExp).toNat) * 2 ^ zExp.toNat) := by
    rw [← Nat.mul_assoc]
    refine Nat.mul_lt_mul_of_pos_right ?_ hk
    calc n < m * 2 ^ (F.fracBits + guardBits F + 1) := hn'
      _ = 2 ^ (F.fracBits + 1) * (m * (2 ^ guardBits F * 1)) := by
        rw [Nat.add_right_comm, Nat.pow_add _ (F.fracBits + 1)]
        ring
      _ ≤ _ := by gcongr; exact hj
  have hround : roundQuot zSig (2 ^ guardBits F * 2 ^ (-zExp).toNat) =
      roundQuot (n * 2 ^ zExp.toNat)
        (m * (2 ^ guardBits F * 2 ^ (-zExp).toNat) * 2 ^ zExp.toNat) := by
    rw [Ieee.roundQuot_mul _ _ hk, hg, hs.roundQuot hh hm]
  have hv : signedQuot neg (n * 2 ^ zExp.toNat) (m * (2 ^ guardBits F * 2 ^ (-zExp).toNat)) *
      F.unit = signedSteps F neg q := by
    have hexp : (2 : ℚ) ^ (zExp - guardBits F) =
        2 ^ zExp.toNat / (2 ^ guardBits F * 2 ^ (-zExp).toNat) := by
      rw [← pow_add, ← zpow_natCast, ← zpow_natCast, ← zpow_sub₀ (by norm_num)]
      congr 1
      push_cast
      omega
    have habs : ((n * 2 ^ zExp.toNat : ℕ) : ℚ) /
        (m * (2 ^ guardBits F * 2 ^ (-zExp).toNat) : ℕ) = q := by
      rw [← hq, hexp]
      push_cast
      rw [div_mul_div_comm]
    rw [signedQuot, habs, signedSteps]
    cases neg
    · rfl
    · exact neg_mul q F.unit
  have hfrac : 1 ≤ F.fracBits := le_trans (by decide) hF.frac_ge
  have hexp : 2 ≤ F.expBits := le_trans (by decide) hF.exp_ge
  rw [roundAndPackFloat_eq hF neg hlo hhi hz hz', hround, ← hv]
  exact Format.rounds_quot hfrac hexp hd hlow hhigh neg

/-! ## One place -/

theorem width_sub_one (hF : Usable F) : width F - 1 = F.fracBits + guardBits F + 1 := by
  rw [width_eq hF]
  rfl

/-- A word of one or two places before the binary point is normalized and rounded. -/
theorem onePlace_rounds (hF : Usable F) (neg : Bool) {zExp : ℤ} (hlo : -2 ^ 15 < zExp)
    (hhi : zExp < 2 ^ 15) {zSig n m : Nat} (hm : 0 < m) (hz : zSig = jam n m)
    (hs : 2 ^ (F.fracBits + guardBits F - 1) ≤ zSig)
    (hs' : zSig < 2 ^ (F.fracBits + guardBits F + 1)) {q : ℚ}
    (hq : (n : ℚ) / m * 2 ^ (zExp - guardBits F) = q) :
    F.Rounds (signedSteps F neg q)
      (if zSig * 2 % 2 ^ width F < 2 ^ (width F - 1) then
        roundAndPackFloat F default neg (zExp - 1) (zSig * 2 % 2 ^ width F)
      else roundAndPackFloat F default neg zExp zSig) := by
  have hge := hF.exp_ge
  have hg : 3 ≤ guardBits F := by
    unfold guardBits
    omega
  have hw : 2 ^ width F = 2 ^ (F.fracBits + guardBits F + 1) * 2 := by
    rw [← Nat.pow_succ, width_eq hF]
  have htop : 2 ^ (F.fracBits + guardBits F + 1) = 2 ^ (F.fracBits + guardBits F) * 2 :=
    Nat.pow_succ ..
  have hmid : 2 ^ (F.fracBits + guardBits F) = 2 ^ (F.fracBits + guardBits F - 1) * 2 := by
    rw [← Nat.pow_succ]
    congr 1
    omega
  rw [Nat.mod_eq_of_lt (by omega), width_sub_one hF]
  by_cases hc : zSig * 2 < 2 ^ (F.fracBits + guardBits F + 1)
  · rw [if_pos hc]
    have hsplit : 2 ^ (guardBits F - 1) = 2 ^ (guardBits F - 2) * 2 := by
      rw [← Nat.pow_succ]
      congr 1
      omega
    have hstands : Stands (2 ^ (guardBits F - 1)) (zSig * 2) (n * 2) m := by
      rw [hsplit, hz]
      exact (Ieee.stands_jam n hm (dvd_pow_self 2 (by omega))).mul Nat.two_pos
    refine roundAndPackFloat_rounds hF neg (by omega) (by omega) (by omega) hc hm hstands ?_
    rw [← hq, show zExp - 1 - guardBits F = zExp - guardBits F - 1 by ring, zpow_sub₀ (by norm_num)]
    push_cast
    field_simp
  · rw [if_neg hc]
    refine roundAndPackFloat_rounds hF neg (by omega) hhi (by omega) hs' hm ?_ hq
    rw [hz]
    exact Ieee.stands_jam n hm (dvd_pow_self 2 (by omega))

end Format

end Softfloat

end NemuMips32
