/-
  Addition and subtraction (`float32_add`, `float32_sub` and their 64-bit copies) with the zeroed
  status: magnitudes are added (`addFloatSigs`) or subtracted (`subFloatSigs`) after the smaller
  operand is shifted right with a sticky bit, and the result is the exact one rounded once.

  A sum of significands is normalized within one place. A difference can lose many leading places,
  but then the exponents are at most one apart and nothing was shifted out.
-/
import NemuMips32.Lib.Arithmetic
import NemuMips32.SoftfloatPack
import Mathlib.Tactic.LinearCombination

namespace NemuMips32

namespace Softfloat

open Ieee (Format Stands jam)

/-! ## Sticky bits -/

theorem jam_lt_iff (n : Nat) {m c : Nat} (hm : 0 < m) : jam n m < 2 * c ↔ n < m * (2 * c) := by
  have := (Ieee.stands_jam n hm (dvd_refl 2)).le_iff Nat.two_pos hm c
  omega

theorem jam_le (n : Nat) {m : Nat} (hm : 0 < m) : jam n m ≤ n := by
  have hdm := Nat.div_add_mod n m
  have hle : n / m ≤ m * (n / m) := Nat.le_mul_of_pos_left _ hm
  rw [jam, Ieee.or_one]
  split_ifs with h
  · exact Nat.div_le_self n m
  · omega

theorem jam_add {a : Nat} (ha : 2 ∣ a) (b : Nat) {m : Nat} (hm : 0 < m) :
    a + jam b m = jam (a * m + b) m := by
  have hd : (a * m + b) / m = a + b / m := by
    rw [Nat.mul_comm, Nat.mul_add_div hm]
  have hr : (a * m + b) % m = b % m := by
    rw [Nat.mul_comm, Nat.mul_add_mod]
  rw [jam, jam, hd, hr, Ieee.or_one, Ieee.or_one]
  generalize b / m = q
  split_ifs <;> omega

theorem sub_jam {a b : Nat} (ha : 2 ∣ a) {m : Nat} (hm : 0 < m) (hb : b ≤ a * m) :
    a - jam b m = jam (a * m - b) m := by
  have hdm := Nat.div_add_mod b m
  have hr := Nat.mod_lt b hm
  rw [jam, jam, Ieee.or_one, Ieee.or_one]
  generalize b / m = q at *
  generalize b % m = r at *
  by_cases h0 : r = 0
  · have hsub : a * m - b = m * (a - q) := by
      rw [Nat.mul_sub, Nat.mul_comm a]
      omega
    rw [hsub, Nat.mul_mod_right, if_pos h0, if_pos rfl, Nat.mul_div_cancel_left _ hm]
  · have hq : q < a := by
      rw [← Nat.mul_lt_mul_left hm, Nat.mul_comm m a]
      omega
    have hsub : a * m - b = m * (a - q - 1) + (m - r) := by
      have h1 : m * (a - q - 1) + m = m * (a - q) := by
        rw [← Nat.mul_succ]
        congr 1
        omega
      have h2 : m * (a - q) = a * m - m * q := by rw [Nat.mul_sub, Nat.mul_comm m a]
      omega
    have hlt : m - r < m := by omega
    rw [hsub, Nat.mul_add_mod, Nat.mod_eq_of_lt hlt, if_neg h0, if_neg (by omega),
      Nat.mul_add_div hm, Nat.div_eq_of_lt hlt]
    omega

/-! ## Significands -/

theorem or_two_pow {x k : Nat} (h : x < 2 ^ k) : x ||| 2 ^ k = x + 2 ^ k := by
  have := Nat.two_pow_add_eq_or_of_lt h 1
  rw [Nat.mul_one] at this
  rw [Nat.or_comm, ← this, Nat.add_comm]

section Format

variable {F : Format} (a b : Nat)

theorem or_hidden (s : Nat) : F.fraction a <<< s ||| 2 ^ (F.fracBits + s) =
    (2 ^ F.fracBits + F.fraction a) * 2 ^ s := by
  rw [Nat.shiftLeft_eq, or_two_pow, Nat.pow_add]
  · ring
  · rw [Nat.pow_add]
    exact Nat.mul_lt_mul_of_pos_right (F.fraction_lt a) (Nat.two_pow_pos s)

/-- The aligned significand of a pattern. -/
theorem hidden_eq (s : Nat) : hidden (F.exponent a) (F.fraction a <<< s) (F.fracBits + s) =
    F.significand a * 2 ^ s := by
  unfold hidden Format.significand
  split_ifs
  · exact Nat.shiftLeft_eq ..
  · exact or_hidden a s

theorem significand_of_ne {a : Nat} (h : F.exponent a ≠ 0) :
    F.significand a = 2 ^ F.fracBits + F.fraction a := if_neg h

theorem significand_of_eq {a : Nat} (h : F.exponent a = 0) : F.significand a = F.fraction a :=
  if_pos h

/-- The exponents, with the smaller one at least 1, differ by the gap. -/
theorem expGap_eq {big small : Nat} (h : small < big) :
    big - 1 = small - 1 + expGap big small := by
  unfold expGap
  split_ifs <;> omega

/-- Shifted into the place of the greater exponent, a significand has no hidden bit left. -/
theorem significand_lt_gap {a big : Nat} (h : F.exponent a < big) :
    F.significand a < 2 ^ expGap big (F.exponent a) * 2 ^ F.fracBits := by
  have hp := Nat.two_pow_pos (expGap big (F.exponent a))
  by_cases h0 : F.exponent a = 0
  · rw [significand_of_eq h0]
    exact lt_of_lt_of_le (F.fraction_lt a) (Nat.le_mul_of_pos_left _ hp)
  · have hone : 2 ^ 1 ≤ 2 ^ expGap big (F.exponent a) := by
      refine Nat.pow_le_pow_right (by decide) ?_
      rw [expGap, if_neg h0]
      omega
    calc F.significand a < 2 ^ (F.fracBits + 1) := F.significand_lt a
      _ = 2 ^ 1 * 2 ^ F.fracBits := by rw [Nat.pow_succ, Nat.mul_comm, Nat.pow_one]
      _ ≤ _ := Nat.mul_le_mul_right _ hone

theorem steps_of_gap {big : Nat} (h : F.exponent b < big) (n : Nat) :
    n * 2 ^ (big - 1) + F.steps b =
      (n * 2 ^ expGap big (F.exponent b) + F.significand b) * 2 ^ (F.exponent b - 1) := by
  rw [expGap_eq h, Nat.pow_add, Format.steps]
  ring

/-- The bound that the exponent of a pattern keeps. -/
theorem exponent_lt (hF : Usable F) : F.exponent a < 2 ^ 14 :=
  lt_of_lt_of_le (Nat.mod_lt _ (Nat.two_pow_pos _)) (Nat.pow_le_pow_right (by decide) hF.exp_le)

/-! ## Addition of magnitudes -/

theorem addAligned_eq (st : ArithStatus) (zSign : Bool) (zExp : ℤ) (aSig bSig : Nat) :
    addAligned F st zSign zExp aSig bSig =
      if (aSig + bSig) * 2 % 2 ^ width F < 2 ^ (width F - 1) then
        roundAndPackFloat F st zSign (zExp - 1) ((aSig + bSig) * 2 % 2 ^ width F)
      else roundAndPackFloat F st zSign zExp (aSig + bSig) := by
  unfold addAligned
  split_ifs <;> first | rfl | omega

/-- The magnitudes of an aligned sum, with the smaller operand second. -/
theorem addBigger_rounds (hF : Usable F) (neg : Bool) {a b : Nat} (h : F.exponent b < F.exponent a)
    {aSig bSig : Nat} (hsum : aSig + bSig = F.significand a * 2 ^ (guardBits F - 1) +
      jam (F.significand b * 2 ^ (guardBits F - 1)) (2 ^ expGap (F.exponent a) (F.exponent b))) :
    F.Rounds (signedSteps F neg (F.steps a + F.steps b : ℕ))
      (addAligned F default neg (F.exponent a) aSig bSig) := by
  have hge := hF.exp_ge
  have hx : guardBits F = guardBits F - 1 + 1 := by
    unfold guardBits
    omega
  have hm : 0 < 2 ^ expGap (F.exponent a) (F.exponent b) := Nat.two_pow_pos _
  have heven : 2 ∣ F.significand a * 2 ^ (guardBits F - 1) :=
    (dvd_pow_self 2 (by unfold guardBits; omega)).mul_left _
  have hsa := significand_of_ne (F := F) (a := a) (by omega)
  have hsa' := F.significand_lt a
  have hsb := F.significand_lt b
  have hpow : ∀ i, 2 ^ (F.fracBits + i + (guardBits F - 1)) =
      2 ^ (F.fracBits + i) * 2 ^ (guardBits F - 1) := fun i => Nat.pow_add ..
  have hp0 := Nat.two_pow_pos (guardBits F - 1)
  have hlo : 2 ^ (F.fracBits + (guardBits F - 1)) ≤
      F.significand a * 2 ^ (guardBits F - 1) := by
    rw [Nat.pow_add]
    exact Nat.mul_le_mul_right _ (by omega)
  have hhi : ∀ c, F.significand c * 2 ^ (guardBits F - 1) <
      2 ^ (F.fracBits + 1 + (guardBits F - 1)) := by
    intro c
    rw [hpow]
    exact Nat.mul_lt_mul_of_pos_right (F.significand_lt c) hp0
  have htop : 2 ^ (F.fracBits + guardBits F + 1) = 2 ^ (F.fracBits + 1 + (guardBits F - 1)) * 2 := by
    rw [← Nat.pow_succ]
    congr 1
    omega
  have hjam := jam_le (F.significand b * 2 ^ (guardBits F - 1)) hm
  have ha := hhi a
  have hb := hhi b
  have hexp := exponent_lt a hF
  have hmid : F.fracBits + guardBits F - 1 = F.fracBits + (guardBits F - 1) := by omega
  rw [addAligned_eq]
  refine onePlace_rounds hF neg (by omega) (by omega) hm (hsum.trans (jam_add heven _ hm))
    (by rw [hmid]; omega) (by omega) ?_
  have hsteps := steps_of_gap b h (F.significand a)
  have hstepa : F.steps a = F.significand a * 2 ^ (F.exponent a - 1) := rfl
  rw [← hstepa] at hsteps
  rw [hsteps]
  have hexp : (2 : ℚ) ^ ((F.exponent a : ℤ) - guardBits F) * 2 ^ (guardBits F - 1) =
      2 ^ (F.exponent a - 1) := by
    rw [← zpow_natCast, ← zpow_natCast, ← zpow_add₀ (by norm_num)]
    congr 1
    omega
  have hgap := expGap_eq h
  rw [hgap, pow_add] at hexp
  push_cast
  field_simp
  linear_combination ((F.significand a : ℚ) * 2 ^ expGap (F.exponent a) (F.exponent b) +
    F.significand b) * hexp

theorem isFinite_iff : F.isFinite a = true ↔ F.exponent a ≠ maxExp F := bne_iff_ne

theorem signedSteps_eq (neg : Bool) (n m : Nat) :
    signedSteps F neg ((n : ℚ) / m) = Ieee.signedQuot neg n m * F.unit := by
  unfold signedSteps Ieee.signedQuot
  cases neg
  · rfl
  · exact (neg_mul _ _).symm

/-- What is below the normal range needs no rounding. -/
theorem subnormal_rounds (hF : Usable F) (neg : Bool) {n : Nat} (hn : n < 2 ^ (F.fracBits + 1)) :
    F.Rounds (signedSteps F neg n) (packFloat F neg 0 n) := by
  have hfrac : 1 ≤ F.fracBits := le_trans (by decide) hF.frac_ge
  have hexp : 2 ≤ F.expBits := le_trans (by decide) hF.exp_ge
  have hmax := maxExp_lt hF
  have hround : Ieee.roundQuot n 1 = n := by simp [Ieee.roundQuot, Nat.mod_one]
  have hle : n ≤ F.infinity := by
    have : 2 * 2 ^ F.fracBits ≤ maxExp F * 2 ^ F.fracBits := Nat.mul_le_mul_right _ (by omega)
    rw [Nat.pow_succ] at hn
    rw [infinity_eq]
    omega
  have hinf : F.infinity < 2 ^ (width F - 1) := infinity_le
  have h := Format.rounds_quot (F := F) hfrac hexp (k := 0) Nat.one_pos (.inl rfl)
    (by simpa using hn) neg
  have hpack := packFloat_eq (F := F) neg 0 n (by omega)
  rw [Nat.zero_mul, Nat.zero_add] at hpack
  rw [Nat.zero_mul, Nat.zero_add, Nat.pow_zero, Nat.mul_one, hround, min_eq_left hle,
    ← signedSteps_eq, Nat.cast_one, div_one] at h
  exact (congrArg (F.Rounds _) hpack).mpr h

/-- The sum of the magnitudes of two numbers is rounded. -/
theorem addFloatSigs_rounds (hF : Usable F) (neg : Bool) {a b : Nat} (ha : F.isFinite a = true)
    (hb : F.isFinite b = true) :
    F.Rounds (signedSteps F neg (F.steps a + F.steps b : ℕ)) (addFloatSigs F default a b neg) := by
  rw [isFinite_iff] at ha hb
  have hge := hF.exp_ge
  have hx : guardBits F = guardBits F - 1 + 1 := by
    unfold guardBits
    omega
  have hword : ∀ c, F.significand c * 2 ^ (guardBits F - 1) < 2 ^ width F := by
    intro c
    calc F.significand c * 2 ^ (guardBits F - 1)
        < 2 ^ (F.fracBits + 1) * 2 ^ (guardBits F - 1) :=
          Nat.mul_lt_mul_of_pos_right (F.significand_lt c) (Nat.two_pow_pos _)
      _ = 2 ^ (F.fracBits + 1 + (guardBits F - 1)) := (Nat.pow_add ..).symm
      _ ≤ 2 ^ width F := Nat.pow_le_pow_right (by decide) (by rw [width_eq hF]; omega)
  unfold addFloatSigs
  simp only []
  rcases lt_trichotomy (F.exponent b) (F.exponent a) with h | h | h
  · rw [if_pos h, if_neg ha]
    refine addBigger_rounds hF neg h ?_
    rw [hidden_eq, or_hidden, significand_of_ne (by omega : F.exponent a ≠ 0),
      shiftRightJamming_eq (hword b)]
  · rw [if_neg (by omega), if_neg (by omega), if_neg ha, Nat.shiftLeft_eq, Nat.shiftLeft_eq]
    have hsum : F.steps a + F.steps b =
        (F.significand a + F.significand b) * 2 ^ (F.exponent a - 1) := by
      rw [Format.steps, Format.steps, h, Nat.add_mul]
    by_cases h0 : F.exponent a = 0
    · have hz : (F.fraction a * 2 ^ (guardBits F - 1) + F.fraction b * 2 ^ (guardBits F - 1)) >>>
          (guardBits F - 1) = F.fraction a + F.fraction b := by
        rw [← Nat.add_mul, Nat.shiftRight_eq_div_pow, Nat.mul_div_cancel _ (Nat.two_pow_pos _)]
      have hlt : F.fraction a + F.fraction b < 2 ^ (F.fracBits + 1) := by
        have := F.fraction_lt a
        have := F.fraction_lt b
        rw [Nat.pow_succ]
        omega
      rw [if_pos h0, if_neg (show ¬ (default : ArithStatus).flushToZero = true from
        Bool.false_ne_true), hz, hsum, h0, significand_of_eq h0, significand_of_eq (h.trans h0)]
      simpa using subnormal_rounds hF neg hlt
    · -- two hidden bits
      have hsig : 2 ^ (F.fracBits + (guardBits F - 1) + 1) + F.fraction a * 2 ^ (guardBits F - 1) +
          F.fraction b * 2 ^ (guardBits F - 1) =
          (F.significand a + F.significand b) * 2 ^ (guardBits F - 1) := by
        rw [significand_of_ne h0, significand_of_ne (fun hb0 => h0 (h.symm.trans hb0)), Nat.pow_succ,
          Nat.pow_add]
        ring
      have hlo : 2 ^ (F.fracBits + guardBits F) ≤
          (F.significand a + F.significand b) * 2 ^ (guardBits F - 1) := by
        rw [← hsig, hx]
        simp only [Nat.add_sub_cancel, ← Nat.add_assoc]
        omega
      have hhi : (F.significand a + F.significand b) * 2 ^ (guardBits F - 1) <
          2 ^ (F.fracBits + guardBits F + 1) := by
        have hsa := F.significand_lt a
        have hsb := F.significand_lt b
        calc (F.significand a + F.significand b) * 2 ^ (guardBits F - 1)
            < 2 ^ (F.fracBits + 1 + 1) * 2 ^ (guardBits F - 1) :=
              Nat.mul_lt_mul_of_pos_right (by rw [Nat.pow_succ]; omega) (Nat.two_pow_pos _)
          _ = 2 ^ (F.fracBits + guardBits F + 1) := by
              rw [← Nat.pow_add]
              congr 1
              omega
      have hexp := exponent_lt a hF
      rw [if_neg h0, hsig, hsum]
      refine roundAndPackFloat_rounds hF neg (by omega) (by omega) hlo hhi Nat.one_pos
        (Stands.self _ _) ?_
      have hpow : (2 : ℚ) ^ (guardBits F - 1) * 2 ^ ((F.exponent a : ℤ) - guardBits F) =
          2 ^ (F.exponent a - 1) := by
        rw [← zpow_natCast, ← zpow_natCast, ← zpow_add₀ (by norm_num)]
        congr 1
        omega
      push_cast
      rw [div_one, mul_assoc, hpow]
  · rw [if_neg (by omega), if_pos h, if_neg hb, Nat.add_comm (F.steps a)]
    have hjam : jam (F.significand a * 2 ^ (guardBits F - 1))
        (2 ^ expGap (F.exponent b) (F.exponent a)) < 2 ^ (F.fracBits + (guardBits F - 1)) := by
      have htwo : 2 ^ (F.fracBits + (guardBits F - 1)) =
          2 * 2 ^ (F.fracBits + (guardBits F - 1) - 1) := by
        rw [← Nat.pow_succ']
        congr 1
        have := hF.frac_ge
        omega
      rw [htwo, jam_lt_iff _ (Nat.two_pow_pos _), ← htwo, Nat.pow_add, ← Nat.mul_assoc]
      exact Nat.mul_lt_mul_of_pos_right (significand_lt_gap h) (Nat.two_pow_pos _)
    refine addBigger_rounds hF neg h ?_
    rw [hidden_eq, shiftRightJamming_eq (hword a), or_two_pow hjam,
      significand_of_ne (by omega : F.exponent b ≠ 0), Nat.pow_add, Nat.shiftLeft_eq]
    ring

/-! ## Normalization -/

/-- Shifted to `k` leading zeros. -/
theorem normalize_bounds {w k z : Nat} (hk : k < w) (hz : z ≠ 0) (hlt : z < 2 ^ (w - k)) :
    2 ^ (w - 1 - k) ≤ z <<< (countLeadingZeros w z - k) ∧
      z <<< (countLeadingZeros w z - k) < 2 ^ (w - k) := by
  have hlo := Nat.log2_self_le hz
  have hhi := Nat.lt_log2_self (n := z)
  have hlog : z.log2 < w - k := (Nat.log2_lt hz).2 hlt
  rw [countLeadingZeros, if_neg hz, Nat.shiftLeft_eq]
  have h1 : 2 ^ (w - 1 - k) = 2 ^ z.log2 * 2 ^ (w - 1 - z.log2 - k) := by
    rw [← Nat.pow_add]
    congr 1
    omega
  have h2 : 2 ^ (w - k) = 2 ^ (z.log2 + 1) * 2 ^ (w - 1 - z.log2 - k) := by
    rw [← Nat.pow_add]
    congr 1
    omega
  rw [h1, h2]
  exact ⟨Nat.mul_le_mul_right _ hlo, Nat.mul_lt_mul_of_pos_right hhi (Nat.two_pow_pos _)⟩

/-- A difference of significands is exact, or has lost one place at most. -/
theorem normalizeRound_rounds (hF : Usable F) (neg : Bool) {big : Nat} (hhi : big < 2 ^ 14)
    {zSig n m : Nat} (hm : 0 < m) (hsig : zSig = jam n m) (hz : zSig ≠ 0)
    (hz' : zSig < 2 ^ (F.fracBits + guardBits F + 1))
    (hexact : m ∣ n ∨ 2 ^ (F.fracBits + guardBits F - 1) ≤ zSig) {q : ℚ}
    (hq : (n : ℚ) / m * 2 ^ ((big : ℤ) - 1 - guardBits F) = q) :
    F.Rounds (signedSteps F neg q)
      (normalizeRoundAndPackFloat F default neg ((big : ℤ) - 1) zSig) := by
  have hge := hF.exp_ge
  have hw := width_eq hF
  have hfrac := hF.frac_le
  have hexp := hF.exp_le
  have hx : 3 ≤ guardBits F := by
    unfold guardBits
    omega
  have hx' : guardBits F ≤ 13 := by
    unfold guardBits
    omega
  have hbounds := normalize_bounds (w := width F) (k := 1) (by omega) hz
    (by rwa [show width F - 1 = F.fracBits + guardBits F + 1 by omega])
  rw [show width F - 1 - 1 = F.fracBits + guardBits F by omega,
    show width F - 1 = F.fracBits + guardBits F + 1 by omega] at hbounds
  have hclz : countLeadingZeros (width F) zSig ≤ width F := by
    unfold countLeadingZeros
    split_ifs <;> omega
  unfold normalizeRoundAndPackFloat
  simp only []
  generalize hs : countLeadingZeros (width F) zSig - 1 = s at *
  have hstands : Stands (2 ^ (guardBits F - 1)) (zSig <<< s) (n * 2 ^ s) m := by
    rw [Nat.shiftLeft_eq]
    rcases hexact with hdvd | hbig
    · obtain ⟨k, rfl⟩ := hdvd
      have hk : zSig = k := by
        rw [hsig, jam, if_pos (Nat.mul_mod_right m k), Nat.mul_div_cancel_left _ hm]
      rw [hk, Nat.mul_comm m, Nat.mul_right_comm]
      exact Stands.of_mul _ _ hm
    · have hs1 : s ≤ 1 := by
        refine Nat.le_of_not_lt fun hs2 => absurd hbounds.2 (Nat.not_lt.2 ?_)
        rw [Nat.shiftLeft_eq]
        calc 2 ^ (F.fracBits + guardBits F + 1)
            = 2 ^ (F.fracBits + guardBits F - 1) * 2 ^ 2 := by
              rw [← Nat.pow_add]
              congr 1
              omega
          _ ≤ zSig * 2 ^ s := Nat.mul_le_mul hbig (Nat.pow_le_pow_right (by decide) hs2)
      have hsplit : 2 ^ (guardBits F - 1) = 2 ^ (guardBits F - 1 - s) * 2 ^ s := by
        rw [← Nat.pow_add]
        congr 1
        omega
      rw [hsplit, hsig]
      exact (Ieee.stands_jam n hm (dvd_pow_self 2 (by omega))).mul (Nat.two_pow_pos s)
  refine roundAndPackFloat_rounds hF neg (by omega) (by omega) hbounds.1 hbounds.2 hm hstands ?_
  rw [← hq, show (big : ℤ) - 1 - s - guardBits F = (big - 1 - guardBits F) - s by ring,
    zpow_sub₀ (by norm_num), zpow_natCast]
  push_cast
  field_simp

/-! ## Subtraction of magnitudes -/

theorem signedSteps_not (neg : Bool) (q : ℚ) : signedSteps F (!neg) (-q) = signedSteps F neg q := by
  cases neg <;> simp [signedSteps]

/-- The difference of magnitudes, with the greater exponent first. -/
theorem subBigger_rounds (hF : Usable F) (neg : Bool) {a b : Nat}
    (h : F.exponent b < F.exponent a) :
    F.Rounds (signedSteps F neg ((F.steps a : ℚ) - F.steps b))
      (normalizeRoundAndPackFloat F default neg ((F.exponent a : ℤ) - 1)
        (F.significand a * 2 ^ guardBits F - jam (F.significand b * 2 ^ guardBits F)
          (2 ^ expGap (F.exponent a) (F.exponent b)))) := by
  have hge := hF.exp_ge
  have hm : 0 < 2 ^ expGap (F.exponent a) (F.exponent b) := Nat.two_pow_pos _
  have hx : 0 < 2 ^ guardBits F := Nat.two_pow_pos _
  have hg : 3 ≤ guardBits F := by
    unfold guardBits
    omega
  have heven : 2 ∣ F.significand a * 2 ^ guardBits F := (dvd_pow_self 2 (by omega)).mul_left _
  have hsa : 2 ^ F.fracBits ≤ F.significand a := by
    rw [significand_of_ne (by omega)]
    exact Nat.le_add_right _ _
  have hlt : F.significand b <
      F.significand a * 2 ^ expGap (F.exponent a) (F.exponent b) := by
    refine lt_of_lt_of_le (significand_lt_gap h) ?_
    rw [Nat.mul_comm]
    exact Nat.mul_le_mul_right _ hsa
  have hltx : F.significand b * 2 ^ guardBits F <
      F.significand a * 2 ^ guardBits F * 2 ^ expGap (F.exponent a) (F.exponent b) := by
    rw [Nat.mul_right_comm]
    exact Nat.mul_lt_mul_of_pos_right hlt hx
  have hsub := sub_jam heven hm hltx.le
  have hjam : jam (F.significand b * 2 ^ guardBits F)
      (2 ^ expGap (F.exponent a) (F.exponent b)) < F.significand a * 2 ^ guardBits F := by
    obtain ⟨t, ht⟩ := heven
    rw [ht] at hltx ⊢
    rw [jam_lt_iff _ hm, Nat.mul_comm (2 ^ _)]
    exact hltx
  have htop : F.significand a * 2 ^ guardBits F < 2 ^ (F.fracBits + guardBits F + 1) := by
    rw [Nat.add_right_comm, Nat.pow_add _ (F.fracBits + 1)]
    exact Nat.mul_lt_mul_of_pos_right (F.significand_lt a) hx
  have hexact : 2 ^ expGap (F.exponent a) (F.exponent b) ∣
        F.significand a * 2 ^ guardBits F * 2 ^ expGap (F.exponent a) (F.exponent b) -
          F.significand b * 2 ^ guardBits F ∨
      2 ^ (F.fracBits + guardBits F - 1) ≤ F.significand a * 2 ^ guardBits F -
        jam (F.significand b * 2 ^ guardBits F) (2 ^ expGap (F.exponent a) (F.exponent b)) := by
    rcases Nat.lt_or_ge 1 (expGap (F.exponent a) (F.exponent b)) with hk | hk
    · -- at least two places apart
      have hhalf : 2 ^ (F.fracBits + guardBits F) = 2 * 2 ^ (F.fracBits + guardBits F - 1) := by
        rw [← Nat.pow_succ']
        congr 1
        omega
      have hsax : 2 ^ (F.fracBits + guardBits F) ≤ F.significand a * 2 ^ guardBits F := by
        rw [Nat.pow_add]
        exact Nat.mul_le_mul_right _ hsa
      have hsmall : jam (F.significand b * 2 ^ guardBits F)
          (2 ^ expGap (F.exponent a) (F.exponent b)) < 2 ^ (F.fracBits + guardBits F - 1) := by
        have hsplit : 2 ^ (F.fracBits + guardBits F - 1) =
            2 * 2 ^ (F.fracBits + guardBits F - 2) := by
          rw [← Nat.pow_succ']
          congr 1
          omega
        rw [hsplit, jam_lt_iff _ hm, ← hsplit]
        calc F.significand b * 2 ^ guardBits F
            < 2 ^ (F.fracBits + 1) * 2 ^ guardBits F :=
              Nat.mul_lt_mul_of_pos_right (F.significand_lt b) hx
          _ = 2 ^ 2 * 2 ^ (F.fracBits + guardBits F - 1) := by
              rw [← Nat.pow_add, ← Nat.pow_add]
              congr 1
              omega
          _ ≤ _ := Nat.mul_le_mul_right _ (Nat.pow_le_pow_right (by decide) hk)
      exact .inr (by omega)
    · refine .inl ((Nat.dvd_sub (Nat.dvd_mul_left _ _) ?_))
      exact (Nat.pow_dvd_pow 2 (hk.trans (by omega))).mul_left _
  refine normalizeRound_rounds hF neg (exponent_lt a hF) hm hsub (by omega) (by omega) hexact ?_
  have hexp : (2 : ℚ) ^ ((F.exponent a : ℤ) - 1 - guardBits F) * 2 ^ guardBits F =
      2 ^ (F.exponent b - 1) * 2 ^ expGap (F.exponent a) (F.exponent b) := by
    rw [← pow_add, ← expGap_eq h, ← zpow_natCast, ← zpow_natCast, ← zpow_add₀ (by norm_num)]
    congr 1
    omega
  have hstep : (F.steps a : ℚ) = F.significand a *
      (2 ^ (F.exponent b - 1) * 2 ^ expGap (F.exponent a) (F.exponent b)) := by
    rw [← pow_add, ← expGap_eq h, Format.steps]
    push_cast
    rfl
  rw [Nat.cast_sub hltx.le, hstep, Format.steps]
  push_cast
  rw [div_mul_eq_mul_div, div_eq_iff (by positivity)]
  linear_combination (F.significand a * 2 ^ expGap (F.exponent a) (F.exponent b) -
    F.significand b : ℚ) * hexp

theorem significand_word (hF : Usable F) (c : Nat) {s : Nat} (hs : s ≤ guardBits F) :
    F.significand c * 2 ^ s < 2 ^ width F := by
  calc F.significand c * 2 ^ s < 2 ^ (F.fracBits + 1) * 2 ^ s :=
        Nat.mul_lt_mul_of_pos_right (F.significand_lt c) (Nat.two_pow_pos _)
    _ = 2 ^ (F.fracBits + 1 + s) := (Nat.pow_add ..).symm
    _ ≤ 2 ^ width F := Nat.pow_le_pow_right (by decide) (by rw [width_eq hF]; omega)

/-- The difference at equal exponents, with the greater fraction first. -/
theorem subEqual_rounds (hF : Usable F) (neg : Bool) {a b : Nat} (h : F.exponent b = F.exponent a)
    (hlt : F.fraction b <<< guardBits F < F.fraction a <<< guardBits F) :
    F.Rounds (signedSteps F neg ((F.steps a : ℚ) - F.steps b))
      (normalizeRoundAndPackFloat F default neg
        (((if F.exponent a = 0 then 1 else F.exponent a : ℕ) : ℤ) - 1)
        (F.fraction a <<< guardBits F - F.fraction b <<< guardBits F)) := by
  have hx : 0 < 2 ^ guardBits F := Nat.two_pow_pos _
  have hexp := exponent_lt a hF
  rw [Nat.shiftLeft_eq, Nat.shiftLeft_eq] at hlt ⊢
  have hfrac : F.fraction b < F.fraction a := (Nat.mul_lt_mul_right hx).1 hlt
  have htop : F.fraction a * 2 ^ guardBits F < 2 ^ (F.fracBits + guardBits F) := by
    rw [Nat.pow_add]
    exact Nat.mul_lt_mul_of_pos_right (F.fraction_lt a) hx
  have htop' : 2 ^ (F.fracBits + guardBits F + 1) = 2 ^ (F.fracBits + guardBits F) * 2 :=
    Nat.pow_succ ..
  have hself : ∀ n, n = jam n 1 := by
    intro n
    simp [jam, Nat.mod_one]
  refine normalizeRound_rounds hF neg (by split_ifs <;> omega) Nat.one_pos (hself _) (by omega)
    (by omega) (.inl (one_dvd _)) ?_
  have hstep : (F.steps a : ℚ) - F.steps b =
      ((F.fraction a : ℚ) - F.fraction b) * 2 ^ (F.exponent a - 1) := by
    rw [Format.steps, Format.steps, Format.significand, Format.significand, h]
    split_ifs with h0
    · rw [h0]
      push_cast
      ring
    · push_cast
      ring
  have hpow : (2 : ℚ) ^ (((if F.exponent a = 0 then 1 else F.exponent a : ℕ) : ℤ) - 1 -
      guardBits F) * 2 ^ guardBits F = 2 ^ (F.exponent a - 1) := by
    rw [← zpow_natCast, ← zpow_natCast, ← zpow_add₀ (by norm_num)]
    congr 1
    split_ifs <;> omega
  rw [hstep, Nat.cast_sub hlt.le, ← hpow]
  push_cast
  ring

/-- The difference of the magnitudes of two numbers is rounded. -/
theorem subFloatSigs_rounds (hF : Usable F) (neg : Bool) {a b : Nat} (ha : F.isFinite a = true)
    (hb : F.isFinite b = true) :
    F.Rounds (signedSteps F neg ((F.steps a : ℚ) - F.steps b))
      (subFloatSigs F default a b neg) := by
  rw [isFinite_iff] at ha hb
  have hflip : (F.steps a : ℚ) - F.steps b = -((F.steps b : ℚ) - F.steps a) := by ring
  unfold subFloatSigs
  simp only []
  rcases lt_trichotomy (F.exponent b) (F.exponent a) with h | h | h
  · rw [if_pos h, if_neg ha, hidden_eq, or_hidden, shiftRightJamming_eq (significand_word hF b le_rfl),
      ← significand_of_ne (by omega : F.exponent a ≠ 0)]
    exact subBigger_rounds hF neg h
  · rw [if_neg (by omega), if_neg (by omega), if_neg ha]
    rcases lt_trichotomy (F.fraction b <<< guardBits F) (F.fraction a <<< guardBits F)
      with hlt | heq | hlt
    · rw [if_pos hlt]
      exact subEqual_rounds hF neg h hlt
    · -- equal magnitudes give positive zero
      have hfrac : F.fraction b = F.fraction a := by
        rw [Nat.shiftLeft_eq, Nat.shiftLeft_eq] at heq
        exact Nat.eq_of_mul_eq_mul_right (Nat.two_pow_pos _) heq
      have hsteps : (F.steps a : ℚ) - F.steps b = 0 := by
        rw [Format.steps, Format.steps, Format.significand, Format.significand, h, hfrac, sub_self]
      have hzero : signedSteps F neg 0 = signedSteps F false ((0 : ℕ) : ℚ) := by
        cases neg <;> simp [signedSteps]
      rw [if_neg (by omega), if_neg (by omega), hsteps, hzero]
      exact subnormal_rounds hF false (Nat.two_pow_pos _)
    · rw [if_neg (by omega), if_pos hlt, hflip, ← signedSteps_not, neg_neg, ← h]
      exact subEqual_rounds hF (!neg) h.symm hlt
  · rw [if_neg (by omega), if_pos h, if_neg hb, hidden_eq, or_hidden,
      shiftRightJamming_eq (significand_word hF a le_rfl),
      ← significand_of_ne (by omega : F.exponent b ≠ 0), hflip, ← signedSteps_not, neg_neg]
    exact subBigger_rounds hF (!neg) h

/-! ## Zeros and infinities -/

theorem packFloat_zero (neg : Bool) : packFloat F neg 0 0 = F.withSign neg 0 := by
  have := packFloat_eq (F := F) neg 0 0 (by simp)
  rwa [Nat.zero_mul, Nat.zero_add] at this

theorem packFloat_infinity (neg : Bool) : packFloat F neg (maxExp F) 0 = F.withSign neg F.infinity := by
  have hinf : F.infinity < 2 ^ (width F - 1) := infinity_le
  have := packFloat_eq (F := F) neg (maxExp F) 0 (by rw [← infinity_eq]; omega)
  rwa [Nat.add_zero] at this

theorem eq_withSign {a : Nat} (ha : a < 2 ^ width F) :
    a = F.withSign (F.negative a) (F.exponent a * 2 ^ F.fracBits + F.fraction a) := by
  have hdm := Nat.div_add_mod a (2 ^ F.fracBits)
  have hdm' := Nat.div_add_mod (a / 2 ^ F.fracBits) (2 ^ F.expBits)
  have hpow : 2 ^ (F.fracBits + F.expBits) = 2 ^ F.fracBits * 2 ^ F.expBits := Nat.pow_add ..
  have hdiv : a / 2 ^ (F.fracBits + F.expBits) = a / 2 ^ F.fracBits / 2 ^ F.expBits := by
    rw [hpow, Nat.div_div_eq_div_mul]
  have hlt : a / 2 ^ (F.fracBits + F.expBits) < 2 := by
    rw [Nat.div_lt_iff_lt_mul (Nat.two_pow_pos _), Nat.mul_comm, ← Nat.pow_succ]
    exact ha
  have hcomm : F.exponent a * 2 ^ F.fracBits = 2 ^ F.fracBits * F.exponent a := Nat.mul_comm ..
  unfold Format.withSign Format.negative
  rw [hcomm]
  unfold Format.fraction Format.exponent
  rw [hdiv] at hlt ⊢
  rw [hpow]
  have hsplit : 2 ^ F.fracBits * (a / 2 ^ F.fracBits) =
      2 ^ F.fracBits * 2 ^ F.expBits * (a / 2 ^ F.fracBits / 2 ^ F.expBits) +
        2 ^ F.fracBits * (a / 2 ^ F.fracBits % 2 ^ F.expBits) := by
    rw [Nat.mul_assoc, ← Nat.mul_add, hdm']
  rcases Nat.le_one_iff_eq_zero_or_eq_one.1 (Nat.le_of_lt_succ hlt) with h | h <;>
    rw [h] at hsplit ⊢ <;> simp <;> omega

/-- An infinite operand. -/
theorem eq_infinity {a : Nat} (ha : a < 2 ^ width F) (hfin : F.exponent a = maxExp F)
    (hnan : F.isNaN a = false) : F.fraction a = 0 ∧ a = F.withSign (F.negative a) F.infinity := by
  have hfrac : F.fraction a = 0 := by
    have hf : F.isFinite a = false := by
      rw [← Bool.not_eq_true, isFinite_iff]
      exact fun h => h hfin
    rw [Format.isNaN, hf] at hnan
    simpa using hnan
  refine ⟨hfrac, ?_⟩
  have := eq_withSign ha
  rwa [hfrac, hfin, Nat.add_zero, ← infinity_eq] at this

theorem isNaN_defaultNan (hF : Usable F) : F.isNaN (defaultNan F) = true := by
  have hp := hF.frac_ge
  have h1 : 2 ^ F.fracBits = 2 * 2 ^ (F.fracBits - 1) := by
    rw [← Nat.pow_succ']
    congr 1
    omega
  have hE : 2 ≤ 2 ^ F.expBits :=
    Nat.pow_le_pow_right (by decide : 0 < 2) (le_trans (by decide : 1 ≤ 4) hF.exp_ge)
  have hval : defaultNan F =
      2 ^ F.fracBits * (2 * 2 ^ F.expBits - 1) + 2 ^ (F.fracBits - 1) := by
    have hw : 2 ^ width F = 2 ^ F.fracBits * (2 * 2 ^ F.expBits) := by
      rw [← Nat.pow_succ', ← Nat.pow_add]
      rfl
    have hmul : 2 ^ F.fracBits * (2 * 2 ^ F.expBits - 1) + 2 ^ F.fracBits =
        2 ^ F.fracBits * (2 * 2 ^ F.expBits) := by
      rw [← Nat.mul_succ]
      congr 1
      omega
    unfold defaultNan
    omega
  have hlt : 2 ^ (F.fracBits - 1) < 2 ^ F.fracBits := Nat.pow_lt_pow_right (by decide) (by omega)
  have hexp : F.exponent (defaultNan F) = 2 ^ F.expBits - 1 := by
    rw [hval, Format.exponent, Nat.mul_add_div (Nat.two_pow_pos _), Nat.div_eq_of_lt hlt,
      Nat.add_zero, show 2 * 2 ^ F.expBits - 1 = 2 ^ F.expBits + (2 ^ F.expBits - 1) by omega,
      Nat.add_mod_left, Nat.mod_eq_of_lt (by omega)]
  have hfrac : F.fraction (defaultNan F) = 2 ^ (F.fracBits - 1) := by
    rw [hval, Format.fraction, Nat.mul_add_mod, Nat.mod_eq_of_lt hlt]
  have hpos := Nat.two_pow_pos (F.fracBits - 1)
  rw [Format.isNaN, Format.isFinite, hexp, hfrac]
  simp

/-! ## The sum -/

theorem steps_lt_of_exponent {a b : Nat} (h : F.exponent b < F.exponent a) :
    F.steps b < F.steps a := by
  have hsa : 2 ^ F.fracBits ≤ F.significand a := by
    rw [significand_of_ne (by omega)]
    exact Nat.le_add_right _ _
  have hb := significand_lt_gap h
  unfold Format.steps
  rw [expGap_eq h, Nat.pow_add, ← Nat.mul_assoc, Nat.mul_right_comm]
  refine Nat.mul_lt_mul_of_pos_right (lt_of_lt_of_le hb ?_) (Nat.two_pow_pos _)
  rw [Nat.mul_comm]
  exact Nat.mul_le_mul_right _ hsa

theorem fields_of_steps {a b : Nat} (h : F.steps a = F.steps b) :
    F.exponent b = F.exponent a ∧ F.fraction b = F.fraction a := by
  have hexp : F.exponent b = F.exponent a := by
    rcases lt_trichotomy (F.exponent b) (F.exponent a) with hlt | heq | hlt
    · exact absurd h (steps_lt_of_exponent hlt).ne'
    · exact heq
    · exact absurd h (steps_lt_of_exponent hlt).ne
  refine ⟨hexp, ?_⟩
  unfold Format.steps at h
  rw [hexp] at h
  have hsig := Nat.eq_of_mul_eq_mul_right (Nat.two_pow_pos _) h
  unfold Format.significand at hsig
  rw [hexp] at hsig
  split_ifs at hsig <;> omega

theorem addFloatSigs_zero (neg : Bool) {a b : Nat} (h : F.steps a + F.steps b = 0) (hF : Usable F) :
    addFloatSigs F default a b neg = F.withSign neg 0 := by
  obtain ⟨ha, hfa⟩ := Format.isZero_iff.1 (beq_iff_eq.2 (by omega : F.steps a = 0))
  obtain ⟨hb, hfb⟩ := Format.isZero_iff.1 (beq_iff_eq.2 (by omega : F.steps b = 0))
  have hmax := maxExp_lt hF
  have hflush : (default : ArithStatus).flushToZero = false := rfl
  unfold addFloatSigs
  simp only [ha, hb, hfa, hfb, hflush, Nat.zero_shiftLeft, Nat.zero_shiftRight, Nat.add_zero,
    lt_irrefl, if_false, if_true, Bool.false_eq_true]
  rw [if_neg (by omega)]
  exact packFloat_zero neg

theorem subFloatSigs_zero (neg : Bool) {a b : Nat} (h : F.steps a = F.steps b)
    (ha : F.isFinite a = true) : subFloatSigs F default a b neg = F.withSign false 0 := by
  obtain ⟨hexp, hfrac⟩ := fields_of_steps h
  rw [isFinite_iff] at ha
  unfold subFloatSigs
  simp only [hexp, hfrac, lt_irrefl, if_false]
  rw [if_neg ha]
  exact packFloat_zero false

theorem exponent_le (a : Nat) : F.exponent a ≤ maxExp F := by
  have : F.exponent a < 2 ^ F.expBits := Nat.mod_lt _ (Nat.two_pow_pos _)
  unfold maxExp
  omega

theorem exponent_lt_of_isFinite {a : Nat} (ha : F.isFinite a = true) : F.exponent a < maxExp F :=
  lt_of_le_of_ne (exponent_le a) ((isFinite_iff a).1 ha)

section Infinite

variable {a b : Nat} (neg : Bool)

theorem addFloatSigs_infinite (ha : F.exponent a = maxExp F) (hfa : F.fraction a = 0)
    (hb : F.exponent b = maxExp F → F.fraction b = 0) : addFloatSigs F default a b neg = a := by
  unfold addFloatSigs
  rcases (exponent_le (F := F) b).lt_or_eq with h | h
  · simp [h, ha, hfa]
  · simp [h, ha, hfa, hb h]

theorem subFloatSigs_infinite (ha : F.exponent a = maxExp F) (hfa : F.fraction a = 0)
    (hb : F.exponent b < maxExp F) : subFloatSigs F default a b neg = a := by
  unfold subFloatSigs
  simp [ha, hfa, hb]

theorem addFloatSigs_infinite_right (ha : F.exponent a < maxExp F) (hb : F.exponent b = maxExp F)
    (hfb : F.fraction b = 0) : addFloatSigs F default a b neg = F.withSign neg F.infinity := by
  unfold addFloatSigs
  simp [hb, hfb, ha, ha.not_gt, packFloat_infinity]

theorem subFloatSigs_infinite_right (ha : F.exponent a < maxExp F) (hb : F.exponent b = maxExp F)
    (hfb : F.fraction b = 0) :
    subFloatSigs F default a b neg = F.withSign (!neg) F.infinity := by
  unfold subFloatSigs
  simp [hb, hfb, ha, ha.not_gt, packFloat_infinity]

/-- Infinities of opposite signs. -/
theorem subFloatSigs_invalid (ha : F.exponent a = maxExp F) (hfa : F.fraction a = 0)
    (hb : F.exponent b = maxExp F) (hfb : F.fraction b = 0) :
    subFloatSigs F default a b neg = defaultNan F := by
  unfold subFloatSigs
  simp [ha, hfa, hb, hfb]

end Infinite

/-- Adding magnitudes where the signs of the summands agree, and subtracting them elsewhere. -/
theorem sigs_delivers (hF : Usable F) (minus : Bool) {a b : Nat} (ha : a < 2 ^ width F)
    (hb : b < 2 ^ width F) (hna : F.isNaN a = false) (hnb : F.isNaN b = false) :
    F.Delivers (F.sum minus a b)
      (if F.negative a = (F.negative b ^^ minus) then addFloatSigs F default a b (F.negative a)
        else subFloatSigs F default a b (F.negative a)) := by
  have hother : (F.value b : ℚ) = signedSteps F (F.negative b) (F.steps b) := value_eq_signedSteps b
  have hsign : (if minus then -F.value b else F.value b) =
      signedSteps F (F.negative b ^^ minus) (F.steps b) := by
    rw [hother]
    cases minus <;> cases F.negative b <;> simp [signedSteps]
  have hunit : F.unit ≠ 0 := Format.unit_pos.ne'
  have hnot : ∀ c, F.isFinite c = false ↔ F.exponent c = maxExp F := by
    intro c
    rw [← Bool.not_eq_true, isFinite_iff, not_not]
  unfold Format.sum
  simp only []
  by_cases hfa : F.isFinite a = true
  · rw [if_pos hfa]
    by_cases hfb : F.isFinite b = true
    · rw [if_pos hfb, hsign, value_eq_signedSteps a]
      by_cases hs : F.negative a = (F.negative b ^^ minus)
      · rw [if_pos hs, ← hs]
        have hv : signedSteps F (F.negative a) (F.steps a) + signedSteps F (F.negative a) (F.steps b) =
            signedSteps F (F.negative a) (F.steps a + F.steps b : ℕ) := by
          cases F.negative a <;> simp [signedSteps] <;> ring
        rw [hv, Bool.and_self]
        refine ⟨addFloatSigs_rounds hF _ hfa hfb, fun h0 => addFloatSigs_zero _ ?_ hF⟩
        have hzero : ((F.steps a + F.steps b : ℕ) : ℚ) = 0 := by
          cases hn : F.negative a <;> rw [hn] at h0 <;> simpa [signedSteps, hunit] using h0
        exact_mod_cast hzero
      · have hs' : (F.negative b ^^ minus) = !F.negative a :=
          (Bool.eq_not_iff.2 fun h => hs h.symm)
        rw [if_neg hs, hs']
        have hv : signedSteps F (F.negative a) (F.steps a) +
            signedSteps F (!F.negative a) (F.steps b) =
            signedSteps F (F.negative a) ((F.steps a : ℚ) - F.steps b) := by
          cases F.negative a <;> simp [signedSteps] <;> ring
        rw [hv, Bool.and_not_self]
        refine ⟨subFloatSigs_rounds hF _ hfa hfb, fun h0 => subFloatSigs_zero _ ?_ hfa⟩
        have hzero : (F.steps a : ℚ) - F.steps b = 0 := by
          cases hn : F.negative a <;> rw [hn] at h0 <;> simpa [signedSteps, hunit] using h0
        exact_mod_cast sub_eq_zero.1 hzero
    · -- the second operand is infinite
      rw [Bool.not_eq_true] at hfb
      have hbe := (hnot b).1 hfb
      obtain ⟨hbz, -⟩ := eq_infinity hb hbe hnb
      have hae := exponent_lt_of_isFinite hfa
      rw [if_neg (by simp [hfb]), addFloatSigs_infinite_right _ hae hbe hbz,
        subFloatSigs_infinite_right _ hae hbe hbz]
      split_ifs with hs
      · rw [Format.Delivers, hs]
      · rw [Format.Delivers, Bool.eq_not_iff.2 fun h => hs h.symm]
  · rw [Bool.not_eq_true] at hfa
    have hae := (hnot a).1 hfa
    obtain ⟨haz, hav⟩ := eq_infinity ha hae hna
    have hbz : F.exponent b = maxExp F → F.fraction b = 0 := fun hbe => (eq_infinity hb hbe hnb).1
    rw [if_neg (by simp [hfa]), addFloatSigs_infinite _ hae haz hbz]
    by_cases hs : F.negative a = (F.negative b ^^ minus)
    · rw [if_pos hs, if_pos (by simp [hs])]
      exact hav
    · rw [if_neg hs]
      by_cases hfb : F.isFinite b = true
      · rw [if_pos (by simp [hfb]),
          subFloatSigs_infinite _ hae haz (exponent_lt_of_isFinite hfb)]
        exact hav
      · rw [Bool.not_eq_true] at hfb
        have hbe := (hnot b).1 hfb
        rw [if_neg (by simp [hfb, hs]), subFloatSigs_invalid _ hae haz hbe (hbz hbe)]
        exact isNaN_defaultNan hF

theorem floatAdd_delivers (hF : Usable F) {a b : Nat} (ha : a < 2 ^ width F) (hb : b < 2 ^ width F)
    (hna : F.isNaN a = false) (hnb : F.isNaN b = false) :
    F.Delivers (F.sum false a b) (floatAdd F default a b) := by
  have h := sigs_delivers hF false ha hb hna hnb
  rwa [Bool.xor_false] at h

theorem floatSub_delivers (hF : Usable F) {a b : Nat} (ha : a < 2 ^ width F) (hb : b < 2 ^ width F)
    (hna : F.isNaN a = false) (hnb : F.isNaN b = false) :
    F.Delivers (F.sum true a b) (floatSub F default a b) := by
  have h := sigs_delivers hF true ha hb hna hnb
  have hsub : floatSub F default a b = if F.negative a = (F.negative b ^^ true) then
      addFloatSigs F default a b (F.negative a) else subFloatSigs F default a b (F.negative a) := by
    have hsq : ∀ c, squashInputDenormal F default c = c := fun _ => rfl
    unfold floatSub
    rw [hsq, hsq]
    cases hn : F.negative a <;> cases hm : F.negative b <;> simp [hn, hm]
  rwa [hsub]

end Format

end Softfloat

end NemuMips32
