/-
  The conversions of the vendored softfloat library (`softfloat.c`, `softfloat-macros.h`) that
  the handlers of TRUNC.W call: `float32_to_int32` and `float64_to_int32`, with the helpers they
  share. The exception flags of `float_status` are raised and never read, so they are left out.

  `roundAndPackInt32_eq` and `shift64RightJamming_eq` give the two helpers in terms of natural
  numbers; with the rounding mode of a zeroed status a conversion rounds to the nearest integer,
  ties to even, and saturates (`roundAndPack_jamming`).
-/
import NemuMips32.Lib.Ieee
import NemuMips32.Lib.Words

namespace NemuMips32

namespace Softfloat

/-! ## Status -/

/-- `float_round_*`, in the order of their numbers. -/
inductive RoundingMode where
  | nearestEven
  | down
  | up
  | toZero
  | tiesAway
  deriving DecidableEq, Inhabited

/-- `float_status`; the default is the zeroed one. -/
structure FloatStatus where
  roundingMode : RoundingMode
  flushInputsToZero : Bool
  deriving Inhabited

/-! ## Fields -/

def extractFloat32Frac (a : BitVec 32) : BitVec 32 := a &&& 0x007FFFFF
def extractFloat32Exp (a : BitVec 32) : Nat := ((a >>> 23) &&& 0xFF).toNat
def extractFloat32Sign (a : BitVec 32) : Bool := a >>> 31 != 0

def extractFloat64Frac (a : BitVec 64) : BitVec 64 := a &&& 0x000FFFFFFFFFFFFF
def extractFloat64Exp (a : BitVec 64) : Nat := ((a >>> 52) &&& 0x7FF).toNat
def extractFloat64Sign (a : BitVec 64) : Bool := a >>> 63 != 0

def float32SquashInputDenormal (st : FloatStatus) (a : BitVec 32) : BitVec 32 :=
  if st.flushInputsToZero && (extractFloat32Exp a == 0 && extractFloat32Frac a != 0) then
    a &&& 0x80000000
  else a

def float64SquashInputDenormal (st : FloatStatus) (a : BitVec 64) : BitVec 64 :=
  if st.flushInputsToZero && (extractFloat64Exp a == 0 && extractFloat64Frac a != 0) then
    a &&& 0x8000000000000000
  else a

/-! ## Conversions -/

/-- `shift64RightJamming`, for the counts it is called with. -/
def shift64RightJamming (a : BitVec 64) (count : Nat) : BitVec 64 :=
  if count = 0 then a
  else if count < 64 then
    (a >>> count) ||| (if a <<< (64 - count) ≠ 0 then 1 else 0)
  else if a ≠ 0 then 1 else 0

def roundIncrement (mode : RoundingMode) (zSign : Bool) : BitVec 64 :=
  match mode with
  | .nearestEven | .tiesAway => 0x40
  | .toZero => 0
  | .up => if zSign then 0 else 0x7f
  | .down => if zSign then 0x7f else 0

/-- The end of `roundAndPackInt32`: the sign, and what does not fit. -/
def pack (zSign : Bool) (n : BitVec 64) : BitVec 32 :=
  let z := n.setWidth 32
  let z := if zSign then -z else z
  if n >>> 32 ≠ 0 ∨ (z ≠ 0 ∧ z.slt 0 ≠ zSign) then
    if zSign then 0x80000000 else 0x7FFFFFFF
  else z

def roundAndPackInt32 (st : FloatStatus) (zSign : Bool) (absZ : BitVec 64) : BitVec 32 :=
  let roundBits := absZ &&& 0x7F
  let absZ := (absZ + roundIncrement st.roundingMode zSign) >>> 7
  pack zSign
    (if roundBits ^^^ 0x40 = 0 ∧ st.roundingMode = .nearestEven then absZ &&& ~~~1 else absZ)

def float32ToInt32 (st : FloatStatus) (a : BitVec 32) : BitVec 32 :=
  let a := float32SquashInputDenormal st a
  let aSig := extractFloat32Frac a
  let aExp := extractFloat32Exp a
  let aSign := if aExp = 0xFF ∧ aSig ≠ 0 then false else extractFloat32Sign a
  let aSig := if aExp ≠ 0 then aSig ||| 0x00800000 else aSig
  let shiftCount : Int := 0xAF - aExp
  let aSig64 := aSig.setWidth 64 <<< 32
  let aSig64 := if 0 < shiftCount then shift64RightJamming aSig64 shiftCount.toNat else aSig64
  roundAndPackInt32 st aSign aSig64

def float64ToInt32 (st : FloatStatus) (a : BitVec 64) : BitVec 32 :=
  let a := float64SquashInputDenormal st a
  let aSig := extractFloat64Frac a
  let aExp := extractFloat64Exp a
  let aSign := if aExp = 0x7FF ∧ aSig ≠ 0 then false else extractFloat64Sign a
  let aSig := if aExp ≠ 0 then aSig ||| 0x0010000000000000 else aSig
  let shiftCount : Int := 0x42C - aExp
  let aSig := if 0 < shiftCount then shift64RightJamming aSig shiftCount.toNat else aSig
  roundAndPackInt32 st aSign aSig

/-! ## The helpers on natural numbers -/

/-- The nearest number that fits a word. -/
def clamp32 (z : Int) : Int := max (-2 ^ 31) (min (2 ^ 31 - 1) z)

/-- `a << (64 - count)` drops all bits but the low `count` ones. -/
theorem shiftLeft_ne_zero_iff (a : BitVec 64) {count : Nat} (hc : count < 64) :
    a <<< (64 - count) ≠ 0 ↔ a.toNat % 2 ^ count ≠ 0 := by
  have hpow : 2 ^ 64 = 2 ^ count * 2 ^ (64 - count) := by
    rw [← Nat.pow_add]
    congr 1
    omega
  have hnat : (a <<< (64 - count)).toNat = a.toNat % 2 ^ count * 2 ^ (64 - count) := by
    rw [BitVec.toNat_shiftLeft, Nat.shiftLeft_eq, hpow, Nat.mul_mod_mul_right]
  have hpos : 0 < 2 ^ (64 - count) := Nat.two_pow_pos _
  rw [ne_eq, ← BitVec.toNat_inj, hnat]
  simp

theorem shift64RightJamming_eq (a : BitVec 64) (count : Nat) :
    (shift64RightJamming a count).toNat = Ieee.jam a.toNat (2 ^ count) := by
  unfold shift64RightJamming
  by_cases h0 : count = 0
  · rw [if_pos h0, h0]
    simp [Ieee.jam, Nat.mod_one]
  rw [if_neg h0]
  by_cases h64 : count < 64
  · rw [if_pos h64]
    by_cases hs : a.toNat % 2 ^ count = 0
    · have hz : ¬ a <<< (64 - count) ≠ 0 := fun h => (shiftLeft_ne_zero_iff a h64).1 h hs
      rw [if_neg hz, Ieee.jam, if_pos hs]
      simp [BitVec.toNat_ushiftRight, Nat.shiftRight_eq_div_pow]
    · rw [if_pos ((shiftLeft_ne_zero_iff a h64).2 hs), Ieee.jam, if_neg hs, BitVec.toNat_or,
        BitVec.toNat_ushiftRight, Nat.shiftRight_eq_div_pow]
      rfl
  · have hlt : a.toNat < 2 ^ count :=
      Nat.lt_of_lt_of_le a.isLt (Nat.pow_le_pow_right (by decide) (by omega))
    rw [if_neg h64, Ieee.jam, Nat.mod_eq_of_lt hlt, Nat.div_eq_of_lt hlt]
    by_cases ha : a = 0
    · simp [ha]
    · have hn : a.toNat ≠ 0 := fun h => ha (BitVec.eq_of_toNat_eq h)
      rw [if_pos ha, if_neg hn]
      rfl

theorem and_not_one (x : BitVec 64) : (x &&& ~~~1).toNat = x.toNat - x.toNat % 2 := by
  have hsplit : (x &&& ~~~1#64) + (x &&& 1#64) = x := by
    have hdisj : (x &&& ~~~1#64) &&& (x &&& 1#64) = 0#64 := by
      rw [BitVec.and_assoc, BitVec.and_comm x (1#64), ← BitVec.and_assoc (~~~1#64),
        BitVec.and_comm (~~~1#64), BitVec.and_not_self]
      simp
    rw [BitVec.add_eq_or_of_and_eq_zero _ _ hdisj, ← BitVec.and_or_distrib_left,
      BitVec.or_comm, BitVec.or_not_self, BitVec.and_allOnes]
  have hone : (x &&& 1#64).toNat = x.toNat % 2 := by
    rw [BitVec.toNat_and]
    exact Nat.and_two_pow_sub_one_eq_mod x.toNat 1
  have hle : (x &&& ~~~1#64).toNat ≤ x.toNat := by
    rw [BitVec.toNat_and]
    exact Nat.and_le_left
  have hsum := congrArg BitVec.toNat hsplit
  rw [BitVec.toNat_add, hone] at hsum
  have hlt := x.isLt
  change (x &&& ~~~1#64).toNat = _
  omega

theorem slt_zero_iff (z : BitVec 32) : z.slt 0 = true ↔ 2 ^ 31 ≤ z.toNat := by
  have hz := z.isLt
  rw [BitVec.slt_iff_toInt_lt, BitVec.toInt_eq_toNat_cond]
  have h0 : (0 : BitVec 32).toInt = 0 := by decide
  rw [h0]
  split_ifs <;> omega

theorem ushiftRight_ne_zero_iff (n : BitVec 64) : n >>> 32 ≠ 0 ↔ 2 ^ 32 ≤ n.toNat := by
  have hn : (n >>> 32).toNat = n.toNat / 2 ^ 32 := by
    rw [BitVec.toNat_ushiftRight, Nat.shiftRight_eq_div_pow]
  rw [ne_eq, ← BitVec.toNat_inj, hn]
  have h0 : (0 : BitVec 64).toNat = 0 := rfl
  rw [h0]
  omega

theorem pack_false (n : BitVec 64) : pack false n = BitVec.ofInt 32 (clamp32 n.toNat) := by
  have hz : (n.setWidth 32).toNat = n.toNat % 2 ^ 32 := BitVec.toNat_setWidth ..
  have hlt := n.isLt
  unfold pack
  simp only [Bool.false_eq_true, if_false, ne_eq, Bool.not_eq_false, slt_zero_iff]
  by_cases h : 2 ^ 31 ≤ n.toNat
  · have hc : clamp32 n.toNat = 2 ^ 31 - 1 := by
      unfold clamp32
      omega
    rw [hc, if_pos]
    · rfl
    · by_cases h32 : 2 ^ 32 ≤ n.toNat
      · exact .inl ((ushiftRight_ne_zero_iff n).2 h32)
      · refine .inr ⟨fun h0 => ?_, by omega⟩
        have h0' := congrArg BitVec.toNat h0
        rw [hz] at h0'
        change _ = 0 at h0'
        omega
  · have hc : clamp32 n.toNat = n.toNat := by
      unfold clamp32
      omega
    rw [hc, if_neg]
    · apply BitVec.eq_of_toNat_eq
      rw [hz, BitVec.toNat_ofInt]
      omega
    · rintro (h32 | ⟨-, h31⟩)
      · exact absurd ((ushiftRight_ne_zero_iff n).1 h32) (by omega)
      · omega

theorem pack_true (n : BitVec 64) : pack true n = BitVec.ofInt 32 (clamp32 (-n.toNat)) := by
  have hz : (-n.setWidth 32).toNat = (2 ^ 32 - n.toNat % 2 ^ 32) % 2 ^ 32 := by
    rw [BitVec.toNat_neg, BitVec.toNat_setWidth]
  have hlt := n.isLt
  have hneg : ∀ z : BitVec 32, z.slt 0 ≠ true ↔ z.toNat < 2 ^ 31 := by
    intro z
    rw [ne_eq, slt_zero_iff, Nat.not_le]
  unfold pack
  simp only [if_true, hneg]
  by_cases h : 2 ^ 31 < n.toNat
  · have hc : clamp32 (-n.toNat) = -2 ^ 31 := by
      unfold clamp32
      omega
    rw [hc, if_pos]
    · rfl
    · by_cases h32 : 2 ^ 32 ≤ n.toNat
      · exact .inl ((ushiftRight_ne_zero_iff n).2 h32)
      · refine .inr ⟨fun h0 => ?_, by omega⟩
        have h0' := congrArg BitVec.toNat h0
        rw [hz] at h0'
        change _ = 0 at h0'
        omega
  · have hc : clamp32 (-n.toNat) = -n.toNat := by
      unfold clamp32
      omega
    rw [hc, if_neg]
    · apply BitVec.eq_of_toNat_eq
      rw [hz, BitVec.toNat_ofInt]
      omega
    · rintro (h32 | ⟨hne, h31⟩)
      · exact absurd ((ushiftRight_ne_zero_iff n).1 h32) (by omega)
      · refine hne (BitVec.eq_of_toNat_eq ?_)
        rw [hz]
        change _ = 0
        omega

/-- Sign and magnitude. -/
def signed (zSign : Bool) (n : Nat) : Int := if zSign then -(n : Int) else n

theorem pack_eq (zSign : Bool) (n : BitVec 64) :
    pack zSign n = BitVec.ofInt 32 (clamp32 (signed zSign n.toNat)) := by
  cases zSign with
  | false => exact pack_false n
  | true => exact pack_true n

/-- With the zeroed status, the fixed point number `absZ` is rounded to the nearest integer, ties
    to even, and saturates. -/
theorem roundAndPackInt32_eq (zSign : Bool) {absZ : BitVec 64} (h : absZ.toNat < 2 ^ 63) :
    roundAndPackInt32 default zSign absZ =
      BitVec.ofInt 32 (clamp32 (signed zSign (Ieee.roundQuot absZ.toNat 128))) := by
  have hsum : ((absZ + 0x40) >>> 7).toNat = (absZ.toNat + 64) / 128 := by
    have h64 : (absZ + 0x40).toNat = absZ.toNat + 64 := by
      rw [BitVec.toNat_add]
      change (absZ.toNat + 64) % 2 ^ 64 = _
      omega
    rw [BitVec.toNat_ushiftRight, h64, Nat.shiftRight_eq_div_pow]
  have htie : (absZ &&& 0x7F) ^^^ 0x40 = 0 ↔ absZ.toNat % 128 = 64 := by
    have hbits : (absZ &&& 0x7F).toNat = absZ.toNat % 128 := by
      rw [BitVec.toNat_and]
      exact Nat.and_two_pow_sub_one_eq_mod absZ.toNat 7
    have hxor : (absZ &&& 0x7F) ^^^ 0x40 = 0 ↔ absZ &&& 0x7F = 0x40 := BitVec.xor_eq_zero_iff
    rw [hxor, ← BitVec.toNat_inj, hbits]
    rfl
  have hround : ∀ n : BitVec 64, n.toNat = Ieee.roundQuot absZ.toNat 128 →
      pack zSign n =
        BitVec.ofInt 32 (clamp32 (signed zSign (Ieee.roundQuot absZ.toNat 128))) := by
    intro n hn
    rw [pack_eq, hn]
  by_cases ht : absZ.toNat % 128 = 64
  · have hd : roundAndPackInt32 default zSign absZ = pack zSign ((absZ + 0x40) >>> 7 &&& ~~~1) := by
      exact congrArg (pack zSign) (if_pos ⟨htie.2 ht, rfl⟩)
    rw [hd]
    refine hround _ ?_
    rw [and_not_one, hsum, Ieee.roundQuot]
    split_ifs <;> omega
  · have hd : roundAndPackInt32 default zSign absZ = pack zSign ((absZ + 0x40) >>> 7) := by
      exact congrArg (pack zSign) (if_neg fun hc => ht (htie.1 hc.1))
    rw [hd]
    refine hround _ ?_
    rw [hsum, Ieee.roundQuot]
    split_ifs <;> omega

/-- Shift and round in one: the number `sig / 2^(count + 7)`. -/
theorem convert_eq (neg : Bool) {sig : BitVec 64} (h : sig.toNat < 2 ^ 63) (count : Int) :
    roundAndPackInt32 default neg
        (if 0 < count then shift64RightJamming sig count.toNat else sig) =
      BitVec.ofInt 32 (clamp32 (signed neg
        (Ieee.roundQuot sig.toNat (2 ^ count.toNat * 128)))) := by
  have hjam : ∀ z : BitVec 64, z.toNat = Ieee.jam sig.toNat (2 ^ count.toNat) →
      z.toNat < 2 ^ 63 → roundAndPackInt32 default neg z = BitVec.ofInt 32 (clamp32 (signed neg
        (Ieee.roundQuot sig.toNat (2 ^ count.toNat * 128)))) := by
    intro z hz hlt
    rw [roundAndPackInt32_eq neg hlt, hz,
      Ieee.roundQuot_jam _ (Nat.two_pow_pos _) (by decide) (by decide)]
  by_cases hc : 0 < count
  · rw [if_pos hc]
    refine hjam _ (shift64RightJamming_eq sig _) ?_
    rw [shift64RightJamming_eq, Ieee.jam]
    have h2 : 2 ^ 1 ≤ 2 ^ count.toNat := Nat.pow_le_pow_right (by decide) (by omega)
    have hdiv : sig.toNat / 2 ^ count.toNat ≤ sig.toNat / 2 := Nat.div_le_div_left h2 (by decide)
    rw [Ieee.or_one]
    split_ifs <;> omega
  · rw [if_neg hc]
    refine hjam _ ?_ h
    rw [Int.toNat_of_nonpos (by omega)]
    simp [Ieee.jam, Nat.mod_one]

/-! ## The value of a pattern -/

section Format

variable (F : Ieee.Format) {k E : Nat}

/-- `E - k` is the bias of the last place. -/
theorem scale_eq (hE : 2 ^ (F.expBits - 1) - 1 + F.fracBits + k = E) (x : Nat) :
    F.scale x = max (F.exponent x : Int) 1 - (E - k : Nat) := by
  have hb : 1 ≤ 2 ^ (F.expBits - 1) := Nat.one_le_two_pow
  have hc : ((2 ^ (F.expBits - 1) : Nat) : Int) = 2 ^ (F.expBits - 1) := by push_cast; rfl
  rw [Ieee.Format.scale, ← hc]
  omega

theorem clamp_large {neg : Bool} {a b : Nat} (ha : 2 ^ 31 ≤ a) (hb : 2 ^ 31 ≤ b) :
    clamp32 (signed neg a) = clamp32 (signed neg b) := by
  unfold clamp32 signed
  cases neg <;> simp only [Bool.false_eq_true, if_false, if_true] <;> omega

/-- The quotient that the conversions round, `sig * 2^k / 2^(E - e)`, is the magnitude of the
    pattern, or both are too small or too large for that to matter. -/
theorem roundQuot_format (hE : 2 ^ (F.expBits - 1) - 1 + F.fracBits + k = E)
    (hsmall : F.fracBits + 2 + k ≤ E) (hlarge : 38 ≤ F.fracBits + k) (neg : Bool) (x : Nat) :
    clamp32 (signed neg (Ieee.roundQuot (F.significand x * 2 ^ k)
        (2 ^ (E - 7 - F.exponent x) * 128))) =
      clamp32 (signed neg (Ieee.roundQuot (F.num x) (F.den x))) := by
  have hs := scale_eq F hE x
  have hf := F.fraction_lt x
  have h128 : ∀ n, 2 ^ n * 128 = 2 ^ (n + 7) := fun n => (Nat.pow_add 2 n 7).symm
  by_cases h0 : F.exponent x = 0
  · -- a subnormal number is less than one half
    have hsig : F.significand x = F.fraction x := if_pos h0
    have hnum : F.num x = F.fraction x := by
      rw [Ieee.Format.num, hsig, hs, Int.toNat_of_nonpos (by omega)]
      simp
    have hden : F.den x = 2 ^ (E - k - 1) := by
      rw [Ieee.Format.den, hs]
      congr 1
      omega
    have hl : 2 ^ (F.fracBits + 1) ≤ 2 ^ (E - k - 1) :=
      Nat.pow_le_pow_right (by decide) (by omega)
    have hr : 2 ^ (F.fracBits + 1) * 2 ^ k ≤ 2 ^ (E - 7 - F.exponent x + 7) := by
      rw [← Nat.pow_add]
      exact Nat.pow_le_pow_right (by decide) (by omega)
    rw [Nat.pow_succ] at hl hr
    have hfk : F.fraction x * 2 ^ k < 2 ^ F.fracBits * 2 ^ k :=
      Nat.mul_lt_mul_of_pos_right hf (Nat.two_pow_pos k)
    rw [hsig, hnum, hden, h128, Ieee.roundQuot_of_small, Ieee.roundQuot_of_small]
    · omega
    · have : 2 ^ F.fracBits * 2 * 2 ^ k = 2 * (2 ^ F.fracBits * 2 ^ k) := by ring
      omega
  have hsig : F.significand x = 2 ^ F.fracBits + F.fraction x := if_neg h0
  by_cases hle : F.exponent x ≤ E - 7
  · -- the quotient is the magnitude, up to a common power of 2
    congr 2
    by_cases hes : F.exponent x ≤ E - k
    · have hnum : F.num x = F.significand x := by
        rw [Ieee.Format.num, hs, Int.toNat_of_nonpos (by omega)]
        simp
      have hden : F.den x * 2 ^ k = 2 ^ (E - 7 - F.exponent x) * 128 := by
        rw [Ieee.Format.den, hs, h128, ← Nat.pow_add]
        congr 1
        omega
      rw [hnum, ← hden, Ieee.roundQuot_mul _ _ (Nat.two_pow_pos k)]
    · have hnum : F.num x * 2 ^ (E - F.exponent x) = F.significand x * 2 ^ k := by
        rw [Ieee.Format.num, hs, Nat.mul_assoc, ← Nat.pow_add]
        congr 2
        omega
      have hden : F.den x * 2 ^ (E - F.exponent x) = 2 ^ (E - 7 - F.exponent x) * 128 := by
        rw [Ieee.Format.den, hs, h128, ← Nat.pow_add]
        congr 1
        omega
      rw [← hnum, ← hden, Ieee.roundQuot_mul _ _ (Nat.two_pow_pos _)]
  · -- both quotients saturate
    have hpow : ∀ a b, 38 ≤ a + b → 2 ^ 31 * 128 ≤ 2 ^ a * 2 ^ b := by
      intro a b hab
      have h : 2 ^ 38 ≤ 2 ^ (a + b) := Nat.pow_le_pow_right (by decide) hab
      rw [Nat.pow_add] at h
      omega
    refine clamp_large ?_ ?_
    · refine le_trans ?_ (Ieee.div_le_roundQuot _ _)
      rw [show E - 7 - F.exponent x = 0 by omega, Nat.le_div_iff_mul_le (by decide : 0 < 2 ^ 0 * 128), hsig]
      have h := hpow F.fracBits k hlarge
      rw [Nat.add_mul]
      omega
    · refine le_trans ?_ (Ieee.div_le_roundQuot _ _)
      rw [Nat.le_div_iff_mul_le (F.den_pos x), Ieee.Format.num, Ieee.Format.den, hs, hsig]
      have hge : ∀ a b, b + 31 ≤ F.fracBits + a →
          2 ^ 31 * 2 ^ b ≤ (2 ^ F.fracBits + F.fraction x) * 2 ^ a := by
        intro a b hab
        have h : 2 ^ (31 + b) ≤ 2 ^ (F.fracBits + a) :=
          Nat.pow_le_pow_right (by decide) (by omega)
        rw [Nat.pow_add, Nat.pow_add] at h
        exact le_trans h (Nat.mul_le_mul_right _ (Nat.le_add_right _ _))
      exact hge _ _ (by omega)

end Format

/-! ## The conversions -/

theorem exp32_eq (x : BitVec 32) : extractFloat32Exp x = Ieee.binary32.exponent x.toNat := by
  rw [extractFloat32Exp, BitVec.toNat_and, BitVec.toNat_ushiftRight, Nat.shiftRight_eq_div_pow]
  exact Nat.and_two_pow_sub_one_eq_mod _ 8

theorem frac32_eq (x : BitVec 32) :
    (extractFloat32Frac x).toNat = Ieee.binary32.fraction x.toNat := by
  rw [extractFloat32Frac, BitVec.toNat_and]
  exact Nat.and_two_pow_sub_one_eq_mod _ 23

theorem sign32_eq (x : BitVec 32) : extractFloat32Sign x = Ieee.binary32.negative x.toNat := by
  have hx := x.isLt
  have h : (x >>> 31).toNat = x.toNat / 2 ^ 31 := by
    rw [BitVec.toNat_ushiftRight, Nat.shiftRight_eq_div_pow]
  rw [extractFloat32Sign, Ieee.Format.negative, Bool.eq_iff_iff, bne_iff_ne, beq_iff_eq, ne_eq,
    ← BitVec.toNat_inj, h]
  change ¬ x.toNat / 2 ^ 31 = 0 ↔ x.toNat / 2 ^ 31 % 2 = 1
  omega

theorem sig32_eq (x : BitVec 32) :
    (if extractFloat32Exp x ≠ 0 then extractFloat32Frac x ||| 0x00800000
      else extractFloat32Frac x).toNat = Ieee.binary32.significand x.toNat := by
  have hf : (extractFloat32Frac x).toNat < 2 ^ 23 := by
    rw [frac32_eq]
    exact Ieee.Format.fraction_lt Ieee.binary32 x.toNat
  rw [Ieee.Format.significand, ← frac32_eq, ← exp32_eq]
  by_cases h0 : extractFloat32Exp x = 0
  · rw [if_neg (by simpa using h0), if_pos h0]
  · rw [if_pos h0, if_neg h0, BitVec.toNat_or]
    change (extractFloat32Frac x).toNat ||| 2 ^ 23 * 1 = 2 ^ 23 + _
    rw [Nat.or_comm, ← Nat.two_pow_add_eq_or_of_lt hf]
    omega

/-- `float32_to_int32` with the zeroed status rounds the value of a finite pattern to the nearest
    integer, ties to even, and saturates. -/
theorem float32ToInt32_eq {x : BitVec 32} (hx : Ieee.binary32.isFinite x.toNat = true) :
    float32ToInt32 default x = BitVec.ofInt 32 (clamp32 (signed (Ieee.binary32.negative x.toNat)
      (Ieee.roundQuot (Ieee.binary32.num x.toNat) (Ieee.binary32.den x.toNat)))) := by
  have hexp : extractFloat32Exp x ≠ 0xFF := by
    rw [exp32_eq]
    exact bne_iff_ne.1 hx
  have hsig := Ieee.Format.significand_lt Ieee.binary32 x.toNat
  change _ < 2 ^ 24 at hsig
  have hsig64 : (((if extractFloat32Exp x ≠ 0 then extractFloat32Frac x ||| 0x00800000
      else extractFloat32Frac x).setWidth 64) <<< 32).toNat =
      Ieee.binary32.significand x.toNat * 2 ^ 32 := by
    rw [BitVec.toNat_shiftLeft, BitVec.toNat_setWidth, sig32_eq, Nat.shiftLeft_eq]
    omega
  have hround := roundQuot_format Ieee.binary32 (k := 32) (E := 182) rfl (by decide) (by decide)
    (Ieee.binary32.negative x.toNat) x.toNat
  unfold float32ToInt32
  have hsq : float32SquashInputDenormal default x = x := rfl
  rw [hsq]
  dsimp only
  rw [if_neg (by simp [hexp]), convert_eq _ (by omega), hsig64, sign32_eq, ← hround, exp32_eq]
  have hcount : (0xAF - (Ieee.binary32.exponent x.toNat : Int)).toNat =
      182 - 7 - Ieee.binary32.exponent x.toNat := by omega
  rw [hcount]

theorem exp64_eq (x : BitVec 64) : extractFloat64Exp x = Ieee.binary64.exponent x.toNat := by
  rw [extractFloat64Exp, BitVec.toNat_and, BitVec.toNat_ushiftRight, Nat.shiftRight_eq_div_pow]
  exact Nat.and_two_pow_sub_one_eq_mod _ 11

theorem frac64_eq (x : BitVec 64) :
    (extractFloat64Frac x).toNat = Ieee.binary64.fraction x.toNat := by
  rw [extractFloat64Frac, BitVec.toNat_and]
  exact Nat.and_two_pow_sub_one_eq_mod _ 52

theorem sign64_eq (x : BitVec 64) : extractFloat64Sign x = Ieee.binary64.negative x.toNat := by
  have hx := x.isLt
  have h : (x >>> 63).toNat = x.toNat / 2 ^ 63 := by
    rw [BitVec.toNat_ushiftRight, Nat.shiftRight_eq_div_pow]
  rw [extractFloat64Sign, Ieee.Format.negative, Bool.eq_iff_iff, bne_iff_ne, beq_iff_eq, ne_eq,
    ← BitVec.toNat_inj, h]
  change ¬ x.toNat / 2 ^ 63 = 0 ↔ x.toNat / 2 ^ 63 % 2 = 1
  omega

theorem sig64_eq (x : BitVec 64) :
    (if extractFloat64Exp x ≠ 0 then extractFloat64Frac x ||| 0x0010000000000000
      else extractFloat64Frac x).toNat = Ieee.binary64.significand x.toNat := by
  have hf : (extractFloat64Frac x).toNat < 2 ^ 52 := by
    rw [frac64_eq]
    exact Ieee.Format.fraction_lt Ieee.binary64 x.toNat
  rw [Ieee.Format.significand, ← frac64_eq, ← exp64_eq]
  by_cases h0 : extractFloat64Exp x = 0
  · rw [if_neg (by simpa using h0), if_pos h0]
  · rw [if_pos h0, if_neg h0, BitVec.toNat_or]
    change (extractFloat64Frac x).toNat ||| 2 ^ 52 * 1 = 2 ^ 52 + _
    rw [Nat.or_comm, ← Nat.two_pow_add_eq_or_of_lt hf]
    omega

/-- The same for `float64_to_int32`. -/
theorem float64ToInt32_eq {x : BitVec 64} (hx : Ieee.binary64.isFinite x.toNat = true) :
    float64ToInt32 default x = BitVec.ofInt 32 (clamp32 (signed (Ieee.binary64.negative x.toNat)
      (Ieee.roundQuot (Ieee.binary64.num x.toNat) (Ieee.binary64.den x.toNat)))) := by
  have hexp : extractFloat64Exp x ≠ 0x7FF := by
    rw [exp64_eq]
    exact bne_iff_ne.1 hx
  have hsig := Ieee.Format.significand_lt Ieee.binary64 x.toNat
  change _ < 2 ^ 53 at hsig
  have hround := roundQuot_format Ieee.binary64 (k := 0) (E := 1075) rfl (by decide) (by decide)
    (Ieee.binary64.negative x.toNat) x.toNat
  rw [Nat.pow_zero, Nat.mul_one] at hround
  unfold float64ToInt32
  have hsq : float64SquashInputDenormal default x = x := rfl
  rw [hsq]
  dsimp only
  rw [if_neg (by simp [hexp]), convert_eq _ (by rw [sig64_eq]; omega), sig64_eq, sign64_eq,
    ← hround, exp64_eq]
  have hcount : (0x42C - (Ieee.binary64.exponent x.toNat : Int)).toNat =
      1075 - 7 - Ieee.binary64.exponent x.toNat := by omega
  rw [hcount]

end Softfloat

end NemuMips32
