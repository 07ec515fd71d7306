/-
  The arithmetic of the vendored softfloat library (`softfloat.c`, `softfloat-macros.h`,
  `softfloat-specialize.h`) that the handlers of ADD, SUB, MUL and DIV call.

  The library has every function twice, for 32 and for 64 bits, with the constants of the format
  written out. Here each is one definition over a format, and `float32Add`, `float64Add` and so
  on apply it to theirs. Words are natural numbers, cut to their width where a sum or a shift can
  leave it. The functions that read the fields of a pattern (`extractFloat32Frac`,
  `extractFloat32Exp`, `extractFloat32Sign`) are `Format.fraction`, `exponent` and `negative`.

  Quotients of 128-bit numbers come in two parts (`estimateDiv128To64` and a correction loop);
  the two loops take fuel. The exception flags are raised and never read, so they are left out,
  and so is `float_detect_tininess`, which they alone depend on. `TARGET_MIPS` is not defined in
  this build: a quiet NaN has its first fraction bit set, and NaNs propagate by the rules of the
  `#else` branch.
-/
import NemuMips32.Softfloat

namespace NemuMips32

namespace Softfloat

/-- The fields of `float_status` that only the arithmetic reads. -/
structure ArithStatus extends FloatStatus where
  flushToZero : Bool
  defaultNanMode : Bool
  deriving Inhabited

/-! ## Words -/

/-- `shift32RightJamming`, `shift64RightJamming`: the bits shifted out are or-ed into bit 0. -/
def shiftRightJamming (w a count : Nat) : Nat :=
  if count = 0 then a
  else if count < w then (a >>> count) ||| (if a <<< (w - count) % 2 ^ w ≠ 0 then 1 else 0)
  else if a ≠ 0 then 1 else 0

def countLeadingZeros (w a : Nat) : Nat := if a = 0 then w else w - 1 - a.log2

/-- A number of 128 bits, as two words. -/
structure Pair where
  hi : Nat
  lo : Nat
  deriving DecidableEq

def add128 (a b : Pair) : Pair :=
  let z1 := (a.lo + b.lo) % 2 ^ 64
  ⟨(a.hi + b.hi + (if z1 < a.lo then 1 else 0)) % 2 ^ 64, z1⟩

def sub128 (a b : Pair) : Pair :=
  ⟨(a.hi + 2 ^ 64 - b.hi + 2 ^ 64 - (if a.lo < b.lo then 1 else 0)) % 2 ^ 64,
    (a.lo + 2 ^ 64 - b.lo) % 2 ^ 64⟩

def mul64To128 (a b : Nat) : Pair :=
  let aLow := a % 2 ^ 32
  let aHigh := a / 2 ^ 32
  let bLow := b % 2 ^ 32
  let bHigh := b / 2 ^ 32
  let z1 := aLow * bLow
  let zMiddleB := aHigh * bLow
  let z0 := aHigh * bHigh
  let zMiddleA := (aLow * bHigh + zMiddleB) % 2 ^ 64
  let z0 := z0 + ((if zMiddleA < zMiddleB then 1 else 0) <<< 32) + (zMiddleA >>> 32)
  let zMiddleA := zMiddleA <<< 32 % 2 ^ 64
  let z1 := (z1 + zMiddleA) % 2 ^ 64
  ⟨(z0 + (if z1 < zMiddleA then 1 else 0)) % 2 ^ 64, z1⟩

/-- `(int64_t)rem0 < 0`. -/
def Pair.neg (a : Pair) : Bool := 2 ^ 63 ≤ a.hi

/-- `while ((int64_t)rem0 < 0)`: `z` is lowered by `step`, and `d` is added to the remainder. -/
def correctLoop (step : Nat) (d : Pair) : Nat → Nat → Pair → Option (Nat × Pair)
  | 0, _, _ => none
  | fuel + 1, z, rem =>
    if rem.neg then correctLoop step d fuel ((z + 2 ^ 64 - step) % 2 ^ 64) (add128 rem d)
    else some (z, rem)

/-- The loop of `estimateDiv128To64`. -/
def estimateLoop (b : Nat) : Nat → Nat → Pair → Option (Nat × Pair) :=
  correctLoop (2 ^ 32) ⟨b >>> 32, b <<< 32 % 2 ^ 64⟩

def estimateDiv128To64 (fuel a0 a1 b : Nat) : Option Nat :=
  if b ≤ a0 then some 0xFFFFFFFFFFFFFFFF
  else
    let b0 := b >>> 32
    let z := if b0 <<< 32 ≤ a0 then 0xFFFFFFFF00000000 else (a0 / b0) <<< 32 % 2 ^ 64
    (estimateLoop b fuel z (sub128 ⟨a0, a1⟩ (mul64To128 b z))).map fun r =>
      let rem0 := (r.2.hi <<< 32 % 2 ^ 64) ||| (r.2.lo >>> 32)
      r.1 ||| (if b0 <<< 32 ≤ rem0 then 0xFFFFFFFF else rem0 / b0)

/-- The loop of `float64_div`. -/
def quotientLoop (b : Nat) : Nat → Nat → Pair → Option (Nat × Pair) := correctLoop 1 ⟨0, b⟩

/-! ## NaNs -/

section Format

variable (F : Ieee.Format) (st : ArithStatus)

/-- The width of a pattern, and of the words that its significand is computed in. -/
def width : Nat := F.fracBits + F.expBits + 1

/-- The bits below the last place of a significand that is to be packed. -/
def guardBits : Nat := F.expBits - 1

/-- The greatest exponent field. -/
def maxExp : Nat := 2 ^ F.expBits - 1

def bias : Nat := 2 ^ (F.expBits - 1) - 1

def defaultNan : Nat := 2 ^ width F - 2 ^ (F.fracBits - 1)

def isQuietNan (a : Nat) : Bool := 2 ^ width F - 2 ^ F.fracBits ≤ a * 2 % 2 ^ width F

def isSignalingNan (a : Nat) : Bool :=
  a / 2 ^ (F.fracBits - 1) % 2 ^ (F.expBits + 1) == 2 ^ (F.expBits + 1) - 2 &&
    a % 2 ^ (F.fracBits - 1) != 0

def maybeSilenceNan (a : Nat) : Nat :=
  if isSignalingNan F a then a ||| 2 ^ (F.fracBits - 1) else a

/-- `pickNaN` chooses `b`. -/
def pickNan (aIsQNan aIsSNan bIsQNan bIsSNan aIsLargerSignificand : Bool) : Bool :=
  if aIsSNan then
    if bIsSNan then !aIsLargerSignificand else bIsQNan
  else if aIsQNan then
    if bIsSNan || !bIsQNan then false else !aIsLargerSignificand
  else true

def propagateNan (a b : Nat) : Nat :=
  if st.defaultNanMode then defaultNan F
  else
    let aIsLargerSignificand : Bool :=
      if a * 2 % 2 ^ width F < b * 2 % 2 ^ width F then false
      else if b * 2 % 2 ^ width F < a * 2 % 2 ^ width F then true
      else a < b
    if pickNan (isQuietNan F a) (isSignalingNan F a) (isQuietNan F b) (isSignalingNan F b)
        aIsLargerSignificand then maybeSilenceNan F b
    else maybeSilenceNan F a

/-! ## Packing -/

def squashInputDenormal (a : Nat) : Nat :=
  if st.flushInputsToZero && (F.exponent a == 0 && F.fraction a != 0) then
    a &&& 2 ^ (width F - 1)
  else a

/-- The normalized significand and its exponent. -/
def normalizeSubnormal (aSig : Nat) : Nat × Int :=
  let shiftCount := countLeadingZeros (width F) aSig - F.expBits
  (aSig <<< shiftCount, 1 - shiftCount)

/-- The fields are added, so that a significand with its hidden bit adds to the exponent. -/
def packFloat (zSign : Bool) (zExp zSig : Int) : Nat :=
  (((if zSign then 2 ^ (width F - 1) else 0) + zExp * 2 ^ F.fracBits + zSig) % 2 ^ width F).toNat

def roundingIncrement (mode : RoundingMode) (zSign : Bool) : Nat :=
  match mode with
  | .nearestEven | .tiesAway => 2 ^ (guardBits F - 1)
  | .toZero => 0
  | .up => if zSign then 0 else 2 ^ guardBits F - 1
  | .down => if zSign then 2 ^ guardBits F - 1 else 0

/-- The end of `roundAndPackFloat`. -/
def finishRounding (zSign : Bool) (zExp : Int) (zSig : Nat) : Nat :=
  let roundBits := zSig % 2 ^ guardBits F
  let z := (zSig + roundingIncrement F st.roundingMode zSign) % 2 ^ width F / 2 ^ guardBits F
  let z := if roundBits = 2 ^ (guardBits F - 1) ∧ st.roundingMode = .nearestEven then z - z % 2
    else z
  packFloat F zSign (if z = 0 then 0 else zExp) z

def roundAndPackFloat (zSign : Bool) (zExp : Int) (zSig : Nat) : Nat :=
  let increment := roundingIncrement F st.roundingMode zSign
  if (maxExp F : Int) - 2 ≤ zExp % 2 ^ 16 then
    if (maxExp F : Int) - 2 < zExp ∨
        (zExp = maxExp F - 2 ∧ 2 ^ (width F - 1) ≤ (zSig + increment) % 2 ^ width F) then
      packFloat F zSign (maxExp F) (if increment = 0 then -1 else 0)
    else if zExp < 0 then
      if st.flushToZero then packFloat F zSign 0 0
      else finishRounding F st zSign 0 (shiftRightJamming (width F) zSig (-zExp).toNat)
    else finishRounding F st zSign zExp zSig
  else finishRounding F st zSign zExp zSig

def normalizeRoundAndPackFloat (zSign : Bool) (zExp : Int) (zSig : Nat) : Nat :=
  let shiftCount := countLeadingZeros (width F) zSig - 1
  roundAndPackFloat F st zSign (zExp - shiftCount) (zSig <<< shiftCount)

/-! ## Addition -/

/-- The significand with its hidden bit at bit `bit`, where the exponent says it has one. -/
def hidden (exp : Nat) (sig bit : Nat) : Nat := if exp = 0 then sig else sig ||| 2 ^ bit

/-- The distance of the exponents, where subnormal numbers have exponent 1. -/
def expGap (big small : Nat) : Nat := if small = 0 then big - small - 1 else big - small

/-- The common end of `addFloatSigs` for different exponents. -/
def addAligned (zSign : Bool) (zExp : Int) (aSig bSig : Nat) : Nat :=
  if 2 ^ (width F - 1) ≤ (aSig + bSig) * 2 % 2 ^ width F then
    roundAndPackFloat F st zSign zExp (aSig + bSig)
  else roundAndPackFloat F st zSign (zExp - 1) ((aSig + bSig) * 2 % 2 ^ width F)

/-- `addFloat32Sigs`, `addFloat64Sigs`. -/
def addFloatSigs (a b : Nat) (zSign : Bool) : Nat :=
  let aExp := F.exponent a
  let bExp := F.exponent b
  let shift := guardBits F - 1
  let bit := F.fracBits + shift
  let aSig := F.fraction a <<< shift
  let bSig := F.fraction b <<< shift
  if bExp < aExp then
    if aExp = maxExp F then if aSig ≠ 0 then propagateNan F st a b else a
    else addAligned F st zSign aExp (aSig ||| 2 ^ bit)
      (shiftRightJamming (width F) (hidden bExp bSig bit) (expGap aExp bExp))
  else if aExp < bExp then
    if bExp = maxExp F then
      if bSig ≠ 0 then propagateNan F st a b else packFloat F zSign (maxExp F) 0
    else addAligned F st zSign bExp
      (shiftRightJamming (width F) (hidden aExp aSig bit) (expGap bExp aExp) ||| 2 ^ bit) bSig
  else if aExp = maxExp F then if aSig ||| bSig ≠ 0 then propagateNan F st a b else a
  else if aExp = 0 then
    if st.flushToZero then packFloat F zSign 0 0
    else packFloat F zSign 0 ((aSig + bSig) >>> shift)
  else roundAndPackFloat F st zSign aExp (2 ^ (bit + 1) + aSig + bSig)

/-- `subFloat32Sigs`, `subFloat64Sigs`. -/
def subFloatSigs (a b : Nat) (zSign : Bool) : Nat :=
  let aExp := F.exponent a
  let bExp := F.exponent b
  let shift := guardBits F
  let bit := F.fracBits + shift
  let aSig := F.fraction a <<< shift
  let bSig := F.fraction b <<< shift
  if bExp < aExp then
    if aExp = maxExp F then if aSig ≠ 0 then propagateNan F st a b else a
    else normalizeRoundAndPackFloat F st zSign ((aExp : Int) - 1) ((aSig ||| 2 ^ bit) -
      shiftRightJamming (width F) (hidden bExp bSig bit) (expGap aExp bExp))
  else if aExp < bExp then
    if bExp = maxExp F then
      if bSig ≠ 0 then propagateNan F st a b else packFloat F (!zSign) (maxExp F) 0
    else normalizeRoundAndPackFloat F st (!zSign) ((bExp : Int) - 1) ((bSig ||| 2 ^ bit) -
      shiftRightJamming (width F) (hidden aExp aSig bit) (expGap bExp aExp))
  else if aExp = maxExp F then
    if aSig ||| bSig ≠ 0 then propagateNan F st a b else defaultNan F
  else
    let exp := if aExp = 0 then 1 else aExp
    if bSig < aSig then normalizeRoundAndPackFloat F st zSign ((exp : Int) - 1) (aSig - bSig)
    else if aSig < bSig then
      normalizeRoundAndPackFloat F st (!zSign) ((exp : Int) - 1) (bSig - aSig)
    else packFloat F (st.roundingMode = .down) 0 0

def floatAdd (a b : Nat) : Nat :=
  let a := squashInputDenormal F st a
  let b := squashInputDenormal F st b
  if F.negative a = F.negative b then addFloatSigs F st a b (F.negative a)
  else subFloatSigs F st a b (F.negative a)

def floatSub (a b : Nat) : Nat :=
  let a := squashInputDenormal F st a
  let b := squashInputDenormal F st b
  if F.negative a = F.negative b then subFloatSigs F st a b (F.negative a)
  else addFloatSigs F st a b (F.negative a)

/-! ## Multiplication and division -/

/-- The end of the multiplication and of the division of finite patterns: what becomes of the
    two normalized significands and their exponents. -/
def normalized (sig : Nat) (exp : Nat) : Nat × Int :=
  if exp = 0 then normalizeSubnormal F sig else (sig, exp)

/-- `float32_mul`, `float64_mul`; `mulHigh` is the high half of a product of two words, with a
    sticky bit. -/
def floatMul (mulHigh : Nat → Nat → Nat) (a b : Nat) : Nat :=
  let a := squashInputDenormal F st a
  let b := squashInputDenormal F st b
  let aSig := F.fraction a
  let aExp := F.exponent a
  let bSig := F.fraction b
  let bExp := F.exponent b
  let zSign := F.negative a ^^ F.negative b
  if aExp = maxExp F then
    if aSig ≠ 0 ∨ (bExp = maxExp F ∧ bSig ≠ 0) then propagateNan F st a b
    else if bExp ||| bSig = 0 then defaultNan F
    else packFloat F zSign (maxExp F) 0
  else if bExp = maxExp F then
    if bSig ≠ 0 then propagateNan F st a b
    else if aExp ||| aSig = 0 then defaultNan F
    else packFloat F zSign (maxExp F) 0
  else if aExp = 0 ∧ aSig = 0 then packFloat F zSign 0 0
  else if bExp = 0 ∧ bSig = 0 then packFloat F zSign 0 0
  else
    let na := normalized F aSig aExp
    let nb := normalized F bSig bExp
    let zExp := na.2 + nb.2 - bias F
    let aSig := (na.1 ||| 2 ^ F.fracBits) <<< guardBits F
    let bSig := (nb.1 ||| 2 ^ F.fracBits) <<< (guardBits F + 1)
    let zSig := mulHigh aSig bSig
    if zSig * 2 % 2 ^ width F < 2 ^ (width F - 1) then
      roundAndPackFloat F st zSign (zExp - 1) (zSig * 2 % 2 ^ width F)
    else roundAndPackFloat F st zSign zExp zSig

/-- `float32_div`, `float64_div`; `quotient` is the quotient of a significand, shifted left by
    a word, and another one, as far as rounding needs it. -/
def floatDiv (quotient : Nat → Nat → Option Nat) (a b : Nat) : Option Nat :=
  let a := squashInputDenormal F st a
  let b := squashInputDenormal F st b
  let aSig := F.fraction a
  let aExp := F.exponent a
  let bSig := F.fraction b
  let bExp := F.exponent b
  let zSign := F.negative a ^^ F.negative b
  if aExp = maxExp F then
    if aSig ≠ 0 then some (propagateNan F st a b)
    else if bExp = maxExp F then
      some (if bSig ≠ 0 then propagateNan F st a b else defaultNan F)
    else some (packFloat F zSign (maxExp F) 0)
  else if bExp = maxExp F then
    some (if bSig ≠ 0 then propagateNan F st a b else packFloat F zSign 0 0)
  else if bExp = 0 ∧ bSig = 0 then
    some (if aExp ||| aSig = 0 then defaultNan F else packFloat F zSign (maxExp F) 0)
  else if aExp = 0 ∧ aSig = 0 then some (packFloat F zSign 0 0)
  else
    let na := normalized F aSig aExp
    let nb := normalized F bSig bExp
    let zExp := na.2 - nb.2 + (bias F - 2)
    let aSig := (na.1 ||| 2 ^ F.fracBits) <<< guardBits F
    let bSig := (nb.1 ||| 2 ^ F.fracBits) <<< (guardBits F + 1)
    if bSig ≤ aSig + aSig then
      (quotient (aSig >>> 1) bSig).map (roundAndPackFloat F st zSign (zExp + 1))
    else (quotient aSig bSig).map (roundAndPackFloat F st zSign zExp)

end Format

/-! ## The functions of the library -/

variable (st : ArithStatus)

def float32Add (a b : BitVec 32) : BitVec 32 :=
  BitVec.ofNat 32 (floatAdd Ieee.binary32 st a.toNat b.toNat)

def float64Add (a b : BitVec 64) : BitVec 64 :=
  BitVec.ofNat 64 (floatAdd Ieee.binary64 st a.toNat b.toNat)

def float32Sub (a b : BitVec 32) : BitVec 32 :=
  BitVec.ofNat 32 (floatSub Ieee.binary32 st a.toNat b.toNat)

def float64Sub (a b : BitVec 64) : BitVec 64 :=
  BitVec.ofNat 64 (floatSub Ieee.binary64 st a.toNat b.toNat)

/-- The product in `float32_mul`. -/
def mulHigh32 (aSig bSig : Nat) : Nat := shiftRightJamming 64 (aSig * bSig % 2 ^ 64) 32 % 2 ^ 32

/-- The product in `float64_mul`. -/
def mulHigh64 (aSig bSig : Nat) : Nat :=
  let z := mul64To128 aSig bSig
  z.hi ||| (if z.lo ≠ 0 then 1 else 0)

def float32Mul (a b : BitVec 32) : BitVec 32 :=
  BitVec.ofNat 32 (floatMul Ieee.binary32 st mulHigh32 a.toNat b.toNat)

def float64Mul (a b : BitVec 64) : BitVec 64 :=
  BitVec.ofNat 64 (floatMul Ieee.binary64 st mulHigh64 a.toNat b.toNat)

/-- The quotient in `float32_div`. -/
def quotient32 (aSig bSig : Nat) : Nat :=
  let zSig := aSig <<< 32 / bSig % 2 ^ 32
  if zSig &&& 0x3F = 0 then zSig ||| (if bSig * zSig % 2 ^ 64 ≠ aSig <<< 32 then 1 else 0) else zSig

/-- The quotient in `float64_div`. -/
def quotient64 (fuel aSig bSig : Nat) : Option Nat :=
  (estimateDiv128To64 fuel aSig 0 bSig).bind fun zSig =>
    if zSig &&& 0x1FF ≤ 2 then
      (quotientLoop bSig fuel zSig (sub128 ⟨aSig, 0⟩ (mul64To128 bSig zSig))).map fun r =>
        r.1 ||| (if r.2.lo ≠ 0 then 1 else 0)
    else some zSig

/-- There is no loop in `float32_div`. -/
def float32Div (a b : BitVec 32) : Option (BitVec 32) :=
  (floatDiv Ieee.binary32 st (fun x y => some (quotient32 x y)) a.toNat b.toNat).map
    (BitVec.ofNat 32)

def float64Div (fuel : Nat) (a b : BitVec 64) : Option (BitVec 64) :=
  (floatDiv Ieee.binary64 st (quotient64 fuel) a.toNat b.toNat).map (BitVec.ofNat 64)

end Softfloat

end NemuMips32
