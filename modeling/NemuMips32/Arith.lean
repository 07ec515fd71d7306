/-
  ADD, SUB, MUL and DIV in both formats (`add_s` to `div_d`, `float.h`).

  The handlers pass a zeroed `float_status`, so they round to nearest whatever FCSR.RM says. For
  operands that are not NaNs the stored pattern is the exact result rounded once: `exec_addSub`,
  `exec_mul`, `exec_div`. With a NaN operand it is one of the NaNs, quiet (`exec_nan`).
-/
import NemuMips32.SoftfloatNan
import NemuMips32.SoftfloatWords
import NemuMips32.Trunc

namespace NemuMips32

open StateExcept
open Softfloat (IsMulHigh IsQuotient)

variable {D : Type}

/-! ## The instructions -/

inductive FpOp where
  | add
  | sub
  | mul
  | div
  deriving DecidableEq

def FpOp.func : FpOp → BitVec 6
  | add => 0
  | sub => 1
  | mul => 2
  | div => 3

/-- The word `w` is the operation `f` in format `d`. -/
structure IsArith (w : Word) (d : FpFmt) (f : FpOp) : Prop where
  op : Inst.op w = 0x11
  fmt : Inst.rs w = d.num
  func : Inst.func w = f.func

/-- The register `i` as an operand of format `d`. -/
def FpFmt.read (d : FpFmt) (r : Regs) (i : BitVec 5) : Nat :=
  match d with
  | single => (r.fpr32i i).toNat
  | double => (r.fpr64 (half i)).toNat

def FpFmt.write (d : FpFmt) (r : Regs) (i : BitVec 5) (y : Nat) : Regs :=
  match d with
  | single => r.setFpr i (BitVec.ofNat 32 y)
  | double => r.setFpr64 (half i) (BitVec.ofNat 64 y)

/-- The library behind the handlers, with the status they pass. -/
structure ArithFpu (f : Fpu) : Prop where
  add32 : ∀ x y, f.float32Add x y = Softfloat.float32Add default x y
  add64 : ∀ x y, f.float64Add x y = Softfloat.float64Add default x y
  sub32 : ∀ x y, f.float32Sub x y = Softfloat.float32Sub default x y
  sub64 : ∀ x y, f.float64Sub x y = Softfloat.float64Sub default x y
  mul32 : ∀ x y, f.float32Mul x y = Softfloat.float32Mul default x y
  mul64 : ∀ x y, f.float64Mul x y = Softfloat.float64Mul default x y
  div32 : ∀ x y z, Softfloat.float32Div default x y = some z → f.float32Div x y = z
  div64 : ∀ fuel x y z, Softfloat.float64Div default fuel x y = some z → f.float64Div x y = z

/-- The operation on patterns. -/
def FpOp.patterns (d : FpFmt) : FpOp → Nat → Nat → Option Nat
  | add, a, b => some (Softfloat.floatAdd d.format default a b)
  | sub, a, b => some (Softfloat.floatSub d.format default a b)
  | mul, a, b => some (Softfloat.floatMul d.format default
      (match d with
        | .single => Softfloat.mulHigh32
        | .double => Softfloat.mulHigh64) a b)
  | div, a, b => Softfloat.floatDiv d.format default
      (match d with
        | .single => fun x y => some (Softfloat.quotient32 x y)
        | .double => Softfloat.quotient64 3) a b

def FpOp.handler : FpFmt → FpOp → Handler
  | .single, add => .addS
  | .single, sub => .subS
  | .single, mul => .mulS
  | .single, div => .divS
  | .double, add => .addD
  | .double, sub => .subD
  | .double, mul => .mulD
  | .double, div => .divD

theorem IsArith.handler {w : Word} {d : FpFmt} {f : FpOp} (hw : IsArith w d f) :
    decoderGetHandler w = f.handler d := by
  rw [decoderGetHandler, hw.op, hw.fmt, hw.func]
  cases d <;> cases f <;> rfl

/-- What the handlers store. -/
theorem exec_arith {P : Platform D} (hf : ArithFpu P.fpu) {w : Word} {d : FpFmt} {f : FpOp}
    (hw : IsArith w d f) (s : Machine D) {y : Nat}
    (hy : f.patterns d (d.read s.cpu.toRegs (Inst.ops w).fs) (d.read s.cpu.toRegs (Inst.ops w).ft) =
      some y) :
    exec P (Inst.ops w) (decoderGetHandler w) s =
      .ok () (s.setRegs (d.write s.cpu.toRegs (Inst.ops w).fd y)) := by
  -- the library's result is the stored word
  have hsingle : ∀ g : Word → Word → Word,
      g (s.cpu.fpr32i (Inst.ops w).fs) (s.cpu.fpr32i (Inst.ops w).ft) = BitVec.ofNat 32 y →
      (binS (Inst.ops w) g).run P s =
        .ok () (s.setRegs (FpFmt.single.write s.cpu.toRegs (Inst.ops w).fd y)) := by
    intro g hg
    rw [binS, run_ofRegs, hg]
    rfl
  have hdouble : ∀ g : BitVec 64 → BitVec 64 → BitVec 64,
      g (s.cpu.fpr64 (half (Inst.ops w).fs)) (s.cpu.fpr64 (half (Inst.ops w).ft)) =
        BitVec.ofNat 64 y →
      (binD (Inst.ops w) g).run P s =
        .ok () (s.setRegs (FpFmt.double.write s.cpu.toRegs (Inst.ops w).fd y)) := by
    intro g hg
    rw [binD, run_ofRegs, hg]
    rfl
  have hword : ∀ {n z : Nat}, some z = some y → BitVec.ofNat n z = BitVec.ofNat n y :=
    fun h => congrArg _ (Option.some.inj h)
  rw [hw.handler, exec]
  cases d with
  | single =>
    cases f with
    | add => exact hsingle _ ((hf.add32 _ _).trans (hword hy))
    | sub => exact hsingle _ ((hf.sub32 _ _).trans (hword hy))
    | mul => exact hsingle _ ((hf.mul32 _ _).trans (hword hy))
    | div => exact hsingle _ (hf.div32 _ _ _ (congrArg (Option.map (BitVec.ofNat 32)) hy))
  | double =>
    cases f with
    | add => exact hdouble _ ((hf.add64 _ _).trans (hword hy))
    | sub => exact hdouble _ ((hf.sub64 _ _).trans (hword hy))
    | mul => exact hdouble _ ((hf.mul64 _ _).trans (hword hy))
    | div => exact hdouble _ (hf.div64 3 _ _ _ (congrArg (Option.map (BitVec.ofNat 64)) hy))

/-! ## Numbers -/

theorem usable_format (d : FpFmt) : Softfloat.Usable d.format := by
  cases d
  · exact Softfloat.usable32
  · exact Softfloat.usable64

theorem read_lt (d : FpFmt) (r : Regs) (i : BitVec 5) : d.read r i < 2 ^ Softfloat.width d.format := by
  cases d
  · exact (r.fpr32i i).isLt
  · exact (r.fpr64 (half i)).isLt

theorem write_mod (d : FpFmt) (r : Regs) (i : BitVec 5) (y : Nat) :
    d.write r i (y % 2 ^ Softfloat.width d.format) = d.write r i y := by
  cases d
  · exact congrArg (r.setFpr i) (BitVec.ofNat_toNat 32 (BitVec.ofNat 32 y) ▸ rfl)
  · exact congrArg (r.setFpr64 (half i)) (BitVec.ofNat_toNat 64 (BitVec.ofNat 64 y) ▸ rfl)

/-- The instruction stores the exact result `e`, rounded, and changes nothing else. -/
def Stores (P : Platform D) (w : Word) (d : FpFmt) (s : Machine D) (e : Ieee.Exact) : Prop :=
  ∃ y, y < 2 ^ Softfloat.width d.format ∧
    exec P (Inst.ops w) (decoderGetHandler w) s =
      .ok () (s.setRegs (d.write s.cpu.toRegs (Inst.ops w).fd y)) ∧
    d.format.Delivers e y

theorem stores_of_delivers {P : Platform D} (hf : ArithFpu P.fpu) {w : Word} {d : FpFmt} {f : FpOp}
    (hw : IsArith w d f) {s : Machine D} {e : Ieee.Exact}
    (h : ∃ y, f.patterns d (d.read s.cpu.toRegs (Inst.ops w).fs)
        (d.read s.cpu.toRegs (Inst.ops w).ft) = some y ∧ d.format.Delivers e y) :
    Stores P w d s e := by
  obtain ⟨y, hy, he⟩ := h
  refine ⟨y % 2 ^ Softfloat.width d.format, Nat.mod_lt _ (Nat.two_pow_pos _), ?_, he.mod⟩
  rw [write_mod]
  exact exec_arith hf hw s hy

/-- ADD and SUB store the sum or the difference of the operands. -/
theorem exec_addSub {P : Platform D} (hf : ArithFpu P.fpu) {w : Word} {d : FpFmt} (minus : Bool)
    (hw : IsArith w d (if minus then .sub else .add)) {s : Machine D}
    (hfs : d.format.isNaN (d.read s.cpu.toRegs (Inst.ops w).fs) = false)
    (hft : d.format.isNaN (d.read s.cpu.toRegs (Inst.ops w).ft) = false) :
    Stores P w d s (d.format.sum minus (d.read s.cpu.toRegs (Inst.ops w).fs)
      (d.read s.cpu.toRegs (Inst.ops w).ft)) := by
  have hF := usable_format d
  have hs := read_lt d s.cpu.toRegs (Inst.ops w).fs
  have ht := read_lt d s.cpu.toRegs (Inst.ops w).ft
  cases minus with
  | false =>
    exact stores_of_delivers hf hw ⟨_, rfl, Softfloat.floatAdd_delivers hF hs ht hfs hft⟩
  | true => exact stores_of_delivers hf hw ⟨_, rfl, Softfloat.floatSub_delivers hF hs ht hfs hft⟩

theorem exec_mul {P : Platform D} (hf : ArithFpu P.fpu) {w : Word} {d : FpFmt}
    (hw : IsArith w d .mul) {s : Machine D}
    (hfs : d.format.isNaN (d.read s.cpu.toRegs (Inst.ops w).fs) = false)
    (hft : d.format.isNaN (d.read s.cpu.toRegs (Inst.ops w).ft) = false) :
    Stores P w d s (d.format.product (d.read s.cpu.toRegs (Inst.ops w).fs)
      (d.read s.cpu.toRegs (Inst.ops w).ft)) := by
  have hs := read_lt d s.cpu.toRegs (Inst.ops w).fs
  have ht := read_lt d s.cpu.toRegs (Inst.ops w).ft
  cases d with
  | single =>
    exact stores_of_delivers hf hw ⟨_, rfl,
      Softfloat.floatMul_delivers Softfloat.usable32 Softfloat.isMulHigh32 hs ht hfs hft⟩
  | double =>
    exact stores_of_delivers hf hw ⟨_, rfl,
      Softfloat.floatMul_delivers Softfloat.usable64 Softfloat.isMulHigh64 hs ht hfs hft⟩

/-- The correction loops of the 64-bit quotient end after two rounds: they test three times. -/
theorem float64Div_isSome (x y : BitVec 64) :
    ∃ z, Softfloat.float64Div default 3 x y = some z := by
  unfold Softfloat.float64Div
  by_cases hx : Ieee.binary64.isNaN x.toNat = true
  · exact ⟨_, congrArg (Option.map _) (Softfloat.floatDiv_nan _ (.inl hx))⟩
  by_cases hy : Ieee.binary64.isNaN y.toNat = true
  · exact ⟨_, congrArg (Option.map _) (Softfloat.floatDiv_nan _ (.inr hy))⟩
  obtain ⟨z, hz, -⟩ := Softfloat.floatDiv_delivers Softfloat.usable64
    (Softfloat.isQuotient64 le_rfl) x.isLt y.isLt (by simpa using hx) (by simpa using hy)
  exact ⟨_, congrArg (Option.map _) hz⟩

/-- DIV stores the quotient, and the division of two doubles ends. -/
theorem exec_div {P : Platform D} (hf : ArithFpu P.fpu) {w : Word} {d : FpFmt}
    (hw : IsArith w d .div) {s : Machine D}
    (hfs : d.format.isNaN (d.read s.cpu.toRegs (Inst.ops w).fs) = false)
    (hft : d.format.isNaN (d.read s.cpu.toRegs (Inst.ops w).ft) = false) :
    Stores P w d s (d.format.quotient (d.read s.cpu.toRegs (Inst.ops w).fs)
        (d.read s.cpu.toRegs (Inst.ops w).ft)) ∧
      (d = .double → ∃ z, Softfloat.float64Div default 3
        (BitVec.ofNat 64 (d.read s.cpu.toRegs (Inst.ops w).fs))
        (BitVec.ofNat 64 (d.read s.cpu.toRegs (Inst.ops w).ft)) = some z) := by
  refine ⟨?_, fun _ => float64Div_isSome _ _⟩
  have hs := read_lt d s.cpu.toRegs (Inst.ops w).fs
  have ht := read_lt d s.cpu.toRegs (Inst.ops w).ft
  cases d with
  | single =>
    exact stores_of_delivers hf hw
      (Softfloat.floatDiv_delivers Softfloat.usable32 Softfloat.isQuotient32 hs ht hfs hft)
  | double =>
    exact stores_of_delivers hf hw
      (Softfloat.floatDiv_delivers Softfloat.usable64 (Softfloat.isQuotient64 le_rfl) hs ht hfs hft)

/-! ## NaNs -/

/-- With a NaN operand each of the four stores one of its NaN operands, with the quiet bit set. -/
theorem exec_nan {P : Platform D} (hf : ArithFpu P.fpu) {w : Word} {d : FpFmt} {f : FpOp}
    (hw : IsArith w d f) {s : Machine D}
    (h : d.format.isNaN (d.read s.cpu.toRegs (Inst.ops w).fs) = true ∨
      d.format.isNaN (d.read s.cpu.toRegs (Inst.ops w).ft) = true) :
    ∃ c, (c = d.read s.cpu.toRegs (Inst.ops w).fs ∨ c = d.read s.cpu.toRegs (Inst.ops w).ft) ∧
      d.format.isNaN c = true ∧
      exec P (Inst.ops w) (decoderGetHandler w) s = .ok () (s.setRegs
        (d.write s.cpu.toRegs (Inst.ops w).fd (c ||| 2 ^ (d.format.fracBits - 1)))) := by
  obtain ⟨c, hc, hn, hp⟩ := Softfloat.propagateNan_eq (usable_format d) h
  refine ⟨c, hc, hn, exec_arith hf hw s ?_⟩
  rw [← hp]
  cases f with
  | add => exact congrArg some (Softfloat.floatAdd_nan h)
  | sub => exact congrArg some (Softfloat.floatSub_nan h)
  | mul => exact congrArg some (Softfloat.floatMul_nan _ h)
  | div => exact Softfloat.floatDiv_nan _ h

/-! ## A platform with the library -/

def arithPlatform : Platform Unit :=
  { mips32r1 with fpu := { noFpu with
      float32Add := Softfloat.float32Add default
      float64Add := Softfloat.float64Add default
      float32Sub := Softfloat.float32Sub default
      float64Sub := Softfloat.float64Sub default
      float32Mul := Softfloat.float32Mul default
      float64Mul := Softfloat.float64Mul default
      float32Div := fun x y => (Softfloat.float32Div default x y).getD 0
      float64Div := fun x y => (Softfloat.float64Div default 3 x y).getD 0 } }

theorem arithFpu_arithPlatform : ArithFpu arithPlatform.fpu where
  add32 _ _ := rfl
  add64 _ _ := rfl
  sub32 _ _ := rfl
  sub64 _ _ := rfl
  mul32 _ _ := rfl
  mul64 _ _ := rfl
  div32 x y z h := by
    change (Softfloat.float32Div default x y).getD 0 = z
    rw [h]
    rfl
  div64 fuel x y z h := by
    obtain ⟨z', hz'⟩ := float64Div_isSome x y
    change (Softfloat.float64Div default 3 x y).getD 0 = z
    rw [hz']
    exact Softfloat.float64Div_unique hz' h

/-- `sub.s $f6, $f2, $f4` with $f2 = 2^24 + 2 and $f4 = 1, which is a tie. -/
theorem exec_addSub_demo : Stores arithPlatform 0x46041181 .single (compareDemo 0x4B800001)
    (Ieee.binary32.sum true 0x4B800001 0x3F800000) :=
  exec_addSub arithFpu_arithPlatform true ⟨by decide, by decide, by decide⟩ (by decide)
    (by decide)

/-- `mul.s $f6, $f2, $f4` with the smallest subnormal number. -/
theorem exec_mul_demo : Stores arithPlatform 0x46041182 .single (compareDemo 1)
    (Ieee.binary32.product 1 0x3F800000) :=
  exec_mul arithFpu_arithPlatform ⟨by decide, by decide, by decide⟩ (by decide) (by decide)

/-- `div.d $f6, $f2, $f4`. -/
theorem exec_div_demo : Stores arithPlatform 0x46241183 .double (compareDemo 7)
    (Ieee.binary64.quotient 0x3F80000000000007 0x3F8000003F800000) :=
  (exec_div arithFpu_arithPlatform ⟨by decide, by decide, by decide⟩ (by decide) (by decide)).1

/-- `add.s $f6, $f2, $f4` with a signaling NaN. -/
theorem exec_nan_demo : ∃ c, (c = 0x7F800001 ∨ c = 0x3F800000) ∧ Ieee.binary32.isNaN c = true ∧
    exec arithPlatform (Inst.ops 0x46041180) (decoderGetHandler 0x46041180)
        (compareDemo 0x7F800001) =
      .ok () ((compareDemo 0x7F800001).setRegs (FpFmt.single.write
        (compareDemo 0x7F800001).cpu.toRegs (Inst.ops 0x46041180).fd (c ||| 2 ^ 22))) :=
  exec_nan (w := 0x46041180) (d := .single) (f := .add) (s := compareDemo 0x7F800001)
    arithFpu_arithPlatform ⟨by decide, by decide, by decide⟩ (.inl (by decide))

end NemuMips32
