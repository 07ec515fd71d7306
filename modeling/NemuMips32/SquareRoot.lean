/-
  SQRT in both formats (`sqrt_s`, `sqrt_d`, `float.h`). Whatever the operand is and whatever
  FCSR.RM says, the stored pattern is the root of the operand's: the real root rounded to nearest
  (`exec_sqrt`).
-/
import NemuMips32.Arith
import NemuMips32.SoftfloatSqrt

namespace NemuMips32

open StateExcept

variable {D : Type}

/-- The word `w` is SQRT in format `d`. -/
structure IsSqrt (w : Word) (d : FpFmt) : Prop where
  op : Inst.op w = 0x11
  fmt : Inst.rs w = d.num
  func : Inst.func w = 4

/-- The library behind the handlers, with the status they pass, where its loops end within eight
    rounds. -/
structure SqrtFpu (f : Fpu) : Prop where
  sqrt32 : ∀ x z, Softfloat.float32Sqrt default 8 x = some z → f.float32Sqrt x = z
  sqrt64 : ∀ x z, Softfloat.float64Sqrt default 8 x = some z → f.float64Sqrt x = z

theorem IsSqrt.handler {w : Word} {d : FpFmt} (hw : IsSqrt w d) :
    decoderGetHandler w = match d with
      | .single => .sqrtS
      | .double => .sqrtD := by
  rw [decoderGetHandler, hw.op, hw.fmt, hw.func]
  cases d <;> rfl

/-! ## The root -/

/-- Eight rounds are enough. -/
theorem float32Sqrt_root (x : Word) : ∃ y,
    Softfloat.float32Sqrt default 8 x = some (BitVec.ofNat 32 y) ∧
      Ieee.binary32.RootOf x.toNat y := by
  have hnan : ¬ Ieee.binary32.isNaN 0 = true := by decide
  have hzero : ∀ b : Nat, Ieee.binary32.isNaN 0 = true → 0 = b := fun _ h => absurd h hnan
  obtain ⟨y, hy, hr⟩ := Softfloat.floatSqrt_delivers Softfloat.usable32
    (Softfloat.isRoot32 (by decide : 6 ≤ 8)) hzero x.isLt
  exact ⟨y, congrArg (Option.map (BitVec.ofNat 32)) hy, hr⟩

theorem float64Sqrt_root (x : BitVec 64) : ∃ y,
    Softfloat.float64Sqrt default 8 x = some (BitVec.ofNat 64 y) ∧
      Ieee.binary64.RootOf x.toNat y := by
  obtain ⟨y, hy, hr⟩ := Softfloat.floatSqrt_delivers Softfloat.usable64
    (Softfloat.isRoot64 (le_refl 8)) (fun _ _ => rfl) x.isLt
  exact ⟨y, congrArg (Option.map (BitVec.ofNat 64)) hy, hr⟩

/-- What the handlers store. -/
theorem exec_root {P : Platform D} (hf : SqrtFpu P.fpu) {w : Word} {d : FpFmt} (hw : IsSqrt w d)
    (s : Machine D) : ∃ y,
      exec P (Inst.ops w) (decoderGetHandler w) s =
        .ok () (s.setRegs (d.write s.cpu.toRegs (Inst.ops w).fd y)) ∧
      d.format.RootOf (d.read s.cpu.toRegs (Inst.ops w).fs) y := by
  rw [hw.handler]
  cases d with
  | single =>
    obtain ⟨y, hy, hr⟩ := float32Sqrt_root (s.cpu.fpr32i (Inst.ops w).fs)
    refine ⟨y, ?_, hr⟩
    change (unS (Inst.ops w) P.fpu.float32Sqrt).run P s = _
    rw [unS, run_ofRegs, hf.sqrt32 _ _ hy]
    rfl
  | double =>
    obtain ⟨y, hy, hr⟩ := float64Sqrt_root (s.cpu.fpr64 (half (Inst.ops w).fs))
    refine ⟨y, ?_, hr⟩
    change (unD (Inst.ops w) P.fpu.float64Sqrt).run P s = _
    rw [unD, run_ofRegs, hf.sqrt64 _ _ hy]
    rfl

/-- SQRT stores the root of its operand, and changes nothing else. -/
theorem exec_sqrt {P : Platform D} (hf : SqrtFpu P.fpu) {w : Word} {d : FpFmt} (hw : IsSqrt w d)
    (s : Machine D) : ∃ y, y < 2 ^ Softfloat.width d.format ∧
      exec P (Inst.ops w) (decoderGetHandler w) s =
        .ok () (s.setRegs (d.write s.cpu.toRegs (Inst.ops w).fd y)) ∧
      d.format.RootOf (d.read s.cpu.toRegs (Inst.ops w).fs) y := by
  obtain ⟨y, hy, hr⟩ := exec_root hf hw s
  refine ⟨y % 2 ^ Softfloat.width d.format, Nat.mod_lt _ (Nat.two_pow_pos _), ?_,
    hr.mod (read_lt d _ _)⟩
  rw [write_mod]
  exact hy

/-! ## A platform with the library -/

def sqrtPlatform : Platform Unit :=
  { mips32r1 with fpu := { noFpu with
      float32Sqrt := fun x => (Softfloat.float32Sqrt default 8 x).getD 0
      float64Sqrt := fun x => (Softfloat.float64Sqrt default 8 x).getD 0 } }

theorem sqrtFpu_sqrtPlatform : SqrtFpu sqrtPlatform.fpu where
  sqrt32 x z h := by
    change (Softfloat.float32Sqrt default 8 x).getD 0 = z
    rw [h]
    rfl
  sqrt64 x z h := by
    change (Softfloat.float64Sqrt default 8 x).getD 0 = z
    rw [h]
    rfl

/-- `sqrt.s $f6, $f2` with $f2 = 2. -/
theorem exec_sqrt_demo : ∃ y, y < 2 ^ 32 ∧
    exec sqrtPlatform (Inst.ops 0x46001184) (decoderGetHandler 0x46001184)
        (compareDemo 0x40000000) =
      .ok () ((compareDemo 0x40000000).setRegs
        (FpFmt.single.write (compareDemo 0x40000000).cpu.toRegs 6 y)) ∧
    Ieee.binary32.RootOf 0x40000000 y :=
  exec_sqrt (d := .single) sqrtFpu_sqrtPlatform ⟨by decide, by decide, by decide⟩
    (compareDemo 0x40000000)

end NemuMips32
