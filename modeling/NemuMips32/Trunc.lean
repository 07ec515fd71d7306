/-
  TRUNC.W.S and TRUNC.W.D (`trunc_w_s`, `trunc_w_d`, `float.h`).

  The handlers convert with `float32_to_int32` and `float64_to_int32` and a zeroed
  `float_status`, whose rounding mode is round to nearest, ties to even: the library has
  `float32_to_int32_round_to_zero` beside it. So the result is the truncated value only where
  rounding to nearest drops the fraction too, or where it saturates (`trunc_iff`). FCSR.RM is
  not looked at.
-/
import NemuMips32.CondMove
import NemuMips32.Softfloat

namespace NemuMips32

open StateExcept
open Ieee (truncate roundQuot signedQuot)
open Softfloat (clamp32 signed)

variable {D : Type}

/-! ## Truncation and rounding -/

/-- Rounding to nearest truncates, or saturates where truncation is at an end of the range. -/
def TruncOk (v : ℚ) : Prop :=
  |v - truncate v| < 1 / 2 ∨ (|v - truncate v| = 1 / 2 ∧ truncate v % 2 = 0) ∨
    truncate v = 2 ^ 31 - 1 ∨ truncate v = -2 ^ 31

theorem roundQuot_eq_div_iff (n d : Nat) :
    roundQuot n d = n / d ↔ 2 * (n % d) < d ∨ (2 * (n % d) = d ∧ n / d % 2 = 0) := by
  unfold roundQuot
  split_ifs <;> omega

theorem roundQuot_cases (n d : Nat) : roundQuot n d = n / d ∨ roundQuot n d = n / d + 1 := by
  unfold roundQuot
  split_ifs <;> omega

theorem div_lt_half_iff (a : Nat) {d : Nat} (hd : 0 < d) :
    (a : ℚ) / d < 1 / 2 ↔ 2 * a < d := by
  have hd' : (0 : ℚ) < d := by exact_mod_cast hd
  rw [div_lt_div_iff₀ hd' (by norm_num), one_mul]
  constructor
  · intro h
    have h' : ((a * 2 : Nat) : ℚ) < d := by push_cast; exact h
    have := Nat.cast_lt.1 h'
    omega
  · intro h
    have h' : a * 2 < d := by omega
    exact_mod_cast h'

theorem div_eq_half_iff (a : Nat) {d : Nat} (hd : 0 < d) :
    (a : ℚ) / d = 1 / 2 ↔ 2 * a = d := by
  have hd' : (d : ℚ) ≠ 0 := by positivity
  rw [div_eq_div_iff hd' (by norm_num), one_mul]
  constructor
  · intro h
    have h' : ((a * 2 : Nat) : ℚ) = d := by push_cast; exact h
    have := Nat.cast_injective h'
    omega
  · intro h
    have h' : a * 2 = d := by omega
    exact_mod_cast h'

theorem truncate_eq_signed (neg : Bool) (n : Nat) {d : Nat} (hd : 0 < d) :
    truncate (signedQuot neg n d) = signed neg (n / d) := Ieee.truncate_signedQuot neg n hd

/-- In the range of a word, words are equal when the numbers are. -/
theorem ofInt_clamp_iff (a : Int) {z : Int} (hlo : -2 ^ 31 ≤ z) (hhi : z < 2 ^ 31) :
    BitVec.ofInt 32 (clamp32 a) = BitVec.ofInt 32 z ↔ clamp32 a = z := by
  constructor
  · intro h
    have hn := congrArg BitVec.toNat h
    rw [BitVec.toNat_ofInt, BitVec.toNat_ofInt] at hn
    unfold clamp32 at hn ⊢
    omega
  · exact fun h => h ▸ rfl

/-- The saturated rounding of a quotient is its truncation exactly under `TruncOk`. -/
theorem clamp_eq_truncate_iff (neg : Bool) (n : Nat) {d : Nat} (hd : 0 < d)
    (hlo : -2 ^ 31 ≤ truncate (signedQuot neg n d)) (hhi : truncate (signedQuot neg n d) < 2 ^ 31) :
    clamp32 (signed neg (roundQuot n d)) = truncate (signedQuot neg n d) ↔
      TruncOk (signedQuot neg n d) := by
  have hround := roundQuot_eq_div_iff n d
  have hcases := roundQuot_cases n d
  rw [TruncOk, Ieee.abs_sub_truncate neg n hd, div_lt_half_iff _ hd, div_eq_half_iff _ hd]
  rw [truncate_eq_signed neg n hd] at hlo hhi ⊢
  unfold clamp32 signed at *
  cases neg
  · simp only [Bool.false_eq_true, if_false] at *
    omega
  · simp only [if_true] at *
    omega

/-! ## The instructions -/

def FpFmt.format : FpFmt → Ieee.Format
  | single => Ieee.binary32
  | double => Ieee.binary64

/-- The bit pattern of the source operand. -/
def FpFmt.source (d : FpFmt) (o : Ops) (r : Regs) : Nat :=
  match d with
  | single => (r.fpr32i o.fs).toNat
  | double => (r.fpr64 (half o.fs)).toNat

/-- The word `w` is TRUNC.W in format `d`. -/
structure IsTrunc (w : Word) (d : FpFmt) : Prop where
  op : Inst.op w = 0x11
  fmt : Inst.rs w = d.num
  func : Inst.func w = 0x0d

/-- The library behind the handlers, with the status they pass. -/
structure TruncFpu (f : Fpu) : Prop where
  single : ∀ x, f.float32ToInt32 x = Softfloat.float32ToInt32 default x
  double : ∀ x, f.float64ToInt32 x = Softfloat.float64ToInt32 default x

/-- The value of the source, rounded toward zero, is stored in `fd`; nothing else changes. -/
def Truncates (P : Platform D) (w : Word) (d : FpFmt) (s : Machine D) : Prop :=
  exec P (Inst.ops w) (decoderGetHandler w) s = .ok () (s.setRegs
    (s.cpu.setFpr (Inst.ops w).fd (BitVec.ofInt 32
      (truncate (d.format.value (d.source (Inst.ops w) s.cpu.toRegs))))))

/-- What the handlers store: the value rounded to nearest, saturated. -/
theorem exec_trunc {P : Platform D} (hf : TruncFpu P.fpu) {w : Word} {d : FpFmt}
    (hw : IsTrunc w d) {s : Machine D}
    (hfin : d.format.isFinite (d.source (Inst.ops w) s.cpu.toRegs) = true) :
    let x := d.source (Inst.ops w) s.cpu.toRegs
    exec P (Inst.ops w) (decoderGetHandler w) s = .ok () (s.setRegs
      (s.cpu.setFpr (Inst.ops w).fd (BitVec.ofInt 32
        (clamp32 (signed (d.format.negative x) (roundQuot (d.format.num x) (d.format.den x))))))) := by
  intro x
  cases d with
  | single =>
    have hh : decoderGetHandler w = .truncWS := by
      rw [decoderGetHandler, hw.op, hw.fmt, hw.func]
      rfl
    have hv := (hf.single (s.cpu.fpr32i (Inst.ops w).fs)).trans (Softfloat.float32ToInt32_eq hfin)
    rw [hh, exec, body, truncWS, unS, run_ofRegs, hv]
    rfl
  | double =>
    have hh : decoderGetHandler w = .truncWD := by
      rw [decoderGetHandler, hw.op, hw.fmt, hw.func]
      rfl
    have hv := (hf.double (s.cpu.fpr64 (half (Inst.ops w).fs))).trans
      (Softfloat.float64ToInt32_eq hfin)
    rw [hh, exec, body, truncWD, run_ofRegs, hv]
    rfl

/-- TRUNC.W truncates a value in range exactly where rounding it to nearest does not matter. -/
theorem trunc_iff {P : Platform D} (hf : TruncFpu P.fpu) {w : Word} {d : FpFmt} (hw : IsTrunc w d)
    {s : Machine D} (hfin : d.format.isFinite (d.source (Inst.ops w) s.cpu.toRegs) = true)
    (hlo : -2 ^ 31 ≤ truncate (d.format.value (d.source (Inst.ops w) s.cpu.toRegs)))
    (hhi : truncate (d.format.value (d.source (Inst.ops w) s.cpu.toRegs)) < 2 ^ 31) :
    Truncates P w d s ↔ TruncOk (d.format.value (d.source (Inst.ops w) s.cpu.toRegs)) := by
  rw [Truncates, exec_trunc hf hw hfin, ok_inj, setRegs_inj, setFpr_inj, ofInt_clamp_iff _ hlo hhi]
  generalize d.source (Inst.ops w) s.cpu.toRegs = x at *
  rw [Ieee.Format.value_eq] at hlo hhi ⊢
  exact clamp_eq_truncate_iff _ _ (d.format.den_pos x) hlo hhi

/-- A platform with the conversions of the library. -/
def truncPlatform : Platform Unit :=
  { mips32r1 with fpu := { noFpu with
      float32ToInt32 := Softfloat.float32ToInt32 default
      float64ToInt32 := Softfloat.float64ToInt32 default } }

theorem truncFpu_truncPlatform : TruncFpu truncPlatform.fpu := ⟨fun _ => rfl, fun _ => rfl⟩

/-- The value of the source operand of `trunc.w.s $f4, $f2`. -/
theorem value_truncDemo (x : Word) :
    FpFmt.single.format.value
        (FpFmt.single.source (Inst.ops 0x4600110D) (compareDemo x).cpu.toRegs) =
      signedQuot (Ieee.binary32.negative x.toNat) (Ieee.binary32.num x.toNat)
        (Ieee.binary32.den x.toNat) :=
  Ieee.Format.value_eq Ieee.binary32 x.toNat

/-- `trunc.w.s $f4, $f2` with $f2 = -2.25. -/
theorem trunc_down : Truncates truncPlatform 0x4600110D .single (compareDemo 0xC0100000) := by
  have ht : truncate (FpFmt.single.format.value
      (FpFmt.single.source (Inst.ops 0x4600110D) (compareDemo 0xC0100000).cpu.toRegs)) = -2 := by
    rw [value_truncDemo, Ieee.truncate_signedQuot _ _ (Ieee.Format.den_pos _ _)]
    decide
  refine (trunc_iff truncFpu_truncPlatform ⟨by decide, by decide, by decide⟩ (by decide)
    (by rw [ht]; decide) (by rw [ht]; decide)).2 (.inl ?_)
  rw [value_truncDemo, Ieee.abs_sub_truncate _ _ (Ieee.Format.den_pos _ _),
    div_lt_half_iff _ (Ieee.Format.den_pos _ _)]
  decide

/-- `trunc.w.s $f4, $f2` with $f2 = 1.5 stores 2. -/
theorem trunc_up : ¬ Truncates truncPlatform 0x4600110D .single (compareDemo 0x3FC00000) := by
  intro h
  have ht : truncate (FpFmt.single.format.value
      (FpFmt.single.source (Inst.ops 0x4600110D) (compareDemo 0x3FC00000).cpu.toRegs)) = 1 := by
    rw [value_truncDemo, Ieee.truncate_signedQuot _ _ (Ieee.Format.den_pos _ _)]
    decide
  have hr := congrArg (fun r => (final r).cpu.fpr32i 4) h
  rw [ht] at hr
  exact absurd hr (by decide)

end NemuMips32
