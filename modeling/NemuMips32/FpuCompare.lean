/-
  The floating point comparisons (`c_un_s` .. `c_le_d`, `float.h`) and the condition codes they
  set. The low bits of the function field name the condition: bit 2 is less, bit 1 equal, bit 0
  unordered.

  The handlers compare with the host's `==`, `<` and `<=`, which are false when an operand is a
  NaN, and `c_un` never compares at all. So bit 0 is ignored (`compare_value`), and the
  condition code is the architected one unless the operands are unordered and the condition
  asks for that (`fpuCompare_iff`).
-/
import NemuMips32.FpuControl
import NemuMips32.Lib.Ieee

namespace NemuMips32

open StateExcept
open Ieee (binary32 binary64)

variable {D : Type}

/-! ## Condition codes -/

/-- The bit of FCSR that holds condition code `cc`. -/
def fccBit (cc : BitVec 3) : Nat := if cc = 0 then 23 else 24 + cc.toNat

theorem fccBit_inj {cc cc' : BitVec 3} (h : fccBit cc = fccBit cc') : cc = cc' := by
  have h0 : ∀ c : BitVec 3, c ≠ 0 → c.toNat ≠ 0 := by
    intro c hc hn
    exact hc (BitVec.eq_of_toNat_eq hn)
  unfold fccBit at h
  split_ifs at h with hc hc' hc'
  · rw [hc, hc']
  · have := h0 cc' hc'
    omega
  · have := h0 cc hc
    omega
  · exact BitVec.eq_of_toNat_eq (by omega)

theorem fccBit_lt (cc : BitVec 3) : fccBit cc < 32 := by
  have := cc.isLt
  unfold fccBit
  split_ifs <;> omega

theorem getFPCondCode_eq (r : Regs) (cc : BitVec 3) :
    r.getFPCondCode cc = r.fcsr.getLsbD (fccBit cc) := by
  unfold Regs.getFPCondCode fccBit
  split_ifs with h
  · rfl
  · have hc : cc.toNat ≠ 0 := fun hn => h (BitVec.eq_of_toNat_eq hn)
    have hlt := cc.isLt
    rw [BitVec.getLsbD_ushiftRight, getLsbD_field]
    simp [show cc.toNat - 1 < 7 by omega, show 25 + (cc.toNat - 1) = 24 + cc.toNat by omega]

/-- Bit `k` of a 7-bit field replaced by `v`. -/
theorem getLsbD_replace (x : BitVec 7) (v : Bool) {k j : Nat} (hj : j < 7) :
    (x &&& ~~~(1#7 <<< k) ||| (BitVec.ofBool v).setWidth 7 <<< k).getLsbD j =
      if j = k then v else x.getLsbD j := by
  rw [BitVec.getLsbD_or, BitVec.getLsbD_and, BitVec.getLsbD_not, BitVec.getLsbD_shiftLeft,
    BitVec.getLsbD_shiftLeft, BitVec.getLsbD_setWidth, BitVec.getLsbD_ofBool, BitVec.getLsbD_one]
  split_ifs with h
  · subst h
    simp [hj]
  · by_cases hk : j < k
    · simp [hj, hk]
    · simp [hj, hk, show ¬ j - k = 0 by omega]

theorem fcsr_setFPCondCode (r : Regs) (cc : BitVec 3) (v : Bool) {i : Nat} (hi : i < 32) :
    (r.setFPCondCode cc v).fcsr.getLsbD i = if i = fccBit cc then v else r.fcsr.getLsbD i := by
  unfold Regs.setFPCondCode fccBit
  by_cases h : cc = 0
  · simp only [if_pos h]
    rw [getLsbD_setField _ _ _ hi]
    split_ifs with h23 h23 <;> first | rfl | omega | skip
    rw [h23]
    simp
  · have hc : cc.toNat ≠ 0 := fun hn => h (BitVec.eq_of_toNat_eq hn)
    simp only [if_neg h]
    rw [getLsbD_setField _ _ _ hi]
    by_cases h25 : 25 ≤ i
    · rw [if_pos ⟨h25, by omega⟩, getLsbD_replace _ _ (by omega), getLsbD_field]
      simp [show i - 25 < 7 by omega, show 25 + (i - 25) = i by omega,
        show i - 25 = cc.toNat - 1 ↔ i = 24 + cc.toNat by omega]
    · rw [if_neg (by omega), if_neg (by omega)]

theorem getFPCondCode_setFPCondCode (r : Regs) (cc cc' : BitVec 3) (v : Bool) :
    (r.setFPCondCode cc v).getFPCondCode cc' = if cc' = cc then v else r.getFPCondCode cc' := by
  rw [getFPCondCode_eq, getFPCondCode_eq, fcsr_setFPCondCode r cc v (fccBit_lt cc')]
  by_cases h : cc' = cc
  · rw [if_pos h, if_pos (congrArg fccBit h)]
  · rw [if_neg h, if_neg fun he => h (fccBit_inj he)]

/-! ## Instructions -/

inductive FpFmt where
  | single
  | double

def FpFmt.num : FpFmt → BitVec 5
  | single => 16
  | double => 17

/-- The conditions that have a handler. -/
inductive FpCond where
  | un
  | eq
  | ueq
  | olt
  | ult
  | ole
  | ule
  | lt
  | le

namespace FpCond

def func : FpCond → BitVec 6
  | un => 0x31
  | eq => 0x32
  | ueq => 0x33
  | olt => 0x34
  | ult => 0x35
  | ole => 0x36
  | ule => 0x37
  | lt => 0x3c
  | le => 0x3e

def handler : FpCond → FpFmt → Handler
  | un, .single => .cUnS | un, .double => .cUnD
  | eq, .single => .cEqS | eq, .double => .cEqD
  | ueq, .single => .cUeqS | ueq, .double => .cUeqD
  | olt, .single => .cOltS | olt, .double => .cOltD
  | ult, .single => .cUltS | ult, .double => .cUltD
  | ole, .single => .cOleS | ole, .double => .cOleD
  | ule, .single => .cUleS | ule, .double => .cUleD
  | lt, .single => .cLtS | lt, .double => .cLtD
  | le, .single => .cLeS | le, .double => .cLeD

/-- The bits of the condition. -/
def asksLess (c : FpCond) : Bool := c.func.getLsbD 2
def asksEqual (c : FpCond) : Bool := c.func.getLsbD 1
def asksUnordered (c : FpCond) : Bool := c.func.getLsbD 0

end FpCond

/-- The word `w` is the comparison `c` in format `d`. -/
structure IsCompare (w : Word) (c : FpCond) (d : FpFmt) : Prop where
  op : Inst.op w = 0x11
  fmt : Inst.rs w = d.num
  func : Inst.func w = c.func

theorem IsCompare.handler {w : Word} {c : FpCond} {d : FpFmt} (h : IsCompare w c d) :
    decoderGetHandler w = c.handler d := by
  rw [decoderGetHandler, h.op, h.fmt, h.func]
  cases c <;> cases d <;> rfl

/-! ## Comparing -/

/-- A relation between the operands of a comparison. -/
def FpFmt.holds (d : FpFmt) (rel : Ieee.Format → Nat → Nat → Bool) (o : Ops) (r : Regs) : Bool :=
  match d with
  | single => rel binary32 (r.fpr32i o.fs).toNat (r.fpr32i o.ft).toNat
  | double => rel binary64 (r.fpr64 o.fs64).toNat (r.fpr64 o.ft64).toNat

/-- The architected value of a comparison. -/
def FpCond.value (c : FpCond) (d : FpFmt) (o : Ops) (r : Regs) : Bool :=
  c.asksLess && d.holds Ieee.Format.less o r || c.asksEqual && d.holds Ieee.Format.equal o r ||
    c.asksUnordered && d.holds Ieee.Format.unordered o r

/-- The value of a comparison without its unordered bit. -/
def FpCond.ordered (c : FpCond) (d : FpFmt) (o : Ops) (r : Regs) : Bool :=
  c.asksLess && d.holds Ieee.Format.less o r || c.asksEqual && d.holds Ieee.Format.equal o r

/-- The host's comparisons of `float` and of `double` are the IEEE predicates. -/
structure HostCompares (f : Fpu) : Prop where
  eq32 : ∀ x y, f.hostEq32 x y = binary32.equal x.toNat y.toNat
  lt32 : ∀ x y, f.hostLt32 x y = binary32.less x.toNat y.toNat
  le32 : ∀ x y, f.hostLe32 x y = binary32.lessEqual x.toNat y.toNat
  eq64 : ∀ x y, f.hostEq64 x y = binary64.equal x.toNat y.toNat
  lt64 : ∀ x y, f.hostLt64 x y = binary64.less x.toNat y.toNat
  le64 : ∀ x y, f.hostLe64 x y = binary64.lessEqual x.toNat y.toNat

/-- The host comparison behind each condition. -/
def FpCond.host32 (f : Fpu) : FpCond → Word → Word → Bool
  | un => fun _ _ => false
  | eq | ueq => f.hostEq32
  | olt | ult | lt => f.hostLt32
  | ole | ule | le => f.hostLe32

def FpCond.host64 (f : Fpu) : FpCond → BitVec 64 → BitVec 64 → Bool
  | un => fun _ _ => false
  | eq | ueq => f.hostEq64
  | olt | ult | lt => f.hostLt64
  | ole | ule | le => f.hostLe64

theorem body_single (P : Platform D) (o : Ops) (c : FpCond) :
    body P o (c.handler .single) = cmpS o (c.host32 P.fpu) := by
  cases c <;> rfl

theorem body_double (P : Platform D) (o : Ops) (c : FpCond) :
    body P o (c.handler .double) = cmpD o (c.host64 P.fpu) := by
  cases c <;> rfl

theorem host32_eq {f : Fpu} (hh : HostCompares f) (c : FpCond) (x y : Word) :
    c.host32 f x y = (c.asksLess && binary32.less x.toNat y.toNat ||
      c.asksEqual && binary32.equal x.toNat y.toNat) := by
  cases c <;>
    simp [FpCond.host32, FpCond.asksLess, FpCond.asksEqual, FpCond.func, hh.eq32, hh.lt32,
      hh.le32, Ieee.Format.lessEqual]

theorem host64_eq {f : Fpu} (hh : HostCompares f) (c : FpCond) (x y : BitVec 64) :
    c.host64 f x y = (c.asksLess && binary64.less x.toNat y.toNat ||
      c.asksEqual && binary64.equal x.toNat y.toNat) := by
  cases c <;>
    simp [FpCond.host64, FpCond.asksLess, FpCond.asksEqual, FpCond.func, hh.eq64, hh.lt64,
      hh.le64, Ieee.Format.lessEqual]

theorem run_ofRegs (P : Platform D) (f : CpuState → Regs) (s : Machine D) :
    (Body.ofRegs f).run P s = .ok () (s.setRegs (f s.cpu)) := rfl

/-- What the handlers store: the comparison without its unordered bit. -/
theorem exec_compare {P : Platform D} (hh : HostCompares P.fpu) (c : FpCond) (d : FpFmt) (o : Ops)
    (s : Machine D) :
    exec P o (c.handler d) s =
      .ok () (s.setRegs (s.cpu.setFPCondCode o.cc1 (c.ordered d o s.cpu.toRegs))) := by
  rw [exec]
  cases d with
  | single =>
    rw [body_single, cmpS, run_ofRegs, host32_eq hh]
    rfl
  | double =>
    rw [body_double, cmpD, run_ofRegs, host64_eq hh]
    rfl

/-! ## Observing -/

/-- `bc1` with must-be-zero fields in order, and the integer MOVF and MOVT. -/
structure IsBc1 (w : Word) : Prop where
  op : Inst.op w = 0x11
  rs : Inst.rs w = 8
  nd : (Inst.ops w).nd = 0

structure IsMovci (w : Word) : Prop where
  op : Inst.op w = 0
  func : Inst.func w = 1

/-- BC1F, BC1T, MOVF and MOVT that name condition code `cc` find `v` there. -/
structure Observed (P : Platform D) (cc : BitVec 3) (v : Bool) (s : Machine D) : Prop where
  bc1 : ∀ w, IsBc1 w → (Inst.ops w).cc2 = cc →
    exec P (Inst.ops w) (decoderGetHandler w) s = .error .delayslot
      (s.branchTo s.cpu.toRegs
        (branchTarget (Inst.ops w) (v == ((Inst.ops w).tf == 1)) s.cpu.pc))
  movci : ∀ w, IsMovci w → (Inst.ops w).cc2 = cc →
    exec P (Inst.ops w) (decoderGetHandler w) s = .ok ()
      (s.setRegs (if v = ((Inst.ops w).tf == 1)
        then s.cpu.setGpr (Inst.ops w).rd (s.cpu.gpr (Inst.ops w).rs) else s.cpu.toRegs))

theorem observed_of_eq (P : Platform D) {cc : BitVec 3} {v : Bool} {s : Machine D}
    (h : s.cpu.getFPCondCode cc = v) : Observed P cc v s := by
  constructor
  · intro w hw hcc
    have hd : decoderGetHandler w = .bc1 := by
      rw [decoderGetHandler, hw.op, hw.rs]
      rfl
    have hb : body P (Inst.ops w) .bc1 = branch true noLink
        (fun r => r.getFPCondCode cc == ((Inst.ops w).tf == 1)) (Inst.ops w) := by
      simp only [body, NemuMips32.bc1, hw.nd, hcc]
      rfl
    rw [hd, exec, hb, ← h]
    rfl
  · intro w hw hcc
    have hd : decoderGetHandler w = .movci := by
      rw [decoderGetHandler, hw.op, hw.func]
      rfl
    rw [hd, exec, body, NemuMips32.movci, run_ofRegs, hcc, h]

/-- The comparison `w` leaves the architected value in its condition code, where the
    instructions that read it find it, and no other code changes. -/
def Compares (P : Platform D) (w : Word) (c : FpCond) (d : FpFmt) (s : Machine D) : Prop :=
  let v := c.value d (Inst.ops w) s.cpu.toRegs
  ∃ t, exec P (Inst.ops w) (decoderGetHandler w) s = .ok () t ∧
    t.cpu.getFPCondCode (Inst.ops w).cc1 = v ∧
    (∀ cc, cc ≠ (Inst.ops w).cc1 → t.cpu.getFPCondCode cc = s.cpu.getFPCondCode cc) ∧
    Observed P (Inst.ops w).cc1 v t

/-- Unordered operands are neither less nor equal. -/
theorem ordered_of_unordered {c : FpCond} {d : FpFmt} {o : Ops} {r : Regs}
    (h : d.holds Ieee.Format.unordered o r = true) : c.ordered d o r = false := by
  cases d with
  | single =>
    simp [FpCond.ordered, FpFmt.holds, Ieee.Format.less_of_unordered h,
      Ieee.Format.equal_of_unordered h]
  | double =>
    simp [FpCond.ordered, FpFmt.holds, Ieee.Format.less_of_unordered h,
      Ieee.Format.equal_of_unordered h]

theorem ordered_eq_value_iff (c : FpCond) (d : FpFmt) (o : Ops) (r : Regs) :
    c.ordered d o r = c.value d o r ↔
      ¬(c.asksUnordered = true ∧ d.holds Ieee.Format.unordered o r = true) := by
  have hv : c.value d o r =
      (c.ordered d o r || c.asksUnordered && d.holds Ieee.Format.unordered o r) := rfl
  rw [hv]
  cases hu : d.holds Ieee.Format.unordered o r with
  | false => simp
  | true =>
    rw [ordered_of_unordered hu]
    simp

/-- A comparison sets the architected condition unless its operands are unordered and its
    condition asks for that. -/
theorem fpuCompare_iff {P : Platform D} (hh : HostCompares P.fpu) {w : Word} {c : FpCond}
    {d : FpFmt} (hw : IsCompare w c d) (s : Machine D) :
    Compares P w c d s ↔
      ¬(c.asksUnordered = true ∧
        d.holds Ieee.Format.unordered (Inst.ops w) s.cpu.toRegs = true) := by
  have he := exec_compare hh c d (Inst.ops w) s
  rw [← hw.handler] at he
  rw [← ordered_eq_value_iff]
  have hget := getFPCondCode_setFPCondCode s.cpu.toRegs (Inst.ops w).cc1
  constructor
  · rintro ⟨t, ht, hv, -, -⟩
    rw [he] at ht
    cases ht
    exact ((hget _ _).trans (if_pos rfl)).symm.trans hv
  · intro h
    have hcc := (hget (Inst.ops w).cc1 (c.ordered d (Inst.ops w) s.cpu.toRegs)).trans (if_pos rfl)
    exact ⟨_, he, hcc.trans h, fun cc hne => (hget cc _).trans (if_neg hne),
      observed_of_eq P (hcc.trans h)⟩

/-- A host whose comparisons are the IEEE predicates. -/
def ieeeFpu : Fpu :=
  { noFpu with
    hostEq32 := fun x y => binary32.equal x.toNat y.toNat
    hostLt32 := fun x y => binary32.less x.toNat y.toNat
    hostLe32 := fun x y => binary32.lessEqual x.toNat y.toNat
    hostEq64 := fun x y => binary64.equal x.toNat y.toNat
    hostLt64 := fun x y => binary64.less x.toNat y.toNat
    hostLe64 := fun x y => binary64.lessEqual x.toNat y.toNat }

def ieeePlatform : Platform Unit := { mips32r1 with fpu := ieeeFpu }

theorem hostCompares_ieeeFpu : HostCompares ieeeFpu := by
  constructor <;> intro x y <;> rfl

/-- $f2 holds `x`, the other registers 1.0. -/
def compareDemo (x : Word) : Machine Unit :=
  (loaded [] []).setRegs { (loaded [] []).cpu.toRegs with
    fpr32i := fun i => if i = 2 then x else 0x3F800000 }

/-- `c.ult.s $f2, $f4` with $f2 = 0.5. -/
theorem fpuCompare_ult : Compares ieeePlatform 0x46041035 .ult .single (compareDemo 0x3F000000) :=
  (fpuCompare_iff hostCompares_ieeeFpu ⟨by decide, by decide, by decide⟩ _).2 (by decide)

/-- `c.un.s $f2, $f4` with a NaN in $f2 leaves the condition code clear. -/
theorem compare_nan : ¬ Compares ieeePlatform 0x46041031 .un .single (compareDemo 0x7FC00000) := by
  rintro ⟨t, ht, hv, -, -⟩
  cases ht
  exact absurd hv (by decide)

end NemuMips32
