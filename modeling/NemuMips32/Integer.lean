/-
  The integer instructions. `manual` says what the MIPS32 manual defines for each of them, in
  terms of the numbers the source registers stand for; the handlers compute it with the
  host's shifts, masks and 64-bit temporaries.

  * `completes_iff`: exactly when a handler of `hostHandlers` gets through without a host trap,
    an operation that C leaves undefined or a failed assertion.
  * `integer_run`: the handlers of `integerHandlers` do what `manual` says wherever C defines the
    host operations.
  * `integer_meets`: on a host, which gives the shift by 32 of a rotate by 0 some value, whole
    instructions do what `manual` says everywhere.
-/
import NemuMips32.Lib.Words
import NemuMips32.Iteration
import NemuMips32.Operands
import Mathlib.Tactic.IntervalCases

namespace NemuMips32

open StateExcept

variable {D : Type}

/-! ## The manual -/

/-- What an instruction leaves behind. -/
inductive Outcome where
  | gpr (i : BitVec 5) (v : Word)
  | hilo (v : BitVec 64)
  | hi (v : Word)
  | lo (v : Word)
  | none
  | overflow
  deriving DecidableEq

/-- The register files with the result in place. -/
def Outcome.put (r : Regs) : Outcome → Regs
  | .gpr i v => r.setGpr i v
  | .hilo v => r.setHilo v
  | .hi v => { r with hi := v }
  | .lo v => { r with lo := v }
  | .none => r
  | .overflow => r

/-- A result that must fit in 32 bits. -/
def checked (i : BitVec 5) (z : Int) : Outcome :=
  if -2 ^ 31 ≤ z ∧ z < 2 ^ 31 then .gpr i (BitVec.ofInt 32 z) else .overflow

/-- ROTR and ROTRV share their function codes with SRL and SRLV. -/
def isRotr (o : Ops) : Bool := o.rs &&& 1 == 1
def isRotrv (o : Ops) : Bool := o.shamt &&& 1 == 1

/-- The results that the manual defines. -/
def manual (h : Handler) (o : Ops) (r : Regs) : Outcome :=
  let rs := r.gpr o.rs
  let rt := r.gpr o.rt
  let imm := o.uimm
  let sa := o.shamt.toNat
  let sv := rs.toNat % 32
  match h with
  | .add => checked o.rd (rs.toInt + rt.toInt)
  | .addi => checked o.rt (rs.toInt + imm.toInt)
  | .sub => checked o.rd (rs.toInt - rt.toInt)
  | .addu => .gpr o.rd (BitVec.ofInt 32 (rs.toInt + rt.toInt))
  | .addiu => .gpr o.rt (BitVec.ofInt 32 (rs.toInt + imm.toInt))
  | .subu => .gpr o.rd (BitVec.ofInt 32 (rs.toInt - rt.toInt))
  | .mul => .gpr o.rd (BitVec.ofInt 32 (rs.toInt * rt.toInt))
  | .and => .gpr o.rd (rs &&& rt)
  | .andi => .gpr o.rt (rs &&& imm.setWidth 32)
  | .or => .gpr o.rd (rs ||| rt)
  | .ori => .gpr o.rt (rs ||| imm.setWidth 32)
  | .xor => .gpr o.rd (rs ^^^ rt)
  | .xori => .gpr o.rt (rs ^^^ imm.setWidth 32)
  | .nor => .gpr o.rd (~~~(rs ||| rt))
  | .lui => .gpr o.rt (imm ++ 0#16)
  | .slt => .gpr o.rd (if rs.toInt < rt.toInt then 1 else 0)
  | .slti => .gpr o.rt (if rs.toInt < imm.toInt then 1 else 0)
  | .sltu => .gpr o.rd (if rs.toNat < rt.toNat then 1 else 0)
  | .sltiu => .gpr o.rt (if rs.toNat < (imm.signExtend 32).toNat then 1 else 0)
  | .sll => .gpr o.rd (BitVec.ofNat 32 (rt.toNat * 2 ^ sa))
  | .sllv => .gpr o.rd (BitVec.ofNat 32 (rt.toNat * 2 ^ sv))
  | .srl =>
    .gpr o.rd (if isRotr o then rt.rotateRight sa else BitVec.ofNat 32 (rt.toNat / 2 ^ sa))
  | .srlv =>
    .gpr o.rd (if isRotrv o then rt.rotateRight sv else BitVec.ofNat 32 (rt.toNat / 2 ^ sv))
  | .sra => .gpr o.rd (BitVec.ofInt 32 (rt.toInt / 2 ^ sa))
  | .srav => .gpr o.rd (BitVec.ofInt 32 (rt.toInt / 2 ^ sv))
  | .clz => .gpr o.rd (BitVec.ofNat 32 (Words.leading false rs))
  | .clo => .gpr o.rd (BitVec.ofNat 32 (Words.leading true rs))
  | .seb => .gpr o.rd (BitVec.ofInt 32 (rt.setWidth 8).toInt)
  | .seh => .gpr o.rd (BitVec.ofInt 32 (rt.setWidth 16).toInt)
  | .wsbh =>
    .gpr o.rd
      (rt.extractLsb' 16 8 ++ rt.extractLsb' 24 8 ++ rt.extractLsb' 0 8 ++ rt.extractLsb' 8 8)
  | .ext => .gpr o.rt (BitVec.ofNat 32 (rs.toNat / 2 ^ sa % 2 ^ (o.rd.toNat + 1)))
  | .ins =>
    let size := o.rd.toNat + 1 - sa
    .gpr o.rt (BitVec.ofNat 32
      (Words.concat (rt.toNat / 2 ^ (sa + size)) size rs.toNat sa rt.toNat))
  | .movz => if rt = 0 then .gpr o.rd rs else .none
  | .movn => if rt ≠ 0 then .gpr o.rd rs else .none
  | .mult => .hilo (BitVec.ofInt 64 (rs.toInt * rt.toInt))
  | .multu => .hilo (BitVec.ofNat 64 (rs.toNat * rt.toNat))
  | .mfhi => .gpr o.rd r.hi
  | .mflo => .gpr o.rd r.lo
  | .mthi => .hi rs
  | .mtlo => .lo rs
  | _ => .none

def integerHandlers : List Handler :=
  [.add, .addi, .sub, .addu, .addiu, .subu, .mul, .and, .andi, .or, .ori, .xor, .xori, .nor,
   .lui, .slt, .slti, .sltu, .sltiu, .sll, .sllv, .srl, .srlv, .sra, .srav, .clz, .clo, .seb,
   .seh, .wsbh, .ext, .ins, .movz, .movn, .mult, .multu, .mfhi, .mflo, .mthi, .mtlo]

/-- The fields that the `InstAssert` of a handler requires to be zero. -/
def mustBeZero (h : Handler) (o : Ops) : List (BitVec 5) :=
  match h with
  | .or | .xor | .and | .addu | .subu | .mul | .add | .sub | .nor | .slt | .sltu | .movn
  | .movz | .sllv | .srav => [o.shamt]
  | .lui | .sll | .sra => [o.rs]
  | .srl => if isRotr o then [] else [o.rs]
  | .srlv => if isRotrv o then [] else [o.shamt]
  | .madd | .maddu | .msub | .msubu | .mult | .multu | .divide | .divu => [o.rd, o.shamt]
  | .mfhi | .mflo => [o.rs, o.rt, o.shamt]
  | .mthi | .mtlo => [o.rt, o.rd, o.shamt]
  | _ => []

def mbzOk (h : Handler) (o : Ops) : Bool := (mustBeZero h o).all (· == 0)

/-- The handlers whose host operations can trap or be undefined, with those of their kind that
    cannot. -/
def hostHandlers : List Handler :=
  [.divide, .divu, .madd, .maddu, .msub, .msubu, .ins, .ext, .srl, .srlv, .sll, .sra]

def Fits64 (z : Int) : Prop := -2 ^ 63 ≤ z ∧ z < 2 ^ 63

instance (z : Int) : Decidable (Fits64 z) := inferInstanceAs (Decidable (_ ∧ _))

/-- The operands for which the host operations of a handler are defined. -/
def HostDefined (h : Handler) (o : Ops) (r : Regs) : Prop :=
  let rs := r.gpr o.rs
  let rt := r.gpr o.rt
  match h with
  | .divide => rt ≠ 0 ∧ ¬ (rs.toInt = -2 ^ 31 ∧ rt.toInt = -1)
  | .divu => rt ≠ 0
  | .madd => Fits64 ((r.hi ++ r.lo).toInt + rs.toInt * rt.toInt)
  | .msub => Fits64 ((r.hi ++ r.lo).toInt - rs.toInt * rt.toInt)
  | .ins => o.shamt.toNat ≤ o.rd.toNat
  | .srl => isRotr o = true → o.shamt.toNat ≠ 0
  | .srlv => isRotrv o = true → rs.toNat % 32 ≠ 0
  | _ => True

/-! ## Host operations -/

theorem divTraps_iff (c : CpuState) (o : Ops) :
    divTraps c o = false ↔
      c.gpr o.rt ≠ 0 ∧ ¬ ((c.gpr o.rs).toInt = -2 ^ 31 ∧ (c.gpr o.rt).toInt = -1) := by
  have hmin : c.gpr o.rs = 0x80000000 ↔ (c.gpr o.rs).toInt = -2 ^ 31 :=
    BitVec.toInt_inj.symm
  have hone : c.gpr o.rt = 0xFFFFFFFF ↔ (c.gpr o.rt).toInt = -1 := BitVec.toInt_inj.symm
  rw [← hmin, ← hone, divTraps, Bool.or_eq_false_iff, Bool.and_eq_false_imp]
  simp

theorem toInt_sprod (r : Regs) (o : Ops) :
    (sprod r o).toInt = (r.gpr o.rs).toInt * (r.gpr o.rt).toInt :=
  Words.toInt_mul_signExtend _ _

theorem saddOverflow_eq_false {x y : BitVec 64} :
    x.saddOverflow y = false ↔ Fits64 (x.toInt + y.toInt) := by
  simp only [BitVec.saddOverflow, Fits64, Bool.or_eq_false_iff, decide_eq_false_iff_not]
  omega

theorem ssubOverflow_eq_false {x y : BitVec 64} :
    x.ssubOverflow y = false ↔ Fits64 (x.toInt - y.toInt) := by
  simp only [BitVec.ssubOverflow, Fits64, Bool.or_eq_false_iff, decide_eq_false_iff_not]
  omega

theorem ite_some_eq_none {α : Type} {b : Bool} {a : α} :
    (if b then some a else none) = none ↔ b = false := by
  cases b <;> simp

theorem shiftAmount_eq (x : Word) : shiftAmount x = x.toNat % 32 := Words.and_31 x

/-- `srl` in one piece: its rotate checks no field and is undefined for the amount 0. -/
theorem srl_eq (o : Ops) :
    srl o = .regs (mbzOk .srl o) (fun _ => if isRotr o then rotrTraps o.shamt.toNat else none)
      fun c => c.setGpr o.rd
        (if isRotr o then rotr (c.gpr o.rt) o.shamt.toNat else c.gpr o.rt >>> o.shamt.toNat) := by
  by_cases hr : o.rs &&& 1 = 1
  · have hb : isRotr o = true := beq_iff_eq.2 hr
    rw [srl, if_pos hr]
    simp [mbzOk, mustBeZero, hb]
  · have hb : isRotr o = false := beq_eq_false_iff_ne.2 hr
    rw [srl, if_neg hr]
    simp [mbzOk, mustBeZero, hb, regsOp]

theorem srlv_eq (o : Ops) :
    srlv o = .regs (mbzOk .srlv o)
      (fun c => if isRotrv o then rotrTraps (shiftAmount (c.gpr o.rs)) else none)
      fun c => c.setGpr o.rd
        (if isRotrv o then rotr (c.gpr o.rt) (shiftAmount (c.gpr o.rs))
          else c.gpr o.rt >>> shiftAmount (c.gpr o.rs)) := by
  by_cases hr : o.shamt &&& 1 = 1
  · have hb : isRotrv o = true := beq_iff_eq.2 hr
    rw [srlv, if_pos hr]
    simp [mbzOk, mustBeZero, hb]
  · have hb : isRotrv o = false := beq_eq_false_iff_ne.2 hr
    rw [srlv, if_neg hr]
    simp [mbzOk, mustBeZero, hb, regsOp]

theorem srl_defined (o : Ops) (c : CpuState) :
    (if isRotr o then rotrTraps o.shamt.toNat else none) = none ↔
      HostDefined .srl o c.toRegs := by
  cases hr : isRotr o <;> simp [HostDefined, hr, rotrTraps]

theorem srlv_defined (o : Ops) (c : CpuState) :
    (if isRotrv o then rotrTraps (shiftAmount (c.gpr o.rs)) else none) = none ↔
      HostDefined .srlv o c.toRegs := by
  cases hr : isRotrv o <;> simp [HostDefined, hr, rotrTraps, shiftAmount_eq]

theorem ins_defined (o : Ops) (c : CpuState) :
    (if o.shamt.toNat ≤ o.rd.toNat then none else some Halt.assert) = none ↔
      HostDefined .ins o c.toRegs := by
  simp [HostDefined]

/-- Each of these handlers is a checked register update, and its host operations are defined
    for the operands of `HostDefined`. -/
theorem host_body (P : Platform D) (o : Ops) {h : Handler} (hh : h ∈ hostHandlers) :
    ∃ bad f, body P o h = .regs (mbzOk h o) bad f ∧
      ∀ c : CpuState, bad c = none ↔ HostDefined h o c.toRegs := by
  have hmdu : mduMbz o = mbzOk .madd o := by simp [mduMbz, mbzOk, mustBeZero]
  have hrs : (o.rs == 0) = mbzOk .sll o := by simp [mbzOk, mustBeZero]
  simp only [hostHandlers, List.mem_cons, List.not_mem_nil, or_false] at hh
  rcases hh with rfl | rfl | rfl | rfl | rfl | rfl | rfl | rfl | rfl | rfl | rfl | rfl
  · refine ⟨_, _, congrArg (Body.regs · _ _) hmdu, fun c => ?_⟩
    exact ite_some_eq_none.trans (divTraps_iff c o)
  · refine ⟨_, _, congrArg (Body.regs · _ _) hmdu, fun c => ?_⟩
    simp [HostDefined]
  · refine ⟨_, _, congrArg (Body.regs · _ _) hmdu, fun c => ?_⟩
    rw [ite_some_eq_none, saddOverflow_eq_false, toInt_sprod]
    rfl
  · exact ⟨_, _, congrArg (Body.regs · _ _) hmdu, fun c => iff_of_true rfl trivial⟩
  · refine ⟨_, _, congrArg (Body.regs · _ _) hmdu, fun c => ?_⟩
    rw [ite_some_eq_none, ssubOverflow_eq_false, toInt_sprod]
    rfl
  · exact ⟨_, _, congrArg (Body.regs · _ _) hmdu, fun c => iff_of_true rfl trivial⟩
  · exact ⟨_, _, rfl, ins_defined o⟩
  · exact ⟨_, _, rfl, fun c => iff_of_true rfl trivial⟩
  · exact ⟨_, _, srl_eq o, srl_defined o⟩
  · exact ⟨_, _, srlv_eq o, srlv_defined o⟩
  · exact ⟨_, _, congrArg (Body.regs · _ _) hrs, fun c => iff_of_true rfl trivial⟩
  · exact ⟨_, _, congrArg (Body.regs · _ _) hrs, fun c => iff_of_true rfl trivial⟩

/-- The handler gets through: it does not end the emulator. -/
def Completes (r : EStateM.Result Stop (Machine D) Unit) : Prop :=
  ∀ why t, r ≠ .error (.halt why) t

section Regs

variable (P : Platform D) (bad : CpuState → Option Halt) (f : CpuState → Regs) {s : Machine D}

theorem regs_of_none (h : bad s.cpu = none) :
    (Body.regs true bad f).run P s = .ok () (s.setRegs (f s.cpu)) := by
  rw [Body.run, bind_of_ok (instAssert_true s), bind_of_ok (getCpu_apply s), h]
  rfl

theorem regs_of_some {why : Halt} (h : bad s.cpu = some why) :
    (Body.regs true bad f).run P s = .error (.halt why) s := by
  rw [Body.run, bind_of_ok (instAssert_true s), bind_of_ok (getCpu_apply s), h]
  rfl

theorem regs_of_mbz {P} (hx : P.cfg.exception = true) :
    (Body.regs false bad f).run P s =
      .error .exit ((s.setBadvaddr s.cpu.pc).raise P ⟨.none, .RI⟩) := by
  rw [Body.run]
  exact bind_of_error (instAssert_false hx s) _

theorem regs_of_assert {P} (hx : ¬ P.cfg.exception = true) :
    (Body.regs false bad f).run P s = .error (.halt .assert) s := by
  have hi : instAssert P false s = .error (.halt .assert) s := by
    simp [instAssert, hx]
  rw [Body.run]
  exact bind_of_error hi _

theorem completes_regs (mbz : Bool) :
    Completes ((Body.regs mbz bad f).run P s) ↔
      if mbz then bad s.cpu = none else P.cfg.exception = true := by
  unfold Completes
  cases mbz with
  | true =>
    rw [if_pos rfl]
    cases hb : bad s.cpu with
    | some why => simp [regs_of_some P bad f hb]
    | none => simp [regs_of_none P bad f hb]
  | false =>
    rw [if_neg (by decide)]
    by_cases hx : P.cfg.exception = true
    · simp [regs_of_mbz bad f hx, hx]
    · simp [regs_of_assert bad f hx, hx]

end Regs

/-- What a handler of `hostHandlers` needs to get through, in either build. -/
theorem completes_iff (P : Platform D) {w : Word} (hw : decoderGetHandler w ∈ hostHandlers)
    {o : Ops} (ho : OperandsOf P w o) (s : Machine D) :
    Completes (exec P o (decoderGetHandler w) s) ↔
      if mbzOk (decoderGetHandler w) (Inst.ops w) then
        HostDefined (decoderGetHandler w) (Inst.ops w) s.cpu.toRegs
      else P.cfg.exception = true := by
  have hreads : ∀ h ∈ hostHandlers, ∀ f ∈ h.reads, f ∉ fpuMembers := by decide
  obtain ⟨bad, f, hb, hbad⟩ := host_body P (Inst.ops w) hw
  rw [ho.exec_eq (hreads _ hw), exec, hb, completes_regs, hbad]

/-- `div $1, $2` with $2 = 3 gets through. -/
theorem completes_div :
    Completes (exec mips32r1 (Inst.ops 0x0022001a) (decoderGetHandler 0x0022001a)
      (loaded [] [(1, 7), (2, 3)])) := by
  refine (completes_iff mips32r1 (by decide) rfl _).2 ?_
  rw [if_pos (by decide)]
  exact ⟨by decide, by decide⟩

/-- `div $1, $2` with $2 = 0 does not: the host divides by 0. -/
theorem not_completes_div :
    decoderGetHandler 0x0022001a = .divide ∧
      ¬ Completes (exec mips32r1 (Inst.ops 0x0022001a) (decoderGetHandler 0x0022001a)
        (loaded [] [])) := by
  refine ⟨by decide, fun h => ?_⟩
  exact h .undefined (loaded [] []) rfl

/-! ## Values -/

theorem overflows_iff {z : Int} (hz : -2 ^ 32 ≤ z ∧ z < 2 ^ 32) :
    overflows (BitVec.ofInt 64 z) = true ↔ ¬ (-2 ^ 31 ≤ z ∧ z < 2 ^ 31) := by
  rw [overflows, bne_iff_ne]
  exact Words.bits_differ_iff hz

/-- The check of `add`, `addi` and `sub` on a sum that was formed in 64 bits. -/
theorem checked_eq (i : BitVec 5) {z : Int} (hz : -2 ^ 32 ≤ z ∧ z < 2 ^ 32) :
    checked i z =
      if overflows (BitVec.ofInt 64 z) then .overflow
      else .gpr i ((BitVec.ofInt 64 z).extractLsb' 0 32) := by
  rw [checked, Words.low_ofInt]
  by_cases h : -2 ^ 31 ≤ z ∧ z < 2 ^ 31
  · have ho : overflows (BitVec.ofInt 64 z) = false := by
      rw [← Bool.not_eq_true, overflows_iff hz]
      exact not_not.2 h
    rw [if_pos h, ho]
    rfl
  · rw [if_neg h, if_pos ((overflows_iff hz).2 h)]

theorem toInt_simm (o : Ops) : o.simm.toInt = o.uimm.toInt :=
  BitVec.toInt_signExtend_of_le (by decide)

theorem toInt_imm_range (x : BitVec 16) : -2 ^ 31 ≤ x.toInt ∧ x.toInt < 2 ^ 31 := by
  have h1 := BitVec.le_toInt x
  have h2 := BitVec.toInt_lt (x := x)
  omega

theorem add_signExtend_eq {n : Nat} (x : Word) (y : BitVec n) (hn : n ≤ 64) :
    x.signExtend 64 + y.signExtend 64 = BitVec.ofInt 64 (x.toInt + y.toInt) := by
  rw [Words.add_eq_ofInt, BitVec.toInt_signExtend_of_le (by decide),
    BitVec.toInt_signExtend_of_le hn]

theorem sub_signExtend_eq (x y : Word) :
    x.signExtend 64 - y.signExtend 64 = BitVec.ofInt 64 (x.toInt - y.toInt) := by
  rw [Words.sub_eq_ofInt, BitVec.toInt_signExtend_of_le (by decide),
    BitVec.toInt_signExtend_of_le (by decide)]

theorem ofCond_decide (p : Prop) [Decidable p] : ofCond (decide p) = if p then 1 else 0 := by
  by_cases h : p <;> simp [ofCond, h]

theorem lui_value (imm : BitVec 16) : imm.setWidth 32 <<< 16 = imm ++ 0#16 := by
  apply BitVec.eq_of_getLsbD_eq
  intro i hi
  rw [BitVec.getLsbD_append, BitVec.getLsbD_shiftLeft, BitVec.getLsbD_setWidth]
  by_cases h : i < 16
  · simp [h]
  · simp [h, hi, show i - 16 < 32 by omega]

theorem rotr_eq (x : Word) {sa : Nat} (h : sa < 32) : rotr x sa = x.rotateRight sa := by
  rw [BitVec.rotateRight_eq_rotateRightAux_of_lt h]
  rfl

theorem rotateRight_zero (x : Word) : x.rotateRight 0 = x := by
  rw [← rotr_eq x (by decide)]
  simp [rotr]

theorem clz_value (x : Word) :
    (if x = 0 then 32 else x.clz) = BitVec.ofNat 32 (Words.leading false x) := by
  split
  · rename_i h
    rw [h]
    rfl
  · exact Words.clz_eq_leading x (by decide)

theorem shift_msb {n : Nat} (hn : n < 32) :
    0x80000000#32 >>> (31 - n) = BitVec.twoPow 32 n ∧ BitVec.twoPow 32 n ≠ 0 := by
  have h : ∀ n : Fin 32, 0x80000000#32 >>> (31 - n.val) = BitVec.twoPow 32 n.val ∧
      BitVec.twoPow 32 n.val ≠ 0 := by
    decide
  exact h ⟨n, hn⟩

/-- The loop of `clo` counts the leading ones among the bits from `n - 1` down. -/
theorem cloLoop_eq (x : Word) {n : Nat} (hn : n ≤ 32) (cnt : Word) :
    cloLoop x n (0x80000000#32 >>> (32 - n)) cnt =
      cnt + BitVec.ofNat 32 (Words.leadingFrom true x n) := by
  induction n generalizing cnt with
  | zero => simp [cloLoop, Words.leadingFrom]
  | succ n ih =>
    obtain ⟨hp, hne⟩ := shift_msb (show n < 32 by omega)
    have hmask : 0x80000000#32 >>> (32 - (n + 1)) = BitVec.twoPow 32 n := by
      rw [← hp, show 32 - (n + 1) = 31 - n by omega]
    have hnext : 0x80000000#32 >>> (32 - (n + 1)) >>> 1 = 0x80000000#32 >>> (32 - n) := by
      rw [← BitVec.shiftRight_add, show 32 - (n + 1) + 1 = 32 - n by omega]
    rw [cloLoop, Words.leadingFrom, hnext, hmask, BitVec.and_twoPow]
    cases h : x.getLsbD n with
    | true =>
      simp only [if_true, hne, ne_eq, not_false_eq_true]
      rw [ih (by omega), BitVec.ofNat_add, BitVec.add_assoc, BitVec.add_comm 1]
      rfl
    | false => simp

theorem clo_value (x : Word) :
    cloLoop x 32 0x80000000 0 = BitVec.ofNat 32 (Words.leading true x) := by
  rw [Words.leading, ← BitVec.zero_add (BitVec.ofNat 32 _)]
  exact cloLoop_eq x (Nat.le_refl 32) 0

theorem wsbh_value (x : Word) :
    ((x &&& 0x00FF0000) <<< 8) ||| ((x &&& 0xFF000000) >>> 8) |||
        ((x &&& 0x000000FF) <<< 8) ||| ((x &&& 0x0000FF00) >>> 8) =
      x.extractLsb' 16 8 ++ x.extractLsb' 24 8 ++ x.extractLsb' 0 8 ++ x.extractLsb' 8 8 := by
  apply BitVec.eq_of_getLsbD_eq
  intro i hi
  simp only [BitVec.getLsbD_or, BitVec.getLsbD_shiftLeft, BitVec.getLsbD_ushiftRight,
    BitVec.getLsbD_and, BitVec.getLsbD_append, BitVec.getLsbD_extractLsb']
  interval_cases i <;> simp

theorem ext_value (x : Word) {lsb size : Nat} (h : lsb + size ≤ 32) :
    (x &&& (lowMask size <<< lsb)) >>> lsb = BitVec.ofNat 32 (x.toNat / 2 ^ lsb % 2 ^ size) := by
  apply BitVec.eq_of_getLsbD_eq
  intro i hi
  rw [BitVec.getLsbD_ushiftRight, BitVec.getLsbD_and, BitVec.getLsbD_shiftLeft,
    BitVec.getLsbD_ofNat, Nat.testBit_mod_two_pow, Nat.testBit_div_two_pow, BitVec.testBit_toNat,
    Nat.add_sub_cancel_left, Nat.add_comm i lsb]
  by_cases hs : i < size
  · rw [lowMask, Words.getLsbD_mask (by omega) hi]
    simp [hs, hi, show lsb + i < 32 by omega]
  · rw [lowMask, Words.getLsbD_mask (by omega) hi]
    simp [hs]

theorem ins_value (x y : Word) {lsb size : Nat} (h : lsb + size ≤ 32) :
    (y &&& ~~~(lowMask size <<< lsb)) ||| ((x &&& lowMask size) <<< lsb) =
      BitVec.ofNat 32 (Words.concat (y.toNat / 2 ^ (lsb + size)) size x.toNat lsb y.toNat) := by
  apply BitVec.eq_of_getLsbD_eq
  intro i hi
  rw [BitVec.getLsbD_ofNat, Words.testBit_concat]
  simp only [BitVec.getLsbD_or, BitVec.getLsbD_and, BitVec.getLsbD_not, BitVec.getLsbD_shiftLeft,
    BitVec.testBit_toNat, Nat.testBit_div_two_pow]
  rcases Nat.lt_or_ge i lsb with hl | hl
  · simp [hl, hi]
  · rw [lowMask, Words.getLsbD_mask (by omega) (show i - lsb < 32 by omega)]
    rcases Nat.lt_or_ge i (lsb + size) with hs | hs
    · simp [hi, hs, Nat.not_lt.2 hl, show i - lsb < size by omega]
    · simp [hi, Nat.not_lt.2 hs, Nat.not_lt.2 hl, show ¬ i - lsb < size by omega,
        show i - lsb - size + (lsb + size) = i by omega]

/-! ## The handlers do what the manual says -/

/-- The field of EXT or INS lies inside the word, and the one of INS is not empty. EXT has its
    size less one in `rd`, INS its last bit. -/
def FieldLegal (h : Handler) (o : Ops) : Prop :=
  (h = .ext → o.shamt.toNat + (o.rd.toNat + 1) ≤ 32) ∧ (h = .ins → o.shamt.toNat ≤ o.rd.toNat)

/-- A body that does what the manual says: a checked register update, or a sum that must fit. -/
inductive IntegerBody (h : Handler) (o : Ops) : Body → Prop where
  | regs (bad : CpuState → Option Halt) (f : CpuState → Regs)
    (hbad : ∀ c, bad c = none ↔ HostDefined h o c.toRegs)
    (hf : ∀ c, HostDefined h o c.toRegs → FieldLegal h o →
      manual h o c.toRegs ≠ .overflow ∧ f c = (manual h o c.toRegs).put c.toRegs) :
    IntegerBody h o (.regs (mbzOk h o) bad f)
  | addOv (dst : BitVec 5) (ret : CpuState → BitVec 64) (hd : ∀ r, HostDefined h o r)
    (hr : ∀ c, manual h o c.toRegs =
      if overflows (ret c) then .overflow else .gpr dst ((ret c).extractLsb' 0 32)) :
    IntegerBody h o (.addOv (mbzOk h o) dst ret)

theorem gpr_ne_overflow (i : BitVec 5) (v : Word) : Outcome.gpr i v ≠ .overflow := by simp
theorem hilo_ne_overflow (v : BitVec 64) : Outcome.hilo v ≠ .overflow := by simp
theorem hi_ne_overflow (v : Word) : Outcome.hi v ≠ .overflow := by simp
theorem lo_ne_overflow (v : Word) : Outcome.lo v ≠ .overflow := by simp

/-- A handler whose host operations are always defined. -/
theorem integerBody_regsOp {h : Handler} {o : Ops} {mbz : Bool} {f : CpuState → Regs}
    (hm : mbz = mbzOk h o) (hd : ∀ r, HostDefined h o r)
    (hv : ∀ c, FieldLegal h o → manual h o c.toRegs ≠ .overflow ∧
      f c = (manual h o c.toRegs).put c.toRegs) :
    IntegerBody h o (regsOp mbz f) := by
  subst hm
  exact .regs _ _ (fun c => iff_of_true rfl (hd _)) fun c _ hl => hv c hl

/-- One that writes a general register. -/
theorem integerBody_gpr {h : Handler} {o : Ops} {mbz : Bool} {i : BitVec 5}
    {v : CpuState → Word} (hm : mbz = mbzOk h o) (hd : ∀ r, HostDefined h o r)
    (hv : ∀ c, FieldLegal h o → manual h o c.toRegs = .gpr i (v c)) :
    IntegerBody h o (regsOp mbz fun c => c.setGpr i (v c)) := by
  refine integerBody_regsOp hm hd fun c hl => ?_
  rw [hv c hl]
  exact ⟨gpr_ne_overflow _ _, rfl⟩

theorem integerBody_addOv {h : Handler} {o : Ops} {mbz : Bool} {dst : BitVec 5}
    {ret : CpuState → BitVec 64} {z : CpuState → Int} (hm : mbz = mbzOk h o)
    (hd : ∀ r, HostDefined h o r) (hz : ∀ c, -2 ^ 32 ≤ z c ∧ z c < 2 ^ 32)
    (hr : ∀ c, ret c = BitVec.ofInt 64 (z c))
    (hv : ∀ c, manual h o c.toRegs = checked dst (z c)) :
    IntegerBody h o (.addOv mbz dst ret) := by
  subst hm
  refine .addOv _ _ hd fun c => ?_
  rw [hv, checked_eq dst (hz c), hr]

theorem shamtOk {h : Handler} {o : Ops} (hh : mustBeZero h o = [o.shamt]) :
    (o.shamt == 0) = mbzOk h o := by
  simp [mbzOk, hh]

theorem rsOk {h : Handler} {o : Ops} (hh : mustBeZero h o = [o.rs]) :
    (o.rs == 0) = mbzOk h o := by
  simp [mbzOk, hh]

theorem integer_body (P : Platform D) (o : Ops) {h : Handler} (hh : h ∈ integerHandlers) :
    IntegerBody h o (body P o h) := by
  have always : ∀ r : Regs, True := fun _ => trivial
  have hmdu : mduMbz o = mbzOk .mult o := by simp [mduMbz, mbzOk, mustBeZero]
  have hmf : (o.rs == 0 && o.rt == 0 && o.shamt == 0) = mbzOk .mfhi o := by
    simp [mbzOk, mustBeZero, Bool.and_assoc]
  have hmt : (o.rt == 0 && o.rd == 0 && o.shamt == 0) = mbzOk .mthi o := by
    simp [mbzOk, mustBeZero, Bool.and_assoc]
  cases h
  -- arith.h
  case or => exact integerBody_gpr (shamtOk rfl) always fun c _ => rfl
  case xor => exact integerBody_gpr (shamtOk rfl) always fun c _ => rfl
  case and => exact integerBody_gpr (shamtOk rfl) always fun c _ => rfl
  case nor => exact integerBody_gpr (shamtOk rfl) always fun c _ => rfl
  case addu =>
    exact integerBody_gpr (shamtOk rfl) always fun c _ =>
      congrArg (Outcome.gpr _) (Words.add_eq_ofInt _ _).symm
  case subu =>
    exact integerBody_gpr (shamtOk rfl) always fun c _ =>
      congrArg (Outcome.gpr _) (Words.sub_eq_ofInt _ _).symm
  case mul =>
    exact integerBody_gpr (shamtOk rfl) always fun c _ =>
      congrArg (Outcome.gpr _) (Words.mul_eq_ofInt _ _).symm
  case lui =>
    exact integerBody_gpr (rsOk rfl) always fun c _ =>
      congrArg (Outcome.gpr _) (lui_value _).symm
  case andi => exact integerBody_gpr rfl always fun c _ => rfl
  case ori => exact integerBody_gpr rfl always fun c _ => rfl
  case xori => exact integerBody_gpr rfl always fun c _ => rfl
  case addiu =>
    refine integerBody_gpr rfl always fun c _ => congrArg (Outcome.gpr _) ?_
    rw [Words.add_eq_ofInt, toInt_simm]
  case add =>
    refine integerBody_addOv (shamtOk rfl) always (fun c => ?_)
      (fun c => add_signExtend_eq _ _ (by decide)) fun c => rfl
    have hs := Words.toInt_range (c.gpr o.rs)
    have ht := Words.toInt_range (c.gpr o.rt)
    omega
  case sub =>
    refine integerBody_addOv (shamtOk rfl) always (fun c => ?_) (fun c => sub_signExtend_eq _ _)
      fun c => rfl
    have hs := Words.toInt_range (c.gpr o.rs)
    have ht := Words.toInt_range (c.gpr o.rt)
    omega
  case addi =>
    refine integerBody_addOv rfl always (fun c => ?_) (fun c => ?_) fun c => rfl
    · have hs := Words.toInt_range (c.gpr o.rs)
      have ht := toInt_imm_range o.uimm
      omega
    · rw [add_signExtend_eq _ _ (by decide), toInt_simm]
  -- setcc.h
  case slt =>
    exact integerBody_gpr (shamtOk rfl) always fun c _ =>
      congrArg (Outcome.gpr _) (ofCond_decide _).symm
  case sltu =>
    exact integerBody_gpr (shamtOk rfl) always fun c _ =>
      congrArg (Outcome.gpr _) (ofCond_decide _).symm
  case slti =>
    refine integerBody_gpr rfl always fun c _ => congrArg (Outcome.gpr _) ?_
    rw [← toInt_simm]
    exact (ofCond_decide _).symm
  case sltiu =>
    exact integerBody_gpr rfl always fun c _ =>
      congrArg (Outcome.gpr _) (ofCond_decide _).symm
  case movn =>
    refine integerBody_regsOp (shamtOk rfl) always fun c _ => ?_
    by_cases hz : c.gpr o.rt = 0#32 <;> simp [manual, hz, Outcome.put]
  case movz =>
    refine integerBody_regsOp (shamtOk rfl) always fun c _ => ?_
    by_cases hz : c.gpr o.rt = 0#32 <;> simp [manual, hz, Outcome.put]
  -- shift.h
  case sll =>
    exact integerBody_gpr (rsOk rfl) always fun c _ =>
      congrArg (Outcome.gpr _) (Words.shiftLeft_eq_ofNat _ _).symm
  case sllv =>
    refine integerBody_gpr (shamtOk rfl) always fun c _ => congrArg (Outcome.gpr _) ?_
    rw [Words.shiftLeft_eq_ofNat, shiftAmount_eq]
  case sra =>
    exact integerBody_gpr (rsOk rfl) always fun c _ =>
      congrArg (Outcome.gpr _) (Words.sshiftRight_eq_ofInt _ _).symm
  case srav =>
    refine integerBody_gpr (shamtOk rfl) always fun c _ => congrArg (Outcome.gpr _) ?_
    rw [Words.sshiftRight_eq_ofInt, shiftAmount_eq]
  case srl =>
    have hsa := o.shamt.isLt
    rw [body, srl_eq]
    refine .regs _ _ (srl_defined o) fun c _ _ => ⟨gpr_ne_overflow _ _, congrArg (c.setGpr o.rd) ?_⟩
    rw [rotr_eq _ hsa, Words.ushiftRight_eq_ofNat]
  case srlv =>
    rw [body, srlv_eq]
    refine .regs _ _ (srlv_defined o) fun c _ _ => ⟨gpr_ne_overflow _ _, congrArg (c.setGpr o.rd) ?_⟩
    rw [shiftAmount_eq, rotr_eq _ (Nat.mod_lt _ (by decide)), Words.ushiftRight_eq_ofNat]
  -- arith-ex.h
  case clz =>
    exact integerBody_gpr rfl always fun c _ => congrArg (Outcome.gpr _) (clz_value _).symm
  case clo =>
    exact integerBody_gpr rfl always fun c _ => congrArg (Outcome.gpr _) (clo_value _).symm
  case seb => exact integerBody_gpr rfl always fun c _ => rfl
  case seh => exact integerBody_gpr rfl always fun c _ => rfl
  case wsbh =>
    exact integerBody_gpr rfl always fun c _ => congrArg (Outcome.gpr _) (wsbh_value _).symm
  case ext =>
    exact integerBody_gpr rfl always fun c hl =>
      congrArg (Outcome.gpr _) (ext_value _ (hl.1 rfl)).symm
  case ins =>
    refine .regs _ _ (ins_defined o) fun c hd _ => ⟨gpr_ne_overflow _ _, congrArg (c.setGpr o.rt) ?_⟩
    have hsa : o.shamt.toNat ≤ o.rd.toNat := hd
    have hrd := o.rd.isLt
    rw [← ins_value _ _ (by omega), show o.rd.toNat - o.shamt.toNat + 1 =
      o.rd.toNat + 1 - o.shamt.toNat by omega]
  -- mdu.h
  case mult =>
    exact integerBody_regsOp hmdu always fun c _ =>
      ⟨hilo_ne_overflow _, congrArg c.setHilo (Words.mul_signExtend_eq_ofInt _ _)⟩
  case multu =>
    exact integerBody_regsOp hmdu always fun c _ =>
      ⟨hilo_ne_overflow _, congrArg c.setHilo (Words.mul_setWidth_eq_ofNat _ _)⟩
  case mfhi => exact integerBody_gpr hmf always fun c _ => rfl
  case mflo => exact integerBody_gpr hmf always fun c _ => rfl
  case mthi => exact integerBody_regsOp hmt always fun c _ => ⟨hi_ne_overflow _, rfl⟩
  case mtlo => exact integerBody_regsOp hmt always fun c _ => ⟨lo_ne_overflow _, rfl⟩
  all_goals exact absurd hh (by decide)

/-! ## One handler -/

section Instruction

variable {P : Platform D} (hx : P.cfg.exception = true)
include hx

theorem addOv_of_mbz (dst : BitVec 5) (ret : CpuState → BitVec 64) (s : Machine D) :
    (Body.addOv false dst ret).run P s =
      .error .exit ((s.setBadvaddr s.cpu.pc).raise P ⟨.none, .RI⟩) := by
  rw [Body.run]
  exact bind_of_error (instAssert_false hx s) _

theorem addOv_of_overflow (dst : BitVec 5) {ret : CpuState → BitVec 64} {s : Machine D}
    (h : overflows (ret s.cpu) = true) :
    (Body.addOv true dst ret).run P s = .ok () (s.raise P ⟨.none, .OV⟩) := by
  rw [Body.run, bind_of_ok (instAssert_true s), bind_of_ok (getCpu_apply s)]
  simp only [h, hx, if_true]
  exact raiseException_apply P (by decide) s

omit hx in
theorem addOv_of_fits (dst : BitVec 5) {ret : CpuState → BitVec 64} {s : Machine D}
    (h : overflows (ret s.cpu) = false) :
    (Body.addOv true dst ret).run P s =
      .ok () (s.setRegs (s.cpu.setGpr dst ((ret s.cpu).extractLsb' 0 32))) := by
  rw [Body.run, bind_of_ok (instAssert_true s), bind_of_ok (getCpu_apply s)]
  simp only [h, Bool.false_eq_true, if_false]
  rfl

/-- What the handler does, from the state it is entered in. -/
theorem integer_run {h : Handler} {o : Ops} (hh : h ∈ integerHandlers) (hl : FieldLegal h o)
    (s : Machine D) (hdef : HostDefined h o s.cpu.toRegs) :
    NemuMips32.exec P o h s =
      if mbzOk h o = false then .error .exit ((s.setBadvaddr s.cpu.pc).raise P ⟨.none, .RI⟩)
      else if manual h o s.cpu.toRegs = .overflow then .ok () (s.raise P ⟨.none, .OV⟩)
      else .ok () (s.setRegs ((manual h o s.cpu.toRegs).put s.cpu.toRegs)) := by
  have hb := integer_body P o hh
  rw [NemuMips32.exec]
  generalize body P o h = b at hb
  generalize hm : mbzOk h o = mbz at hb
  cases hb with
  | regs bad f hbad hf =>
    obtain ⟨hov, hput⟩ := hf s.cpu hdef hl
    subst hm
    cases hm : mbzOk h o with
    | false => rw [if_pos rfl, regs_of_mbz bad f hx]
    | true => rw [if_neg (by decide), if_neg hov, regs_of_none P bad f ((hbad _).2 hdef), hput]
  | addOv dst ret _ hr =>
    subst hm
    cases hm : mbzOk h o with
    | false => rw [if_pos rfl, addOv_of_mbz hx]
    | true =>
      rw [if_neg (by decide), hr]
      cases ho : overflows (ret s.cpu) with
      | true => rw [if_pos rfl, if_pos rfl, addOv_of_overflow hx dst ho]
      | false =>
        simp only [Bool.false_eq_true, if_false, reduceCtorEq]
        exact addOv_of_fits dst ho

omit hx in
/-- C leaves an integer instruction undefined only if it rotates by 0. -/
theorem rotates_of_undefined {h : Handler} {o : Ops} {r : Regs} (hh : h ∈ integerHandlers)
    (hl : FieldLegal h o) (hdef : ¬ HostDefined h o r) :
    (h = .srl ∧ isRotr o = true ∧ o.shamt.toNat = 0) ∨
      (h = .srlv ∧ isRotrv o = true ∧ (r.gpr o.rs).toNat % 32 = 0) := by
  cases h
  case ins => exact absurd (hl.2 rfl) hdef
  case srl =>
    obtain ⟨hr, hsa⟩ := Classical.not_imp.1 hdef
    exact .inl ⟨rfl, hr, not_not.1 hsa⟩
  case srlv =>
    obtain ⟨hr, hsa⟩ := Classical.not_imp.1 hdef
    exact .inr ⟨rfl, hr, not_not.1 hsa⟩
  all_goals first | exact absurd trivial hdef | exact absurd hh (by decide)

end Instruction

/-! ## The host's shifts -/

/-- What the shift instruction of the host makes of the count 32, which C leaves undefined. -/
inductive HostShift where
  /-- the count is taken modulo 32 -/
  | masked
  /-- every bit is shifted out -/
  | cleared
  deriving DecidableEq

namespace HostShift

def shl (k : HostShift) (x : Word) (n : Nat) : Word :=
  match k with
  | masked => x <<< (n % 32)
  | cleared => x <<< n

/-- `(x >> sa) | (x << (32 - sa))` on the host. -/
def rotr (k : HostShift) (x : Word) (sa : Nat) : Word := (x >>> sa) ||| k.shl x (32 - sa)

/-- The handlers on the host. Only the rotates of `srl` and `srlv` shift by 32. -/
def body (k : HostShift) (P : Platform D) (o : Ops) : Handler → Body
  | .srl =>
    if o.rs &&& 1 = 1 then .ofRegs fun c => c.setGpr o.rd (k.rotr (c.gpr o.rt) o.shamt.toNat)
    else srl o
  | .srlv =>
    if o.shamt &&& 1 = 1 then
      .ofRegs fun c => c.setGpr o.rd (k.rotr (c.gpr o.rt) (shiftAmount (c.gpr o.rs)))
    else srlv o
  | h => NemuMips32.body P o h

def run (k : HostShift) (P : Platform D) (h : Handler) (o : Ops) : Exec D Unit :=
  (k.body P o h).run P

/-- The loop body and the loop of the emulator on the host. -/
def execInst (k : HostShift) (P : Platform D) : Exec D Unit := execInstWith P (k.run P)
def iteration (k : HostShift) (P : Platform D) : Exec D Unit := iterationWith P (k.run P)

variable (k : HostShift)

theorem rotr_of_pos (x : Word) {sa : Nat} (h : sa ≠ 0) : k.rotr x sa = NemuMips32.rotr x sa := by
  cases k with
  | masked => rw [rotr, shl, Nat.mod_eq_of_lt (by omega), NemuMips32.rotr]
  | cleared => rfl

/-- A rotate by 0: the shift by 32 gives the value again or nothing. -/
theorem rotr_zero (x : Word) : k.rotr x 0 = x := by
  cases k <;> simp [rotr, shl]

/-- Where C defines the operations of a handler, the host runs it as C says. -/
theorem run_of_defined (P : Platform D) {h : Handler} {o : Ops} {s : Machine D}
    (hdef : HostDefined h o s.cpu.toRegs) : k.run P h o s = exec P o h s := by
  have hrs : o.rs &&& 1 = 1 ↔ isRotr o = true := by rw [isRotr, beq_iff_eq]
  have hsh : o.shamt &&& 1 = 1 ↔ isRotrv o = true := by rw [isRotrv, beq_iff_eq]
  rw [run, exec]
  cases h
  case srl =>
    by_cases hr : o.rs &&& 1 = 1
    · have hsa : o.shamt.toNat ≠ 0 := hdef (hrs.1 hr)
      have hb : rotrTraps o.shamt.toNat = none := if_neg hsa
      rw [body, if_pos hr, NemuMips32.body, srl, if_pos hr, hb]
      simp only [k.rotr_of_pos _ hsa]
      rfl
    · rw [body, if_neg hr, NemuMips32.body]
  case srlv =>
    by_cases hr : o.shamt &&& 1 = 1
    · have hsa : shiftAmount (s.cpu.gpr o.rs) ≠ 0 := by
        rw [shiftAmount_eq]
        exact hdef (hsh.1 hr)
      rw [body, if_pos hr, NemuMips32.body, srlv, if_pos hr, Body.ofRegs, regsOp,
        regs_of_none P _ _ rfl, regs_of_none P _ _ (if_neg hsa), k.rotr_of_pos _ hsa]
    · rw [body, if_neg hr, NemuMips32.body]
  all_goals rfl

/-- What the handler does on the host. -/
theorem run_eq {P : Platform D} (hx : P.cfg.exception = true) {h : Handler} {o : Ops}
    (hh : h ∈ integerHandlers) (hl : FieldLegal h o) (s : Machine D) :
    k.run P h o s =
      if mbzOk h o = false then .error .exit ((s.setBadvaddr s.cpu.pc).raise P ⟨.none, .RI⟩)
      else if manual h o s.cpu.toRegs = .overflow then .ok () (s.raise P ⟨.none, .OV⟩)
      else .ok () (s.setRegs ((manual h o s.cpu.toRegs).put s.cpu.toRegs)) := by
  by_cases hdef : HostDefined h o s.cpu.toRegs
  · rw [k.run_of_defined P hdef]
    exact integer_run hx hh hl s hdef
  · obtain ⟨rfl, hr, hsa⟩ | ⟨rfl, hr, hsa⟩ := rotates_of_undefined hh hl hdef
    · have hm : mbzOk .srl o = true := by simp [mbzOk, mustBeZero, hr]
      have hb : manual .srl o s.cpu.toRegs = .gpr o.rd (s.cpu.gpr o.rt) := by
        simp [manual, hr, hsa, rotateRight_zero]
      rw [hm, hb, if_neg (by decide), if_neg (gpr_ne_overflow _ _), run, body,
        if_pos (beq_iff_eq.1 hr), Body.ofRegs, regsOp, regs_of_none P _ _ rfl, hsa, k.rotr_zero]
      rfl
    · have hm : mbzOk .srlv o = true := by simp [mbzOk, mustBeZero, hr]
      have hb : manual .srlv o s.cpu.toRegs = .gpr o.rd (s.cpu.gpr o.rt) := by
        simp [manual, hr, hsa, rotateRight_zero]
      rw [hm, hb, if_neg (by decide), if_neg (gpr_ne_overflow _ _), run, body,
        if_pos (beq_iff_eq.1 hr), Body.ofRegs, regsOp, regs_of_none P _ _ rfl, shiftAmount_eq,
        hsa, k.rotr_zero]
      rfl

end HostShift

/-! ## Whole instructions -/

/-- Without a decode cache, the iteration at `s` fetches the word `w` and raises nothing by
    it. -/
structure Fetches (P : Platform D) (s : Machine D) (w : Word) : Prop where
  aligned : s.cpu.pc &&& 3 = 0
  fetch : ∃ t, fetchInst P s.zeroGpr = .ok w t ∧ t.raised = s.raised

theorem Fetches.entered {P : Platform D} (hd : P.cfg.decodeCache = false) {s : Machine D}
    {w : Word} (h : Fetches P s w) :
    ∃ t, Entered P s (decoderGetHandler w) (Inst.ops w) t := by
  obtain ⟨t, ht, hr⟩ := h.fetch
  refine ⟨t, h.aligned, ?_, hr⟩
  have hz : modifyRegs (fun c => c.setGpr 0 0) s = .ok () s.zeroGpr := rfl
  rw [makeEntry, bind_of_ok hz, if_neg (by simp [hd]), bind_of_ok ht]
  rfl

/-- One exception was raised between `s` and `s'`, with the given code. -/
def Throws (s s' : Machine D) (code : ExcCode) : Prop :=
  (newRaised s s').map (fun r => r.exc.code) = [code]

/-- On the host `k`, the instruction `w` at `s` has come to the exception check in state `s'`,
    having done what the manual says: a reserved field or an overflow raises, and anything else
    leaves the result and nothing more. -/
structure Meets (k : HostShift) (P : Platform D) (s : Machine D) (w : Word) (s' : Machine D) :
    Prop where
  exec : k.execInst P s = .ok () s'
  iteration : k.iteration P s = .ok () (s'.settle P)
  ram : s'.ram = s.ram
  reserved : mbzOk (decoderGetHandler w) (Inst.ops w) = false → Throws s s' .RI
  overflow : mbzOk (decoderGetHandler w) (Inst.ops w) = true →
    manual (decoderGetHandler w) (Inst.ops w) s.zeroGpr.cpu.toRegs = .overflow →
    Throws s s' .OV ∧ s'.cpu.toRegs = s.zeroGpr.cpu.toRegs
  result : mbzOk (decoderGetHandler w) (Inst.ops w) = true →
    manual (decoderGetHandler w) (Inst.ops w) s.zeroGpr.cpu.toRegs ≠ .overflow →
    s'.raised = s.raised ∧
      s'.cpu.toRegs = (manual (decoderGetHandler w) (Inst.ops w) s.zeroGpr.cpu.toRegs).put
        s.zeroGpr.cpu.toRegs ∧
      s'.cpu.cp0 = s.cpu.cp0.setIP s'.cpu.cp0.cause.IP ∧
      (s.cpu.isDelayslot = false → s'.cpu.pc = s.cpu.pc + 4)

theorem throws_raise {P : Platform D} {s t : Machine D} (e : Exception)
    (h : t.raised = s.raised) : Throws s (t.raise P e) e.code := by
  rw [Throws, newRaised_of_eq ((raised_raise P e t).trans (by rw [h]))]
  rfl

theorem Entered.frame {P : Platform D} {s t : Machine D} {h : Handler} {o : Ops}
    (he : Entered P s h o t) :
    t.cpu.toRegs = s.zeroGpr.cpu.toRegs ∧ t.ram = s.ram ∧
      t.cpu.cp0 = s.cpu.cp0.setIP t.cpu.cp0.cause.IP := by
  obtain ⟨x, mc, c, rfl⟩ := he.access
  exact ⟨rfl, rfl, rfl⟩

/-- Every integer instruction does what the manual says. -/
theorem integer_meets (k : HostShift) {P : Platform D} (hx : P.cfg.exception = true)
    (hd : P.cfg.decodeCache = false) {s : Machine D} {w : Word} (hf : Fetches P s w)
    (hh : decoderGetHandler w ∈ integerHandlers)
    (hl : FieldLegal (decoderGetHandler w) (Inst.ops w)) : ∃ s', Meets k P s w s' := by
  obtain ⟨t, ht⟩ := hf.entered hd
  obtain ⟨hregs, hram, hcp0⟩ := ht.frame
  obtain ⟨hpc, hslot, -⟩ := ht.cpu
  have hexec : k.execInst P s = _ := (execInstWith_of_entered (k.run P) ht).trans
    (dispatchWith_apply hx hd (k.run P) (decoderGetHandler w) (Inst.ops w) t)
  have hiter : k.iteration P s = _ := bind_checkException hx (k.execInst P) s
  rw [k.run_eq hx hh hl t, hregs] at hexec
  by_cases hm : mbzOk (decoderGetHandler w) (Inst.ops w) = false
  · simp only [hm, if_true] at hexec
    rw [hexec] at hiter
    exact ⟨_, hexec, hiter, hram, fun _ => throws_raise _ ht.raised,
      fun h => absurd hm (by simp [h]), fun h => absurd hm (by simp [h])⟩
  · simp only [hm] at hexec
    by_cases ho : manual (decoderGetHandler w) (Inst.ops w) s.zeroGpr.cpu.toRegs = .overflow
    · simp only [ho, if_true] at hexec
      rw [hexec] at hiter
      refine ⟨_, hexec, hiter, hram, fun h => absurd h hm, fun _ _ => ⟨?_, ?_⟩,
        fun _ h => absurd ho h⟩
      · exact throws_raise _ ht.raised
      · exact (toRegs_instEnd _).trans hregs
    · simp only [ho, if_false] at hexec
      rw [hexec] at hiter
      refine ⟨_, hexec, hiter, hram, fun h => absurd h hm, fun _ h => absurd h ho,
        fun _ _ => ⟨ht.raised, toRegs_instEnd _, ?_, fun hs => ?_⟩⟩
      · rw [cp0_instEnd]
        exact hcp0
      · rw [pc_instEnd_of_not_slot]
        · exact congrArg (· + 4) hpc
        · exact hslot.trans hs

/-- A machine about to run `rotr $1, $2, 0` on 0x80000001. -/
def rotrDemo : Machine Unit := loaded [0x00220802] [(2, 0x80000001)]

theorem integer_meets_rotrDemo :
    (∃ s', Meets .masked mips32r1 rotrDemo 0x00220802 s') ∧
      manual .srl (Inst.ops 0x00220802) rotrDemo.zeroGpr.cpu.toRegs = .gpr 1 0x80000001 := by
  have hf : Fetches mips32r1 rotrDemo 0x00220802 :=
    ⟨by decide, final (fetchInst mips32r1 rotrDemo.zeroGpr),
      eq_ok_of_returned (by decide), List.eq_nil_of_length_eq_zero (by decide)⟩
  exact ⟨integer_meets .masked (by decide) (by decide) hf (by decide) ⟨nofun, nofun⟩, by decide⟩

end NemuMips32
