/-
  The conditional moves: MOVF, MOVT, MOVZ and MOVN on GPRs, on singles and on doubles
  (`movci` .. `movn_d` of `float.h`, `movn` and `movz` of `setcc.h`).

  The register file of the FPU is indexed in three ways: `fpr32i[fd]`, `fpr64i[fd64]` and
  `fpr64i[fd >> 1]`, where `fd64` is `fd >> 1` taken from the instruction word.

  Seven of the nine handlers do what the instruction says. `movcf_s` and `movcf_d` move when the
  condition code is clear, whatever `tf` asks for, and `movcf_d` stores one 32-bit register,
  with the number of a pair, in both halves. `condMove_iff` says when that goes unnoticed.
-/
import NemuMips32.FpuCompare
import NemuMips32.Integer

namespace NemuMips32

open StateExcept

variable {D : Type}

/-! ## Register pairs -/

theorem half_fd (w : Word) : half (Inst.ops w).fd = (Inst.ops w).fd64 := by
  apply BitVec.eq_of_getLsbD_eq
  intro i hi
  simp [half, Inst.ops, hi, show 1 + i < 5 by omega,
    show 6 + (1 + i) = 7 + i by omega]

theorem half_fs (w : Word) : half (Inst.ops w).fs = (Inst.ops w).fs64 := by
  apply BitVec.eq_of_getLsbD_eq
  intro i hi
  simp [half, Inst.ops, hi, show 1 + i < 5 by omega,
    show 11 + (1 + i) = 12 + i by omega]

theorem getLsbD_pair (k : BitVec 4) (b : BitVec 1) (i : Nat) :
    (k ++ b : BitVec 5).getLsbD i = if i < 1 then b.getLsbD i else k.getLsbD (i - 1) := by
  rw [BitVec.getLsbD_append]

theorem pair_ne (j k : BitVec 4) : (j ++ 0#1 : BitVec 5) ≠ k ++ 1#1 := by
  intro h
  have h0 : (j ++ 0#1 : BitVec 5).getLsbD 0 = (k ++ 1#1 : BitVec 5).getLsbD 0 :=
    congrArg (BitVec.getLsbD · 0) h
  rw [getLsbD_pair, getLsbD_pair, if_pos (by decide), if_pos (by decide)] at h0
  exact absurd h0 (by decide)

theorem fpr_setFpr (r : Regs) (i j : BitVec 5) (v : Word) :
    (r.setFpr i v).fpr32i j = if j = i then v else r.fpr32i j := by
  simp [Regs.setFpr, Function.update_apply]

theorem setFpr_inj (r : Regs) (i : BitVec 5) (u v : Word) :
    r.setFpr i u = r.setFpr i v ↔ u = v := by
  constructor
  · intro h
    have hi := congrArg (fun r : Regs => r.fpr32i i) h
    simpa [fpr_setFpr] using hi
  · exact fun h => h ▸ rfl

theorem setFpr_eq_self_iff (r : Regs) (i : BitVec 5) (v : Word) :
    r.setFpr i v = r ↔ r.fpr32i i = v := by
  constructor
  · intro h
    rw [← h, fpr_setFpr, if_pos rfl]
  · intro h
    rw [← h, Regs.setFpr, Function.update_eq_self]

theorem self_eq_setFpr_iff (r : Regs) (i : BitVec 5) (v : Word) :
    r = r.setFpr i v ↔ r.fpr32i i = v := eq_comm.trans (setFpr_eq_self_iff r i v)

theorem fpr64_setFpr64 (r : Regs) (k : BitVec 4) (v : BitVec 64) :
    (r.setFpr64 k v).fpr64 k = v := by
  have hne : (k ++ 0#1 : BitVec 5) ≠ k ++ 1#1 := pair_ne k k
  simp only [Regs.fpr64, Regs.setFpr64, fpr_setFpr, hne, if_true, if_false]
  exact @BitVec.extractLsb'_append_extractLsb' 32 32 v

theorem setFpr64_eq_self_iff (r : Regs) (k : BitVec 4) (v : BitVec 64) :
    r.setFpr64 k v = r ↔ r.fpr64 k = v := by
  constructor
  · intro h
    rw [← h, fpr64_setFpr64]
  · intro h
    have hlo : r.fpr32i (k ++ 0#1) = v.extractLsb' 0 32 := by
      rw [← h, Regs.fpr64]
      exact (BitVec.extractLsb'_append_eq_right ..).symm
    have hhi : r.fpr32i (k ++ 1#1) = v.extractLsb' 32 32 := by
      rw [← h, Regs.fpr64]
      exact (BitVec.extractLsb'_append_eq_left ..).symm
    rw [Regs.setFpr64, (setFpr_eq_self_iff r _ _).2 hlo, (setFpr_eq_self_iff r _ _).2 hhi]

theorem self_eq_setFpr64_iff (r : Regs) (k : BitVec 4) (v : BitVec 64) :
    r = r.setFpr64 k v ↔ r.fpr64 k = v := eq_comm.trans (setFpr64_eq_self_iff r k v)

theorem setFpr64_eq_iff (r : Regs) (k : BitVec 4) (v w : BitVec 64) :
    r.setFpr64 k v = r.setFpr64 k w ↔ w = v := by
  constructor
  · intro h
    rw [← fpr64_setFpr64 r k w, ← h, fpr64_setFpr64]
  · exact fun h => h ▸ rfl

/-! ## Instructions -/

/-- What a conditional move tests: a condition code against `tf`, or GPR[rt] against 0. -/
inductive MoveTest where
  | code
  | zero
  | nonzero

/-- What it moves. -/
inductive MoveWidth where
  | gpr
  | single
  | double

def MoveTest.handler : MoveTest → MoveWidth → Handler
  | code, .gpr => .movci | code, .single => .movcfS | code, .double => .movcfD
  | zero, .gpr => .movz | zero, .single => .movzS | zero, .double => .movzD
  | nonzero, .gpr => .movn | nonzero, .single => .movnS | nonzero, .double => .movnD

def MoveTest.holds (m : MoveTest) (o : Ops) (r : Regs) : Bool :=
  match m with
  | code => r.getFPCondCode o.cc2 == (o.tf == 1)
  | zero => r.gpr o.rt == 0
  | nonzero => r.gpr o.rt != 0

/-- The whole source register, copied to the destination. -/
def MoveWidth.copy (d : MoveWidth) (o : Ops) (r : Regs) : Regs :=
  match d with
  | gpr => r.setGpr o.rd (r.gpr o.rs)
  | single => r.setFpr o.fd (r.fpr32i o.fs)
  | double =>
    (r.setFpr (o.fd64 ++ 0#1) (r.fpr32i (o.fs64 ++ 0#1))).setFpr (o.fd64 ++ 1#1)
      (r.fpr32i (o.fs64 ++ 1#1))

def MoveWidth.op : MoveWidth → BitVec 6
  | gpr => 0x00
  | single | double => 0x11

/-- The format field; a move of GPRs has its source there. -/
def MoveWidth.fmt : MoveWidth → BitVec 5
  | gpr => 0
  | single => 16
  | double => 17

def MoveTest.func : MoveTest → MoveWidth → BitVec 6
  | code, .gpr => 0x01
  | zero, .gpr => 0x0a
  | nonzero, .gpr => 0x0b
  | code, _ => 0x11
  | zero, _ => 0x12
  | nonzero, _ => 0x13

/-- The word `w` is the conditional move; MOVZ and MOVN on GPRs check their `shamt` field. -/
structure IsMove (w : Word) (m : MoveTest) (d : MoveWidth) : Prop where
  op : Inst.op w = d.op
  fmt : d ≠ .gpr → Inst.rs w = d.fmt
  func : Inst.func w = m.func d
  shamt : d = .gpr → m ≠ .code → Inst.shamt w = 0

theorem IsMove.handler {w : Word} {m : MoveTest} {d : MoveWidth} (h : IsMove w m d) :
    decoderGetHandler w = m.handler d := by
  rw [decoderGetHandler, h.op, h.func]
  cases d with
  | gpr => cases m <;> rfl
  | single =>
    rw [h.fmt (by simp)]
    cases m <;> rfl
  | double =>
    rw [h.fmt (by simp)]
    cases m <;> rfl

/-- The registers after a conditional move, as the instruction is defined. -/
def moved (m : MoveTest) (d : MoveWidth) (o : Ops) (r : Regs) : Regs :=
  if m.holds o r then d.copy o r else r

/-- The move is made exactly when its test holds, and nothing else changes. -/
def Moves (P : Platform D) (w : Word) (m : MoveTest) (d : MoveWidth) (s : Machine D) : Prop :=
  exec P (Inst.ops w) (decoderGetHandler w) s =
    .ok () (s.setRegs (moved m d (Inst.ops w) s.cpu.toRegs))

/-- A pair is copied half by half. -/
theorem copy_double (o : Ops) (r : Regs) :
    MoveWidth.double.copy o r = r.setFpr64 o.fd64 (r.fpr64 o.fs64) := by
  have hlo : (r.fpr64 o.fs64).extractLsb' 0 32 = r.fpr32i (o.fs64 ++ 0#1) :=
    BitVec.extractLsb'_append_eq_right ..
  have hhi : (r.fpr64 o.fs64).extractLsb' 32 32 = r.fpr32i (o.fs64 ++ 1#1) :=
    BitVec.extractLsb'_append_eq_left ..
  rw [Regs.setFpr64, hlo, hhi]
  rfl

/-- The seven handlers that test what the instruction names. -/
theorem exec_move (P : Platform D) {w : Word} {m : MoveTest} {d : MoveWidth} (hw : IsMove w m d)
    (hm : m = .code → d = .gpr) (s : Machine D) : Moves P w m d s := by
  have hsh : d = .gpr → m ≠ .code → (Inst.ops w).shamt = 0 := hw.shamt
  unfold Moves
  rw [hw.handler, exec]
  cases m with
  | code =>
    obtain rfl := hm rfl
    change (movci (Inst.ops w)).run P s = _
    rw [movci, run_ofRegs, moved]
    simp only [MoveTest.holds, beq_iff_eq]
    rfl
  | zero =>
    cases d with
    | gpr =>
      change (movz (Inst.ops w)).run P s = _
      rw [movz, hsh rfl (by simp)]
      simp only [moved, MoveTest.holds, beq_iff_eq]
      exact run_ofRegs P _ s
    | single =>
      change (movzS (Inst.ops w)).run P s = _
      rw [movzS, run_ofRegs, moved]
      simp only [MoveTest.holds, beq_iff_eq]
      rfl
    | double =>
      change (movzD (Inst.ops w)).run P s = _
      rw [movzD, run_ofRegs, moved, copy_double]
      simp only [MoveTest.holds, beq_iff_eq]
  | nonzero =>
    cases d with
    | gpr =>
      change (movn (Inst.ops w)).run P s = _
      rw [movn, hsh rfl (by simp)]
      simp only [moved, MoveTest.holds, bne_iff_ne]
      exact run_ofRegs P _ s
    | single =>
      change (movnS (Inst.ops w)).run P s = _
      rw [movnS, run_ofRegs, moved]
      simp only [MoveTest.holds, bne_iff_ne]
      rfl
    | double =>
      change (movnD (Inst.ops w)).run P s = _
      rw [movnD, run_ofRegs, moved, copy_double, half_fd, half_fs]
      simp only [MoveTest.holds, bne_iff_ne]

/-! ## Floating point moves on a condition code -/

theorem setRegs_inj (s : Machine D) (r r' : Regs) : s.setRegs r = s.setRegs r' ↔ r = r' :=
  ⟨fun h => congrArg (fun t : Machine D => t.cpu.toRegs) h, fun h => h ▸ rfl⟩

theorem ok_inj (s t : Machine D) :
    (.ok () s : EStateM.Result Stop (Machine D) Unit) = .ok () t ↔ s = t :=
  ⟨fun h => (EStateM.Result.ok.inj h).2, fun h => h ▸ rfl⟩

/-- When `movcf_s` and `movcf_d` leave what the instruction should. -/
def CodeMoveOk (d : MoveWidth) (o : Ops) (r : Regs) : Prop :=
  match d with
  | .gpr => True
  | .single => o.tf = 0 ∨ r.fpr32i o.fd = r.fpr32i o.fs
  | .double =>
    if r.getFPCondCode o.cc2 = false then
      (if o.tf = 0 then r.fpr64 o.fs64 else r.fpr64 o.fd64) =
        (r.fpr32i (o.fs64.setWidth 5)).setWidth 64
    else o.tf = 0 ∨ r.fpr64 o.fd64 = r.fpr64 o.fs64

theorem tf_cases (o : Ops) : o.tf = 0 ∨ o.tf = 1 := by
  have h := o.tf.isLt
  rcases (by omega : o.tf.toNat = 0 ∨ o.tf.toNat = 1) with h | h
  · exact .inl (BitVec.eq_of_toNat_eq h)
  · exact .inr (BitVec.eq_of_toNat_eq h)

theorem movcfS_iff (P : Platform D) {w : Word} (hw : IsMove w .code .single) (s : Machine D) :
    Moves P w .code .single s ↔ CodeMoveOk .single (Inst.ops w) s.cpu.toRegs := by
  have hx : exec P (Inst.ops w) (decoderGetHandler w) s = .ok () (s.setRegs
      (if s.cpu.getFPCondCode (Inst.ops w).cc2 = false
        then s.cpu.setFpr (Inst.ops w).fd (s.cpu.fpr32i (Inst.ops w).fs) else s.cpu.toRegs)) := by
    rw [hw.handler]
    exact run_ofRegs P _ s
  rw [Moves, hx, ok_inj, setRegs_inj, moved, MoveTest.holds, CodeMoveOk]
  rcases tf_cases (Inst.ops w) with htf | htf <;>
    cases hc : s.cpu.getFPCondCode (Inst.ops w).cc2 <;>
    simp [htf, MoveWidth.copy, setFpr_eq_self_iff, self_eq_setFpr_iff]

theorem movcfD_iff (P : Platform D) {w : Word} (hw : IsMove w .code .double) (s : Machine D) :
    Moves P w .code .double s ↔ CodeMoveOk .double (Inst.ops w) s.cpu.toRegs := by
  have hx : exec P (Inst.ops w) (decoderGetHandler w) s = .ok () (s.setRegs
      (if s.cpu.getFPCondCode (Inst.ops w).cc2 = false
        then s.cpu.setFpr64 (Inst.ops w).fd64
          ((s.cpu.fpr32i ((Inst.ops w).fs64.setWidth 5)).setWidth 64) else s.cpu.toRegs)) := by
    rw [hw.handler]
    exact run_ofRegs P _ s
  rw [Moves, hx, ok_inj, setRegs_inj, moved, MoveTest.holds, CodeMoveOk, copy_double]
  rcases tf_cases (Inst.ops w) with htf | htf <;>
    cases hc : s.cpu.getFPCondCode (Inst.ops w).cc2 <;>
    simp [htf, setFpr64_eq_self_iff, self_eq_setFpr64_iff, setFpr64_eq_iff]

/-- Every conditional move does what the instruction says, except MOVF and MOVT of singles and
    doubles, for which the registers have to satisfy `CodeMoveOk`. -/
theorem condMove_iff (P : Platform D) {w : Word} {m : MoveTest} {d : MoveWidth}
    (hw : IsMove w m d) (s : Machine D) :
    Moves P w m d s ↔ (m = .code → CodeMoveOk d (Inst.ops w) s.cpu.toRegs) := by
  cases m with
  | code =>
    cases d with
    | gpr => exact iff_of_true (exec_move P hw (fun _ => rfl) s) fun _ => trivial
    | single => exact (movcfS_iff P hw s).trans ⟨fun h _ => h, fun h => h rfl⟩
    | double => exact (movcfD_iff P hw s).trans ⟨fun h _ => h, fun h => h rfl⟩
  | zero => exact iff_of_true (exec_move P hw (by simp) s) (by simp)
  | nonzero => exact iff_of_true (exec_move P hw (by simp) s) (by simp)

/-- `movf.s $f4, $f2` with condition code 0 clear. -/
theorem condMove_movf :
    Moves mips32r1 0x46001111 .code .single (compareDemo 0x3F000000) :=
  (condMove_iff mips32r1 ⟨by decide, fun _ => by decide, by decide, fun h => by simp at h⟩ _).2
    fun _ => .inl (by decide)

/-- `movt.s $f4, $f2` with condition code 0 clear moves all the same. -/
theorem movt_moves : ¬ Moves mips32r1 0x46011111 .code .single (compareDemo 0x3F000000) := by
  intro h
  have hf := congrArg (fun r => (final r).cpu.fpr32i 4) h
  exact absurd hf (by decide)

end NemuMips32
