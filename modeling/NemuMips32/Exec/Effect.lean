/-
  What a handler can do. With `CONFIG_EXCEPTION`, from a state without a pending exception,
  every body has one of eight effects (`Effect`): it runs to its end and leaves control flow
  alone, annuls the slot of a likely branch, asks for its delay slot, returns from an
  exception, is rejected by a check macro, raises an exception without a memory access, has
  a memory access fault, or ends the emulator. `run_effect` proves it, with one case per
  body; the results about single iterations and whole runs build on it and never open a
  handler.

  Four bodies can do more, and are left out where they do (`Body.Regular`): `cfc1` of control
  register 0 and a faulting `ll` write their destination beside the exception, and `ldc1` and
  `sdc1` go on to a second access after a fault in the first.
-/
import NemuMips32.Page
import NemuMips32.Exec.System

namespace NemuMips32

open StateExcept

variable {D : Type}

/-! ## States -/

def Machine.setBadvaddr (a : Word) (s : Machine D) : Machine D :=
  { s with cpu := { s.cpu with cp0 := { s.cpu.cp0 with badvaddr := a } } }

/-- BadVAddr after the handler had a chance to rewrite it. -/
def Machine.fixBadvaddr (a : Option Word) (s : Machine D) : Machine D :=
  match a with
  | none => s
  | some a => s.setBadvaddr a

/-- A likely branch that is not taken. -/
def Machine.annul (s : Machine D) : Machine D :=
  { s with cpu := { s.cpu with brTarget := s.cpu.pc + 8, pc := s.cpu.pc + 4 } }

def Machine.flush (s : Machine D) : Machine D :=
  { s with mmuCache := clearMmu s.mmuCache, dc := s.dc.clear }

def Machine.eret (s : Machine D) : Machine D :=
  Machine.flush { s with cpu := s.cpu.eret }

def Machine.setRegs (r : Regs) (s : Machine D) : Machine D :=
  { s with cpu := { s.cpu with toRegs := r } }

/-- A branch: the register files and the target may change, nothing else. -/
def Machine.branchTo (r : Regs) (t : Word) (s : Machine D) : Machine D :=
  { s with cpu := { s.cpu with toRegs := r, brTarget := t } }

/-- No exception was raised and control flow was left alone. -/
structure Plain (s s' : Machine D) : Prop where
  raised : s'.raised = s.raised
  hasException : s'.cpu.hasException = s.cpu.hasException
  pc : s'.cpu.pc = s.cpu.pc
  isDelayslot : s'.cpu.isDelayslot = s.cpu.isDelayslot
  brTarget : s'.cpu.brTarget = s.cpu.brTarget

theorem Plain.refl (s : Machine D) : Plain s s := ⟨rfl, rfl, rfl, rfl, rfl⟩

theorem Plain.trans {s t u : Machine D} (h : Plain s t) (h' : Plain t u) : Plain s u where
  raised := h'.raised.trans h.raised
  hasException := h'.hasException.trans h.hasException
  pc := h'.pc.trans h.pc
  isDelayslot := h'.isDelayslot.trans h.isDelayslot
  brTarget := h'.brTarget.trans h.brTarget

theorem plain_access (s : Machine D) (x : DevCtx D) (m : Memory)
    (mc : BitVec 12 → MmuCacheEntry) : Plain s (s.access x m mc) := ⟨rfl, rfl, rfl, rfl, rfl⟩

theorem plain_setRegs (r : Regs) (s : Machine D) : Plain s (s.setRegs r) :=
  ⟨rfl, rfl, rfl, rfl, rfl⟩

/-! ## Checks -/

def misaligned (align addr : Word) : Bool := addr &&& (align - 1) != 0

def AccessOp.misaligned (a : AccessOp) (c : CpuState) : Bool :=
  match a.align with
  | none => false
  | some align => NemuMips32.misaligned align (a.addr c)

/-- The body fails its must-be-zero or alignment check. -/
def Body.rejects (b : Body) (c : CpuState) : Bool :=
  match b with
  | .regs mbz _ _ => !mbz
  | .addOv mbz _ _ => !mbz
  | .branch mbz _ _ => !mbz
  | .branchLikely mbz _ _ _ => !mbz
  | .read a _ => a.misaligned c
  | .write a _ _ => a.misaligned c
  | .cfc1Bad _ => true
  | .ll o => misaligned 4 (effAddr o c)
  | .ldc1 o => misaligned 8 (effAddr o c)
  | .sdc1 o => misaligned 8 (effAddr o c)
  | _ => false

section Checks

variable {P : Platform D} (hx : P.cfg.exception = true) (s : Machine D)

theorem instAssert_true : instAssert P true s = .ok () s := rfl

include hx

theorem instAssert_false :
    instAssert P false s = .error .exit ((s.setBadvaddr s.cpu.pc).raise P ⟨.none, .RI⟩) := by
  simp only [instAssert, hx, Bool.false_eq_true, if_false, if_true, bind_apply,
    modifyCpu_apply]
  rw [raiseException_apply P (by decide)]
  rfl

theorem checkAlignedAddr_apply {code : ExcCode} (hc : code ≠ .TRAP) (align addr : Word) :
    checkAlignedAddr P code align addr s =
      if misaligned align addr then
        .error .exit ((s.setBadvaddr addr).raise P ⟨.none, code⟩)
      else .ok () s := by
  by_cases h : addr &&& (align - 1) = 0
  · have hm : misaligned align addr = false := by rw [misaligned, h]; rfl
    simp only [checkAlignedAddr, h, hm]
    rfl
  · have hm : misaligned align addr = true := by simpa only [misaligned, bne_iff_ne] using h
    simp only [checkAlignedAddr, h, hm, hx, if_false, if_true, bind_apply, modifyCp0_apply]
    rw [raiseException_apply P (e := ⟨.none, code⟩) hc]
    rfl

omit hx in
theorem eq_zero_of_aligned {addr : Word} (h : misaligned 8 addr = false) : addr &&& 7 = 0 := by
  have h' : addr &&& (8 - 1) = 0 := by simpa only [misaligned, bne_eq_false_iff_eq] using h
  exact h'

theorem check_apply {code : ExcCode} (hc : code ≠ .TRAP) (a : AccessOp) (c : CpuState) :
    a.check P code c s =
      if a.misaligned c then
        .error .exit ((s.setBadvaddr (a.addr c)).raise P ⟨.none, code⟩)
      else .ok () s := by
  unfold AccessOp.check AccessOp.misaligned
  cases a.align with
  | none => rfl
  | some align => exact checkAlignedAddr_apply hx s hc align (a.addr c)

end Checks

/-! ## Effects -/

/-- What the body writes to BadVAddr after a fault. -/
def Body.badvaddr (b : Body) (c : CpuState) : Option Word :=
  match b with
  | .read a _ => a.badvaddr.map fun f => f c
  | .write a _ _ => a.badvaddr.map fun f => f c
  | _ => none

/-- The bodies that set `pc` or `br_target`: branches, jumps and `eret`. -/
def Body.transfers : Body → Bool
  | .branch _ _ _ => true
  | .branchLikely _ _ _ _ => true
  | .eret => true
  | _ => false

/-- The effects of a body from state `s`, by the result it stops with. -/
inductive Effect (P : Platform D) (b : Body) (s : Machine D) :
    EStateM.Result Stop (Machine D) Unit → Prop where
  | plain {s' : Machine D} (h : Plain s s') : Effect P b s (.ok () s')
  | annul (r : Regs) (hb : b.transfers = true) : Effect P b s (.ok () (s.setRegs r).annul)
  | slot (r : Regs) (t : Word) (hb : b.transfers = true) :
    Effect P b s (.error .delayslot (s.branchTo r t))
  | eret (hb : b.transfers = true) : Effect P b s (.ok () s.eret)
  | reject (e : Exception) (bad : Word) (hb : b.rejects s.cpu = true) :
    Effect P b s (.error .exit ((s.setBadvaddr bad).raise P e))
  | raise (e : Exception) : Effect P b s (.ok () (s.raise P e))
  | fault (f : TlbFault) (addr : Word) :
    Effect P b s (.ok () ((s.fault P f addr).fixBadvaddr (b.badvaddr s.cpu)))
  | halt (why : Halt) {s' : Machine D} (h : s'.raised.length ≤ s.raised.length + 1) :
    Effect P b s (.error (.halt why) s')

/-- The body does not go on after a fault of its own. -/
def Body.Regular (P : Platform D) (b : Body) (s : Machine D) : Prop :=
  match b with
  | .cfc1Bad _ => False
  | .invEnd => False
  | .ll o => misaligned 4 (effAddr o s.cpu) = false → s.faultOf P .load (effAddr o s.cpu) = none
  | .ldc1 o =>
    misaligned 8 (effAddr o s.cpu) = false → s.faultOf P .load (effAddr o s.cpu) = none
  | .sdc1 o =>
    misaligned 8 (effAddr o s.cpu) = false → s.faultOf P .store (effAddr o s.cpu) = none
  | _ => True

theorem effect_halt {P : Platform D} {b : Body} {s s' : Machine D} (why : Halt)
    (h : s'.toArch = s.toArch) : Effect P b s (.error (.halt why) s') :=
  .halt why (by rw [h]; omega)

/-- An access that raises nothing, at the end of a body. -/
theorem effect_quiet {P : Platform D} {b : Body} {rw : Access} {s t : Machine D} (hst : Plain s t)
    {r : EStateM.Result Stop (Machine D) Unit} (hq : Quiet rw t r) : Effect P b s r := by
  cases r with
  | ok a u =>
    obtain ⟨x, mem, mc, rfl, -⟩ := hq
    exact .plain (hst.trans (plain_access t x mem mc))
  | error e u =>
    obtain ⟨⟨why, rfl⟩, hu⟩ := hq
    exact .halt why (by rw [hu, hst.raised]; omega)

/-- The same with more to follow. -/
theorem effect_quiet_bind {P : Platform D} {b : Body} {rw : Access} {s t : Machine D}
    {α : Type} {m : Exec D α} {f : α → Exec D Unit} (hst : Plain s t) (hq : Quiet rw t (m t))
    (hf : ∀ a u, m t = .ok a u → Plain s u → Effect P b s (f a u)) :
    Effect P b s ((m >>= f) t) := by
  rw [bind_apply]
  cases hr : m t with
  | ok a u =>
    rw [hr] at hq
    obtain ⟨x, mem, mc, rfl, -⟩ := hq
    exact hf a _ hr (hst.trans (plain_access t x mem mc))
  | error e u =>
    rw [hr] at hq
    obtain ⟨⟨why, rfl⟩, hu⟩ := hq
    exact .halt why (by rw [hu, hst.raised]; omega)

theorem modifyCp0_fixBadvaddr (a : AccessOp) (c : CpuState) (s : Machine D) :
    modifyCp0 (a.fixBadvaddr c) s = .ok () (s.fixBadvaddr (a.badvaddr.map fun f => f c)) := by
  rw [modifyCp0_apply]
  unfold AccessOp.fixBadvaddr
  cases a.badvaddr <;> rfl

section Bodies

variable {P : Platform D} (hx : P.cfg.exception = true) {s : Machine D}
include hx

theorem effect_instAssert {b : Body} (mbz : Bool) (hb : b.rejects s.cpu = !mbz)
    {f : Unit → Exec D Unit} (hf : Effect P b s (f () s)) :
    Effect P b s ((instAssert P mbz >>= f) s) := by
  cases mbz with
  | true => rw [bind_of_ok (instAssert_true s)]; exact hf
  | false =>
    rw [bind_of_error (instAssert_false hx s)]
    exact .reject _ _ hb

theorem effect_checkAligned {b : Body} {code : ExcCode} (hc : code ≠ .TRAP) {align addr : Word}
    (hb : b.rejects s.cpu = misaligned align addr) {f : Unit → Exec D Unit}
    (hf : misaligned align addr = false → Effect P b s (f () s)) :
    Effect P b s ((checkAlignedAddr P code align addr >>= f) s) := by
  have ha := checkAlignedAddr_apply hx s hc align addr
  cases hm : misaligned align addr with
  | true =>
    rw [hm, if_pos rfl] at ha
    rw [bind_of_error ha]
    exact .reject _ _ (hb.trans hm)
  | false =>
    rw [hm, if_neg (by decide)] at ha
    rw [bind_of_ok ha]
    exact hf hm

theorem effect_check {b : Body} {code : ExcCode} (hc : code ≠ .TRAP) {a : AccessOp}
    (hb : b.rejects s.cpu = a.misaligned s.cpu) {f : Unit → Exec D Unit}
    (hf : Effect P b s (f () s)) : Effect P b s ((a.check P code s.cpu >>= f) s) := by
  unfold AccessOp.check
  unfold AccessOp.misaligned at hb
  cases ha : a.align with
  | none => rw [bind_of_ok (pure_apply () s)]; exact hf
  | some align =>
    rw [ha] at hb
    exact effect_checkAligned hx hc hb fun _ => hf

variable (hs : s.cpu.hasException = false)
include hs

theorem effect_read (a : AccessOp) (put : CpuState → Word → CpuState → Regs) :
    Effect P (.read a put) s (readOp P a put s) := by
  unfold readOp
  rw [bind_of_ok (getCpu_apply s)]
  refine effect_check hx (by decide) rfl ?_
  cases hf : s.faultOf P .load (a.addr s.cpu) with
  | some f =>
    rw [bind_of_ok (vaddrRead_of_fault hf _), bind_of_ok (getCpu_apply _), hasException_fault,
      Bool.not_true, if_neg Bool.false_ne_true, modifyCp0_fixBadvaddr]
    exact .fault f _
  | none =>
    refine effect_quiet_bind (.refl s) (vaddrRead_quiet hf _) fun v t _ ht => ?_
    rw [bind_of_ok (getCpu_apply t), ht.hasException, hs]
    exact .plain (ht.trans (plain_setRegs _ t))

theorem effect_write (a : AccessOp) (data : CpuState → Word) (put : CpuState → Regs) :
    Effect P (.write a data put) s (writeOp P a data put s) := by
  unfold writeOp
  rw [bind_of_ok (getCpu_apply s)]
  refine effect_check hx (by decide) rfl ?_
  cases hf : s.faultOf P .store (a.addr s.cpu) with
  | some f =>
    rw [bind_of_ok (vaddrWrite_of_fault hf _ _), bind_of_ok (getCpu_apply _),
      hasException_fault, Bool.not_true, if_neg Bool.false_ne_true, modifyCp0_fixBadvaddr]
    exact .fault f _
  | none =>
    refine effect_quiet_bind (.refl s) (vaddrWrite_quiet hf _ _) fun _ t _ ht => ?_
    rw [bind_of_ok (getCpu_apply t), ht.hasException, hs]
    exact .plain (ht.trans (plain_setRegs _ t))

omit hs in
theorem effect_ll (o : Ops) (hr : (Body.ll o).Regular P s) :
    Effect P (.ll o) s (ll P o s) := by
  unfold ll
  rw [bind_of_ok (getCpu_apply s)]
  refine effect_checkAligned hx (by decide) rfl fun hm => ?_
  refine effect_quiet_bind (.refl s) (vaddrRead_quiet (hr hm) _) fun v t _ ht => ?_
  exact .plain (ht.trans (plain_setRegs _ t))

theorem effect_ldc1 (o : Ops) (hr : (Body.ldc1 o).Regular P s) :
    Effect P (.ldc1 o) s (ldc1 P o s) := by
  unfold ldc1
  rw [bind_of_ok (getCpu_apply s)]
  refine effect_checkAligned hx (by decide) rfl fun hm => ?_
  have h8 : effAddr o s.cpu &&& 7 = 0 := eq_zero_of_aligned hm
  refine effect_quiet_bind (.refl s) (vaddrRead_quiet (hr hm) _) fun _ t hrt ht => ?_
  -- the second word is on the page of the first
  have hf := vaddrRead_next h8 (hr hm) hrt
  refine effect_quiet_bind ht (vaddrRead_quiet hf _) fun _ u _ hu => ?_
  rw [bind_of_ok (getCpu_apply u), hu.hasException, hs]
  exact .plain (hu.trans (plain_setRegs _ u))

omit hs in
theorem effect_sdc1 (o : Ops) (hr : (Body.sdc1 o).Regular P s) :
    Effect P (.sdc1 o) s (sdc1 P o s) := by
  unfold sdc1
  rw [bind_of_ok (getCpu_apply s)]
  refine effect_checkAligned hx (by decide) rfl fun hm => ?_
  have h8 : effAddr o s.cpu &&& 7 = 0 := eq_zero_of_aligned hm
  rw [bind_of_ok (getCpu_apply s)]
  refine effect_quiet_bind (.refl s) (vaddrWrite_quiet (hr hm) _ _) fun _ t hrt ht => ?_
  have hf := vaddrWrite_next h8 (hr hm) hrt
  rw [bind_of_ok (getCpu_apply t)]
  exact effect_quiet ht (vaddrWrite_quiet hf _ _)

omit hs in
theorem effect_branchLikely (mbz : Bool) (link : CpuState → Regs) (cond : Regs → Bool) (o : Ops) :
    Effect P (.branchLikely mbz link cond o) s (branchLikely P mbz link cond o s) := by
  refine effect_instAssert hx mbz rfl ?_
  rw [bind_of_ok (modifyRegs_apply s link), bind_of_ok (getCpu_apply _)]
  by_cases hc : cond (link s.cpu) = true
  · rw [if_pos hc]
    exact .slot _ _ rfl
  · rw [if_neg hc]
    exact .annul _ rfl

omit hs in
theorem effect_addOv (mbz : Bool) (dst : BitVec 5) (ret : CpuState → BitVec 64) :
    Effect P (.addOv mbz dst ret) s ((Body.addOv mbz dst ret).run P s) := by
  refine effect_instAssert hx mbz rfl ?_
  rw [bind_of_ok (getCpu_apply s)]
  by_cases ho : overflows (ret s.cpu) = true
  · rw [if_pos ho, if_pos hx, raiseException_apply P (by decide)]
    exact .raise _
  · rw [if_neg ho]
    exact .plain (plain_setRegs _ s)

omit hs in
theorem effect_regs (mbz : Bool) (bad : CpuState → Option Halt) (f : CpuState → Regs) :
    Effect P (.regs mbz bad f) s ((Body.regs mbz bad f).run P s) := by
  refine effect_instAssert hx mbz rfl ?_
  rw [bind_of_ok (getCpu_apply s)]
  cases bad s.cpu with
  | some why => exact effect_halt why rfl
  | none => exact .plain (plain_setRegs _ s)

omit hx hs in
theorem effect_raiseIf (cond : CpuState → Bool) (e : Exception) :
    Effect P (.raiseIf cond e) s ((Body.raiseIf cond e).run P s) := by
  change Effect P _ s ((getCpu >>= fun c => if cond c then raiseException P e else pure ()) s)
  rw [bind_of_ok (getCpu_apply s)]
  by_cases hc : cond s.cpu = true
  · rw [if_pos hc]
    by_cases he : e.code = .TRAP
    · simp only [raiseException, if_pos he]
      exact .halt .panic (by simp)
    · rw [raiseException_apply P he]
      exact .raise e
  · rw [if_neg hc]
    exact .plain (.refl s)

end Bodies

/-! ## CP0 and TLB bodies -/

theorem plain_setCp0 (c : Cp0) (s : Machine D) :
    Plain s { s with cpu := { s.cpu with cp0 := c } } := ⟨rfl, rfl, rfl, rfl, rfl⟩

theorem plain_flush (s : Machine D) : Plain s s.flush := ⟨rfl, rfl, rfl, rfl, rfl⟩

theorem flushCaches_apply (s : Machine D) : flushCaches s = .ok () s.flush := rfl

theorem effect_cp0 {P : Platform D} {s : Machine D} (f : CpuState → (Fin 32 → TlbEntry) → Cp0)
    (flush : CpuState → Bool) : Effect P (.cp0 f flush) s ((Body.cp0 f flush).run P s) := by
  have hp := plain_setCp0 (f s.cpu s.tlb) s
  change Effect P _ s ((get >>= fun t : Machine D => modifyCp0 (fun _ => f t.cpu t.tlb) >>=
    fun _ => if flush t.cpu then flushCaches else pure ()) s)
  rw [bind_of_ok (get_apply s), bind_of_ok (modifyCp0_apply s _)]
  by_cases hf : flush s.cpu = true
  · rw [if_pos hf, flushCaches_apply]
    exact .plain (hp.trans (plain_flush _))
  · rw [if_neg hf]
    exact .plain hp

theorem tlbPresentFrom_cases (is : List (Fin 32)) (s : Machine D) :
    (∃ c, tlbPresentFrom is s = .ok () { s with cpu := { s.cpu with cp0 := c } }) ∨
      tlbPresentFrom is s = .error (.halt .assert) s := by
  induction is with
  | nil => exact .inl ⟨_, rfl⟩
  | cons i is ih =>
    simp only [tlbPresentFrom, bind_of_ok (get_apply s)]
    by_cases hm : pagemaskOk (s.tlb i).pagemask = true
    · simp only [hm, if_true]
      split
      · exact .inl ⟨_, rfl⟩
      · exact ih
    · exact .inr (by simp [hm])

theorem effect_tlbp (P : Platform D) (s : Machine D) : Effect P .tlbp s (tlbp s) := by
  unfold tlbp tlbPresent
  obtain ⟨c, h⟩ | h := tlbPresentFrom_cases (List.finRange 32) s
  · rw [h]
    exact .plain (plain_setCp0 c s)
  · rw [h]
    exact effect_halt _ rfl

theorem effect_tlbwr (P : Platform D) (s : Machine D) : Effect P .tlbwr s (tlbwr P s) := by
  unfold tlbwr
  by_cases hm : P.cfg.march = .noop
  · rw [if_pos hm, bind_of_ok (getCpu_apply s)]
    by_cases hr : s.cpu.cp0.random.toNat < 32
    · simp only [hr, dite_true]
      exact .plain ⟨rfl, rfl, rfl, rfl, rfl⟩
    · simp only [hr, dite_false]
      exact effect_halt _ rfl
  · rw [if_neg hm]
    exact .plain ⟨rfl, rfl, rfl, rfl, rfl⟩

/-- `inv` without `CONFIG_EXCEPTION`. -/
def Body.isInvEnd : Body → Bool
  | .invEnd => true
  | _ => false

theorem body_isInvEnd {P : Platform D} (hx : P.cfg.exception = true) (o : Ops) (h : Handler) :
    (body P o h).isInvEnd = false := by
  cases h
  case inv => simp [body, inv, hx, Body.isInvEnd]
  case breakpoint => simp only [body, breakpoint]; split <;> rfl
  case cfc1 => simp only [body, cfc1]; split <;> rfl
  case srl => simp only [body, srl]; split <;> rfl
  case srlv => simp only [body, srlv]; split <;> rfl
  case mtc0 => simp only [body, mtc0]; split <;> rfl
  all_goals rfl

/-- Every body has one of the eight effects, unless it goes on after a fault of its own. -/
theorem run_effect {P : Platform D} (hx : P.cfg.exception = true) {s : Machine D}
    (hs : s.cpu.hasException = false) {b : Body} (hr : b.Regular P s) :
    Effect P b s (b.run P s) := by
  cases b with
  | regs mbz bad f => exact effect_regs hx mbz bad f
  | addOv mbz dst ret => exact effect_addOv hx mbz dst ret
  | raiseIf cond e => exact effect_raiseIf cond e
  | branch mbz link target => exact effect_instAssert hx mbz rfl (.slot _ _ rfl)
  | branchLikely mbz link cond o => exact effect_branchLikely hx mbz link cond o
  | read a put => exact effect_read hx hs a put
  | write a data put => exact effect_write hx hs a data put
  | cp0 f flush => exact effect_cp0 f flush
  | halt why => exact effect_halt why rfl
  | cfc1Bad rt => exact hr.elim
  | ll o => exact effect_ll hx o hr
  | ldc1 o => exact effect_ldc1 hx hs o hr
  | sdc1 o => exact effect_sdc1 hx o hr
  | cache => exact .plain ⟨rfl, rfl, rfl, rfl, rfl⟩
  | tlbp => exact effect_tlbp P s
  | tlbwi => exact .plain ⟨rfl, rfl, rfl, rfl, rfl⟩
  | tlbwr => exact effect_tlbwr P s
  | eret => exact .eret rfl
  | gdbStop => exact .plain ⟨rfl, rfl, rfl, rfl, rfl⟩
  | invEnd => exact hr.elim

/-! ## Bodies that go on after a fault -/

theorem not_cached_raise (P : Platform D) (e : Exception) (s : Machine D) (rw : Access)
    (v : Word) : ¬ (s.raise P e).cached P rw v := by
  have hid : (0xFFFFFFFF : Word) ≠ mmuCacheId v := by
    intro h
    have := congrArg BitVec.toNat h
    simp only [mmuCacheId, BitVec.toNat_ushiftRight, Nat.shiftRight_eq_div_pow] at this
    have hv := v.isLt
    have hl : (0xFFFFFFFF : Word).toNat = 4294967295 := rfl
    omega
  cases rw with
  | load => exact fun h => hid h.2
  | store => exact fun h => hid h.2.1

theorem not_cached_fault (P : Platform D) (f : TlbFault) (a : Word) (s : Machine D)
    (rw : Access) (v : Word) : ¬ (s.fault P f a).cached P rw v :=
  not_cached_raise P _ _ rw v

/-- The bodies with two accesses, with their access kind. -/
def Body.twoWords : Body → Option (Access × Ops)
  | .ldc1 o => some (.load, o)
  | .sdc1 o => some (.store, o)
  | _ => none

/-- The bodies that go on after a fault of their own. -/
theorem irregular_cases {P : Platform D} {b : Body} {s : Machine D} (hb : b.isInvEnd = false)
    (hr : ¬ b.Regular P s) :
    (∃ rt, b = .cfc1Bad rt) ∨
    (∃ o f, b = .ll o ∧ misaligned 4 (effAddr o s.cpu) = false ∧
      s.faultOf P .load (effAddr o s.cpu) = some f) ∨
    ∃ rw o f, b.twoWords = some (rw, o) ∧ misaligned 8 (effAddr o s.cpu) = false ∧
      s.faultOf P rw (effAddr o s.cpu) = some f := by
  cases b with
  | cfc1Bad rt => exact .inl ⟨rt, rfl⟩
  | ll o =>
    simp only [Body.Regular, Classical.not_imp, Option.ne_none_iff_exists', ← ne_eq] at hr
    obtain ⟨hm, f, hf⟩ := hr
    exact .inr (.inl ⟨o, f, rfl, hm, hf⟩)
  | ldc1 o =>
    simp only [Body.Regular, Classical.not_imp, Option.ne_none_iff_exists', ← ne_eq] at hr
    obtain ⟨hm, f, hf⟩ := hr
    exact .inr (.inr ⟨_, o, f, rfl, hm, hf⟩)
  | sdc1 o =>
    simp only [Body.Regular, Classical.not_imp, Option.ne_none_iff_exists', ← ne_eq] at hr
    obtain ⟨hm, f, hf⟩ := hr
    exact .inr (.inr ⟨_, o, f, rfl, hm, hf⟩)
  | invEnd => cases hb
  | _ => exact absurd trivial hr

section AfterFault

variable {P : Platform D} (hx : P.cfg.exception = true) {s : Machine D}
include hx

theorem cfc1Bad_apply (rt : BitVec 5) :
    cfc1Bad P rt s = .error .exit
      (((s.setRegs (s.cpu.setGpr rt 0)).setBadvaddr s.cpu.pc).raise P ⟨.none, .RI⟩) := by
  unfold cfc1Bad
  rw [bind_of_ok (modifyRegs_apply s _)]
  exact instAssert_false hx _

theorem checkAligned_ok {code : ExcCode} (hc : code ≠ .TRAP) {align addr : Word}
    (h : misaligned align addr = false) : checkAlignedAddr P code align addr s = .ok () s := by
  rw [checkAlignedAddr_apply hx s hc, h]
  rfl

theorem ll_of_fault {o : Ops} (hm : misaligned 4 (effAddr o s.cpu) = false) {f : TlbFault}
    (hf : s.faultOf P .load (effAddr o s.cpu) = some f) :
    ll P o s = .ok () ((s.fault P f (effAddr o s.cpu)).setRegs (s.cpu.setGpr o.rt 0)) := by
  unfold ll
  rw [bind_of_ok (getCpu_apply s), bind_of_ok (checkAligned_ok hx (by decide) hm),
    bind_of_ok (vaddrRead_of_fault hf 4)]
  rfl

theorem ldc1_of_fault {o : Ops} (hm : misaligned 8 (effAddr o s.cpu) = false) {f : TlbFault}
    (hf : s.faultOf P .load (effAddr o s.cpu) = some f) :
    ldc1 P o s = (vaddrRead P (effAddr o s.cpu + 4) 4 >>= fun _ => pure ())
      (s.fault P f (effAddr o s.cpu)) := by
  unfold ldc1
  rw [bind_of_ok (getCpu_apply s), bind_of_ok (checkAligned_ok hx (by decide) hm),
    bind_of_ok (vaddrRead_of_fault hf 4), bind_apply, bind_apply]
  -- the exception stays pending across the second load
  cases hf' : (s.fault P f (effAddr o s.cpu)).faultOf P .load (effAddr o s.cpu + 4) with
  | some f' =>
    rw [vaddrRead_of_fault hf' 4]
    rfl
  | none =>
    have hq := vaddrRead_quiet hf' 4
    cases hr : vaddrRead P (effAddr o s.cpu + 4) 4 (s.fault P f (effAddr o s.cpu)) with
    | ok v t =>
      rw [hr] at hq
      obtain ⟨x, m, mc, rfl, -⟩ := hq
      rfl
    | error e t => rfl

theorem sdc1_of_fault {o : Ops} (hm : misaligned 8 (effAddr o s.cpu) = false) {f : TlbFault}
    (hf : s.faultOf P .store (effAddr o s.cpu) = some f) :
    sdc1 P o s = vaddrWrite P (effAddr o s.cpu + 4) 4 (s.cpu.fpr32i (oddReg o.ft))
      (s.fault P f (effAddr o s.cpu)) := by
  unfold sdc1
  rw [bind_of_ok (getCpu_apply s), bind_of_ok (checkAligned_ok hx (by decide) hm),
    bind_of_ok (getCpu_apply s), bind_of_ok (vaddrWrite_of_fault hf 4 _)]
  rfl

/-- The second access of a doubleword after the first has faulted: it raises nothing, faults
    again, or ends the emulator. -/
theorem run_of_firstFault {b : Body} {rw : Access} {o : Ops} (h2 : b.twoWords = some (rw, o))
    (hm : misaligned 8 (effAddr o s.cpu) = false) {f : TlbFault}
    (hf : s.faultOf P rw (effAddr o s.cpu) = some f) :
    (∃ f', P.translate (s.fault P f (effAddr o s.cpu)).toArch (effAddr o s.cpu + 4) rw =
        .fault f' ∧
      b.run P s = .ok () ((s.fault P f (effAddr o s.cpu)).fault P f' (effAddr o s.cpu + 4))) ∨
    (∀ f', P.translate (s.fault P f (effAddr o s.cpu)).toArch (effAddr o s.cpu + 4) rw ≠
        .fault f') ∧ Quiet rw (s.fault P f (effAddr o s.cpu)) (b.run P s) := by
  have hnone : (s.fault P f (effAddr o s.cpu)).faultOf P rw (effAddr o s.cpu + 4) = none →
      ∀ f', P.translate (s.fault P f (effAddr o s.cpu)).toArch (effAddr o s.cpu + 4) rw ≠
        .fault f' := by
    intro h
    exact (faultOf_eq_none.1 h).resolve_left (not_cached_fault P f _ s rw _)
  cases b with
  | ldc1 o' =>
    cases h2
    simp only [Body.run, ldc1_of_fault hx hm hf]
    cases hf' : (s.fault P f (effAddr o s.cpu)).faultOf P .load (effAddr o s.cpu + 4) with
    | some f' =>
      exact .inl ⟨f', (faultOf_eq_some hf').2, bind_of_ok (vaddrRead_of_fault hf' 4) _⟩
    | none => exact .inr ⟨hnone hf', quiet_void (vaddrRead_quiet hf' 4)⟩
  | sdc1 o' =>
    cases h2
    simp only [Body.run, sdc1_of_fault hx hm hf]
    cases hf' : (s.fault P f (effAddr o s.cpu)).faultOf P .store (effAddr o s.cpu + 4) with
    | some f' => exact .inl ⟨f', (faultOf_eq_some hf').2, vaddrWrite_of_fault hf' 4 _⟩
    | none => exact .inr ⟨hnone hf', vaddrWrite_quiet hf' 4 _⟩
  | _ => cases h2

/-! ## Bodies by their last statement -/

/-- What `run_effect` and the bodies it leaves out say about a body that does not fall off
    its end. -/
def StopsBy (P : Platform D) (b : Body) (s : Machine D) :
    EStateM.Result Stop (Machine D) Unit → Prop
  | .error .exit t =>
    b.rejects s.cpu = true ∧ ∃ r bad e, t = ((s.setRegs r).setBadvaddr bad).raise P e
  | .error .delayslot t => b.transfers = true ∧ ∃ r a, t = s.branchTo r a
  | _ => True

omit hx in
theorem stopsBy_quiet {rw : Access} {b : Body} {t : Machine D}
    {r : EStateM.Result Stop (Machine D) Unit} (h : Quiet rw t r) : StopsBy P b s r := by
  cases r with
  | ok a u => trivial
  | error e u =>
    obtain ⟨⟨why, rfl⟩, -⟩ := h
    trivial

theorem run_stopsBy (hs : s.cpu.hasException = false) {b : Body} (hb : b.isInvEnd = false) :
    StopsBy P b s (b.run P s) := by
  by_cases hr : b.Regular P s
  · have he := run_effect hx hs hr
    generalize b.run P s = r at he
    cases he with
    | slot r a hb => exact ⟨hb, r, a, rfl⟩
    | reject e bad hb => exact ⟨hb, s.cpu.toRegs, bad, e, rfl⟩
    | _ => trivial
  · obtain ⟨rt, rfl⟩ | ⟨o, f, rfl, hm, hf⟩ | ⟨rw, o, f, h2, hm, hf⟩ := irregular_cases hb hr
    · rw [Body.run, cfc1Bad_apply hx]
      exact ⟨rfl, _, _, _, rfl⟩
    · rw [Body.run, ll_of_fault hx hm hf]
      trivial
    · obtain ⟨f', -, hf'⟩ | ⟨-, hq⟩ := run_of_firstFault hx h2 hm hf
      · rw [hf']
        trivial
      · exact stopsBy_quiet hq

/-- An exception is pending that was raised since `s`. -/
def Raises (s t : Machine D) : Prop :=
  t.cpu.hasException = true ∧ ∃ l, l ≠ [] ∧ t.raised = s.raised ++ l

omit hx in
theorem Raises.trans {s t u : Machine D} (h : Raises s t) (h' : Raises t u) : Raises s u := by
  obtain ⟨-, l, hl, hr⟩ := h
  obtain ⟨he, l', -, hr'⟩ := h'
  refine ⟨he, l ++ l', fun h => hl (List.append_eq_nil_iff.1 h).1, ?_⟩
  rw [hr', hr, List.append_assoc]

omit hx in
theorem Raises.of_raised {s t u : Machine D} (h : Raises t u) (hr : t.raised = s.raised) :
    Raises s u := by
  obtain ⟨he, l, hl, hu⟩ := h
  exact ⟨he, l, hl, by rw [hu, hr]⟩

omit hx in
theorem raises_raise (e : Exception) (s : Machine D) : Raises s (s.raise P e) :=
  ⟨rfl, _, List.cons_ne_nil _ [], rfl⟩

omit hx in
theorem raises_fault (f : TlbFault) (addr : Word) (s : Machine D) :
    Raises s (s.fault P f addr) := ⟨rfl, _, List.cons_ne_nil _ [], rfl⟩

omit hx in
theorem dc_fixBadvaddr (a : Option Word) (s : Machine D) : (s.fixBadvaddr a).dc = s.dc := by
  cases a <;> rfl

/-- A body other than a transfer that falls off its end leaves control flow alone, or has
    raised an exception and flushed the decode cache. -/
theorem run_plain_or_raises (hs : s.cpu.hasException = false) {b : Body}
    (hb : b.isInvEnd = false) (ht : b.transfers = false) {u : Machine D}
    (hu : b.run P s = .ok () u) : Plain s u ∨ Raises s u ∧ u.dc = s.dc.clear := by
  by_cases hr : b.Regular P s
  · have he := run_effect hx hs hr
    rw [hu] at he
    cases he with
    | plain h => exact .inl h
    | annul r hb => rw [ht] at hb; cases hb
    | eret hb => rw [ht] at hb; cases hb
    | raise e => exact .inr ⟨raises_raise e s, rfl⟩
    | fault f addr =>
      refine .inr ⟨?_, dc_fixBadvaddr _ _⟩
      unfold Machine.fixBadvaddr
      split <;> exact raises_fault f addr s
  · obtain ⟨rt, rfl⟩ | ⟨o, f, rfl, hm, hf⟩ | ⟨rw, o, f, h2, hm, hf⟩ := irregular_cases hb hr
    · rw [Body.run, cfc1Bad_apply hx] at hu
      cases hu
    · rw [Body.run, ll_of_fault hx hm hf] at hu
      cases hu
      exact .inr ⟨raises_fault f _ s, rfl⟩
    · obtain ⟨f', -, hf'⟩ | ⟨-, hq⟩ := run_of_firstFault hx h2 hm hf
      · rw [hu] at hf'
        cases hf'
        exact .inr ⟨(raises_fault f _ s).trans (raises_fault f' _ _), rfl⟩
      · rw [hu] at hq
        obtain ⟨x, m, mc, rfl, -⟩ := hq
        exact .inr ⟨raises_fault f _ s, rfl⟩

end AfterFault

end NemuMips32
