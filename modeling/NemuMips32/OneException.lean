/-
  One exception per iteration. `raise_exception` does not leave the handler, so a handler
  that goes on to another access can raise a second time and overwrite EPC, Cause.BD and the
  vector of the first. This happens exactly when both words of an aligned `ldc1` or `sdc1`
  fault (`DoubleFault`); the second access then runs with EXL set
  and under the ASID that the first fault put into EntryHi.

  In every other case at most one exception is raised, and EPC, Cause.BD, Cause.ExcCode,
  BadVAddr and `pc` are those of its record (`Reports`).
-/
import NemuMips32.Iteration
import NemuMips32.Board

namespace NemuMips32

open StateExcept

variable {D : Type}

/-! ## The property -/

/-- The unaligned accesses `lwl` and `swl`, which report the address before it is aligned. -/
def LeftAccess (P : Platform D) (s : Machine D) (addr : Word) : Prop :=
  ∃ h o t, Entered P s h o t ∧ (h = .lwl ∨ h = .swl) ∧ addr = effAddr o t.cpu

/-- The state `s'` after an iteration from `s` reports the exception `e`. -/
structure Reports (P : Platform D) (s s' : Machine D) (e : Raised) : Prop where
  epc : s'.cpu.cp0.epc = e.epc
  bd : s'.cpu.cp0.cause.BD = e.bd
  excCode : s'.cpu.cp0.cause.ExcCode = e.exc.code.num
  badvaddr : s'.cpu.cp0.badvaddr = e.badvaddr ∨ LeftAccess P s s'.cpu.cp0.badvaddr
  vector : s'.cpu.pc = e.vector
  refill : s.cpu.cp0.status.EXL = false → s.cpu.cp0.status.BEV = false →
    e.exc.extra = .tlbRefill → s'.cpu.pc = 0x80000000 ∧
      s'.cpu.cp0.epc = (if s.cpu.isDelayslot then s.cpu.pc - 4 else s.cpu.pc) ∧
      s'.cpu.cp0.cause.BD = s.cpu.isDelayslot

/-- The iteration at `s` enters `raise_exception` at most once, and what it leaves behind is
    that of the first entry. -/
def OneExceptionAt (P : Platform D) (s : Machine D) : Prop :=
  (newRaised s (final (iteration P s))).length ≤ 1 ∧
  (isOk (iteration P s) = true → ∀ e, (newRaised s (final (iteration P s))).head? = some e →
    Reports P s (final (iteration P s)) e)

/-! ## States with one exception -/

/-- One exception `e` has been raised since `s` and is pending in `t`; `bad` is what the
    handler wrote to BadVAddr after it. -/
structure Pending (bad : Option Word) (s t : Machine D) (e : Raised) : Prop where
  raised : t.raised = s.raised ++ [e]
  hasException : t.cpu.hasException = true
  epc : t.cpu.cp0.epc = e.epc
  bd : t.cpu.cp0.cause.BD = e.bd
  excCode : t.cpu.cp0.cause.ExcCode = e.exc.code.num
  badvaddr : t.cpu.cp0.badvaddr = bad.getD e.badvaddr
  vector : t.cpu.brTarget = e.vector
  refill : s.cpu.cp0.status.EXL = false → s.cpu.cp0.status.BEV = false →
    e.exc.extra = .tlbRefill → e.vector = 0x80000000 ∧
      e.epc = (if s.cpu.isDelayslot then s.cpu.pc - 4 else s.cpu.pc) ∧ e.bd = s.cpu.isDelayslot

section Pending

variable {P : Platform D} (hx : P.cfg.exception = true)
include hx

/-- Raising from a state that agrees with `s` where `raise_exception` looks. -/
theorem pending_raise (ex : Exception) {s t : Machine D} (hr : t.raised = s.raised)
    (hp : t.cpu.pc = s.cpu.pc) (hd : t.cpu.isDelayslot = s.cpu.isDelayslot)
    (hs : t.cpu.cp0.status = s.cpu.cp0.status) :
    Pending none s (t.raise P ex) (Raised.of ex (t.cpu.raise P.cfg ex)) where
  raised := by rw [raised_raise, hr]
  hasException := rfl
  epc := rfl
  bd := rfl
  excCode := rfl
  badvaddr := rfl
  vector := rfl
  refill := by
    intro hl hb he
    have hds := delayslot_of_exception hx
    have hrec : t.cpu.recordsEpc P.cfg = true := by simp [CpuState.recordsEpc, hs, hl]
    have he' : ex.extra = .tlbRefill := he
    simp only [Raised.of, CpuState.raise, CpuState.vecOff, hrec, hds, hd, hp, hs, hb, he']
    simp

theorem pending_fault (f : TlbFault) (addr : Word) (s : Machine D) :
    ∃ e, Pending none s (s.fault P f addr) e := ⟨_, pending_raise hx _ rfl rfl rfl rfl⟩

end Pending

theorem Pending.access {bad : Option Word} {s t : Machine D} {e : Raised}
    (h : Pending bad s t e) (x : DevCtx D) (m : Memory) (mc : BitVec 12 → MmuCacheEntry) :
    Pending bad s (t.access x m mc) e :=
  ⟨h.raised, h.hasException, h.epc, h.bd, h.excCode, h.badvaddr, h.vector, h.refill⟩

theorem Pending.setRegs {bad : Option Word} {s t : Machine D} {e : Raised}
    (h : Pending bad s t e) (r : Regs) : Pending bad s (t.setRegs r) e :=
  ⟨h.raised, h.hasException, h.epc, h.bd, h.excCode, h.badvaddr, h.vector, h.refill⟩

theorem Pending.fixBadvaddr {s t : Machine D} {e : Raised} (h : Pending none s t e)
    (bad : Option Word) : Pending bad s (t.fixBadvaddr bad) e := by
  cases bad with
  | none => exact h
  | some a => exact ⟨h.raised, h.hasException, h.epc, h.bd, h.excCode, rfl, h.vector, h.refill⟩

theorem Pending.instEnd {bad : Option Word} {s t : Machine D} {e : Raised}
    (h : Pending bad s t e) : Pending bad s t.instEnd e := by
  unfold Machine.instEnd
  split <;>
    exact ⟨h.raised, h.hasException, h.epc, h.bd, h.excCode, h.badvaddr, h.vector, h.refill⟩

theorem Pending.withDc {bad : Option Word} {s t : Machine D} {e : Raised}
    (h : Pending bad s t e) (c : DecodeCache) : Pending bad s (t.withDc c) e :=
  ⟨h.raised, h.hasException, h.epc, h.bd, h.excCode, h.badvaddr, h.vector, h.refill⟩

theorem Pending.of_entered {P : Platform D} {bad : Option Word} {r s t : Machine D}
    {h : Handler} {o : Ops} {e : Raised} (hp : Pending bad s t e) (he : Entered P r h o s) :
    Pending bad r t e := by
  obtain ⟨x, mc, c, rfl⟩ := he.access
  exact ⟨hp.raised, hp.hasException, hp.epc, hp.bd, hp.excCode, hp.badvaddr, hp.vector,
    hp.refill⟩

/-! ## Bodies -/

/-- Both words of the doubleword fault, the second under the ASID left by the first. -/
def Body.FaultsTwice (P : Platform D) (b : Body) (t : Machine D) : Prop :=
  ∃ rw o f f', b.twoWords = some (rw, o) ∧ misaligned 8 (effAddr o t.cpu) = false ∧
    t.faultOf P rw (effAddr o t.cpu) = some f ∧
    P.translate (t.fault P f (effAddr o t.cpu)).toArch (effAddr o t.cpu + 4) rw = .fault f'

/-- The instruction entered at `s` faults in both of its accesses. -/
def DoubleFault (P : Platform D) (s : Machine D) : Prop :=
  ∃ h o t, Entered P s h o t ∧ (body P o h).FaultsTwice P t

/-- One exception is pending, and BadVAddr is its own or what the body wrote there. -/
def Body.PendsOne (b : Body) (s t : Machine D) : Prop :=
  ∃ bad e, (bad = none ∨ bad = b.badvaddr s.cpu) ∧ Pending bad s t e

/-- A result with at most one exception. -/
def Body.RaisesOnce (b : Body) (s : Machine D) : EStateM.Result Stop (Machine D) Unit → Prop
  | .ok _ t => t.raised = s.raised ∨ b.PendsOne s t
  | .error .exit t => b.PendsOne s t
  | .error .delayslot t => t.raised = s.raised
  | .error (.halt _) t => t.raised.length ≤ s.raised.length + 1

theorem Effect.raisesOnce {P : Platform D} (hx : P.cfg.exception = true) {b : Body}
    {s : Machine D} {r : EStateM.Result Stop (Machine D) Unit} (h : Effect P b s r) :
    b.RaisesOnce s r := by
  cases h with
  | plain h => exact .inl h.raised
  | annul r => exact .inl rfl
  | slot r t => exact rfl
  | eret => exact .inl (by unfold Machine.eret Machine.flush; rfl)
  | reject e bad hb => exact ⟨none, _, .inl rfl, pending_raise hx e rfl rfl rfl rfl⟩
  | raise e => exact .inr ⟨none, _, .inl rfl, pending_raise hx e rfl rfl rfl rfl⟩
  | fault f addr =>
    obtain ⟨e, he⟩ := pending_fault hx f addr s
    exact .inr ⟨_, e, .inr rfl, he.fixBadvaddr _⟩
  | halt why h => exact h

section Bodies

variable {P : Platform D} (hx : P.cfg.exception = true) {s : Machine D}
include hx

theorem run_raisesOnce (hs : s.cpu.hasException = false) {b : Body}
    (hb : b.isInvEnd = false) (hw : ¬ b.FaultsTwice P s) : b.RaisesOnce s (b.run P s) := by
  by_cases hr : b.Regular P s
  · exact (run_effect hx hs hr).raisesOnce hx
  obtain ⟨rt, rfl⟩ | ⟨o, f, rfl, hm, hf⟩ | ⟨rw, o, f, h2, hm, hf⟩ := irregular_cases hb hr
  · simp only [Body.run, cfc1Bad_apply hx]
    exact ⟨none, _, .inl rfl, pending_raise hx _ rfl rfl rfl rfl⟩
  · obtain ⟨e, he⟩ := pending_fault hx f (effAddr o s.cpu) s
    simp only [Body.run, ll_of_fault hx hm hf]
    exact .inr ⟨none, e, .inl rfl, he.setRegs _⟩
  · obtain ⟨e, he⟩ := pending_fault hx f (effAddr o s.cpu) s
    obtain ⟨f', hf', -⟩ | ⟨-, hq⟩ := run_of_firstFault hx h2 hm hf
    · exact absurd ⟨rw, o, f, f', h2, hm, hf, hf'⟩ hw
    · cases hr : b.run P s with
      | ok v t =>
        rw [hr] at hq
        obtain ⟨x, m, mc, rfl, -⟩ := hq
        exact .inr ⟨none, e, .inl rfl, he.access x m mc⟩
      | error e' t =>
        rw [hr] at hq
        obtain ⟨⟨why, rfl⟩, ht⟩ := hq
        change t.raised.length ≤ _
        rw [ht, he.raised, List.length_append, List.length_singleton]

end Bodies

/-- Only the left forms of the unaligned accesses rewrite BadVAddr. -/
theorem body_badvaddr (P : Platform D) (o : Ops) (h : Handler) (c : CpuState) :
    (body P o h).badvaddr c = if h = .lwl ∨ h = .swl then some (effAddr o c) else none := by
  cases h
  case inv => simp only [body, inv]; split <;> rfl
  case breakpoint => simp only [body, breakpoint]; split <;> rfl
  case cfc1 => simp only [body, cfc1]; split <;> rfl
  case srl => simp only [body, srl]; split <;> rfl
  case srlv => simp only [body, srlv]; split <;> rfl
  case mtc0 => simp only [body, mtc0]; split <;> rfl
  all_goals rfl

/-! ## Iterations -/

theorem Pending.reports {P : Platform D} {bad : Option Word} {s t : Machine D} {e : Raised}
    (h : Pending bad s t e) (hb : ∀ a, bad = some a → LeftAccess P s a) :
    Reports P s t.enterVector e where
  epc := h.epc
  bd := h.bd
  excCode := h.excCode
  badvaddr := by
    change t.cpu.cp0.badvaddr = e.badvaddr ∨ LeftAccess P s t.cpu.cp0.badvaddr
    rw [h.badvaddr]
    cases bad with
    | none => exact .inl rfl
    | some a => exact .inr (hb a rfl)
  vector := h.vector
  refill hl hv he := by
    obtain ⟨h1, h2, h3⟩ := h.refill hl hv he
    exact ⟨h.vector.trans h1, h.epc.trans h2, h.bd.trans h3⟩

theorem oneExceptionAt_of_eq {P : Platform D} {s s' : Machine D} {l : List Raised}
    (hi : iteration P s = .ok () s') (hl : newRaised s s' = l) (h1 : l.length ≤ 1)
    (hr : ∀ e, l = [e] → Reports P s s' e) : OneExceptionAt P s := by
  unfold OneExceptionAt
  rw [hi, final_ok, hl]
  refine ⟨h1, fun _ e he => hr e ?_⟩
  cases l with
  | nil => cases he
  | cons x l =>
    have hnil : l = [] := List.eq_nil_of_length_eq_zero (by rw [List.length_cons] at h1; omega)
    rw [List.head?_cons] at he
    rw [Option.some.inj he, hnil]

section Iterations

variable {P : Platform D} (hx : P.cfg.exception = true) {s t : Machine D}
include hx

theorem oneExceptionAt_of_pending {bad : Option Word} {e : Raised}
    (he : execInst P s = .ok () t) (hp : Pending bad s t e)
    (hb : ∀ a, bad = some a → LeftAccess P s a) : OneExceptionAt P s := by
  have hi : iteration P s = .ok () t.enterVector := by
    rw [iteration_apply hx, he]
    exact congrArg _ (if_pos hp.hasException)
  refine oneExceptionAt_of_eq hi (newRaised_of_eq (l := [e]) hp.raised) (by simp) fun e' h => ?_
  obtain rfl : e = e' := by simpa using h
  exact hp.reports hb

/-- An iteration whose instruction raised nothing can still take an interrupt. -/
theorem oneExceptionAt_of_quiet (he : execInst P s = .ok () t) (hr : t.raised = s.raised) :
    OneExceptionAt P s := by
  have hi : iteration P s = .ok () (t.settle P) := by rw [iteration_apply hx, he]
  have hnil : ∀ u : Machine D, u.raised = t.raised → newRaised s u = [] := fun u hu =>
    newRaised_of_eq (by rw [hu, hr, List.append_nil])
  unfold Machine.settle at hi
  split at hi
  · exact oneExceptionAt_of_eq hi (hnil t.enterVector rfl) (by simp) (by simp)
  · split at hi
    · refine oneExceptionAt_of_eq hi (newRaised_of_eq
        (by rw [raised_enterVector, raised_raise, raised_tick, hr])) (by simp) fun e h => ?_
      rw [List.singleton_inj] at h
      subst h
      exact ⟨rfl, rfl, rfl, .inl rfl, rfl, fun _ _ h => nomatch h⟩
    · exact oneExceptionAt_of_eq hi (hnil (t.tick P) (raised_tick P t)) (by simp) (by simp)

theorem oneExceptionAt_of_halt {why : Halt} (he : execInst P s = .error (.halt why) t)
    (hr : t.raised.length ≤ s.raised.length + 1) : OneExceptionAt P s := by
  have hi : iteration P s = .error (.halt why) t := by rw [iteration_apply hx, he]
  unfold OneExceptionAt
  rw [hi, final_error]
  refine ⟨?_, fun h => by cases h⟩
  rw [newRaised, List.length_drop]
  omega

theorem oneExceptionAt_of_entered {h : Handler} {o : Ops} (hf : Entered P s h o t)
    (hr : (body P o h).RaisesOnce t (exec P o h t)) : OneExceptionAt P s := by
  have he := execInst_of_entered hf
  unfold dispatch at he
  have hpend : ∀ {u v : Machine D}, (body P o h).PendsOne t u → execInst P s = .ok () v →
      (∀ bad e, Pending bad t u e → Pending bad t v e) → OneExceptionAt P s := by
    rintro u v ⟨bad, e, hb, hp⟩ he huv
    refine oneExceptionAt_of_pending hx he ((huv bad e hp).of_entered hf) fun a ha => ?_
    obtain rfl | rfl := hb
    · cases ha
    · rw [body_badvaddr] at ha
      split at ha
      · rename_i hh
        exact ⟨h, o, t, hf, hh, (Option.some.inj ha).symm⟩
      · cases ha
  cases hx' : exec P o h t with
  | ok a u =>
    rw [hx'] at hr
    simp only [hx'] at he
    obtain ⟨c, hc⟩ | ⟨v, hv, hvr⟩ := instEnd_cases hx h u
    · rw [hc] at he
      obtain hr | hr := hr
      · exact oneExceptionAt_of_quiet hx he (hr.trans hf.raised)
      · exact hpend hr he fun _ _ h => h.instEnd.withDc c
    · rw [hv] at he
      refine oneExceptionAt_of_halt hx he ?_
      rw [hvr, ← hf.raised]
      obtain hr | ⟨bad, e, -, hp⟩ := hr
      · rw [hr]
        exact Nat.le_succ _
      · rw [hp.raised, List.length_append, List.length_singleton]
  | error e u =>
    rw [hx'] at hr
    simp only [hx'] at he
    cases e with
    | exit => exact hpend hr he fun _ _ h => h
    | delayslot =>
      simp only [enterDelayslot_apply hx] at he
      exact oneExceptionAt_of_quiet hx he (hr.trans hf.raised)
    | halt why => exact oneExceptionAt_of_halt hx he (by rw [← hf.raised]; exact hr)

theorem oneExceptionAt_of_not_doubleFault (hs : s.cpu.hasException = false)
    (hn : ¬ DoubleFault P s) : OneExceptionAt P s := by
  obtain ⟨why, t, he, ht⟩ | ⟨-, he⟩ | ⟨-, f, c, he⟩ | ⟨h, o, t, hf⟩ := execInst_cases hx s
  · exact oneExceptionAt_of_halt hx he ht
  · exact oneExceptionAt_of_pending hx he (pending_raise hx _ rfl rfl rfl rfl) nofun
  · obtain ⟨e, hp⟩ := pending_fault hx f s.cpu.pc s.zeroGpr
    have hp : Pending none s (s.zeroGpr.fault P f s.cpu.pc) e :=
      ⟨hp.raised, hp.hasException, hp.epc, hp.bd, hp.excCode, hp.badvaddr, hp.vector, hp.refill⟩
    exact oneExceptionAt_of_pending hx he (hp.instEnd.withDc c) nofun
  · exact oneExceptionAt_of_entered hx hf (run_raisesOnce hx (hf.hasException.trans hs)
      (body_isInvEnd hx _ _) fun hw => hn ⟨h, o, t, hf, hw⟩)

/-- Two faults are two exceptions. -/
theorem not_oneExceptionAt_of_doubleFault (hi : DoubleFault P s) : ¬ OneExceptionAt P s := by
  obtain ⟨h, o, t, hf, rw, o', f, f', h2, hm, hff, hv⟩ := hi
  obtain ⟨f'', -, hr⟩ | ⟨hne, -⟩ := run_of_firstFault hx h2 hm hff
  · have he := execInst_of_entered hf
    unfold dispatch exec at he
    simp only [hr] at he
    have hlen : ∀ u : Machine D, u.raised.length = s.raised.length + 2 →
        final (iteration P s) = u → ¬ OneExceptionAt P s := by
      intro u hu hi ho
      have h1 := ho.1
      rw [hi, newRaised, List.length_drop, hu] at h1
      omega
    have h2' : ((t.fault P f (effAddr o' t.cpu)).fault P f'' (effAddr o' t.cpu + 4)).raised.length
        = s.raised.length + 2 := by
      simp [Machine.fault, raised_raise, hf.raised]
    have hex : ((t.fault P f (effAddr o' t.cpu)).fault P f'' (effAddr o' t.cpu + 4)).cpu.hasException :=
      hasException_fault _ _ _ _
    generalize (t.fault P f (effAddr o' t.cpu)).fault P f'' (effAddr o' t.cpu + 4) = w at he h2' hex
    obtain ⟨c, hc⟩ | ⟨v, hv, hvr⟩ := instEnd_cases hx h w
    · refine hlen (w.instEnd.withDc c).enterVector h2' ?_
      rw [iteration_apply hx, he, hc, final_ok]
      exact if_pos ((hasException_instEnd _).trans hex)
    · refine hlen v (by rw [hvr, h2']) ?_
      rw [iteration_apply hx, he, hv, final_error]
  · exact absurd hv (hne f')

/-- An iteration raises at most one exception, unless both words of an aligned doubleword
    access fault. -/
theorem oneExceptionAt_iff (hs : s.cpu.hasException = false) :
    OneExceptionAt P s ↔ ¬ DoubleFault P s :=
  ⟨fun h hi => not_oneExceptionAt_of_doubleFault hx hi h,
    oneExceptionAt_of_not_doubleFault hx hs⟩

end Iterations

/-- `ldc1 $f2, 0($3)` with an address that no TLB entry maps. -/
def ldc1Demo : Machine Unit := loaded [0xD4620000] [(3, 0x10000)]

theorem oneExceptionAt_iff_ldc1Demo :
    OneExceptionAt mips32r1 ldc1Demo ↔ ¬ DoubleFault mips32r1 ldc1Demo :=
  oneExceptionAt_iff rfl rfl

/-- The refill of the first word is overtaken by that of the second, which goes to the
    general vector. -/
theorem not_oneExceptionAt_ldc1Demo : ¬ OneExceptionAt mips32r1 ldc1Demo ∧
    (final (iteration mips32r1 ldc1Demo)).cpu.pc = 0x80000180 := by
  refine ⟨fun h => absurd h.1 (by decide +kernel), by decide +kernel⟩

end NemuMips32
