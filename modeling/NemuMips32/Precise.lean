/-
  Precise exceptions. An iteration that raises a synchronous exception should leave the
  registers, RAM and the TLB as they were (`Unchanged`), so that the instruction can be
  restarted. The main result says exactly when it does: always, but for three instructions
  that write after their own fault (`Imprecise`):

  * `ll` writes its destination without looking at `has_exception`, with the 0 that the
    black hole returns;
  * `cfc1` clears its destination before it rejects control register 0;
  * `sdc1` goes on to its second store after the first has faulted. The fault has moved
    EntryHi.ASID to that of a global entry, under which an earlier entry may match.
-/
import NemuMips32.Iteration
import NemuMips32.Board

namespace NemuMips32

open StateExcept

variable {D : Type}

/-! ## What must not change -/

/-- Equal up to the registers that an exception writes: BadVAddr, Context.BadVPN2, EntryHi,
    Status.EXL, Cause and EPC. -/
def Cp0.SameButException (c c' : Cp0) : Prop :=
  c' = { c with
    badvaddr := c'.badvaddr
    context := { c.context with BadVPN2 := c'.context.BadVPN2 }
    entryHi := c'.entryHi
    status := { c.status with EXL := c'.status.EXL }
    cause := c'.cause
    epc := c'.epc }

/-- Only `pc`, `is_delayslot`, `br_target` and the exception registers of CP0 may differ. -/
structure Unchanged (s s' : Machine D) : Prop where
  gpr : ∀ r ≠ 0, s'.cpu.gpr r = s.cpu.gpr r
  hi : s'.cpu.hi = s.cpu.hi
  lo : s'.cpu.lo = s.cpu.lo
  fpr : s'.cpu.fpr32i = s.cpu.fpr32i
  fcsr : s'.cpu.fcsr = s.cpu.fcsr
  ram : s'.ram = s.ram
  tlb : s'.tlb = s.tlb
  cp0 : s.cpu.cp0.SameButException s'.cpu.cp0

theorem Cp0.SameButException.trans {c c' c'' : Cp0} (h : c.SameButException c')
    (h' : c'.SameButException c'') : c.SameButException c'' := by
  unfold Cp0.SameButException at *
  rw [h']
  generalize c'' = d at *
  rw [h]

theorem Unchanged.trans {s t u : Machine D} (h : Unchanged s t) (h' : Unchanged t u) :
    Unchanged s u where
  gpr r hr := (h'.gpr r hr).trans (h.gpr r hr)
  hi := h'.hi.trans h.hi
  lo := h'.lo.trans h.lo
  fpr := h'.fpr.trans h.fpr
  fcsr := h'.fcsr.trans h.fcsr
  ram := h'.ram.trans h.ram
  tlb := h'.tlb.trans h.tlb
  cp0 := h.cp0.trans h'.cp0

/-- A state with the same registers, RAM and TLB. -/
theorem unchanged_of_eq {s s' : Machine D} (hr : s'.cpu.toRegs = s.cpu.toRegs)
    (hm : s'.ram = s.ram) (ht : s'.tlb = s.tlb)
    (hc : s.cpu.cp0.SameButException s'.cpu.cp0) : Unchanged s s' where
  gpr r _ := by rw [hr]
  hi := by rw [hr]
  lo := by rw [hr]
  fpr := by rw [hr]
  fcsr := by rw [hr]
  ram := hm
  tlb := ht
  cp0 := hc

theorem unchanged_zeroGpr (s : Machine D) : Unchanged s s.zeroGpr where
  gpr r hr := by
    change (s.cpu.setGpr 0 0).gpr r = s.cpu.gpr r
    rw [gpr_setGpr, if_neg hr]
  hi := rfl
  lo := rfl
  fpr := rfl
  fcsr := rfl
  ram := rfl
  tlb := rfl
  cp0 := rfl

theorem unchanged_raise (P : Platform D) (e : Exception) (s : Machine D) :
    Unchanged s (s.raise P e) := unchanged_of_eq rfl rfl rfl rfl

theorem unchanged_setBadvaddr (a : Word) (s : Machine D) : Unchanged s (s.setBadvaddr a) :=
  unchanged_of_eq rfl rfl rfl rfl

theorem unchanged_fixBadvaddr (a : Option Word) (s : Machine D) :
    Unchanged s (s.fixBadvaddr a) := by
  cases a with
  | none => exact unchanged_of_eq rfl rfl rfl rfl
  | some a => exact unchanged_setBadvaddr a s

theorem unchanged_fault (P : Platform D) (f : TlbFault) (addr : Word) (s : Machine D) :
    Unchanged s (s.fault P f addr) := unchanged_of_eq rfl rfl rfl rfl

theorem unchanged_instEnd (s : Machine D) : Unchanged s s.instEnd := by
  unfold Machine.instEnd
  split <;> exact unchanged_of_eq rfl rfl rfl rfl

theorem unchanged_settle (P : Platform D) {s : Machine D} (h : s.cpu.hasException = true) :
    Unchanged s (s.settle P) := by
  rw [Machine.settle, if_pos h]
  exact unchanged_of_eq rfl rfl rfl rfl

theorem Entered.unchanged {P : Platform D} {s t : Machine D} {h : Handler} {o : Ops}
    (he : Entered P s h o t) : Unchanged s t := by
  obtain ⟨x, mc, c, rfl⟩ := he.access
  exact (unchanged_zeroGpr s).trans (unchanged_of_eq rfl rfl rfl rfl)

/-! ## Synchronous exceptions -/

/-- An exception other than an interrupt was raised between two states. -/
def Synchronous (s s' : Machine D) : Prop := ∃ r ∈ newRaised s s', r.exc.code ≠ .INTR

/-- If the iteration at `s` raises a synchronous exception, it changes nothing else. -/
def PreciseAt (P : Platform D) (s : Machine D) : Prop :=
  ∀ s', iteration P s = .ok () s' → Synchronous s s' → Unchanged s s'

/-- Without an exception of the instruction's own, only an interrupt can be raised. -/
theorem not_synchronous_settle (P : Platform D) {s t : Machine D} (hr : t.raised = s.raised) :
    ¬ Synchronous s (t.settle P) := by
  rintro ⟨r, hm, hc⟩
  have hnil : ∀ u : Machine D, u.raised = t.raised → newRaised s u = [] := fun u hu =>
    newRaised_of_eq (by rw [hu, hr, List.append_nil])
  unfold Machine.settle at hm
  split at hm
  · simp [hnil t.enterVector rfl] at hm
  · split at hm
    · rw [newRaised_of_eq (by rw [raised_enterVector, raised_raise, raised_tick, hr])] at hm
      obtain rfl := List.mem_singleton.1 hm
      exact hc rfl
    · simp [hnil (t.tick P) (raised_tick P t)] at hm

/-- A state with a pending exception, reached by changing nothing else. -/
structure Faulted (s t : Machine D) : Prop where
  unchanged : Unchanged s t
  pending : t.cpu.hasException = true

theorem Faulted.settle {P : Platform D} {s t : Machine D} (h : Faulted s t) :
    Unchanged s (t.settle P) := h.unchanged.trans (unchanged_settle P h.pending)

theorem Faulted.of_unchanged {r s t : Machine D} (h : Faulted s t) (hr : Unchanged r s) :
    Faulted r t := ⟨hr.trans h.unchanged, h.pending⟩

theorem Faulted.instEnd {s t : Machine D} (h : Faulted s t) : Faulted s t.instEnd where
  unchanged := h.unchanged.trans (unchanged_instEnd t)
  pending := by
    unfold Machine.instEnd
    split <;> exact h.pending

/-! ## Instructions that write after their own fault -/

/-- RAM after a device write; `none` if the device ends the emulator. -/
def Platform.ramAfter (P : Platform D) (a : Arch D) (paddr : Word) (len : Nat) (data : Word) :
    Option Memory :=
  (P.findDevice paddr).bind fun dev =>
    match dev.name.ram with
    | some r =>
      if checkIoaddr (paddr - dev.start) len r.size then
        some (a.ram.store r (paddr - dev.start) len data)
      else none
    | none =>
      if dev.name = .blackhole then some a.ram
      else
        (P.mmio.write dev.name).bind fun f =>
          match f (paddr - dev.start) len data a.devCtx a.ram with
          | .ok (_, m) => some m
          | .error _ => none

/-- The body at `t` writes a register or RAM after its own fault. -/
def Body.WritesAfterFault (P : Platform D) (b : Body) (t : Machine D) : Prop :=
  match b with
  | .cfc1Bad rt => rt ≠ 0 ∧ t.cpu.gpr rt ≠ 0
  | .ll o =>
    misaligned 4 (effAddr o t.cpu) = false ∧
      (t.faultOf P .load (effAddr o t.cpu)).isSome = true ∧ o.rt ≠ 0 ∧ t.cpu.gpr o.rt ≠ 0
  | .sdc1 o =>
    misaligned 8 (effAddr o t.cpu) = false ∧ ∃ f p d m,
      t.faultOf P .store (effAddr o t.cpu) = some f ∧
      P.translate (t.fault P f (effAddr o t.cpu)).toArch (effAddr o t.cpu + 4) .store = .ok p d ∧
      P.ramAfter (t.fault P f (effAddr o t.cpu)).toArch p 4 (t.cpu.fpr32i (oddReg o.ft)) = some m ∧
      m ≠ t.ram
  | _ => False

/-- The instruction entered at `s` writes a register or RAM after its own fault. -/
def Imprecise (P : Platform D) (s : Machine D) : Prop :=
  ∃ h o t, Entered P s h o t ∧ (body P o h).WritesAfterFault P t

/-! ## Bodies -/

/-- After a fault a store raises nothing more or faults again, and its effect on RAM is that
    of the device. -/
theorem writePaddr_pending (P : Platform D) {s : Machine D} (he : s.cpu.hasException = true)
    (addr paddr : Word) (len : Nat) (data : Word) :
    (∃ x m, P.ramAfter s.toArch paddr len data = some m ∧
      writePaddr P addr paddr len data s = .ok () (s.access x m s.mmuCache)) ∨
    (P.ramAfter s.toArch paddr len data = none ∧
      ∃ why, writePaddr P addr paddr len data s = .error (.halt why) s) := by
  unfold writePaddr Platform.ramAfter
  cases P.findDevice paddr with
  | none => exact .inr ⟨rfl, _, rfl⟩
  | some dev =>
    simp only [Option.bind_some, Platform.devWrite]
    cases hr : dev.name.ram with
    | some r =>
      simp only [bind_of_ok (updateMmuCache_of_exception he addr paddr dev true), ramWrite]
      by_cases hc : checkIoaddr (paddr - dev.start) len r.size = true
      · simp only [hc, if_true]
        exact .inl ⟨s.devCtx, _, rfl, rfl⟩
      · simp only [hc]
        exact .inr ⟨rfl, _, rfl⟩
    | none =>
      by_cases hb : dev.name = .blackhole
      · simp only [hb, if_true, bind_of_ok (updateMmuCache_of_exception he addr paddr dev true)]
        exact .inl ⟨s.devCtx, _, rfl, rfl⟩
      · simp only [hb, if_false]
        cases P.mmio.write dev.name with
        | none => exact .inr ⟨rfl, _, rfl⟩
        | some f =>
          simp only [Option.map_some, Option.bind_some,
            bind_of_ok (updateMmuCache_of_exception he addr paddr dev true), mmioWrite]
          cases f (paddr - dev.start) len data s.devCtx s.ram with
          | ok r => exact .inl ⟨r.1, r.2, rfl, rfl⟩
          | error h => exact .inr ⟨rfl, _, rfl⟩

theorem faulted_fault (P : Platform D) (f : TlbFault) (a : Word) (s : Machine D) :
    Faulted s (s.fault P f a) := ⟨unchanged_fault P f a s, rfl⟩

theorem faulted_access {s t : Machine D} (h : Faulted s t) (x : DevCtx D)
    (mc : BitVec 12 → MmuCacheEntry) : Faulted s (t.access x t.ram mc) :=
  ⟨h.unchanged.trans (unchanged_of_eq rfl rfl rfl rfl), h.pending⟩

theorem setGpr_zero_eq {r : Regs} {i : BitVec 5} (h : r.gpr i = 0) : r.setGpr i 0 = r := by
  rw [Regs.setGpr, Function.update_eq_self_iff.2 h.symm]

theorem setGpr_self (r : Regs) (i : BitVec 5) (v : Word) : (r.setGpr i v).gpr i = v := by
  rw [gpr_setGpr, if_pos rfl]

theorem unchanged_setGpr (s : Machine D) {i : BitVec 5} (h : i ≠ 0 → s.cpu.gpr i = 0) :
    Unchanged s (s.setRegs (s.cpu.setGpr i 0)) := by
  by_cases hi : i = 0
  · subst hi
    exact unchanged_zeroGpr s
  · rw [setGpr_zero_eq (h hi)]
    exact unchanged_of_eq rfl rfl rfl rfl

/-- What a body leaves behind is restartable, or raised nothing. -/
def Restartable (s : Machine D) : EStateM.Result Stop (Machine D) Unit → Prop
  | .ok _ t => t.raised = s.raised ∨ Faulted s t
  | .error .exit t => Faulted s t
  | .error .delayslot t => t.raised = s.raised
  | .error (.halt _) _ => True

theorem Effect.restartable {P : Platform D} {b : Body} {s : Machine D}
    {r : EStateM.Result Stop (Machine D) Unit} (h : Effect P b s r) : Restartable s r := by
  cases h with
  | plain h => exact .inl h.raised
  | annul r => exact .inl rfl
  | slot r t => exact rfl
  | eret => exact .inl (by unfold Machine.eret Machine.flush; rfl)
  | reject e bad hb =>
    exact ⟨(unchanged_setBadvaddr bad s).trans (unchanged_raise P e _), rfl⟩
  | raise e => exact .inr ⟨unchanged_raise P e s, rfl⟩
  | fault f addr =>
    refine .inr ⟨(unchanged_fault P f addr s).trans (unchanged_fixBadvaddr _ _), ?_⟩
    cases b.badvaddr s.cpu <;> rfl
  | halt why h => trivial

section Bodies

variable {P : Platform D} (hx : P.cfg.exception = true) {s : Machine D}
include hx

theorem cfc1Bad_restartable {rt : BitVec 5} (hw : ¬ (Body.cfc1Bad rt).WritesAfterFault P s) :
    Restartable s (cfc1Bad P rt s) := by
  have h0 : rt ≠ 0 → s.cpu.gpr rt = 0 := fun hrt => by_contra fun h => hw ⟨hrt, h⟩
  rw [cfc1Bad_apply hx]
  exact ⟨(unchanged_setGpr s h0).trans
    ((unchanged_setBadvaddr _ _).trans (unchanged_raise P _ _)), rfl⟩

theorem ll_restartable {o : Ops} (hm : misaligned 4 (effAddr o s.cpu) = false) {f : TlbFault}
    (hf : s.faultOf P .load (effAddr o s.cpu) = some f)
    (hw : ¬ (Body.ll o).WritesAfterFault P s) : Restartable s (ll P o s) := by
  have h0 : o.rt ≠ 0 → s.cpu.gpr o.rt = 0 := fun hrt =>
    by_contra fun h => hw ⟨hm, by rw [hf]; rfl, hrt, h⟩
  rw [ll_of_fault hx hm hf]
  exact .inr ⟨(unchanged_fault P f _ s).trans (unchanged_setGpr _ h0), rfl⟩

/-- A doubleword access that changed RAM after its first fault is an `sdc1` whose second
    store went through. -/
theorem writesAfterFault_of_ram {b : Body} {rw : Access} {o : Ops}
    (h2 : b.twoWords = some (rw, o)) (hm : misaligned 8 (effAddr o s.cpu) = false)
    {f : TlbFault} (hf : s.faultOf P rw (effAddr o s.cpu) = some f) {x : DevCtx D} {m : Memory}
    {mc : BitVec 12 → MmuCacheEntry}
    (hr : b.run P s = .ok () ((s.fault P f (effAddr o s.cpu)).access x m mc))
    (hload : rw = .load → m = s.ram) (hne : m ≠ s.ram) : b.WritesAfterFault P s := by
  cases b with
  | ldc1 o' =>
    cases h2
    exact absurd (hload rfl) hne
  | sdc1 o' =>
    cases h2
    simp only [Body.run, sdc1_of_fault hx hm hf, vaddrWrite_eq,
      if_neg (not_cached_fault P f _ s .store _)] at hr
    cases hv : P.translate (s.fault P f (effAddr o s.cpu)).toArch (effAddr o s.cpu + 4)
        .store with
    | ok p d =>
      obtain ⟨x', m', hm', hr'⟩ | ⟨-, why, hr'⟩ := writePaddr_pending P
        (hasException_fault P f (effAddr o s.cpu) s) (effAddr o s.cpu + 4) p 4
        (s.cpu.fpr32i (oddReg o.ft))
      · simp only [hv, hr'] at hr
        have : m' = m := congrArg (fun r => (final r).ram) hr
        exact ⟨hm, f, p, d, m, hf, hv, this ▸ hm', hne⟩
      · simp only [hv, hr'] at hr
        cases hr
    | fault f' =>
      simp only [hv] at hr
      exact absurd (congrArg (fun r => (final r).ram) hr).symm hne
    | abort why =>
      simp only [hv] at hr
      cases hr
  | _ => cases h2

theorem run_restartable (hs : s.cpu.hasException = false) {b : Body}
    (hb : b.isInvEnd = false) (hw : ¬ b.WritesAfterFault P s) :
    Restartable s (b.run P s) := by
  by_cases hr : b.Regular P s
  · exact (run_effect hx hs hr).restartable
  obtain ⟨rt, rfl⟩ | ⟨o, f, rfl, hm, hf⟩ | ⟨rw, o, f, h2, hm, hf⟩ := irregular_cases hb hr
  · exact cfc1Bad_restartable hx hw
  · exact ll_restartable hx hm hf hw
  · have h1 := faulted_fault P f (effAddr o s.cpu) s
    obtain ⟨f', -, hr⟩ | ⟨-, hq⟩ := run_of_firstFault hx h2 hm hf
    · rw [hr]
      exact .inr ⟨h1.unchanged.trans (unchanged_fault ..), rfl⟩
    · cases hr : b.run P s with
      | ok v t =>
        rw [hr] at hq
        obtain ⟨x, m, mc, rfl, hload⟩ := hq
        have hram : m = s.ram := by
          by_contra hne
          exact hw (writesAfterFault_of_ram hx h2 hm hf hr hload hne)
        subst hram
        exact .inr (faulted_access h1 x mc)
      | error e t =>
        rw [hr] at hq
        obtain ⟨⟨why, rfl⟩, -⟩ := hq
        trivial

end Bodies

/-! ## Iterations -/

/-- A result of the loop body before the exception check. -/
theorem unchanged_of_execInst {P : Platform D} (hx : P.cfg.exception = true) {s t : Machine D}
    (he : execInst P s = .ok () t) (ht : t.raised = s.raised ∨ Faulted s t) {s' : Machine D}
    (hi : iteration P s = .ok () s') (hs : Synchronous s s') : Unchanged s s' := by
  rw [iteration_apply hx, he] at hi
  cases hi
  obtain ht | ht := ht
  · exact absurd hs (not_synchronous_settle P ht)
  · exact ht.settle

section Iterations

variable {P : Platform D} (hx : P.cfg.exception = true)
include hx

theorem dispatch_restartable {t : Machine D} {h : Handler} {o : Ops}
    (hr : Restartable t (exec P o h t)) :
    (∃ why u, dispatch P h o t = .error (.halt why) u) ∨
      ∃ u, dispatch P h o t = .ok () u ∧ (u.raised = t.raised ∨ Faulted t u) := by
  unfold dispatch
  cases he : exec P o h t with
  | ok a u =>
    rw [he] at hr
    obtain ⟨c, hc⟩ | ⟨v, hv, -⟩ := instEnd_cases hx h u
    · refine .inr ⟨_, hc, hr.imp id fun hu => ?_⟩
      exact ⟨hu.instEnd.unchanged.trans (unchanged_of_eq rfl rfl rfl rfl), hu.instEnd.pending⟩
    · exact .inl ⟨_, v, hv⟩
  | error e u =>
    rw [he] at hr
    cases e with
    | exit => exact .inr ⟨u, rfl, .inr hr⟩
    | delayslot => exact .inr ⟨_, enterDelayslot_apply hx u, .inl hr⟩
    | halt why => exact .inl ⟨why, u, rfl⟩

theorem preciseAt_of_not_imprecise {s : Machine D} (hs : s.cpu.hasException = false)
    (hn : ¬ Imprecise P s) : PreciseAt P s := by
  intro s' hi hsync
  obtain ⟨why, t, he, -⟩ | ⟨-, he⟩ | ⟨-, f, c, he⟩ | ⟨h, o, t, hf⟩ := execInst_cases hx s
  · rw [iteration_apply hx, he] at hi
    cases hi
  · refine unchanged_of_execInst hx he (.inr ⟨?_, rfl⟩) hi hsync
    exact (unchanged_setBadvaddr _ s).trans (unchanged_raise P _ _)
  · refine unchanged_of_execInst hx he (.inr ?_) hi hsync
    have h1 := (faulted_fault P f s.cpu.pc s.zeroGpr).instEnd
    exact ⟨(unchanged_zeroGpr s).trans (h1.unchanged.trans (unchanged_of_eq rfl rfl rfl rfl)),
      h1.pending⟩
  · have hr := run_restartable hx (hf.hasException.trans hs) (body_isInvEnd hx o h)
      fun hw => hn ⟨h, o, t, hf, hw⟩
    obtain ⟨why, u, he⟩ | ⟨u, he, hu⟩ := dispatch_restartable hx hr
    · rw [iteration_apply hx, execInst_of_entered hf, he] at hi
      cases hi
    · refine unchanged_of_execInst hx ((execInst_of_entered hf).trans he) ?_ hi hsync
      exact hu.imp (·.trans hf.raised) (·.of_unchanged hf.unchanged)

/-- A synchronous exception that left something changed. -/
theorem not_preciseAt {s t u : Machine D} {h : Handler} {o : Ops} (hf : Entered P s h o t)
    (hu : dispatch P h o t = .ok () u) (he : u.cpu.hasException = true) {r : Raised}
    (hr : u.raised = t.raised ++ [r]) (hc : r.exc.code ≠ .INTR)
    (hn : ¬ Unchanged s u.enterVector) : ¬ PreciseAt P s := by
  intro h
  have hs : u.settle P = u.enterVector := if_pos he
  refine hn (h _ ?_ ⟨r, ?_, hc⟩)
  · rw [iteration_apply hx, execInst_of_entered hf, hu]
    exact congrArg _ hs
  · rw [newRaised_of_eq (l := [r]) (by rw [raised_enterVector, hr, hf.raised])]
    exact List.mem_singleton_self r

variable (hd : P.cfg.decodeCache = false)
include hd

theorem not_preciseAt_of_imprecise {s : Machine D} (hi : Imprecise P s) : ¬ PreciseAt P s := by
  obtain ⟨h, o, t, hf, hw⟩ := hi
  have hd' := dispatch_apply hx hd h o t
  unfold exec at hd'
  generalize body P o h = b at hw hd'
  cases b with
  | cfc1Bad rt =>
    obtain ⟨hrt, h0⟩ := hw
    simp only [Body.run, cfc1Bad_apply hx] at hd'
    refine not_preciseAt hx hf hd' rfl (raised_raise ..) (fun h => ExcCode.noConfusion h) fun hu => h0 ?_
    exact (hf.unchanged.gpr rt hrt).trans ((hu.gpr rt hrt).symm.trans (setGpr_self ..))
  | ll o =>
    obtain ⟨hm, hs, hrt, h0⟩ := hw
    obtain ⟨f, hff⟩ := Option.isSome_iff_exists.1 hs
    simp only [Body.run, ll_of_fault hx hm hff] at hd'
    refine not_preciseAt hx hf hd' (hasException_instEnd _) (raised_raise ..)
      (faultOf_code hff) fun hu => h0 ?_
    have hg := hu.gpr o.rt hrt
    change (Machine.instEnd _).cpu.gpr o.rt = s.cpu.gpr o.rt at hg
    rw [toRegs_instEnd] at hg
    exact (hf.unchanged.gpr o.rt hrt).trans (hg.symm.trans (setGpr_self ..))
  | sdc1 o =>
    obtain ⟨hm, f, p, d, m, hff, hv, hm', hne⟩ := hw
    obtain ⟨x, m', hr', hr⟩ | ⟨hr', -⟩ := writePaddr_pending P
      (hasException_fault P f (effAddr o t.cpu) t) (effAddr o t.cpu + 4) p 4
      (t.cpu.fpr32i (oddReg o.ft))
    · obtain rfl : m = m' := Option.some.inj (hm'.symm.trans hr')
      simp only [Body.run, sdc1_of_fault hx hm hff, vaddrWrite_eq,
        if_neg (not_cached_fault P f _ t .store _), hv, hr] at hd'
      refine not_preciseAt hx hf hd' (hasException_instEnd _) (raised_raise ..)
        (faultOf_code hff) fun hu => hne ?_
      exact hu.ram.trans hf.unchanged.ram.symm
    · rw [hm'] at hr'
      cases hr'
  | _ => exact hw.elim

/-- Exceptions are precise except where the instruction writes after its own fault. -/
theorem preciseAt_iff {s : Machine D} (hs : s.cpu.hasException = false) :
    PreciseAt P s ↔ ¬ Imprecise P s :=
  ⟨fun h hi => not_preciseAt_of_imprecise hx hd hi h, preciseAt_of_not_imprecise hx hs⟩

end Iterations

/-- `ll $2, 0($3)` with an address that no TLB entry maps. -/
def llDemo : Machine Unit := loaded [0xC0620000] [(2, 7), (3, 0x10000)]

theorem preciseAt_iff_llDemo : PreciseAt mips32r1 llDemo ↔ ¬ Imprecise mips32r1 llDemo :=
  preciseAt_iff rfl rfl rfl

/-- The faulting `ll` overwrites register 2 with 0. -/
theorem not_preciseAt_llDemo : ¬ PreciseAt mips32r1 llDemo := by
  intro h
  have hi : isOk (iteration mips32r1 llDemo) = true := by decide +kernel
  have hs : ∃ r ∈ newRaised llDemo (final (iteration mips32r1 llDemo)),
      r.exc.code ≠ .INTR := by decide +kernel
  have hg := (h _ (eq_ok_of_isOk hi) hs).gpr 2 (by decide)
  exact absurd hg (by decide +kernel)

end NemuMips32
