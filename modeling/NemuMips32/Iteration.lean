/-
  One iteration of `cpu_exec` with exceptions, as a function of its parts. The entry code
  ends the emulator, or its fetch faults and the word 0 it substitutes runs as a no-op, or it
  enters a handler having raised nothing (`makeEntry_cases`, `Entered`); what follows the
  handler (`Machine.instEnd`, `Machine.inSlot`) and the exception check (`Machine.settle`)
  are functions of the state.
-/
import NemuMips32.CpuExec
import NemuMips32.Exec.Effect

namespace NemuMips32

open StateExcept

variable {D : Type}

/-! ## After the handler -/

/-- `inst_end`. -/
def Machine.instEnd (s : Machine D) : Machine D :=
  { s with cpu :=
      if s.cpu.isDelayslot then { s.cpu with pc := s.cpu.brTarget, isDelayslot := false }
      else { s.cpu with pc := s.cpu.pc + 4 } }

/-- `prepare_delayslot`. -/
def Machine.inSlot (s : Machine D) : Machine D :=
  { s with cpu := { s.cpu with isDelayslot := true, pc := s.cpu.pc + 4 } }

/-- `cpu.has_exception = false; cpu.pc = cpu.br_target`. -/
def Machine.enterVector (s : Machine D) : Machine D :=
  { s with cpu := { s.cpu with hasException := false, pc := s.cpu.brTarget } }

/-- The timer part of `check_intrs`. -/
def Machine.tick (P : Platform D) (s : Machine D) : Machine D :=
  if P.cfg.intr then { s with cpu := { s.cpu with cp0 := s.cpu.cp0.tick } } else s

/-- The code at the label `check_exception`. -/
def Machine.settle (P : Platform D) (s : Machine D) : Machine D :=
  if s.cpu.hasException then s.enterVector
  else if (s.tick P).cpu.cp0.takesIntr then ((s.tick P).raise P ⟨.none, .INTR⟩).enterVector
  else s.tick P

theorem delayslot_of_exception {cfg : Config} (hx : cfg.exception = true) :
    cfg.delayslot = true := hx

@[simp] theorem hasException_tick (P : Platform D) (s : Machine D) :
    (s.tick P).cpu.hasException = s.cpu.hasException := by
  unfold Machine.tick
  split <;> rfl

@[simp] theorem raised_tick (P : Platform D) (s : Machine D) :
    (s.tick P).raised = s.raised := by
  unfold Machine.tick
  split <;> rfl

theorem dc_tick (P : Platform D) (s : Machine D) : (s.tick P).dc = s.dc := by
  unfold Machine.tick
  split <;> rfl

@[simp] theorem raised_enterVector (s : Machine D) : s.enterVector.raised = s.raised := rfl

@[simp] theorem raised_instEnd (s : Machine D) : s.instEnd.raised = s.raised := rfl

theorem raised_raise (P : Platform D) (e : Exception) (s : Machine D) :
    (s.raise P e).raised = s.raised ++ [Raised.of e (s.cpu.raise P.cfg e)] := rfl

@[simp] theorem toRegs_instEnd (s : Machine D) : s.instEnd.cpu.toRegs = s.cpu.toRegs := by
  unfold Machine.instEnd
  split <;> rfl

@[simp] theorem hasException_instEnd (s : Machine D) :
    s.instEnd.cpu.hasException = s.cpu.hasException := by
  unfold Machine.instEnd
  split <;> rfl

/-- The entries of `raise_exception` between two states. -/
def newRaised (s s' : Machine D) : List Raised := s'.raised.drop s.raised.length

theorem newRaised_of_eq {s t : Machine D} {l : List Raised} (h : t.raised = s.raised ++ l) :
    newRaised s t = l := by
  rw [newRaised, h, List.drop_left]

theorem checkIntrs_apply (P : Platform D) (s : Machine D) :
    checkIntrs P s =
      .ok () (if (s.tick P).cpu.cp0.takesIntr then (s.tick P).raise P ⟨.none, .INTR⟩
        else s.tick P) := by
  have hr : ∀ t : Machine D,
      (getCpu >>= fun c => if c.cp0.takesIntr then raiseException P ⟨.none, .INTR⟩ else pure ()) t =
        .ok () (if t.cpu.cp0.takesIntr then t.raise P ⟨.none, .INTR⟩ else t) := by
    intro t
    rw [bind_of_ok (getCpu_apply t)]
    split
    · rw [raiseException_apply P (by decide)]
    · rfl
  unfold checkIntrs Machine.tick
  cases P.cfg.intr with
  | true => exact hr _
  | false => exact hr s

theorem checkException_apply {P : Platform D} (hx : P.cfg.exception = true) (s : Machine D) :
    checkException P s = .ok () (s.settle P) := by
  unfold checkException Machine.settle
  simp only [hx, Bool.true_or, if_true]
  rw [bind_of_ok (getCpu_apply s)]
  cases he : s.cpu.hasException with
  | true =>
    simp only [if_true]
    rw [bind_of_ok (getCpu_apply s), he]
    rfl
  | false =>
    simp only [Bool.false_eq_true, if_false]
    rw [bind_of_ok (checkIntrs_apply P s), bind_of_ok (getCpu_apply _)]
    split
    · rfl
    · rw [hasException_tick, he]
      rfl

/-- The exception check after any loop body. -/
theorem bind_checkException {P : Platform D} (hx : P.cfg.exception = true) (m : Exec D Unit)
    (s : Machine D) :
    (m >>= fun _ => checkException P) s = match m s with
      | .ok _ t => .ok () (t.settle P)
      | .error e t => .error e t := by
  rw [bind_apply]
  cases m s with
  | ok a t => exact checkException_apply hx t
  | error e t => rfl

theorem iteration_apply {P : Platform D} (hx : P.cfg.exception = true) (s : Machine D) :
    iteration P s = match execInst P s with
      | .ok _ t => .ok () (t.settle P)
      | .error e t => .error e t :=
  bind_checkException hx (execInst P) s

/-! ## Entry -/

/-- `make_entry` clears register 0. -/
def Machine.zeroGpr (s : Machine D) : Machine D := s.setRegs (s.cpu.setGpr 0 0)

def Machine.withDc (c : DecodeCache) (s : Machine D) : Machine D := { s with dc := c }

/-- `make_entry` at `s` goes to handler `h` with operands `o`, having raised nothing, with
    the machine in state `t`. -/
structure Entered (P : Platform D) (s : Machine D) (h : Handler) (o : Ops) (t : Machine D) :
    Prop where
  aligned : s.cpu.pc &&& 3 = 0
  entry : makeEntry P s = .ok (h, o) t
  raised : t.raised = s.raised

theorem onDecodeCache_cases {α : Type} (f : DecodeCache → Option (α × DecodeCache))
    (s : Machine D) :
    (∃ a c, f s.dc = some (a, c) ∧ onDecodeCache f s = .ok a (s.withDc c)) ∨
      onDecodeCache f s = .error (.halt .undefined) s := by
  unfold onDecodeCache
  cases f s.dc with
  | none => exact .inr rfl
  | some r => exact .inl ⟨r.1, r.2, rfl, rfl⟩

/-- The operands of the word 0 in a decode state that was filled with it. -/
theorem fill_zero {c c' : DecodeCache} {o : Ops} (h : c.fill 0 = some (o, c')) :
    o.rs = 0 ∧ o.rt = 0 ∧ o.rd = 0 ∧ o.shamt = 0 := by
  unfold DecodeCache.fill at h
  split at h
  · cases h
  · simp only [Option.some.injEq, Prod.mk.injEq] at h
    obtain ⟨rfl, -⟩ := h
    exact ⟨rfl, rfl, rfl, rfl⟩

theorem fetchInst_cases (P : Platform D) (s : Machine D) :
    (∃ why t, fetchInst P s = .error (.halt why) t ∧ t.raised = s.raised) ∨
    (∃ f, fetchInst P s = .ok 0 (s.fault P f s.cpu.pc)) ∨
    (∃ w x mc, fetchInst P s = .ok w (s.access x s.ram mc)) := by
  unfold fetchInst
  rw [bind_of_ok (getCpu_apply s)]
  cases hf : s.faultOf P .load s.cpu.pc with
  | some f => exact .inr (.inl ⟨f, vaddrRead_of_fault hf 4⟩)
  | none =>
    have hq := vaddrRead_quiet hf 4
    cases hr : vaddrRead P s.cpu.pc 4 s with
    | ok w t =>
      rw [hr] at hq
      obtain ⟨x, m, mc, rfl, hm⟩ := hq
      obtain rfl := hm rfl
      exact .inr (.inr ⟨w, x, mc, rfl⟩)
    | error e t =>
      rw [hr] at hq
      obtain ⟨⟨why, rfl⟩, ht⟩ := hq
      exact .inl ⟨why, t, rfl, congrArg Arch.raised ht⟩

theorem makeEntryCached_cases (P : Platform D) (s : Machine D) :
    (∃ why t, makeEntryCached P s = .error (.halt why) t ∧
      t.raised.length ≤ s.raised.length + 1) ∨
    (∃ f o c, makeEntryCached P s = .ok (.sll, o) ((s.fault P f s.cpu.pc).withDc c) ∧
      o.rs = 0 ∧ o.rt = 0 ∧ o.rd = 0 ∧ o.shamt = 0) ∨
    (∃ h o x mc c, makeEntryCached P s = .ok (h, o) ((s.access x s.ram mc).withDc c)) := by
  unfold makeEntryCached
  obtain ⟨d, c, -, hd⟩ | hd := onDecodeCache_cases DecodeCache.follow s
  · rw [bind_of_ok hd]
    cases d with
    | some d =>
      cases hh : d.handler with
      | some h =>
        refine .inr (.inr ⟨h, d.ops, s.devCtx, s.mmuCache, c, ?_⟩)
        simp only [hh]
        rfl
      | none =>
        refine .inl ⟨.undefined, s.withDc c, ?_, Nat.le_succ _⟩
        simp only [hh]
        rfl
    | none =>
      obtain ⟨_, c1, -, hg⟩ | hg :=
        onDecodeCache_cases (fun c => c.grow (P.malloc c.brk)) (s.withDc c)
      · simp only [bind_of_ok hg]
        obtain ⟨why, t, ht, hr⟩ | ⟨f, hf⟩ | ⟨w, x, mc, hw⟩ :=
          fetchInst_cases P ((s.withDc c).withDc c1)
        · exact .inl ⟨why, t, bind_of_error ht _, by rw [hr]; exact Nat.le_succ _⟩
        · rw [bind_of_ok hf]
          obtain ⟨o, c2, ho, hl⟩ | hl := onDecodeCache_cases (fun c => c.fill 0)
            (((s.withDc c).withDc c1).fault P f s.cpu.pc)
          · exact .inr (.inl ⟨f, o, c2, bind_of_ok hl _, fill_zero ho⟩)
          · exact .inl ⟨_, _, bind_of_error hl _, by
              simp [Machine.fault, raised_raise, Machine.withDc]⟩
        · rw [bind_of_ok hw]
          obtain ⟨o, c2, -, hl⟩ | hl := onDecodeCache_cases (fun c => c.fill w)
            (((s.withDc c).withDc c1).access x s.ram mc)
          · exact .inr (.inr ⟨_, o, x, mc, c2, bind_of_ok hl _⟩)
          · exact .inl ⟨_, _, bind_of_error hl _, Nat.le_succ _⟩
      · exact .inl ⟨_, _, bind_of_error hg _, Nat.le_succ _⟩
  · exact .inl ⟨_, _, bind_of_error hd _, Nat.le_succ _⟩

/-- What the entry code can come to: it ends the emulator, its fetch faults and the word 0
    is entered, or it enters a handler having raised nothing. -/
theorem makeEntry_cases (P : Platform D) (s : Machine D) :
    (∃ why t, makeEntry P s = .error (.halt why) t ∧
      t.raised.length ≤ s.raised.length + 1) ∨
    (∃ f o c, makeEntry P s = .ok (.sll, o) ((s.zeroGpr.fault P f s.cpu.pc).withDc c) ∧
      o.rs = 0 ∧ o.rt = 0 ∧ o.rd = 0 ∧ o.shamt = 0) ∨
    (∃ h o x mc c, makeEntry P s = .ok (h, o) ((s.zeroGpr.access x s.ram mc).withDc c)) := by
  unfold makeEntry
  rw [bind_of_ok (modifyRegs_apply s _)]
  by_cases hd : P.cfg.decodeCache = true
  · rw [if_pos hd]
    exact makeEntryCached_cases P s.zeroGpr
  · rw [if_neg hd]
    obtain ⟨why, t, ht, hr⟩ | ⟨f, hf⟩ | ⟨w, x, mc, hw⟩ := fetchInst_cases P s.zeroGpr
    · exact .inl ⟨why, t, bind_of_error ht _, by rw [hr]; exact Nat.le_succ _⟩
    · exact .inr (.inl ⟨f, _, s.dc.clear, bind_of_ok hf _, rfl, rfl, rfl, rfl⟩)
    · exact .inr (.inr ⟨_, _, x, mc, s.dc, bind_of_ok hw _⟩)

theorem Entered.access {P : Platform D} {s t : Machine D} {h : Handler} {o : Ops}
    (he : Entered P s h o t) : ∃ x mc c, t = (s.zeroGpr.access x s.ram mc).withDc c := by
  have hr := he.raised
  obtain ⟨why, u, hu, -⟩ | ⟨f, o', c, hu, -⟩ | ⟨h', o', x, mc, c, hu⟩ := makeEntry_cases P s
  · rw [he.entry] at hu
    cases hu
  · rw [he.entry] at hu
    cases hu
    -- the fetch that faulted has raised something
    exact absurd hr (by simp [Machine.fault, raised_raise, Machine.withDc, Machine.zeroGpr,
      Machine.setRegs])
  · rw [he.entry] at hu
    cases hu
    exact ⟨x, mc, c, rfl⟩

theorem Entered.hasException {P : Platform D} {s t : Machine D} {h : Handler} {o : Ops}
    (he : Entered P s h o t) : t.cpu.hasException = s.cpu.hasException := by
  obtain ⟨x, mc, c, rfl⟩ := he.access
  rfl

/-- The entry code ran, and the record of exceptions did not grow. -/
theorem entered_of_returned {P : Platform D} {s : Machine D} {h : Handler} {o : Ops}
    (ha : s.cpu.pc &&& 3 = 0) (he : returned (makeEntry P s) = some (h, o))
    (hr : (final (makeEntry P s)).raised.length = s.raised.length) :
    Entered P s h o (final (makeEntry P s)) := by
  refine ⟨ha, eq_ok_of_returned he, ?_⟩
  obtain ⟨why, u, hu, -⟩ | ⟨f, o', c, hu, -⟩ | ⟨h', o', x, mc, c, hu⟩ := makeEntry_cases P s
  · rw [hu] at he
    cases he
  · rw [hu] at hr
    simp [Machine.fault, raised_raise, Machine.withDc, Machine.zeroGpr, Machine.setRegs] at hr
  · rw [hu]
    rfl

/-! ## Other handlers -/

section With

variable (P : Platform D) (run : Handler → Ops → Exec D Unit)

/-- `dispatch` with the handlers `run`. -/
def dispatchWith (h : Handler) (o : Ops) : Exec D Unit := fun s =>
  match run h o s with
  | .ok _ s => instEnd P h s
  | .error .exit s => .ok () s
  | .error .delayslot s => enterDelayslot P s
  | .error (.halt why) s => .error (.halt why) s

/-- `execInst` with the handlers `run`. -/
def execInstWith : Exec D Unit := do
  let pc := (← getCpu).pc
  if P.cfg.exception = true ∧ pc &&& 3 ≠ 0 then
    modifyCp0 fun c => { c with badvaddr := pc }
    raiseException P ⟨.none, .AdEL⟩
  else
    let (h, o) ← makeEntry P
    dispatchWith P run h o

/-- `iteration` with the handlers `run`. -/
def iterationWith : Exec D Unit := do
  execInstWith P run
  checkException P

/-- With the handlers of the source this is the loop of the source. -/
theorem iterationWith_exec : iterationWith P (fun h o => exec P o h) = iteration P := rfl

end With

/-! ## The loop body -/

section LoopBody

variable {P : Platform D} (hx : P.cfg.exception = true)
include hx

theorem execInst_of_misaligned {s : Machine D} (h : s.cpu.pc &&& 3 ≠ 0) :
    execInst P s = .ok () ((s.setBadvaddr s.cpu.pc).raise P ⟨.none, .AdEL⟩) := by
  unfold execInst
  rw [bind_of_ok (getCpu_apply s), if_pos ⟨hx, h⟩, bind_of_ok (modifyCp0_apply s _),
    raiseException_apply P (by decide)]
  rfl

omit hx in
theorem execInst_of_aligned {s : Machine D} (h : s.cpu.pc &&& 3 = 0) :
    execInst P s = (makeEntry P >>= fun x => dispatch P x.1 x.2) s := by
  unfold execInst
  rw [bind_of_ok (getCpu_apply s), if_neg (fun hc => hc.2 h)]

omit hx in
theorem execInstWith_of_entered (run : Handler → Ops → Exec D Unit) {s t : Machine D}
    {h : Handler} {o : Ops} (he : Entered P s h o t) :
    execInstWith P run s = dispatchWith P run h o t := by
  unfold execInstWith
  rw [bind_of_ok (getCpu_apply s), if_neg (fun hc => hc.2 he.aligned), bind_of_ok he.entry]

omit hx in
theorem execInst_of_entered {s t : Machine D} {h : Handler} {o : Ops}
    (he : Entered P s h o t) : execInst P s = dispatch P h o t :=
  execInstWith_of_entered (fun h o => exec P o h) he

/-- `inst_end` moves `pc`, and with a decode cache it may find a chain that was freed. -/
theorem instEnd_cases (h : Handler) (s : Machine D) :
    (∃ c, instEnd P h s = .ok () (s.instEnd.withDc c)) ∨
      ∃ t, instEnd P h s = .error (.halt .undefined) t ∧ t.raised = s.raised := by
  have hds := delayslot_of_exception hx
  unfold instEnd Machine.instEnd
  simp only [hds, if_true]
  rw [bind_of_ok (getCpu_apply s)]
  by_cases hi : s.cpu.isDelayslot = true
  · rw [if_pos hi, bind_of_ok (modifyCpu_apply s _)]
    cases P.cfg.decodeCache with
    | false => exact .inl ⟨s.dc, by rw [if_pos hi]; rfl⟩
    | true =>
      simp only [if_true, bind_of_ok (getCpu_apply _)]
      obtain ⟨_, c, -, hc⟩ | hc := onDecodeCache_cases
        (fun c => (c.fetch s.cpu.brTarget).map fun c => ((), c))
        { s with cpu := { s.cpu with pc := s.cpu.brTarget } }
      · exact .inl ⟨c, by rw [if_pos hi]; exact bind_of_ok hc _⟩
      · exact .inr ⟨_, bind_of_error hc _, rfl⟩
  · rw [if_neg hi, if_neg hi]
    exact .inl ⟨s.dc, rfl⟩

theorem instEnd_next (h : Handler) {s : Machine D} (hd : s.cpu.isDelayslot = false) :
    instEnd P h s = .ok () s.instEnd := by
  have hd' : ¬ s.cpu.isDelayslot = true := by simp [hd]
  unfold instEnd Machine.instEnd
  simp only [delayslot_of_exception hx, if_true]
  rw [bind_of_ok (getCpu_apply s), if_neg hd', if_neg hd']
  rfl

/-- At the end of a delay slot the decode cache looks up the target. -/
theorem instEnd_fetch (hc : P.cfg.decodeCache = true) (h : Handler) {s : Machine D}
    (hd : s.cpu.isDelayslot = true) {c : DecodeCache} (hf : s.dc.fetch s.cpu.brTarget = some c) :
    instEnd P h s = .ok () (s.instEnd.withDc c) := by
  have hon : decodeCacheFetch s.cpu.brTarget
      ({ s with cpu := { s.cpu with pc := s.cpu.brTarget } } : Machine D) =
      .ok () { s with cpu := { s.cpu with pc := s.cpu.brTarget }, dc := c } := by
    simp only [decodeCacheFetch, onDecodeCache, hf, Option.map_some]
  unfold instEnd Machine.instEnd
  simp only [delayslot_of_exception hx, hc, if_true]
  rw [bind_of_ok (getCpu_apply s), if_pos hd, if_pos hd, bind_of_ok (modifyCpu_apply s _),
    bind_of_ok (getCpu_apply _), bind_of_ok hon]
  rfl

theorem enterDelayslot_apply (s : Machine D) : enterDelayslot P s = .ok () s.inSlot := by
  have hds := delayslot_of_exception hx
  simp only [enterDelayslot, hds, if_true]
  rfl

omit hx in
/-- After a faulting fetch the word is 0, which runs as `sll $0, $0, 0`. -/
theorem exec_zero {s : Machine D} (h0 : s.cpu.gpr 0 = 0) {o : Ops}
    (ho : o.rs = 0 ∧ o.rt = 0 ∧ o.rd = 0 ∧ o.shamt = 0) : exec P o .sll s = .ok () s := by
  obtain ⟨h1, h2, h3, h4⟩ := ho
  have hr : s.cpu.setGpr 0 (s.cpu.gpr 0 <<< 0) = s.cpu.toRegs := by
    have : Function.update s.cpu.gpr 0 (s.cpu.gpr 0 <<< 0) = s.cpu.gpr := by
      rw [h0]
      exact Function.update_eq_self_iff.2 h0.symm
    rw [Regs.setGpr, this]
  have he : exec P o .sll s = .ok () (s.setRegs (s.cpu.setGpr 0 (s.cpu.gpr 0 <<< 0))) := by
    unfold exec body sll
    rw [h1, h2, h3, h4]
    rfl
  rw [he, hr]
  rfl

/-- The ways through the loop body up to the exception check. -/
theorem execInst_cases (s : Machine D) :
    (∃ why t, execInst P s = .error (.halt why) t ∧
      t.raised.length ≤ s.raised.length + 1) ∨
    (s.cpu.pc &&& 3 ≠ 0 ∧
      execInst P s = .ok () ((s.setBadvaddr s.cpu.pc).raise P ⟨.none, .AdEL⟩)) ∨
    (s.cpu.pc &&& 3 = 0 ∧ ∃ f c,
      execInst P s = .ok () ((s.zeroGpr.fault P f s.cpu.pc).instEnd.withDc c)) ∨
    ∃ h o t, Entered P s h o t := by
  by_cases ha : s.cpu.pc &&& 3 = 0
  · have he := execInst_of_aligned (P := P) ha
    obtain ⟨why, u, hu, hr⟩ | ⟨f, o, c, hu, ho⟩ | ⟨h, o, x, mc, c, hu⟩ := makeEntry_cases P s
    · exact .inl ⟨why, u, by rw [he, bind_of_error hu], hr⟩
    · have h0 : ((s.zeroGpr.fault P f s.cpu.pc).withDc c).cpu.gpr 0 = 0 :=
        (gpr_setGpr s.cpu.toRegs 0 0 0).trans (if_pos rfl)
      rw [bind_of_ok hu] at he
      unfold dispatch at he
      simp only [exec_zero (P := P) h0 ho] at he
      obtain ⟨c', hc⟩ | ⟨t, ht, hr⟩ := instEnd_cases hx .sll
        ((s.zeroGpr.fault P f s.cpu.pc).withDc c)
      · exact .inr (.inr (.inl ⟨ha, f, c', he.trans hc⟩))
      · refine .inl ⟨_, t, he.trans ht, ?_⟩
        rw [hr]
        simp [Machine.fault, raised_raise, Machine.withDc, Machine.zeroGpr, Machine.setRegs]
    · exact .inr (.inr (.inr ⟨h, o, _, ha, hu, rfl⟩))
  · exact .inr (.inl ⟨ha, execInst_of_misaligned hx ha⟩)

end LoopBody

/-! ## Without a decode cache -/

theorem dispatchWith_apply {P : Platform D} (hx : P.cfg.exception = true)
    (hd : P.cfg.decodeCache = false) (run : Handler → Ops → Exec D Unit) (h : Handler) (o : Ops)
    (s : Machine D) :
    dispatchWith P run h o s = match run h o s with
      | .ok _ t => .ok () t.instEnd
      | .error .exit t => .ok () t
      | .error .delayslot t => .ok () t.inSlot
      | .error (.halt why) t => .error (.halt why) t := by
  have hds := delayslot_of_exception hx
  have he : ∀ t : Machine D, NemuMips32.instEnd P h t = .ok () t.instEnd := by
    intro t
    unfold NemuMips32.instEnd Machine.instEnd
    simp only [hds, hd, if_true]
    rw [bind_of_ok (getCpu_apply t)]
    by_cases hi : t.cpu.isDelayslot = true
    · rw [if_pos hi, if_pos hi]
      rfl
    · rw [if_neg hi, if_neg hi]
      rfl
  unfold dispatchWith
  cases run h o s with
  | ok a t => exact he t
  | error e t => cases e <;> first | rfl | exact enterDelayslot_apply hx t

theorem dispatch_apply {P : Platform D} (hx : P.cfg.exception = true)
    (hd : P.cfg.decodeCache = false) (h : Handler) (o : Ops) (s : Machine D) :
    dispatch P h o s = match exec P o h s with
      | .ok _ t => .ok () t.instEnd
      | .error .exit t => .ok () t
      | .error .delayslot t => .ok () t.inSlot
      | .error (.halt why) t => .error (.halt why) t :=
  dispatchWith_apply hx hd (fun h o => exec P o h) h o s

/-! ## Iterations that raise nothing -/

theorem cp0_instEnd (s : Machine D) : s.instEnd.cpu.cp0 = s.cpu.cp0 := by
  unfold Machine.instEnd
  split <;> rfl

@[simp] theorem isDelayslot_instEnd (s : Machine D) : s.instEnd.cpu.isDelayslot = false := by
  unfold Machine.instEnd
  split
  · rfl
  · exact Bool.eq_false_iff.2 ‹_›

@[simp] theorem isDelayslot_tick (P : Platform D) (s : Machine D) :
    (s.tick P).cpu.isDelayslot = s.cpu.isDelayslot := by
  unfold Machine.tick
  split <;> rfl

@[simp] theorem pc_tick (P : Platform D) (s : Machine D) :
    (s.tick P).cpu.pc = s.cpu.pc := by
  unfold Machine.tick
  split <;> rfl

theorem pc_instEnd_of_not_slot {s : Machine D} (h : s.cpu.isDelayslot = false) :
    s.instEnd.cpu.pc = s.cpu.pc + 4 := by
  unfold Machine.instEnd
  rw [if_neg (by simp [h])]

theorem pc_instEnd_of_slot {s : Machine D} (h : s.cpu.isDelayslot = true) :
    s.instEnd.cpu.pc = s.cpu.brTarget := by
  unfold Machine.instEnd
  rw [if_pos h]

section Quietly

variable {P : Platform D}

/-- Without an exception the check moves nothing but the timer. -/
theorem settle_of_newRaised {s t : Machine D} (ht : t.cpu.hasException = false)
    (hr : t.raised = s.raised) (hn : newRaised s (t.settle P) = []) :
    t.settle P = t.tick P := by
  unfold Machine.settle at hn ⊢
  rw [if_neg (by simp [ht])] at hn ⊢
  split at hn
  · rw [newRaised_of_eq (by rw [raised_enterVector, raised_raise, raised_tick, hr])] at hn
    cases hn
  · rw [if_neg ‹_›]

theorem newRaised_of_raises {s t : Machine D} (h : Raises s t) :
    newRaised s (t.settle P) ≠ [] := by
  obtain ⟨he, l, hl, hr⟩ := h
  unfold Machine.settle
  rw [if_pos he]
  exact fun hn => hl ((newRaised_of_eq (t := t.enterVector) hr).symm.trans hn)

theorem Entered.unique {s t t' : Machine D} {h h' : Handler} {o o' : Ops}
    (he : Entered P s h o t) (he' : Entered P s h' o' t') : h = h' ∧ o = o' ∧ t = t' := by
  have := he.entry.symm.trans he'.entry
  cases this
  exact ⟨rfl, rfl, rfl⟩

theorem Entered.cpu {s t : Machine D} {h : Handler} {o : Ops} (he : Entered P s h o t) :
    t.cpu.pc = s.cpu.pc ∧ t.cpu.isDelayslot = s.cpu.isDelayslot ∧
      t.cpu.cp0.status = s.cpu.cp0.status := by
  obtain ⟨x, mc, c, rfl⟩ := he.access
  exact ⟨rfl, rfl, rfl⟩

theorem iteration_of_slot (hx : P.cfg.exception = true) {s t u : Machine D} {h : Handler}
    {o : Ops} (hf : Entered P s h o t) (hr : exec P o h t = .error .delayslot u) :
    iteration P s = .ok () (u.inSlot.settle P) := by
  rw [iteration_apply hx, execInst_of_entered hf]
  unfold dispatch
  simp only [hr, enterDelayslot_apply hx]

section

variable (hx : P.cfg.exception = true) {s s' t u : Machine D} {h : Handler} {o : Ops}
  (hs : s.cpu.hasException = false) (hf : Entered P s h o t)
  (hi : iteration P s = .ok () s') (hn : newRaised s s' = [])
include hx hs hf hi hn

/-- A handler that asked for its slot, in an iteration that raises nothing. -/
theorem iteration_slot (hr : exec P o h t = .error .delayslot u) : s' = u.inSlot.tick P := by
  have hst := run_stopsBy hx (hf.hasException.trans hs) (body_isInvEnd hx o h)
  change StopsBy P _ t (exec P o h t) at hst
  rw [hr] at hst
  obtain ⟨-, r, a, rfl⟩ := hst
  rw [iteration_of_slot hx hf hr] at hi
  cases hi
  have hexc : (t.branchTo r a).inSlot.cpu.hasException = false := hf.hasException.trans hs
  exact settle_of_newRaised hexc hf.raised hn

omit hs in
/-- A handler that fell off its end, in an iteration that raises nothing. -/
theorem iteration_end (hr : exec P o h t = .ok () u)
    (he : u.cpu.hasException = false) (hu : u.raised = t.raised) :
    ∃ c, s' = (u.instEnd.withDc c).tick P := by
  rw [iteration_apply hx, execInst_of_entered hf] at hi
  unfold dispatch at hi
  simp only [hr] at hi
  obtain ⟨c, hc⟩ | ⟨v, hv, -⟩ := instEnd_cases hx h u
  · rw [hc] at hi
    cases hi
    have hexc : (u.instEnd.withDc c).cpu.hasException = false :=
      (hasException_instEnd u).trans he
    exact ⟨c, settle_of_newRaised hexc (hu.trans hf.raised) hn⟩
  · rw [hv] at hi
    cases hi

/-- An instruction that is no transfer and raises nothing runs to its end, and `inst_end` and
    the timer follow. -/
theorem iteration_plain (ht : (body P o h).transfers = false) :
    ∃ u c, Plain t u ∧ s' = (u.instEnd.withDc c).tick P := by
  have hst := run_stopsBy hx (hf.hasException.trans hs) (body_isInvEnd hx o h)
  change StopsBy P _ t (exec P o h t) at hst
  have hi' := hi
  rw [iteration_apply hx, execInst_of_entered hf] at hi'
  unfold dispatch at hi'
  cases hr : exec P o h t with
  | ok a u =>
    obtain hp | ⟨hp, -⟩ := run_plain_or_raises hx (hf.hasException.trans hs)
      (body_isInvEnd hx o h) ht hr
    · obtain ⟨c, hc⟩ := iteration_end hx hf hi hn hr
        (hp.hasException.trans (hf.hasException.trans hs)) hp.raised
      exact ⟨u, c, hp, hc⟩
    · simp only [hr] at hi'
      obtain ⟨c, hc⟩ | ⟨v, hv, -⟩ := instEnd_cases hx h u
      · rw [hc] at hi'
        cases hi'
        refine absurd hn (newRaised_of_raises ?_)
        obtain ⟨he, l, hl, hr'⟩ := hp.of_raised hf.raised
        exact ⟨(hasException_instEnd u).trans he, l, hl, hr'⟩
      · rw [hv] at hi'
        cases hi'
  | error e u =>
    simp only [hr] at hst hi'
    cases e with
    | exit =>
      obtain ⟨-, r, bad, e, rfl⟩ := hst
      cases hi'
      exact absurd hn (newRaised_of_raises ((raises_raise e _).of_raised hf.raised))
    | delayslot => exact absurd (ht.symm.trans hst.1) (by decide)
    | halt why => cases hi'

end

end Quietly

end NemuMips32
