/-
  The vCont packet of the GDB stub (`gdb_vCont_handler`): continue and single step.

  A run that stops at a planted BREAK has executed it, so `inst_end` has moved `pc` on, and the
  stub steps it back by 4. That undoes `inst_end` exactly if it advanced `pc` by 4: a BREAK in
  a delay slot leaves `pc` at the branch target, and the stub reports the word before that
  (`vCont_stop_address`).
-/
import NemuMips32.Gdb
import NemuMips32.Iteration
import NemuMips32.Board

namespace NemuMips32

open StateExcept

variable {D : Type}

/-! ## The handler -/

/-- A device callback run from a signal handler. -/
def onDevices (f : DevCtx D → DevCtx D) : Exec D Unit :=
  modifyArch fun a => a.putDev (f a.devCtx)

/-- The loop of `cpu_exec`, with the device callbacks that run before each iteration. -/
def loopWith (P : Platform D) (cb : Nat → DevCtx D → DevCtx D) : Nat → Exec D Unit
  | 0 => pure ()
  | n + 1 => do
    onDevices (cb n)
    iteration P
    if (← get).nemuState = .running then loopWith P cb n

/-- `cpu_exec`, with device callbacks. -/
def cpuExecWith (P : Platform D) (cb : Nat → DevCtx D → DevCtx D) (n : Nat) : Exec D Unit := do
  if (← get).nemuState = .ended then return
  enterLoop P
  loopWith P cb n
  if (← get).nemuState = .running then setNemuState .stop

/-- Without callbacks this is `cpu_exec`. -/
theorem cpuExecWith_id (P : Platform D) (n : Nat) :
    cpuExecWith P (fun _ x => x) n = cpuExec P n := by
  have hloop : loopWith P (fun _ x => x) n = loop P n := by
    induction n with
    | zero => rfl
    | succ n ih =>
      unfold loopWith loop
      rw [ih]
      rfl
  unfold cpuExecWith cpuExec
  rw [hloop]

/-- The encoding of ERET. -/
def eretWord : Word := 0x42000018

/-- `case 'c'`. The argument of `cpu_exec` is unsigned. -/
def vContContinue (P : Platform D) (cb : Nat → DevCtx D → DevCtx D) : Exec D Unit := do
  let instr ← dbgVaddrRead P (← getCpu).pc 4
  let ninstr ← dbgVaddrRead P ((← getCpu).pc + 4) 4
  if instr = eretWord ∧ ninstr = breakWord then
    cpuExecWith P cb 1
  else
    cpuExecWith P cb (2 ^ 64 - 1)
    modifyCpu fun c => { c with pc := c.pc - 4 }

/-- The `switch` over actions. -/
def vContAction (P : Platform D) (cb : Nat → DevCtx D → DevCtx D) (action : Char) :
    Exec D Unit :=
  if action = 'c' then vContContinue P cb
  else if action = 's' then cpuExecWith P cb 1
  else pure ()

/-- The actions of the packet: the character after each semicolon. At the end of the string
    `sscanf` fails and `action` keeps its value. -/
def vContActions (action : Char) : List Char → List Char
  | [] => []
  | c :: cs =>
    if c = ';' then cs.headD action :: vContActions (cs.headD action) cs
    else vContActions action cs

def vContRun (P : Platform D) (cb : Nat → DevCtx D → DevCtx D) : List Char → Exec D Unit
  | [] => pure ()
  | a :: as => do
    vContAction P cb a
    vContRun P cb as

/-- `gdb_vCont_handler`. -/
def gdbVContHandler (P : Platform D) (cb : Nat → DevCtx D → DevCtx D) (args : List Char) :
    Exec D (Option String) := do
  if args = ['?'] then
    return some "vCont;c;C;s;S"
  else if args.head? = some ';' then
    vContRun P cb (vContActions '\x00' args)
    return some "T05thread:01;"
  else
    return none

/-! ## Where a run stops -/

/-- The loop stops with the iteration from `l` to `u`: it is the first that leaves the
    emulator in another state than running. -/
inductive LastIteration (P : Platform D) (cb : Nat → DevCtx D → DevCtx D) :
    Nat → Machine D → Machine D → Machine D → Prop where
  | last {n s l u} (hc : onDevices (cb n) s = .ok () l) (hi : iteration P l = .ok () u)
    (hu : u.nemuState ≠ .running) : LastIteration P cb (n + 1) s l u
  | next {n s s' t l u} (hc : onDevices (cb n) s = .ok () s') (hi : iteration P s' = .ok () t)
    (ht : t.nemuState = .running) (h : LastIteration P cb n t l u) :
    LastIteration P cb (n + 1) s l u

theorem loopWith_of_last {P : Platform D} {cb : Nat → DevCtx D → DevCtx D} {n : Nat}
    {s l u : Machine D} (h : LastIteration P cb n s l u) :
    loopWith P cb n s = .ok () u ∧ iteration P l = .ok () u ∧ u.nemuState ≠ .running := by
  induction h with
  | last hc hi hu =>
    refine ⟨?_, hi, hu⟩
    unfold loopWith
    rw [bind_of_ok hc, bind_of_ok hi, bind_of_ok (get_apply _), if_neg hu]
    rfl
  | next hc hi ht _ ih =>
    refine ⟨?_, ih.2⟩
    unfold loopWith
    rw [bind_of_ok hc, bind_of_ok hi, bind_of_ok (get_apply _), if_pos ht]
    exact ih.1

/-- The stub runs `cpu_exec(-1)` from `s`, and enters the loop in state `s'`. -/
def Continues (P : Platform D) (s s' : Machine D) : Prop :=
  ∃ instr ninstr s₁ s₂, dbgVaddrRead P s.cpu.pc 4 s = .ok instr s₁ ∧
    dbgVaddrRead P (s₁.cpu.pc + 4) 4 s₁ = .ok ninstr s₂ ∧
    ¬ (instr = eretWord ∧ ninstr = breakWord) ∧ s₂.nemuState ≠ .ended ∧
    enterLoop P s₂ = .ok () s'

/-- The run stops because the iteration from `l` to `u` executed a BREAK at `a`, taking neither
    an exception nor an interrupt. -/
structure StopsAt (P : Platform D) (cb : Nat → DevCtx D → DevCtx D) (s : Machine D) (a : Word)
    (l u : Machine D) : Prop where
  run : ∃ s', Continues P s s' ∧ LastIteration P cb (2 ^ 64 - 1) s' l u
  pc : l.cpu.pc = a
  entry : (returned (makeEntry P l)).map Prod.fst = some .breakpoint
  hasException : l.cpu.hasException = false
  raised : u.raised = l.raised

/-- The branch target takes the place of the next instruction. -/
def InSlot (P : Platform D) (l : Machine D) : Prop :=
  P.cfg.delayslot = true ∧ l.cpu.isDelayslot = true

instance (P : Platform D) (l : Machine D) : Decidable (InSlot P l) :=
  inferInstanceAs (Decidable (_ ∧ _))

section Last

variable {P : Platform D} (hg : P.cfg.workMode = .gdb) {l u : Machine D}
  (he : (returned (makeEntry P l)).map Prod.fst = some .breakpoint)

include he in
theorem makeEntry_breakpoint :
    ∃ o x mc c, makeEntry P l = .ok (.breakpoint, o) ((l.zeroGpr.access x l.ram mc).withDc c) := by
  obtain ⟨why, t, ht, -⟩ | ⟨f, o, c, ht, -⟩ | ⟨h, o, x, mc, c, ht⟩ := makeEntry_cases P l
  · rw [ht] at he
    cases he
  · rw [ht] at he
    cases he
  · rw [ht] at he
    obtain rfl : h = .breakpoint := Option.some.inj he
    exact ⟨o, x, mc, c, ht⟩

include hg in
/-- BREAK under the debugger stops the emulator. -/
theorem exec_breakpoint (o : Ops) (t : Machine D) :
    exec P o .breakpoint t = .ok () { t with nemuState := .stop } := by
  have hb : body P o .breakpoint = .gdbStop := if_pos hg
  unfold exec
  rw [hb]
  rfl

include hg he in
theorem pc_after_break (hi : iteration P l = .ok () u) (hx : l.cpu.hasException = false)
    (hr : u.raised = l.raised) :
    u.cpu.pc = if InSlot P l then l.cpu.brTarget else l.cpu.pc + 4 := by
  obtain ⟨o, x, mc, c, ht⟩ := makeEntry_breakpoint he
  by_cases hexc : P.cfg.exception = true
  · have hal : l.cpu.pc &&& 3 = 0 := by
      by_contra hmis
      have hne : newRaised l u ≠ [] := by
        rw [iteration_apply hexc, execInst_of_misaligned hexc hmis] at hi
        cases hi
        exact newRaised_of_raises ((raises_raise _ _).of_raised rfl)
      exact hne (newRaised_of_eq (by rw [hr, List.append_nil]))
    obtain ⟨c', rfl⟩ := iteration_end hexc ⟨hal, ht, rfl⟩ hi
      (newRaised_of_eq (by rw [hr, List.append_nil])) (exec_breakpoint hg o _) hx rfl
    rw [pc_tick]
    by_cases hs : l.cpu.isDelayslot = true
    · rw [if_pos ⟨hexc, hs⟩]
      exact pc_instEnd_of_slot hs
    · rw [if_neg fun h => hs h.2]
      exact pc_instEnd_of_not_slot (Bool.eq_false_iff.2 hs)
  · -- the bench build has neither delay slots nor exceptions
    have hbench : P.cfg.march = .bench := by simpa [Config.exception] using hexc
    have hds : P.cfg.delayslot = false := by simp [Config.delayslot, hbench]
    have hin : P.cfg.intr = false := by simp [Config.intr, hbench]
    rw [if_neg fun h => Bool.false_ne_true (hds.symm.trans h.1)]
    have hexec : execInst P l = dispatch P .breakpoint o ((l.zeroGpr.access x l.ram mc).withDc c) := by
      unfold execInst
      rw [bind_of_ok (getCpu_apply l), if_neg fun h => hexc h.1, bind_of_ok ht]
    unfold iteration at hi
    rw [bind_apply, hexec] at hi
    unfold dispatch at hi
    rw [exec_breakpoint hg] at hi
    simp only [instEnd, hds, checkException, hin] at hi
    rw [Bool.eq_false_iff.2 hexc] at hi
    cases hi
    rfl

end Last

/-- What the stub leaves in the program counter. -/
theorem vCont_pc {P : Platform D} (hg : P.cfg.workMode = .gdb) {cb : Nat → DevCtx D → DevCtx D}
    {s l u : Machine D} {a : Word} (h : StopsAt P cb s a l u) :
    ∃ t, gdbVContHandler P cb [';', 'c'] s = .ok (some "T05thread:01;") t ∧
      t.cpu.pc = (if InSlot P l then l.cpu.brTarget else a + 4) - 4 := by
  obtain ⟨s', ⟨instr, ninstr, s₁, s₂, h1, h2, hne, hend, henter⟩, hlast⟩ := h.run
  obtain ⟨hloop, hi, hu⟩ := loopWith_of_last hlast
  have hexec : cpuExecWith P cb (2 ^ 64 - 1) s₂ = .ok () u := by
    unfold cpuExecWith
    rw [bind_of_ok (get_apply s₂), if_neg hend, bind_of_ok henter, bind_of_ok hloop,
      bind_of_ok (get_apply u), if_neg hu]
    rfl
  have hcont : vContContinue P cb s =
      .ok () { u with cpu := { u.cpu with pc := u.cpu.pc - 4 } } := by
    unfold vContContinue
    rw [bind_of_ok (getCpu_apply s), bind_of_ok h1, bind_of_ok (getCpu_apply s₁), bind_of_ok h2,
      if_neg hne, bind_of_ok hexec]
    rfl
  refine ⟨_, bind_of_ok (bind_of_ok hcont _) _, ?_⟩
  have hpc := pc_after_break hg h.entry hi h.hasException h.raised
  rw [h.pc] at hpc
  exact congrArg (· - 4) hpc

/-- On return from `vCont;c` the program counter is at the BREAK that stopped the run, unless
    that BREAK is in the delay slot of a branch to another address than the next. -/
theorem vCont_stop_address {P : Platform D} (hg : P.cfg.workMode = .gdb)
    {cb : Nat → DevCtx D → DevCtx D} {s l u : Machine D} {a : Word} (h : StopsAt P cb s a l u) :
    ∃ t, gdbVContHandler P cb [';', 'c'] s = .ok (some "T05thread:01;") t ∧
      (t.cpu.pc = a ↔ ¬ (InSlot P l ∧ l.cpu.brTarget ≠ a + 4)) := by
  obtain ⟨t, ht, hpc⟩ := vCont_pc hg h
  refine ⟨t, ht, ?_⟩
  rw [hpc]
  by_cases hs : InSlot P l
  · rw [if_pos hs, BitVec.sub_eq_iff_eq_add]
    simp [hs]
  · rw [if_neg hs]
    simp [hs]

/-- `mips32r1_defconfig` under the debugger. -/
def underGdb : Platform Unit := ramPlatform { buildOf .mips32R1 false false with workMode := .gdb }

/-- No device calls back. -/
def noCallbacks (_ : Nat) (x : DevCtx Unit) : DevCtx Unit := x

/-- The instruction `w`, with a BREAK planted behind it. -/
def plantedAfter (w : Word) : Machine Unit := loaded [w, breakWord] []

/-- The machine as it is about to execute the BREAK. -/
def atBreak (w : Word) : Machine Unit :=
  final (iteration underGdb (final (enterLoop underGdb (plantedAfter w))))

theorem stopsAt_atBreak {w : Word}
    (h1 : dbgVaddrRead underGdb 0x80001000 4 (plantedAfter w) = .ok w (plantedAfter w))
    (h2 : dbgVaddrRead underGdb 0x80001004 4 (plantedAfter w) = .ok breakWord (plantedAfter w))
    (hw : w ≠ eretWord)
    (hfirst : isOk (iteration underGdb (final (enterLoop underGdb (plantedAfter w)))) = true)
    (hrun : (atBreak w).nemuState = .running ∧ (atBreak w).cpu.pc = 0x80001004 ∧
      (atBreak w).cpu.hasException = false ∧ (atBreak w).raised.length = 0)
    (hentry : (returned (makeEntry underGdb (atBreak w))).map Prod.fst = some .breakpoint)
    (hlast : isOk (iteration underGdb (atBreak w)) = true)
    (hstop : (final (iteration underGdb (atBreak w))).nemuState ≠ .running ∧
      (final (iteration underGdb (atBreak w))).raised.length = 0) :
    StopsAt underGdb noCallbacks (plantedAfter w) 0x80001004 (atBreak w)
      (final (iteration underGdb (atBreak w))) where
  run := by
    refine ⟨final (enterLoop underGdb (plantedAfter w)), ⟨w, breakWord, plantedAfter w,
      plantedAfter w, h1, h2, fun h => hw h.1, NemuState.noConfusion, rfl⟩, ?_⟩
    have hn : (2 ^ 64 - 1 : Nat) = 18446744073709551613 + 1 + 1 := rfl
    rw [hn]
    exact .next rfl (eq_ok_of_isOk hfirst) hrun.1 (.last rfl (eq_ok_of_isOk hlast) hstop.1)
  pc := hrun.2.1
  entry := hentry
  hasException := hrun.2.2.1
  raised := by rw [List.eq_nil_of_length_eq_zero hrun.2.2.2, List.eq_nil_of_length_eq_zero hstop.2]

/-- A BREAK behind a `nop`. -/
theorem vCont_stop_address_plain :
    ∃ t, gdbVContHandler underGdb noCallbacks [';', 'c'] (plantedAfter 0) =
        .ok (some "T05thread:01;") t ∧
      (t.cpu.pc = 0x80001004 ↔
        ¬ (InSlot underGdb (atBreak 0) ∧ (atBreak 0).cpu.brTarget ≠ 0x80001004 + 4)) := by
  refine vCont_stop_address rfl (u := final (iteration underGdb (atBreak 0)))
    (stopsAt_atBreak rfl rfl ?_ ?_ ?_ ?_ ?_ ?_)
  all_goals decide +kernel

/-- A BREAK in the delay slot of `beq $0, $0, 3`: the stub reports 0x8000100c. -/
theorem vCont_stop_address_slot :
    ¬ ∀ (s l u : Machine Unit) (a : Word), StopsAt underGdb noCallbacks s a l u →
      ∀ r t, gdbVContHandler underGdb noCallbacks [';', 'c'] s = .ok r t → t.cpu.pc = a := by
  intro h
  have hs : StopsAt underGdb noCallbacks (plantedAfter 0x10000003) 0x80001004
      (atBreak 0x10000003) (final (iteration underGdb (atBreak 0x10000003))) := by
    refine stopsAt_atBreak rfl rfl ?_ ?_ ?_ ?_ ?_ ?_
    all_goals decide +kernel
  obtain ⟨t, ht, hpc⟩ := vCont_pc rfl hs
  have hslot : InSlot underGdb (atBreak 0x10000003) ∧
      (atBreak 0x10000003).cpu.brTarget = 0x80001010 := by decide +kernel
  rw [if_pos hslot.1, hslot.2, h _ _ _ _ hs _ t ht] at hpc
  exact absurd hpc (by decide)

end NemuMips32
