/-
  Interrupt transparency. An interrupt that `check_intrs` takes after an instruction, a
  handler that changes nothing but the interrupt lines and the timer, and its `eret` bring
  the program back to where it was (`Resumes`); if the interrupted instruction was a branch
  with its slot still to come, Cause.BD is set and the branch is executed once more. Entering
  the handler flushes the MMU cache, so where the branch had come through an entry that a `tlbr`
  had left stale, another instruction is found at EPC.

  The second execution of a branch finds the link register already written. The handlers
  read their sources after the link, so both executions read the same registers, and no
  instruction has to be excluded.
-/
import NemuMips32.Exec.Simulation
import NemuMips32.Branching
import NemuMips32.MmuTransparency

namespace NemuMips32

open StateExcept

variable {D : Type}

/-! ## Interruption and resumption -/

/-- The registers are equal, apart from register 0, which every fetch clears. -/
def SameRegs (r r' : Regs) : Prop := r.setGpr 0 0 = r'.setGpr 0 0

/-- `t` is where the program was in `s`. -/
structure Resumes (s t : Machine D) : Prop where
  pc : t.cpu.pc = s.cpu.pc
  isDelayslot : t.cpu.isDelayslot = s.cpu.isDelayslot
  brTarget : s.cpu.isDelayslot = true → t.cpu.brTarget = s.cpu.brTarget
  regs : SameRegs t.cpu.toRegs s.cpu.toRegs
  ram : t.ram = s.ram
  tlb : t.tlb = s.tlb

/-- A handler entered in `s` has come to `t` without changing anything but the interrupt
    lines, the timer and what the devices keep. -/
structure Handled (s t : Machine D) : Prop where
  regs : SameRegs t.cpu.toRegs s.cpu.toRegs
  cp0 : ∃ ip count compare,
    t.cpu.cp0 = { s.cpu.cp0.setIP ip with count := count, compare := compare }
  isDelayslot : t.cpu.isDelayslot = s.cpu.isDelayslot
  hasException : t.cpu.hasException = false
  ram : t.ram = s.ram
  tlb : t.tlb = s.tlb

/-- The word at `pc` comes from RAM. -/
def FetchesRam (P : Platform D) (s : Machine D) : Prop :=
  ∃ p d dev r, P.translate s.toArch s.cpu.pc .load = .ok p d ∧ P.findDevice p = some dev ∧
    dev.name.ram = some r

/-! ## Taking the interrupt -/

/-- The machine at the vector, after the instruction has left it in `s`. -/
structure Interrupted (s t : Machine D) : Prop where
  epc : t.cpu.cp0.epc = if s.cpu.isDelayslot then s.cpu.pc - 4 else s.cpu.pc
  bd : t.cpu.cp0.cause.BD = s.cpu.isDelayslot
  isDelayslot : t.cpu.isDelayslot = false
  regs : t.cpu.toRegs = s.cpu.toRegs
  ram : t.ram = s.ram
  mapping : SameMapping s.toArch t.toArch
  erl : s.cpu.cp0.status.ERL = false

theorem tick_of_intr {P : Platform D} (hi : P.cfg.intr = true) (s : Machine D) :
    s.tick P = { s with cpu := { s.cpu with cp0 := s.cpu.cp0.tick } } := by
  unfold Machine.tick
  rw [if_pos hi]

theorem tick_status (c : Cp0) : c.tick.status = c.status := by
  unfold Cp0.tick
  simp only
  split <;> rfl

/-- `raise_exception` with EXL clear. -/
theorem raise_of_recordsEpc {cfg : Config} (hds : cfg.delayslot = true) {c : CpuState}
    (hr : c.recordsEpc cfg = true) (e : Exception) :
    (c.raise cfg e).cp0.epc = (if c.isDelayslot then c.pc - 4 else c.pc) ∧
      (c.raise cfg e).cp0.cause.BD = c.isDelayslot ∧ (c.raise cfg e).isDelayslot = false := by
  unfold CpuState.raise
  rw [hr, hds]
  cases c.isDelayslot <;> exact ⟨rfl, rfl, rfl⟩

theorem interrupted {P : Platform D} (hm : P.cfg.march = .mips32R1) {s : Machine D}
    (he : s.cpu.hasException = false) (ht : s.cpu.cp0.tick.takesIntr = true) :
    Interrupted s (s.settle P) := by
  have hintr : P.cfg.intr = true := by rw [Config.intr, hm]; rfl
  have hds : P.cfg.delayslot = true := by rw [Config.delayslot, hm]; rfl
  have hexl : s.cpu.cp0.status.EXL = false ∧ s.cpu.cp0.status.ERL = false := by
    rw [← tick_status s.cpu.cp0]
    simp only [Cp0.takesIntr, Bool.and_eq_true, Bool.not_eq_true'] at ht
    exact ⟨ht.1.1.2, ht.1.1.1⟩
  have hst : s.settle P = ((s.tick P).raise P ⟨.none, .INTR⟩).enterVector := by
    unfold Machine.settle
    rw [if_neg (by simp [he]), tick_of_intr hintr, if_pos ht]
  have hrec : CpuState.recordsEpc P.cfg { s.cpu with cp0 := s.cpu.cp0.tick } = true := by
    simp only [CpuState.recordsEpc, tick_status, hexl.1]
    simp
  obtain ⟨hepc, hbd, hslot⟩ := raise_of_recordsEpc hds hrec ⟨.none, .INTR⟩
  obtain ⟨hasid, herl⟩ := tick_mapping s.cpu.cp0
  rw [hst, tick_of_intr hintr]
  exact ⟨hepc, hbd, hslot, rfl, rfl, ⟨rfl, hasid.symm, herl.symm⟩, hexl.2⟩

/-! ## Returning -/

/-- The machine after the `eret` of a handler, with ERL clear. -/
structure Returned (s t : Machine D) : Prop where
  pc : t.cpu.pc = s.cpu.cp0.epc
  isDelayslot : t.cpu.isDelayslot = false
  hasException : t.cpu.hasException = false
  regs : SameRegs t.cpu.toRegs s.cpu.toRegs
  ram : t.ram = s.ram
  mapping : SameMapping s.toArch t.toArch
  flushed : ∃ m, t.mmuCache = clearMmu m

theorem sameRegs_setGpr (r : Regs) : SameRegs (r.setGpr 0 0) r := by
  unfold SameRegs Regs.setGpr
  rw [Function.update_idem]

theorem instEnd_enterVector (s : Machine D) :
    s.instEnd.enterVector =
      { s with cpu := { s.cpu with
          hasException := false
          pc := s.cpu.brTarget
          isDelayslot := false } } := by
  unfold Machine.instEnd Machine.enterVector
  cases hd : s.cpu.isDelayslot with
  | false => simp [hd]
  | true => rfl

theorem eret_of_erl {c : CpuState} (h : c.cp0.status.ERL = false) :
    c.eret = { c with
      hasException := true
      brTarget := c.cp0.epc
      cp0 := { c.cp0 with status := { c.cp0.status with EXL := false } } } := by
  unfold CpuState.eret
  rw [if_neg (by simp [h])]

theorem returned_eret {P : Platform D} (hx : P.cfg.exception = true)
    (hd : P.cfg.decodeCache = false) {s t : Machine D} {o : Ops} (he : Entered P s .eret o t)
    (herl : s.cpu.cp0.status.ERL = false) :
    ∃ s', iteration P s = .ok () s' ∧ Returned s s' := by
  have hrun : exec P o .eret t = .ok () t.eret := rfl
  have hit : iteration P s = .ok () (t.eret.instEnd.settle P) := by
    rw [iteration_apply hx, execInst_of_entered he, dispatch_apply hx hd, hrun]
  have hexc : t.eret.cpu.hasException = true := by
    change t.cpu.eret.hasException = true
    unfold CpuState.eret
    split <;> rfl
  have hset : t.eret.instEnd.settle P = t.eret.instEnd.enterVector := by
    unfold Machine.settle
    rw [if_pos ((hasException_instEnd _).trans hexc)]
  have hu : t.eret = Machine.flush { t with cpu := t.cpu.eret } := rfl
  rw [hset, instEnd_enterVector, hu, eret_of_erl (by rw [he.cpu.2.2, herl])] at hit
  obtain ⟨x, mc, c, rfl⟩ := he.access
  exact ⟨_, hit, rfl, rfl, rfl, sameRegs_setGpr _, rfl, ⟨rfl, rfl, rfl⟩, mc, rfl⟩

/-! ## The branch once more -/

/-- A branch that was executed in `c`, and is executed again in a state that has its link
    register written, reads the same registers. -/
def Body.Steady (b : Body) : Prop :=
  ∀ c c' : CpuState, c.gpr 0 = 0 → c'.pc = c.pc →
    match b with
    | .branch _ link target =>
      c'.toRegs = (link c).setGpr 0 0 → link c' = link c ∧
        target { c' with toRegs := link c' } = target { c with toRegs := link c }
    | .branchLikely _ link _ _ => c'.toRegs = (link c).setGpr 0 0 → link c' = link c
    | _ => True

/-- A link register, or none. -/
def isLink (link : CpuState → Regs) : Prop := link = noLink ∨ ∃ r, link = linkReg r

theorem setGpr_zero {r : Regs} (h : r.gpr 0 = 0) : r.setGpr 0 0 = r := by
  unfold Regs.setGpr
  rw [← h, Function.update_eq_self]

theorem link_again {link : CpuState → Regs} (hl : isLink link) {c c' : CpuState}
    (h0 : c.gpr 0 = 0) (hpc : c'.pc = c.pc) (hr : c'.toRegs = (link c).setGpr 0 0) :
    link c' = link c := by
  obtain rfl | ⟨r, rfl⟩ := hl
  · exact hr.trans (setGpr_zero h0)
  · have hg : Function.update (Function.update (Function.update c.gpr r (c.pc + 8)) 0 0) r
        (c.pc + 8) = Function.update c.gpr r (c.pc + 8) := by
      by_cases hr0 : r = 0
      · rw [hr0, Function.update_idem, Function.update_idem]
      · have h0' : Function.update c.gpr 0 0 = c.gpr := Function.update_eq_self_iff.2 h0.symm
        rw [Function.update_comm hr0 (c.pc + 8) 0 c.gpr, Function.update_idem, h0']
    unfold linkReg
    rw [hpc, hr]
    unfold linkReg Regs.setGpr
    rw [hg]

theorem steady_branch {link : CpuState → Regs} (hl : isLink link) {mbz : Bool}
    {target : CpuState → Word}
    (ht : ∀ c c' : CpuState, c'.toRegs = c.toRegs → c'.pc = c.pc → target c' = target c) :
    (Body.branch mbz link target).Steady := by
  intro c c' h0 hpc hr
  have hlink := link_again hl h0 hpc hr
  exact ⟨hlink, ht _ _ hlink hpc⟩

theorem steady_likely {link : CpuState → Regs} (hl : isLink link) {mbz : Bool}
    {cond : Regs → Bool} {o : Ops} : (Body.branchLikely mbz link cond o).Steady :=
  fun _ _ h0 hpc hr => link_again hl h0 hpc hr

theorem steady_of_transfers {b : Body} (h : b.transfers = false) : b.Steady := by
  intro c c' _ _
  cases b <;> trivial

theorem steady_body (P : Platform D) (o : Ops) (h : Handler) : (body P o h).Steady := by
  have hb : ∀ mbz link cond, isLink link → (branch mbz link cond o).Steady := by
    intro mbz link cond hl
    refine steady_branch hl fun c c' hr hpc => ?_
    rw [hr, hpc]
  have hj : ∀ link, isLink link → (Body.branch true link fun c => jumpTarget o c.pc).Steady := by
    intro link hl
    refine steady_branch hl fun c c' hr hpc => ?_
    rw [hpc]
  have hr : ∀ mbz link, isLink link → (Body.branch mbz link fun c => c.gpr o.rs).Steady := by
    intro mbz link hl
    refine steady_branch hl fun c c' hr hpc => ?_
    rw [hr]
  cases h
  case beq | bne | blez | bgtz | bltz | bgez => exact hb _ _ _ (.inl rfl)
  case bc1 => exact hb _ _ (fun r => r.getFPCondCode o.cc2 == (o.tf == 1)) (.inl rfl)
  case bgezal | bltzal => exact hb _ _ _ (.inr ⟨31, rfl⟩)
  case j => exact hj _ (.inl rfl)
  case jal => exact hj _ (.inr ⟨31, rfl⟩)
  case jr => exact hr _ _ (.inl rfl)
  case jalr => exact hr _ _ (.inr ⟨o.rd, rfl⟩)
  case beql | bnel | blezl | bgtzl | bltzl | bgezl => exact steady_likely (.inl rfl)
  case bgezall | bltzall => exact steady_likely (.inr ⟨31, rfl⟩)
  case eret => exact fun _ _ _ _ => trivial
  case inv => simp only [body, inv]; split <;> exact steady_of_transfers rfl
  case breakpoint => simp only [body, breakpoint]; split <;> exact steady_of_transfers rfl
  case cfc1 => simp only [body, cfc1]; split <;> exact steady_of_transfers rfl
  case srl => simp only [body, srl]; split <;> exact steady_of_transfers rfl
  case srlv => simp only [body, srlv]; split <;> exact steady_of_transfers rfl
  case mtc0 => simp only [body, mtc0]; split <;> exact steady_of_transfers rfl
  all_goals exact steady_of_transfers rfl

/-- A body that asks for its slot asks for the same one when it is executed again. -/
theorem run_again {P : Platform D} (hx : P.cfg.exception = true) {b : Body} (hb : b.Steady)
    (hbt : b.transfers = true) {s t : Machine D} {r : Regs} {a : Word}
    (hr : b.run P s = .error .delayslot (s.branchTo r a)) (h0 : s.cpu.gpr 0 = 0)
    (hpc : t.cpu.pc = s.cpu.pc) (hregs : t.cpu.toRegs = r.setGpr 0 0) :
    b.run P t = .error .delayslot (t.branchTo r a) := by
  have hbranch : ∀ r' a', (.error .delayslot (s.branchTo r' a') :
      EStateM.Result Stop (Machine D) Unit) = .error .delayslot (s.branchTo r a) →
      r' = r ∧ a' = a := by
    intro r' a' h
    simp only [EStateM.Result.error.injEq, Machine.branchTo, true_and, Machine.mk.injEq,
      Arch.mk.injEq, CpuState.mk.injEq] at h
    tauto
  cases b with
  | branch mbz link target =>
    cases mbz with
    | false =>
      have hf : (Body.branch false link target).run P s = .error .exit _ :=
        bind_of_error (instAssert_false hx s) _
      rw [hf] at hr
      cases hr
    | true =>
      rw [run_branch] at hr
      obtain ⟨rfl, rfl⟩ := hbranch _ _ hr
      obtain ⟨hl, ht⟩ := hb s.cpu t.cpu h0 hpc hregs
      rw [run_branch, ht, hl]
  | branchLikely mbz link cond o =>
    cases mbz with
    | false =>
      have hf : (Body.branchLikely false link cond o).run P s = .error .exit _ :=
        bind_of_error (instAssert_false hx s) _
      rw [hf] at hr
      cases hr
    | true =>
      rw [run_likely] at hr
      split at hr
      · rename_i hc
        obtain ⟨rfl, rfl⟩ := hbranch _ _ hr
        have hl := hb s.cpu t.cpu h0 hpc hregs
        rw [run_likely, hl, if_pos hc, hpc]
      · cases hr
  | eret => cases hr
  | _ => cases hbt

/-! ## The fetch once more -/

theorem readPaddr_ram {P : Platform D} {v p : Word} {d : Bool} {dev : Device} {r : Ram}
    (hd : P.findDevice p = some dev) (hr : dev.name.ram = some r) {s t : Machine D} {w : Word}
    (hs : s.cpu.hasException = false) (h : readPaddr P v p d 4 s = .ok w t) :
    checkIoaddr ((p &&& ~~~0xFFF) - dev.start) 0 r.size = true ∧
      checkIoaddr (p - dev.start) 4 r.size = true ∧ w = loadBytes (s.ram r) (p - dev.start) 4 := by
  have hrd : P.devRead dev.name = some (ramRead r) := by simp only [Platform.devRead, hr]
  simp only [readPaddr, hd, hrd] at h
  obtain ⟨_, u, hu, hw⟩ := bind_eq_ok h
  by_cases hc : checkIoaddr ((p &&& ~~~0xFFF) - dev.start) 0 r.size = true
  · obtain ⟨mc, hmc⟩ := updateMmuCache_ok hr hc v d s
    cases hmc.symm.trans hu
    simp only [ramRead, bind_apply, ite_run, halt_apply, pure_apply, get_apply] at hw
    split at hw
    · cases hw
      exact ⟨hc, ‹_›, rfl⟩
    · cases hw
  · simp only [updateMmuCache, bind_apply, getCpu_apply, ite_run, hs, hr, devMap, hc] at hu
    cases hu

/-- A fetch from RAM that hits no stale entry reads the word at the translated address. -/
theorem vaddrRead_fresh {P : Platform D} {s t : Machine D} {v w : Word}
    (hx : s.cpu.hasException = false)
    (hfresh : s.cached P .load v → Designates P s.toArch (s.mmuCache (mmuCacheIndex v)) v .load)
    {p : Word} {d : Bool} {dev : Device} {r : Ram} (htr : P.translate s.toArch v .load = .ok p d)
    (hdev : P.findDevice p = some dev) (hram : dev.name.ram = some r)
    (h : vaddrRead P v 4 s = .ok w t) :
    checkIoaddr ((p &&& ~~~0xFFF) - dev.start) 0 r.size = true ∧
      checkIoaddr (p - dev.start) 4 r.size = true ∧ w = loadBytes (s.ram r) (p - dev.start) 4 := by
  rw [vaddrRead_eq] at h
  split at h
  · rename_i hc
    obtain ⟨p', d', dev', r', htr', hdev', hram', he, hck⟩ := hfresh hc
    rw [htr] at htr'
    cases htr'
    rw [hdev] at hdev'
    cases hdev'
    rw [hram] at hram'
    cases hram'
    simp only [he, hostRead, hostInBounds, cached_addr htr dev.start, bind_apply, ite_run,
      halt_apply, pure_apply, get_apply] at h
    split at h
    · cases h
      exact ⟨hck, ‹_›, rfl⟩
    · cases h
  · rw [htr] at h
    exact readPaddr_ram hdev hram hx h

/-- The entry of the MMU cache that a fetch at `pc` would hit points to the page that `pc` is
    mapped to. -/
def FetchesFresh (P : Platform D) (s : Machine D) : Prop :=
  s.cached P .load s.cpu.pc →
    Designates P s.toArch (s.mmuCache (mmuCacheIndex s.cpu.pc)) s.cpu.pc .load

/-- A word of RAM that was fetched is fetched again while the mapping and RAM stay. -/
theorem entered_again {P : Platform D} (hd : P.cfg.decodeCache = false) {s s' t : Machine D}
    {h : Handler} {o : Ops} (he : Entered P s h o t) (hs : s.cpu.hasException = false)
    (hc : FetchesFresh P s) (hf : FetchesRam P s) (hpc : s'.cpu.pc = s.cpu.pc)
    (hm : SameMapping s.toArch s'.toArch) (hr : s'.ram = s.ram)
    (hc' : ∃ m, s'.mmuCache = clearMmu m) : ∃ t', Entered P s' h o t' := by
  have hentry : ∀ u : Machine D, makeEntry P u =
      (vaddrRead P u.cpu.pc 4 >>= fun w => pure (decoderGetHandler w, Inst.ops w)) u.zeroGpr := by
    intro u
    unfold makeEntry
    rw [bind_of_ok (modifyRegs_apply u _), if_neg (by simp [hd])]
    rfl
  have hfetch := he.entry
  rw [hentry] at hfetch
  obtain ⟨w, t₀, hw, hp⟩ := bind_eq_ok hfetch
  obtain ⟨p, d, dev, r, htr, hdev, hram⟩ := hf
  have htz : P.translate s.zeroGpr.toArch s.cpu.pc .load = .ok p d := htr
  obtain ⟨hpage, hword, rfl⟩ := vaddrRead_fresh (s := s.zeroGpr) hs hc htz hdev hram hw
  -- the flushed cache is not hit, so the second fetch goes through the translation
  obtain ⟨m, hm'⟩ := hc'
  have htz' : P.translate s'.zeroGpr.toArch s.cpu.pc .load = .ok p d :=
    (hm.translate P _ _).symm.trans htr
  have hmiss : ¬ s'.zeroGpr.cached P .load s.cpu.pc := by
    rintro ⟨-, hid⟩
    have hid' : (s'.mmuCache (mmuCacheIndex s.cpu.pc)).id = mmuCacheId s.cpu.pc := hid
    rw [hm'] at hid'
    exact mmuCacheId_ne _ hid'
  obtain ⟨mc, hread⟩ := readPaddr_of_ram hdev hram hpage hword s.cpu.pc d s'.zeroGpr
  have hrz : s'.zeroGpr.ram = s.zeroGpr.ram := hr
  have h₃ : vaddrRead P s.cpu.pc 4 s'.zeroGpr =
      .ok (loadBytes (s.zeroGpr.ram r) (p - dev.start) 4) { s'.zeroGpr with mmuCache := mc } := by
    rw [vaddrRead_eq, if_neg hmiss, htz', ← hrz]
    exact hread
  refine ⟨{ s'.zeroGpr with mmuCache := mc }, by rw [hpc]; exact he.aligned, ?_, rfl⟩
  rw [hentry, hpc, bind_of_ok h₃]
  cases hp
  rfl

/-! ## Transparency -/

/-- An instruction that leaves the flag set without an exception has asked for its slot. -/
theorem slot_of_isDelayslot {P : Platform D} (hx : P.cfg.exception = true)
    (hd : P.cfg.decodeCache = false) {s s₁ t : Machine D} {h : Handler} {o : Ops}
    (hs : s.cpu.hasException = false) (hf : Entered P s h o t)
    (he : execInst P s = .ok () s₁) (hn : s₁.cpu.hasException = false)
    (hslot : s₁.cpu.isDelayslot = true) :
    ∃ r a, exec P o h t = .error .delayslot (t.branchTo r a) ∧
      (body P o h).transfers = true ∧ s₁ = (t.branchTo r a).inSlot := by
  have hst := run_stopsBy hx (hf.hasException.trans hs) (body_isInvEnd hx o h)
  change StopsBy P _ t (exec P o h t) at hst
  rw [execInst_of_entered hf, dispatch_apply hx hd] at he
  cases hr : exec P o h t with
  | ok a u =>
    rw [hr] at he
    cases he
    exact absurd ((isDelayslot_instEnd u).symm.trans hslot) (by decide)
  | error e u =>
    rw [hr] at he hst
    cases e with
    | exit =>
      obtain ⟨-, r, bad, e, rfl⟩ := hst
      cases he
      cases hn
    | delayslot =>
      obtain ⟨ht, r, a, rfl⟩ := hst
      cases he
      exact ⟨r, a, rfl, ht, rfl⟩
    | halt why => cases he

theorem settle_of_quiet {P : Platform D} {s : Machine D} (hs : s.cpu.hasException = false)
    (hn : (s.tick P).cpu.cp0.takesIntr = false) : s.settle P = s.tick P := by
  unfold Machine.settle
  rw [if_neg (by simp [hs]), if_neg (by simp [hn])]

@[simp] theorem ram_tick (P : Platform D) (s : Machine D) : (s.tick P).ram = s.ram := by
  unfold Machine.tick
  split <;> rfl

@[simp] theorem tlb_tick (P : Platform D) (s : Machine D) : (s.tick P).tlb = s.tlb := by
  unfold Machine.tick
  split <;> rfl

/-- The interrupted branch, entered again in `s'`, asks for its slot again. -/
theorem resumes_of_branch {P : Platform D} (hx : P.cfg.exception = true) {s s' t t' : Machine D}
    {h : Handler} {o : Ops} {r : Regs} {a : Word} (hf : Entered P s h o t)
    (hr : exec P o h t = .error .delayslot (t.branchTo r a))
    (hb : (body P o h).transfers = true) (hf' : Entered P s' h o t')
    (hpc : s'.cpu.pc = s.cpu.pc) (hs' : s'.cpu.hasException = false)
    (hregs : SameRegs s'.cpu.toRegs r) (hram : s'.ram = s.ram) (htlb : s'.tlb = s.tlb)
    (hn : (t'.tick P).cpu.cp0.takesIntr = false) :
    ∃ u, iteration P s' = .ok () u ∧ Resumes (t.branchTo r a).inSlot u := by
  have h0 : t.cpu.gpr 0 = 0 := by
    obtain ⟨x, mc, c, rfl⟩ := hf.access
    exact (gpr_setGpr s.cpu.toRegs 0 0 0).trans (if_pos rfl)
  have hpc' : t'.cpu.pc = t.cpu.pc := by rw [hf'.cpu.1, hpc, hf.cpu.1]
  have hregs' : t'.cpu.toRegs = r.setGpr 0 0 := by
    obtain ⟨x, mc, c, rfl⟩ := hf'.access
    exact hregs
  have hrun := run_again hx (steady_body P o h) hb hr h0 hpc' hregs'
  have hexc : (t'.branchTo r a).inSlot.cpu.hasException = false := hf'.hasException.trans hs'
  have hquiet : ((t'.branchTo r a).inSlot.tick P).cpu.cp0.takesIntr = false := by
    have hcp0 : ((t'.branchTo r a).inSlot.tick P).cpu.cp0 = (t'.tick P).cpu.cp0 := by
      unfold Machine.tick
      split <;> rfl
    rw [hcp0, hn]
  refine ⟨_, iteration_of_slot hx hf' hrun, ?_⟩
  rw [settle_of_quiet hexc hquiet]
  refine ⟨?_, ?_, fun _ => ?_, ?_, ?_, ?_⟩
  · rw [pc_tick]
    change t'.cpu.pc + 4 = t.cpu.pc + 4
    rw [hpc']
  · rw [isDelayslot_tick]
    rfl
  · rw [brTarget_tick]
    rfl
  · rw [toRegs_tick]
    rfl
  · rw [ram_tick]
    obtain ⟨x, mc, c, rfl⟩ := hf.access
    obtain ⟨x', mc', c', rfl⟩ := hf'.access
    exact hram
  · rw [tlb_tick]
    obtain ⟨x, mc, c, rfl⟩ := hf.access
    obtain ⟨x', mc', c', rfl⟩ := hf'.access
    exact htlb

theorem Handled.mapping {s t : Machine D} (h : Handled s t) : SameMapping s.toArch t.toArch := by
  obtain ⟨ip, count, compare, hc⟩ := h.cp0
  exact ⟨h.tlb.symm, by rw [hc]; rfl, by rw [hc]; rfl⟩

theorem Handled.epc {s t : Machine D} (h : Handled s t) : t.cpu.cp0.epc = s.cpu.cp0.epc := by
  obtain ⟨ip, count, compare, hc⟩ := h.cp0
  rw [hc]
  rfl

theorem SameMapping.trans {a b c : Arch D} (h : SameMapping a b) (h' : SameMapping b c) :
    SameMapping a c :=
  ⟨h.tlb.trans h'.tlb, h.asid.trans h'.asid, h.erl.trans h'.erl⟩

/-- The interrupt and its handler, up to the `eret`: the program continues at EPC with the
    registers, memory and mapping it had. -/
theorem returned_handler {P : Platform D} (hm : P.cfg.march = .mips32R1)
    (hd : P.cfg.decodeCache = false) {s₁ s₃ t : Machine D} {o : Ops}
    (hn : s₁.cpu.hasException = false) (hi : s₁.cpu.cp0.tick.takesIntr = true)
    (hh : Handled (s₁.settle P) s₃) (hret : Entered P s₃ .eret o t) :
    ∃ s₄, iteration P s₃ = .ok () s₄ ∧ s₄.cpu.hasException = false ∧
      s₄.cpu.isDelayslot = false ∧
      s₄.cpu.pc = (if s₁.cpu.isDelayslot then s₁.cpu.pc - 4 else s₁.cpu.pc) ∧
      SameRegs s₄.cpu.toRegs s₁.cpu.toRegs ∧ s₄.ram = s₁.ram ∧
      SameMapping s₁.toArch s₄.toArch ∧ ∃ m, s₄.mmuCache = clearMmu m := by
  have hx : P.cfg.exception = true := by rw [Config.exception, hm]; rfl
  have hint := interrupted hm hn hi
  have hmap := hint.mapping.trans hh.mapping
  obtain ⟨s₄, hit, hr⟩ := returned_eret hx hd hret (hmap.erl.symm.trans hint.erl)
  refine ⟨s₄, hit, hr.hasException, hr.isDelayslot, ?_, ?_, ?_, hmap.trans hr.mapping,
    hr.flushed⟩
  · rw [hr.pc, hh.epc, hint.epc]
  · refine hr.regs.trans (hh.regs.trans ?_)
    rw [hint.regs]
  · rw [hr.ram, hh.ram, hint.ram]

/-- An interrupt taken after any instruction is transparent: its `eret` brings the program
    back to where the instruction left it or, with Cause.BD set, to the branch before the
    slot. A branch that came from RAM, through no stale entry of the MMU cache, is fetched
    again, and brings the program there when it is executed again. -/
theorem interrupt_transparent {P : Platform D} (hm : P.cfg.march = .mips32R1)
    (hd : P.cfg.decodeCache = false) {s s₁ s₂ s₃ t te : Machine D} {h : Handler} {o oe : Ops}
    (hs : s.cpu.hasException = false) (hf : Entered P s h o t)
    (he : execInst P s = .ok () s₁) (hn : s₁.cpu.hasException = false)
    (hi : s₁.cpu.cp0.tick.takesIntr = true) (h₂ : iteration P s = .ok () s₂)
    (hh : Handled s₂ s₃) (hret : Entered P s₃ .eret oe te) :
    ∃ s₄, iteration P s₃ = .ok () s₄ ∧
      (s₂.cpu.cp0.cause.BD = false → Resumes s₁ s₄) ∧
      (s₂.cpu.cp0.cause.BD = true →
        (FetchesFresh P s → FetchesRam P s → ∃ t₄, Entered P s₄ h o t₄) ∧
        ∀ t₄, Entered P s₄ h o t₄ → (t₄.tick P).cpu.cp0.takesIntr = false →
          ∃ s₅, iteration P s₄ = .ok () s₅ ∧ Resumes s₁ s₅) := by
  have hx : P.cfg.exception = true := by rw [Config.exception, hm]; rfl
  obtain rfl : s₂ = s₁.settle P := by
    rw [iteration_apply hx, he] at h₂
    cases h₂
    rfl
  have hbd := (interrupted hm hn hi).bd
  obtain ⟨s₄, hit, hexc, hslot, hpc, hregs, hram, hmap, hco⟩ :=
    returned_handler hm hd hn hi hh hret
  refine ⟨s₄, hit, fun h0 => ?_, fun h1 => ?_⟩
  · have hslot₁ := hbd.symm.trans h0
    rw [hslot₁] at hpc
    refine ⟨hpc, hslot.trans hslot₁.symm, fun h1 => ?_, hregs, hram, hmap.tlb.symm⟩
    exact absurd (hslot₁.symm.trans h1) (by decide)
  · have hslot₁ := hbd.symm.trans h1
    obtain ⟨r, a, hr, hb, rfl⟩ := slot_of_isDelayslot hx hd hs hf he hn hslot₁
    rw [hslot₁] at hpc
    have hpc₄ : s₄.cpu.pc = s.cpu.pc := by
      rw [hpc, ← hf.cpu.1]
      exact BitVec.add_sub_cancel ..
    have hram₄ : s₄.ram = s.ram := by
      obtain ⟨x, mc, c, rfl⟩ := hf.access
      exact hram
    have hmap₄ : SameMapping s.toArch s₄.toArch := by
      obtain ⟨x, mc, c, rfl⟩ := hf.access
      exact ⟨hmap.tlb, hmap.asid, hmap.erl⟩
    refine ⟨fun hc hfr => ?_, fun t₄ hf₄ hq => ?_⟩
    · exact entered_again hd hf hs hc hfr hpc₄ hmap₄ hram₄ hco
    · exact resumes_of_branch hx hf hr hb hf₄ hpc₄ hexc hregs hram₄ hmap₄.tlb.symm hq

/-- The machine with the interrupt lines `ip`. -/
def Machine.withIP (ip : BitVec 8) (s : Machine D) : Machine D :=
  { s with cpu := { s.cpu with cp0 := s.cpu.cp0.setIP ip } }

theorem handled_withIP {s : Machine D} (ip : BitVec 8) (hs : s.cpu.hasException = false) :
    Handled s (s.withIP ip) :=
  ⟨rfl, ⟨ip, _, _, rfl⟩, rfl, hs, rfl, rfl⟩

/-- A `beq` with an interrupt pending, and a handler that is a single `eret`. -/
def intrDemo : Machine Unit :=
  let s := Machine.boot (ddrOf [(0x1000, 0x10000001), (0x180, 0x42000018)]) ()
  { s with cpu := { s.cpu with
      pc := 0x80001000
      cp0 := { s.cpu.cp0 with
        status := { s.cpu.cp0.status with IE := true, IM := 4 }
        cause := { s.cpu.cp0.cause with IP := 4 } } } }

/-- The vector, with the interrupt line cleared. -/
def intrDemoHandled : Machine Unit := (after mips32r1 1 intrDemo).withIP 0

/-- The branch is interrupted, returned to and executed again. -/
theorem interrupt_transparent_intrDemo :
    (after mips32r1 1 intrDemo).cpu.cp0.cause.BD = true ∧
    ∃ s₄ s₅, iteration mips32r1 intrDemoHandled = .ok () s₄ ∧
      iteration mips32r1 s₄ = .ok () s₅ ∧
      Resumes (final (execInst mips32r1 intrDemo)) s₅ := by
  have hbd : (after mips32r1 1 intrDemo).cpu.cp0.cause.BD = true := by decide +kernel
  have hf : Entered mips32r1 intrDemo .beq (Inst.ops 0x10000001) _ :=
    entered_of_returned (by decide +kernel) (by decide +kernel) (by decide +kernel)
  have hret : Entered mips32r1 intrDemoHandled .eret (Inst.ops 0x42000018) _ :=
    entered_of_returned (by decide +kernel) (by decide +kernel) (by decide +kernel)
  have hh : Handled (after mips32r1 1 intrDemo) intrDemoHandled :=
    handled_withIP 0 (by decide +kernel)
  obtain ⟨s₄, h₄, -, h₅⟩ := interrupt_transparent rfl rfl rfl hf
    (eq_ok_of_isOk (by decide +kernel)) (by decide +kernel) (by decide +kernel)
    (eq_ok_of_isOk (by decide +kernel)) hh hret
  have hs₄ : s₄ = final (iteration mips32r1 intrDemoHandled) := by rw [h₄]; rfl
  have hf₄ : Entered mips32r1 s₄ .beq (Inst.ops 0x10000001) (final (makeEntry mips32r1 s₄)) := by
    rw [hs₄]
    exact entered_of_returned (by decide +kernel) (by decide +kernel) (by decide +kernel)
  obtain ⟨s₅, hi₅, hr₅⟩ := (h₅ hbd).2 _ hf₄ (by rw [hs₄]; decide +kernel)
  exact ⟨hbd, s₄, s₅, h₄, hi₅, hr₅⟩

/-- Two address spaces map the page at 0x10000 to different frames. The page of the first holds
    a `tlbr` that brings back the second, and a `beq` behind it that is still fetched from the
    first; the page of the second holds an `addiu` there. -/
def staleDemo : Memory :=
  ddrOf ([0x3C010001, 0x40815000, 0x34020086, 0x40821000, 0x42000002, 0x24230001, 0x40835000,
      0x340400C6, 0x40841000, 0x34050001, 0x40850000, 0x42000002, 0x40815000, 0x34060401,
      0x40866000, 0x00200008, 0x0].zipIdx.map
        (fun (w, i) => (0x1000 + 4 * BitVec.ofNat 32 i, w)) ++
    [(0x2000, 0x42000001), (0x2004, 0x10000001), (0x3004, 0x25080001), (0x180, 0x42000018)])

def staleStart : Machine Unit :=
  final (initCpu mmuCached 0x80001000 [] (Machine.boot staleDemo ()))

/-- Before the `beq`, with an interrupt line raised by a device. -/
def staleBranch : Machine Unit :=
  let s := after mmuCached 18 staleStart
  { s with toArch := s.putDev { s.devCtx with ip := 4 } }

/-- The vector, with the interrupt line cleared. -/
def staleHandled : Machine Unit := (after mmuCached 1 staleBranch).withIP 0

theorem not_interrupt_transparent_staleDemo :
    ¬ ∀ {s₀ s s₁ s₂ s₃ t te : Machine Unit} {last : Option (Machine Unit × Machine Unit)}
        {h : Handler} {o oe : Ops}, Booted mmuCached s₀ →
      Run mmuCached (fun _ => True) s₀ last s → s.cpu.cp0.status.ERL = false →
      s.cpu.cp0.status.EXL = false → Entered mmuCached s h o t →
      execInst mmuCached s = .ok () s₁ → s₁.cpu.hasException = false →
      s₁.cpu.cp0.tick.takesIntr = true → iteration mmuCached s = .ok () s₂ → Handled s₂ s₃ →
      Entered mmuCached s₃ .eret oe te →
      ∃ s₄, iteration mmuCached s₃ = .ok () s₄ ∧
        (s₂.cpu.cp0.cause.BD = true → s₄.cpu.cp0.tick.takesIntr = false →
          ∃ s₅, iteration mmuCached s₄ = .ok () s₅ ∧ Resumes s₁ s₅) := by
  intro hall
  have hboot : Booted mmuCached staleStart :=
    ⟨staleDemo, (), 0x80001000, [], by decide, eq_ok_of_isOk (by decide +kernel)⟩
  have hrun : Run mmuCached (fun _ => True) staleStart
      (some (after mmuCached 17 staleStart, after mmuCached 18 staleStart)) staleBranch :=
    (run_after 17 (fun _ _ => trivial) (by decide +kernel)).host fun x => { x with ip := 4 }
  have hf : Entered mmuCached staleBranch .beq (Inst.ops 0x10000001) _ :=
    entered_of_returned (by decide +kernel) (by decide +kernel) (by decide +kernel)
  have hret : Entered mmuCached staleHandled .eret (Inst.ops 0x42000018) _ :=
    entered_of_returned (by decide +kernel) (by decide +kernel) (by decide +kernel)
  have hh : Handled (after mmuCached 1 staleBranch) staleHandled :=
    handled_withIP 0 (by decide +kernel)
  obtain ⟨s₄, h₄, hbd⟩ := hall hboot hrun (by decide +kernel) (by decide +kernel) hf
    (eq_ok_of_isOk (by decide +kernel)) (by decide +kernel) (by decide +kernel)
    (eq_ok_of_isOk (by decide +kernel)) hh hret
  have hs₄ : s₄ = final (iteration mmuCached staleHandled) := by rw [h₄]; rfl
  obtain ⟨s₅, h₅, hres⟩ := hbd (by decide +kernel) (by rw [hs₄]; decide +kernel)
  have hs₅ : s₅ = final (iteration mmuCached s₄) := by rw [h₅]; rfl
  -- the `beq` asked for its slot; what is found at EPC does not
  have hslot : (final (execInst mmuCached staleBranch)).cpu.isDelayslot = true := by
    decide +kernel
  have hslot₅ : s₅.cpu.isDelayslot = false := by
    rw [hs₅, hs₄]
    decide +kernel
  rw [← hres.isDelayslot, hslot₅] at hslot
  cases hslot

end NemuMips32
