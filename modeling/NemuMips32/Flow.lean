/-
  What a handler does to `pc` and to the decode cache, in every build: `pc` stays where it is,
  unless the handler is a likely branch that is not taken (`run_flow`), and the cache stays as
  it is or is flushed. `pc` is moved by what follows the handler.
-/
import NemuMips32.DecodeChain
import NemuMips32.Exec.Effect

namespace NemuMips32

open StateExcept

variable {D : Type} {α β : Type}

/-- `pc` is the same, and the decode cache was at most flushed. -/
structure Still (s t : Machine D) : Prop where
  pc : t.cpu.pc = s.cpu.pc
  dc : t.dc = s.dc ∨ t.dc = s.dc.clear

theorem Still.refl (s : Machine D) : Still s s := ⟨rfl, .inl rfl⟩

theorem Still.trans {s t u : Machine D} (h : Still s t) (h' : Still t u) : Still s u := by
  refine ⟨h'.pc.trans h.pc, ?_⟩
  obtain hd | hd := h.dc
  · rw [← hd]
    exact h'.dc
  · obtain hd' | hd' := h'.dc
    · exact .inr (hd'.trans hd)
    · rw [hd', hd]
      exact .inr (clear_clear s.dc)

/-- The machine that a program leaves, unless it ended the emulator. Only builds with
    exceptions have a check macro that goes to `exit`. -/
def Flow (P : Platform D) (s : Machine D) : EStateM.Result Stop (Machine D) α → Prop
  | .ok _ u => Still s u
  | .error .exit u => P.cfg.exception = true ∧ Still s u
  | .error .delayslot u => Still s u
  | .error (.halt _) _ => True

def Flows (P : Platform D) (m : Exec D α) : Prop := ∀ s, Flow P s (m s)

/-! ## Rules -/

section Rules

variable {P : Platform D}

theorem flows_pure (a : α) : Flows P (pure a : Exec D α) := Still.refl

theorem flows_halt (why : Halt) : Flows P (halt why : Exec D α) := fun _ => trivial

theorem flows_exit (hx : P.cfg.exception = true) : Flows P (throw .exit : Exec D α) :=
  fun s => ⟨hx, .refl s⟩

theorem flows_delayslot : Flows P (throw .delayslot : Exec D α) := Still.refl

theorem flows_getCpu : Flows P (getCpu : Exec D CpuState) := Still.refl

theorem flows_modifyCpu {f : CpuState → CpuState} (hf : ∀ c, (f c).pc = c.pc) :
    Flows P (modifyCpu f : Exec D Unit) := fun s => ⟨hf s.cpu, .inl rfl⟩

theorem flows_modifyRegs (f : CpuState → Regs) : Flows P (modifyRegs f : Exec D Unit) :=
  flows_modifyCpu fun _ => rfl

theorem flows_modifyCp0 (f : Cp0 → Cp0) : Flows P (modifyCp0 f : Exec D Unit) :=
  flows_modifyCpu fun _ => rfl

theorem flow_bind {m : Exec D α} {f : α → Exec D β} {s : Machine D} (hm : Flow P s (m s))
    (hf : ∀ a, Flows P (f a)) : Flow P s ((m >>= f) s) := by
  rw [bind_apply]
  cases hr : m s with
  | ok a t =>
    rw [hr] at hm
    have h := hf a t
    change Flow P s (f a t)
    cases hrt : f a t with
    | ok b u =>
      rw [hrt] at h
      exact hm.trans h
    | error e u =>
      rw [hrt] at h
      cases e with
      | halt why => trivial
      | exit => exact ⟨h.1, hm.trans h.2⟩
      | delayslot => exact hm.trans h
  | error e t =>
    rw [hr] at hm
    cases e with
    | halt why => trivial
    | exit => exact hm
    | delayslot => exact hm

theorem flows_bind {m : Exec D α} {f : α → Exec D β} (hm : Flows P m) (hf : ∀ a, Flows P (f a)) :
    Flows P (m >>= f) := fun s => flow_bind (hm s) hf

theorem flows_ite {c : Prop} [Decidable c] {m n : Exec D α} (hm : Flows P m) (hn : Flows P n) :
    Flows P (if c then m else n) := by
  split
  · exact hm
  · exact hn

/-- A check macro. -/
theorem flows_rejects {m : Exec D PUnit} (hm : P.cfg.exception = true → Flows P m) (why : Halt) :
    Flows P (if P.cfg.exception then m else halt why) := by
  split
  · exact hm ‹_›
  · exact flows_halt why

end Rules

/-! ## Exceptions and accesses -/

theorem still_raise (P : Platform D) (e : Exception) (s : Machine D) : Still s (s.raise P e) :=
  ⟨rfl, .inr rfl⟩

theorem still_fault (P : Platform D) (f : TlbFault) (a : Word) (s : Machine D) :
    Still s (s.fault P f a) := ⟨rfl, .inr rfl⟩

theorem flow_quiet {P : Platform D} {rw : Access} {s : Machine D} {r : EStateM.Result Stop (Machine D) α}
    (h : Quiet rw s r) : Flow P s r := by
  cases r with
  | ok a t =>
    obtain ⟨x, m, mc, rfl, -⟩ := h
    exact ⟨rfl, .inl rfl⟩
  | error e t =>
    obtain ⟨⟨why, rfl⟩, -⟩ := h
    trivial

section Handlers

variable (P : Platform D)

theorem flows_vaddrRead (addr : Word) (len : Nat) : Flows P (vaddrRead P addr len) := by
  intro s
  cases hf : s.faultOf P .load addr with
  | some f =>
    rw [vaddrRead_of_fault hf]
    exact still_fault P f addr s
  | none => exact flow_quiet (vaddrRead_quiet hf len)

theorem flows_vaddrWrite (addr : Word) (len : Nat) (data : Word) :
    Flows P (vaddrWrite P addr len data) := by
  intro s
  cases hf : s.faultOf P .store addr with
  | some f =>
    rw [vaddrWrite_of_fault hf]
    exact still_fault P f addr s
  | none => exact flow_quiet (vaddrWrite_quiet hf len data)

theorem flows_raiseException (e : Exception) : Flows P (raiseException P e) := by
  intro s
  by_cases he : e.code = .TRAP
  · simp only [raiseException, if_pos he]
    trivial
  · rw [raiseException_apply P he]
    exact still_raise P e s

theorem flows_instAssert (cond : Bool) : Flows P (instAssert P cond) := by
  refine flows_ite (flows_pure ()) (flows_rejects (fun hx => ?_) _)
  exact flows_bind (flows_modifyCpu fun _ => rfl) fun _ =>
    flows_bind (flows_raiseException P _) fun _ => flows_exit hx

theorem flows_checkAlignedAddr (code : ExcCode) (align addr : Word) :
    Flows P (checkAlignedAddr P code align addr) := by
  refine flows_ite (flows_pure ()) (flows_rejects (fun hx => ?_) _)
  exact flows_bind (flows_modifyCp0 _) fun _ =>
    flows_bind (flows_raiseException P _) fun _ => flows_exit hx

theorem flows_check (code : ExcCode) (a : AccessOp) (c : CpuState) : Flows P (a.check P code c) := by
  unfold AccessOp.check
  cases a.align with
  | none => exact flows_pure ()
  | some align => exact flows_checkAlignedAddr P code align _

/-! ## Handlers -/

theorem flows_readOp (a : AccessOp) (put : CpuState → Word → CpuState → Regs) :
    Flows P (readOp P a put) :=
  flows_bind flows_getCpu fun c => flows_bind (flows_check P _ a c) fun _ =>
    flows_bind (flows_vaddrRead P _ _) fun _ => flows_bind flows_getCpu fun _ =>
    flows_ite (flows_modifyRegs _) (flows_modifyCp0 _)

theorem flows_writeOp (a : AccessOp) (data : CpuState → Word) (put : CpuState → Regs) :
    Flows P (writeOp P a data put) :=
  flows_bind flows_getCpu fun c => flows_bind (flows_check P _ a c) fun _ =>
    flows_bind (flows_vaddrWrite P _ _ _) fun _ => flows_bind flows_getCpu fun _ =>
    flows_ite (flows_modifyRegs _) (flows_modifyCp0 _)

theorem flows_ll (o : Ops) : Flows P (ll P o) :=
  flows_bind flows_getCpu fun _ => flows_bind (flows_checkAlignedAddr P _ _ _) fun _ =>
    flows_bind (flows_vaddrRead P _ _) fun _ => flows_modifyRegs _

theorem flows_ldc1 (o : Ops) : Flows P (ldc1 P o) :=
  flows_bind flows_getCpu fun _ => flows_bind (flows_checkAlignedAddr P _ _ _) fun _ =>
    flows_bind (flows_vaddrRead P _ _) fun _ => flows_bind (flows_vaddrRead P _ _) fun _ =>
    flows_bind flows_getCpu fun _ => flows_ite (flows_pure _) (flows_modifyRegs _)

theorem flows_sdc1 (o : Ops) : Flows P (sdc1 P o) :=
  flows_bind flows_getCpu fun _ => flows_bind (flows_checkAlignedAddr P _ _ _) fun _ =>
    flows_bind flows_getCpu fun _ => flows_bind (flows_vaddrWrite P _ _ _) fun _ =>
    flows_bind flows_getCpu fun _ => flows_vaddrWrite P _ _ _

theorem flows_jump (mbz : Bool) (link : CpuState → Regs) (target : CpuState → Word) :
    Flows P (jump P mbz link target) :=
  flows_bind (flows_instAssert P mbz) fun _ => flows_bind (flows_modifyRegs _) fun _ =>
    flows_bind (flows_modifyCpu fun _ => rfl) fun _ => flows_delayslot

theorem flow_cp0 (f : CpuState → (Fin 32 → TlbEntry) → Cp0) (flush : CpuState → Bool)
    (s : Machine D) : Flow P s ((Body.cp0 f flush).run P s) := by
  simp only [Body.run, bind_apply, get_apply, modifyCp0_apply, ite_run]
  split
  · exact ⟨rfl, .inr rfl⟩
  · exact ⟨rfl, .inl rfl⟩

theorem flow_tlbp (s : Machine D) : Flow P s (tlbp s) := by
  unfold tlbp tlbPresent
  obtain ⟨c, h⟩ | h := tlbPresentFrom_cases (List.finRange 32) s
  · rw [h]
    exact ⟨rfl, .inl rfl⟩
  · rw [h]
    trivial

theorem flow_tlbwr (s : Machine D) : Flow P s (tlbwr P s) := by
  unfold tlbwr
  by_cases hm : P.cfg.march = .noop
  · rw [if_pos hm, bind_of_ok (getCpu_apply s)]
    by_cases hr : s.cpu.cp0.random.toNat < 32
    · simp only [hr, dite_true]
      exact ⟨rfl, .inr rfl⟩
    · simp only [hr, dite_false]
      trivial
  · rw [if_neg hm]
    exact ⟨rfl, .inr rfl⟩

theorem pc_eret (c : CpuState) : c.eret.pc = c.pc := by
  unfold CpuState.eret
  split <;> rfl

/-- A likely branch skips its slot. -/
def Body.annuls : Body → Bool
  | .branchLikely _ _ _ _ => true
  | _ => false

theorem run_flow {b : Body} (hb : b.annuls = false) : Flows P (b.run P) := by
  cases b with
  | regs mbz bad f =>
    refine flows_bind (flows_instAssert P mbz) fun _ => flows_bind flows_getCpu fun c => ?_
    cases bad c with
    | some why => exact flows_halt why
    | none => exact flows_modifyRegs f
  | addOv mbz dst ret =>
    exact flows_bind (flows_instAssert P mbz) fun _ => flows_bind flows_getCpu fun _ =>
      flows_ite (flows_ite (flows_raiseException P _) (flows_halt _)) (flows_modifyRegs _)
  | raiseIf cond e =>
    exact flows_bind flows_getCpu fun _ => flows_ite (flows_raiseException P e) (flows_pure ())
  | branch mbz link target => exact flows_jump P mbz link target
  | branchLikely mbz link cond o => cases hb
  | read a put => exact flows_readOp P a put
  | write a data put => exact flows_writeOp P a data put
  | cp0 f flush => exact flow_cp0 P f flush
  | halt why => exact flows_halt why
  | cfc1Bad rt => exact flows_bind (flows_modifyRegs _) fun _ => flows_instAssert P false
  | ll o => exact flows_ll P o
  | ldc1 o => exact flows_ldc1 P o
  | sdc1 o => exact flows_sdc1 P o
  | cache => exact fun s => ⟨rfl, .inr rfl⟩
  | tlbp => exact flow_tlbp P
  | tlbwi => exact fun s => ⟨rfl, .inr rfl⟩
  | tlbwr => exact flow_tlbwr P
  | eret => exact fun s => ⟨pc_eret s.cpu, .inr rfl⟩
  | gdbStop => exact fun s => ⟨rfl, .inl rfl⟩
  | invEnd =>
    exact flows_bind flows_getCpu fun _ => flows_bind (flows_vaddrRead P _ _) fun _ =>
      fun s => ⟨rfl, .inl rfl⟩

/-- A likely branch is rejected, taken, or moves past its slot. -/
theorem branchLikely_flow (mbz : Bool) (link : CpuState → Regs) (cond : Regs → Bool) (o : Ops)
    (s : Machine D) :
    (∃ r, (Body.branchLikely mbz link cond o).run P s =
      .ok () { s with cpu := { s.cpu with
        toRegs := r, brTarget := s.cpu.pc + 8, pc := s.cpu.pc + 4 } }) ∨
    ∃ e t, (Body.branchLikely mbz link cond o).run P s = .error e t ∧
      Flow P s (.error e t : EStateM.Result Stop (Machine D) Unit) := by
  have hassert := flows_instAssert P mbz s
  change (∃ r, branchLikely P mbz link cond o s = _) ∨
    ∃ e t, branchLikely P mbz link cond o s = _ ∧ _
  unfold branchLikely
  cases mbz with
  | false =>
    refine .inr ?_
    cases hr : instAssert P false s with
    | ok a t =>
      simp only [instAssert, Bool.false_eq_true, if_false] at hr
      split at hr
      · obtain ⟨_, _, _, hr⟩ := bind_eq_ok hr
        obtain ⟨_, _, _, hr⟩ := bind_eq_ok hr
        cases hr
      · cases hr
    | error e t =>
      rw [hr] at hassert
      exact ⟨e, t, bind_of_error hr _, hassert⟩
  | true =>
    rw [bind_of_ok (instAssert_true s), bind_of_ok (modifyRegs_apply s _),
      bind_of_ok (getCpu_apply _)]
    split
    · exact .inr ⟨_, _, rfl, ⟨rfl, .inl rfl⟩⟩
    · exact .inl ⟨link s.cpu, rfl⟩

/-- What any handler does to `pc` and to the decode cache: a likely branch that falls through has
    moved past its slot. -/
theorem body_flow (b : Body) (s : Machine D) :
    match b.run P s with
    | .ok _ u => u.cpu.pc = (if b.annuls then s.cpu.pc + 4 else s.cpu.pc) ∧
        (u.dc = s.dc ∨ u.dc = s.dc.clear)
    | .error e u => Flow P s (.error e u : EStateM.Result Stop (Machine D) Unit) := by
  cases ha : b.annuls with
  | false =>
    have hf := run_flow P ha s
    cases hr : b.run P s with
    | ok a u =>
      rw [hr] at hf
      exact ⟨hf.pc, hf.dc⟩
    | error e u =>
      rw [hr] at hf
      exact hf
  | true =>
    cases b with
    | branchLikely mbz link cond o =>
      obtain ⟨r, hr⟩ | ⟨e, t, hr, hf⟩ := branchLikely_flow P mbz link cond o s
      · rw [hr]
        exact ⟨rfl, .inl rfl⟩
      · rw [hr]
        exact hf
    | _ => cases ha

end Handlers

/-! ## Exceptions flush -/

theorem jump_not_ok (P : Platform D) (mbz : Bool) (link : CpuState → Regs)
    (target : CpuState → Word) (s u : Machine D) : jump P mbz link target s ≠ .ok () u := by
  intro h
  obtain ⟨_, _, -, h⟩ := bind_eq_ok h
  obtain ⟨_, _, -, h⟩ := bind_eq_ok h
  obtain ⟨_, _, -, h⟩ := bind_eq_ok h
  cases h

/-- A body that falls off its end has raised nothing, or it has raised an exception and flushed
    the decode cache; `eret` is pending without having raised anything. -/
theorem run_returns {P : Platform D} (hx : P.cfg.exception = true) {s u : Machine D}
    (hs : s.cpu.hasException = false) {b : Body} (hb : b.isInvEnd = false)
    (hu : b.run P s = .ok () u) :
    (b = .eret ∧ u = s.eret) ∨ (u.cpu.hasException = false ∧ u.raised = s.raised) ∨
      Raises s u ∧ u.dc = s.dc.clear := by
  by_cases ht : b.transfers = true
  · cases b with
    | branch mbz link target => exact absurd hu (jump_not_ok P mbz link target s u)
    | branchLikely mbz link cond o =>
      obtain ⟨r, hr⟩ | ⟨e, t, hr, -⟩ := branchLikely_flow P mbz link cond o s
      · rw [hr] at hu
        cases hu
        exact .inr (.inl ⟨hs, rfl⟩)
      · rw [hr] at hu
        cases hu
    | eret =>
      cases hu
      exact .inl ⟨rfl, rfl⟩
    | _ => cases ht
  · obtain hp | hp := run_plain_or_raises hx hs hb (Bool.eq_false_iff.2 ht) hu
    · exact .inr (.inl ⟨hp.hasException.trans hs, hp.raised⟩)
    · exact .inr (.inr hp)

end NemuMips32
