/-
  The delay-slot flag over whole runs. At the top of the loop `is_delayslot` should be set
  exactly when the iteration before ended in `prepare_delayslot` and took no exception
  (`SlotFlag`).

  `raise_exception` clears the flag only where it records EPC, and `inst_end`, which would
  clear it too, is skipped by the `goto exit` of a failed check. So with EXL set an
  instruction in a delay slot that fails its must-be-zero or alignment check leaves the flag
  set at the vector (`KeepsFlag`), and the first instruction of the handler is followed by
  the vector again. Nothing else goes wrong: the invariant is kept by every other iteration,
  device callback and entry of `cpu_exec`.
-/
import NemuMips32.Run
import NemuMips32.Board

namespace NemuMips32

open StateExcept

variable {D : Type}

/-- The iteration from `p` to `q` ran a branch or jump at the address before `pc` that ended
    in `prepare_delayslot`, and took no exception. -/
def EndsInSlot (P : Platform D) (p q : Machine D) (pc : Word) : Prop :=
  ∃ h o t u, Entered P p h o t ∧ exec P o h t = .error .delayslot u ∧
    p.cpu.pc = pc - 4 ∧ newRaised p q = []

/-- An instruction in a delay slot fails a check while EXL is set, in the build that looks
    at EXL. -/
def KeepsFlag (P : Platform D) (s : Machine D) : Prop :=
  P.cfg.march ≠ .noop ∧ s.cpu.cp0.status.EXL = true ∧ s.cpu.isDelayslot = true ∧
    ∃ h o t, Entered P s h o t ∧ (body P o h).rejects t.cpu = true

/-- What holds at the top of the loop in state `s`, after the iteration `last`. -/
structure SlotFlag (P : Platform D) (last : Option (Machine D × Machine D)) (s : Machine D) :
    Prop where
  flag : s.cpu.isDelayslot = true ↔
    ∃ p q, last = some (p, q) ∧ EndsInSlot P p q s.cpu.pc
  vector : ∀ p q, last = some (p, q) → newRaised p q ≠ [] →
    s.cpu.isDelayslot = false ∧
    ∀ h o t s', Entered P s h o t → (body P o h).transfers = false →
      iteration P s = .ok () s' → newRaised s s' = [] →
      s'.cpu.pc = s.cpu.pc + 4 ∧ s'.cpu.isDelayslot = false

/-! ## The flag after each part of an iteration -/

theorem isDelayslot_raise_of_false {P : Platform D} {s : Machine D}
    (h : s.cpu.isDelayslot = false) (e : Exception) :
    (s.raise P e).cpu.isDelayslot = false := by
  simp [Machine.raise, Arch.raise, CpuState.raise, h]

theorem isDelayslot_raise_of_records {P : Platform D} (hx : P.cfg.exception = true)
    {s : Machine D} (h : s.cpu.recordsEpc P.cfg = true) (e : Exception) :
    (s.raise P e).cpu.isDelayslot = false := by
  simp [Machine.raise, Arch.raise, CpuState.raise, h, delayslot_of_exception hx]

/-- An interrupt is only taken with EXL clear, and then it clears the flag. -/
theorem recordsEpc_of_takesIntr (cfg : Config) {c : CpuState} (h : c.cp0.takesIntr = true) :
    c.recordsEpc cfg = true := by
  have hl : c.cp0.status.EXL = false := by
    unfold Cp0.takesIntr at h
    cases hl : c.cp0.status.EXL with
    | false => rfl
    | true => simp [hl] at h
  simp [CpuState.recordsEpc, hl]

theorem aligned_of_sub {pc : Word} (h : pc - 4 &&& 3 = 0) : pc &&& 3 = 0 := by
  have h3 : ∀ x : Word, x &&& 3 = 0 ↔ x.toNat % 4 = 0 := by
    intro x
    rw [← BitVec.toNat_inj, BitVec.toNat_and, show (3 : Word).toNat = 2 ^ 2 - 1 from rfl,
      Nat.and_two_pow_sub_one_eq_mod]
    rfl
  rw [h3] at h ⊢
  rw [BitVec.toNat_sub] at h
  have := pc.isLt
  have h4 : (4 : Word).toNat = 4 := rfl
  omega

section Iterations

variable {P : Platform D} (hx : P.cfg.exception = true)
include hx

theorem isDelayslot_settle {s : Machine D} (h : s.cpu.isDelayslot = false) :
    (s.settle P).cpu.isDelayslot = false := by
  unfold Machine.settle
  split
  · exact h
  · split
    · exact isDelayslot_raise_of_records hx (recordsEpc_of_takesIntr P.cfg ‹_›) ⟨.none, .INTR⟩
    · rw [isDelayslot_tick, h]

omit hx in
/-- The iteration did not end in `prepare_delayslot` if its handler returned otherwise. -/
theorem not_endsInSlot {s s' t : Machine D} {h : Handler} {o : Ops} (he : Entered P s h o t)
    (hr : ∀ u, exec P o h t ≠ .error .delayslot u) (pc : Word) : ¬ EndsInSlot P s s' pc := by
  rintro ⟨h', o', t', u, he', hu, -, -⟩
  obtain ⟨rfl, rfl, rfl⟩ := he.unique he'
  exact hr u hu

/-- The flag that an exception pending at `exit` leaves behind. -/
theorem isDelayslot_of_exit {s t u : Machine D} {h : Handler} {o : Ops}
    (hs : s.cpu.hasException = false) (hk : ¬ KeepsFlag P s) (he : Entered P s h o t)
    (hr : exec P o h t = .error .exit u) :
    u.cpu.isDelayslot = false ∧ u.cpu.hasException = true := by
  have hb := run_stopsBy hx (he.hasException.trans hs) (body_isInvEnd hx o h)
  change StopsBy P _ t (exec P o h t) at hb
  rw [hr] at hb
  obtain ⟨hrej, r, bad, e, rfl⟩ := hb
  obtain ⟨-, hflag, hst⟩ := he.cpu
  refine ⟨?_, rfl⟩
  by_cases hslot : s.cpu.isDelayslot = true
  · refine isDelayslot_raise_of_records hx ?_ e
    by_contra hrec
    refine hk ⟨?_, ?_, hslot, h, o, t, he, hrej⟩
    · intro hm
      exact hrec (by simp [CpuState.recordsEpc, hm])
    · cases hl : s.cpu.cp0.status.EXL with
      | true => rfl
      | false =>
        refine absurd ?_ hrec
        change (P.cfg.march == .noop || !t.cpu.cp0.status.EXL) = true
        simp [hst, hl]
  · exact isDelayslot_raise_of_false (hflag.trans (Bool.eq_false_iff.2 hslot)) e

/-- A branch that asked for its slot: the flag is set unless an interrupt came. -/
theorem endsInSlot_iff {s s' t u : Machine D} {h : Handler} {o : Ops}
    (hs : s.cpu.hasException = false) (he : Entered P s h o t)
    (hr : exec P o h t = .error .delayslot u) (hi : iteration P s = .ok () s') :
    s'.cpu.isDelayslot = true ↔ EndsInSlot P s s' s'.cpu.pc := by
  have hb := run_stopsBy hx (he.hasException.trans hs) (body_isInvEnd hx o h)
  change StopsBy P _ t (exec P o h t) at hb
  rw [hr] at hb
  obtain ⟨-, r, a, rfl⟩ := hb
  have hexc : (t.branchTo r a).inSlot.cpu.hasException = false := he.hasException.trans hs
  constructor
  · intro hflag
    rw [iteration_of_slot hx he hr] at hi
    cases hi
    unfold Machine.settle at hflag ⊢
    rw [if_neg (by simp [hexc])] at hflag ⊢
    split at hflag
    · have := isDelayslot_raise_of_records hx (recordsEpc_of_takesIntr P.cfg ‹_›)
        ⟨.none, .INTR⟩
      exact absurd (hflag.symm.trans this) (by decide)
    · rw [if_neg ‹_›]
      refine ⟨h, o, t, _, he, hr, ?_, ?_⟩
      · rw [pc_tick]
        change s.cpu.pc = t.cpu.pc + 4 - 4
        rw [he.cpu.1, BitVec.add_sub_cancel]
      · have hra : (t.branchTo r a).inSlot.raised = s.raised := he.raised
        rw [newRaised, raised_tick, hra, List.drop_length]
  · rintro ⟨_, _, _, _, -, -, -, hn⟩
    rw [iteration_slot hx hs he hi hn hr, isDelayslot_tick]
    rfl

/-- One iteration. The flag implies an aligned `pc`, because a branch has one. -/
theorem iteration_slotFlag {s s' : Machine D} (hs : s.cpu.hasException = false)
    (ha : s.cpu.isDelayslot = true → s.cpu.pc &&& 3 = 0) (hk : ¬ KeepsFlag P s)
    (hi : iteration P s = .ok () s') :
    s'.cpu.isDelayslot = true ↔ EndsInSlot P s s' s'.cpu.pc := by
  have hfalse : s'.cpu.isDelayslot = false → ¬ EndsInSlot P s s' s'.cpu.pc →
      (s'.cpu.isDelayslot = true ↔ EndsInSlot P s s' s'.cpu.pc) := by
    intro h1 h2
    rw [h1]
    exact ⟨fun h => absurd h (by decide), fun h => absurd h h2⟩
  have hi' := hi
  rw [iteration_apply hx] at hi'
  obtain ⟨why, t, he, -⟩ | ⟨hpc, he⟩ | ⟨-, f, c, he⟩ | ⟨h, o, t, hf⟩ := execInst_cases hx s
  · rw [he] at hi'
    cases hi'
  · rw [he] at hi'
    cases hi'
    refine hfalse (isDelayslot_settle hx (isDelayslot_raise_of_false ?_ _)) ?_
    · exact Bool.eq_false_iff.2 fun h => hpc (ha h)
    · rintro ⟨_, _, _, _, hf, -, -, -⟩
      exact hpc hf.aligned
  · rw [he] at hi'
    cases hi'
    refine hfalse (isDelayslot_settle hx (isDelayslot_instEnd _)) ?_
    rintro ⟨_, _, _, _, -, -, -, hn⟩
    refine newRaised_of_raises (P := P) ?_ hn
    exact ⟨hasException_instEnd _, _, List.cons_ne_nil _ [], raised_raise ..⟩
  · rw [execInst_of_entered hf] at hi'
    unfold dispatch at hi'
    cases hr : exec P o h t with
    | ok a u =>
      refine hfalse ?_ (not_endsInSlot hf (by simp [hr]) _)
      simp only [hr] at hi'
      obtain ⟨c, hc⟩ | ⟨v, hv, -⟩ := instEnd_cases hx h u
      · rw [hc] at hi'
        cases hi'
        exact isDelayslot_settle hx (isDelayslot_instEnd u)
      · rw [hv] at hi'
        cases hi'
    | error e u =>
      cases e with
      | exit =>
        refine hfalse ?_ (not_endsInSlot hf (by simp [hr]) _)
        simp only [hr] at hi'
        cases hi'
        exact isDelayslot_settle hx (isDelayslot_of_exit hx hs hk hf hr).1
      | delayslot => exact endsInSlot_iff hx hs hf hr hi
      | halt why =>
        simp only [hr] at hi'
        cases hi'

/-- Outside a delay slot an instruction that is no transfer and raises nothing is followed
    by the next one. -/
theorem iteration_next {s s' t : Machine D} {h : Handler} {o : Ops}
    (hs : s.cpu.hasException = false) (hd : s.cpu.isDelayslot = false)
    (hf : Entered P s h o t) (ht : (body P o h).transfers = false)
    (hi : iteration P s = .ok () s') (hn : newRaised s s' = []) :
    s'.cpu.pc = s.cpu.pc + 4 ∧ s'.cpu.isDelayslot = false := by
  obtain ⟨u, c, hp, rfl⟩ := iteration_plain hx hs hf hi hn ht
  rw [pc_tick, isDelayslot_tick]
  refine ⟨?_, isDelayslot_instEnd u⟩
  change u.instEnd.cpu.pc = s.cpu.pc + 4
  rw [pc_instEnd_of_not_slot (hp.isDelayslot.trans (hf.cpu.2.1.trans hd)), hp.pc, hf.cpu.1]

end Iterations

/-! ## Runs -/

section Runs

variable {P : Platform D} (hx : P.cfg.exception = true) {s₀ s : Machine D}
  {last : Option (Machine D × Machine D)}
include hx

theorem flag_run (h0 : Booted P s₀) (h : Run P (fun s => ¬ KeepsFlag P s) s₀ last s) :
    s.cpu.isDelayslot = true ↔ ∃ p q, last = some (p, q) ∧ EndsInSlot P p q s.cpu.pc := by
  induction h with
  | start =>
    rw [h0.idle.isDelayslot]
    exact ⟨fun h => absurd h (by decide), fun ⟨_, _, h, _⟩ => by cases h⟩
  | @iterate last s s' h hk hi ih =>
    have ha : s.cpu.isDelayslot = true → s.cpu.pc &&& 3 = 0 := by
      intro hd
      obtain ⟨p, q, -, _, _, _, _, he, -, hpc, -⟩ := ih.1 hd
      have hal := he.aligned
      rw [hpc] at hal
      exact aligned_of_sub hal
    have hstep := iteration_slotFlag hx (h.hasException hx h0) ha hk hi
    constructor
    · exact fun hd => ⟨s, s', rfl, hstep.1 hd⟩
    · rintro ⟨p, q, hpq, hp⟩
      cases hpq
      exact hstep.2 hp
  | host _ f ih => exact ih
  | enter _ he ih =>
    rw [enterLoop_cpu he]
    exact ih

/-- The flag invariant holds in every state of a run that never keeps the flag over an
    exception. -/
theorem slotFlag_run (h0 : Booted P s₀) (h : Run P (fun s => ¬ KeepsFlag P s) s₀ last s) :
    SlotFlag P last s where
  flag := flag_run hx h0 h
  vector := by
    intro p q hpq hn
    have hd : s.cpu.isDelayslot = false := by
      refine Bool.eq_false_iff.2 fun hd => ?_
      obtain ⟨p', q', hpq', _, _, _, _, -, -, -, hn'⟩ := (flag_run hx h0 h).1 hd
      cases hpq.symm.trans hpq'
      exact hn hn'
    exact ⟨hd, fun h' o t s' hf ht hi hn' =>
      iteration_next hx (h.hasException hx h0) hd hf ht hi hn'⟩

end Runs

/-- `ori $2, $0, 2; mtc0 $2, Status; beq $0, $0, 0; lw $3, 1($0)`: a misaligned load in a
    delay slot with EXL set. -/
def exlDemo : Machine Unit :=
  started mips32r1 [0x34020002, 0x40826000, 0x10000000, 0x8C030001]

theorem booted_exlDemo : Booted mips32r1 exlDemo :=
  booted_started _ (by decide) (by decide +kernel)

/-- Up to the branch the flag is as it should be. -/
theorem slotFlag_run_exlDemo :
    SlotFlag mips32r1 (some (after mips32r1 2 exlDemo, after mips32r1 3 exlDemo))
      (after mips32r1 3 exlDemo) := by
  have hd : ∀ i ≤ 2, (after mips32r1 i exlDemo).cpu.isDelayslot = false := by decide +kernel
  refine slotFlag_run rfl booted_exlDemo (run_after 2 (fun i hi hk => ?_) (by decide +kernel))
  exact absurd ((hd i hi).symm.trans hk.2.2.1) (by decide)

/-- After the load the flag is set at the vector. -/
theorem not_slotFlag_exlDemo : ¬ ∀ (s₀ s : Machine Unit)
    (last : Option (Machine Unit × Machine Unit)), Booted mips32r1 s₀ →
      Run mips32r1 (fun _ => True) s₀ last s → SlotFlag mips32r1 last s := by
  intro h
  have hs := h _ _ _ booted_exlDemo (run_after 3 (fun _ _ => trivial) (by decide +kernel))
  have hn : newRaised (after mips32r1 3 exlDemo) (after mips32r1 4 exlDemo) ≠ [] := by
    decide +kernel
  exact absurd (hs.vector _ _ rfl hn).1 (by decide +kernel)

end NemuMips32
