/-
  Runs of the emulator: `init_cpu` on a machine with zeroed static storage, then iterations
  of the loop, interleaved with device callbacks and new entries of `cpu_exec`.

  `initCpu_idle` and `hasException_iteration` give what holds at the top of the loop
  before and between iterations: no exception is pending.
-/
import NemuMips32.Board
import NemuMips32.Iteration

namespace NemuMips32

open StateExcept

variable {D : Type}

/-! ## Reset -/

/-- No exception is pending and no delay slot is open. -/
structure Idle (s : Machine D) : Prop where
  hasException : s.cpu.hasException = false
  isDelayslot : s.cpu.isDelayslot = false

/-- `kseg0` or `kseg1`. -/
def Unmapped (addr : Word) : Prop := (addr >>> 29).toNat = 4 ∨ (addr >>> 29).toNat = 5

instance (addr : Word) : Decidable (Unmapped addr) := inferInstanceAs (Decidable (_ ∨ _))

/-- The command line, with the `argv` array before it and the zero byte after it, is placed
    in `kseg0` or `kseg1`. Every defconfig puts it at 0xbfc10000. -/
def CmdlineUnmapped (cfg : Config) (cmdline : List (BitVec 8)) : Prop :=
  ∀ i ≤ cmdline.length + 8, Unmapped (cfg.cmdlineAddr + BitVec.ofNat 32 i)

instance (cfg : Config) (cmdline : List (BitVec 8)) : Decidable (CmdlineUnmapped cfg cmdline) :=
  inferInstanceAs (Decidable (∀ i ≤ _, _))

theorem faultOf_unmapped (P : Platform D) (s : Machine D) (rw : Access) {addr : Word}
    (h : Unmapped addr) : s.faultOf P rw addr = none := by
  have ht : P.translate s.toArch addr rw = .ok (ioremap addr) false := by
    unfold Platform.translate
    obtain h | h := h
    · simp only [h]
    · simp only [h]
  unfold Machine.faultOf
  rw [ht]
  split <;> rfl

theorem vaddrWrite_idle (P : Platform D) {addr : Word} (h : Unmapped addr) (len : Nat)
    (data : Word) : Preserves Idle (vaddrWrite P addr len data) := by
  intro s a t hs ht
  have hq := vaddrWrite_quiet (faultOf_unmapped P s .store h) len data
  rw [ht] at hq
  obtain ⟨x, m, mc, rfl, -⟩ := hq
  exact ⟨hs.hasException, hs.isDelayslot⟩

theorem add_ofNat_assoc (addr : Word) (i j : Nat) :
    addr + BitVec.ofNat 32 i + BitVec.ofNat 32 j = addr + BitVec.ofNat 32 (i + j) := by
  rw [BitVec.add_assoc, BitVec.ofNat_add]

theorem storeCmdline_idle (P : Platform D) (bs : List (BitVec 8)) {addr : Word}
    (h : ∀ i ≤ bs.length, Unmapped (addr + BitVec.ofNat 32 i)) :
    Preserves Idle (storeCmdline P addr bs) := by
  induction bs generalizing addr with
  | nil => exact vaddrWrite_idle P (BitVec.add_zero addr ▸ h 0 (Nat.le_refl 0)) 1 0
  | cons b bs ih =>
    refine preserves_bind (vaddrWrite_idle P (BitVec.add_zero addr ▸ h 0 (Nat.zero_le _)) 1 _)
      fun _ => ih fun i hi => ?_
    have hsum := add_ofNat_assoc addr 1 i
    rw [Nat.add_comm] at hsum
    exact hsum ▸ h (i + 1) (Nat.succ_le_succ hi)

theorem initCpu_idle (P : Platform D) (entry : Word) {cmdline : List (BitVec 8)}
    (hc : CmdlineUnmapped P.cfg cmdline) : Preserves Idle (initCpu P entry cmdline) := by
  have hargv : Unmapped P.cfg.cmdlineAddr :=
    BitVec.add_zero P.cfg.cmdlineAddr ▸ hc 0 (Nat.zero_le _)
  refine preserves_bind (preserves_modify fun s hs => ⟨hs.hasException, hs.isDelayslot⟩) fun _ =>
    preserves_bind (preserves_modify fun s hs => ⟨hs.hasException, hs.isDelayslot⟩) fun _ =>
    preserves_bind (preserves_modify fun s hs => ⟨hs.hasException, hs.isDelayslot⟩) fun _ =>
    preserves_ite (fun _ => ?_) fun _ => preserves_pure ()
  refine preserves_bind (vaddrWrite_idle P hargv 4 _) fun _ =>
    preserves_bind (vaddrWrite_idle P (hc 4 (by omega)) 4 _) fun _ =>
    preserves_bind (storeCmdline_idle P cmdline fun i hi => ?_) fun _ =>
    preserves_modify fun s hs => ⟨hs.hasException, hs.isDelayslot⟩
  have hsum := add_ofNat_assoc P.cfg.cmdlineAddr 8 i
  exact hsum ▸ hc (8 + i) (by omega)

/-- `init_cpu` has brought the emulator to `s`. -/
def Booted (P : Platform D) (s : Machine D) : Prop :=
  ∃ ram dev entry cmdline, CmdlineUnmapped P.cfg cmdline ∧
    initCpu P entry cmdline (Machine.boot ram dev) = .ok () s

theorem booted_started {P : Platform Unit} (code : List Word) (hc : CmdlineUnmapped P.cfg [])
    (hi : isOk (initCpu P 0x80001000 [] (Machine.boot (image code) ())) = true) :
    Booted P (started P code) :=
  ⟨_, (), 0x80001000, [], hc, eq_ok_of_isOk hi⟩

theorem Booted.idle {P : Platform D} {s : Machine D} (h : Booted P s) : Idle s := by
  obtain ⟨ram, dev, entry, cmdline, hc, hi⟩ := h
  exact initCpu_idle P entry hc _ _ _ ⟨rfl, rfl⟩ hi

/-! ## Runs -/

/-- The states of the run that starts with `init_cpu` and then takes the given inputs, for
    as long as the emulator runs. -/
def states (P : Platform D) (ram : Memory) (dev : D) (entry : Word) (cmdline : List (BitVec 8))
    (is : List (Input D)) : List (Machine D) :=
  match initCpu P entry cmdline (Machine.boot ram dev) with
  | .ok _ s => s :: trace (step P) s is
  | .error _ _ => []

/-- What `init_cpu` brings about and every step keeps holds in every state of a run. -/
theorem states_keep {P : Platform D} {I : Machine D → Prop} {ram : Memory} {dev : D}
    {entry : Word} {cmdline : List (BitVec 8)}
    (h0 : ∀ s, initCpu P entry cmdline (Machine.boot ram dev) = .ok () s → I s)
    (h : ∀ {s s' i}, I s → step P s i = some s' → I s') (is : List (Input D)) :
    ∀ s ∈ states P ram dev entry cmdline is, I s := by
  unfold states
  split
  · rename_i s hs
    intro t ht
    rcases List.mem_cons.1 ht with rfl | ht
    · exact h0 _ hs
    · exact trace_keeps h (h0 s hs) is t ht
  · intro t ht
    cases ht

/-- How that run ends, if one of the inputs ends it. -/
def runEnd (P : Platform D) (ram : Memory) (dev : D) (entry : Word) (cmdline : List (BitVec 8))
    (is : List (Input D)) : Option Stop :=
  match initCpu P entry cmdline (Machine.boot ram dev) with
  | .ok _ s => ending (step P) (stop P) s is
  | .error e _ => some e

/-- The runs from `s₀` whose iterations all start in `ok`: the last iteration made, if any,
    and the state reached. -/
inductive Run (P : Platform D) (ok : Machine D → Prop) (s₀ : Machine D) :
    Option (Machine D × Machine D) → Machine D → Prop where
  | start : Run P ok s₀ none s₀
  | iterate {last s s'} (h : Run P ok s₀ last s) (hok : ok s)
    (hi : iteration P s = .ok () s') : Run P ok s₀ (some (s, s')) s'
  | host {last s} (h : Run P ok s₀ last s) (f : DevCtx D → DevCtx D) :
    Run P ok s₀ last { s with toArch := s.putDev (f s.devCtx) }
  | enter {last s s'} (h : Run P ok s₀ last s) (he : enterLoop P s = .ok () s') :
    Run P ok s₀ last s'

/-- The state after `n` iterations, if none of them ends the emulator. -/
def after (P : Platform D) : Nat → Machine D → Machine D
  | 0, s => s
  | n + 1, s => final (iteration P (after P n s))

theorem run_after {P : Platform D} {ok : Machine D → Prop} {s : Machine D} (n : Nat)
    (hok : ∀ i ≤ n, ok (after P i s)) (hi : ∀ i ≤ n, isOk (iteration P (after P i s)) = true) :
    Run P ok s (some (after P n s, after P (n + 1) s)) (after P (n + 1) s) := by
  induction n with
  | zero => exact Run.start.iterate (hok 0 (Nat.le_refl 0)) (eq_ok_of_isOk (hi 0 (Nat.le_refl 0)))
  | succ n ih =>
    have h := ih (fun i hn => hok i (by omega)) (fun i hn => hi i (by omega))
    exact h.iterate (hok _ (Nat.le_refl _)) (eq_ok_of_isOk (hi _ (Nat.le_refl _)))

theorem enterLoop_shape {P : Platform D} {s s' : Machine D} (h : enterLoop P s = .ok () s') :
    ∃ c, s' = { s with nemuState := .running, dc := c } := by
  unfold enterLoop setNemuState at h
  rw [bind_of_ok (modifyArch_apply s _)] at h
  split at h
  · rw [bind_of_ok (getCpu_apply _)] at h
    obtain ⟨_, c, -, hc⟩ | hc := onDecodeCache_cases
      (fun c => (c.fetch s.cpu.pc).map fun c => ((), c))
      ({ s with toArch := { s.toArch with nemuState := .running } } : Machine D)
    · unfold decodeCacheFetch at h
      rw [hc] at h
      cases h
      exact ⟨c, rfl⟩
    · unfold decodeCacheFetch at h
      rw [hc] at h
      cases h
  · cases h
    exact ⟨s.dc, rfl⟩

theorem enterLoop_cpu {P : Platform D} {s s' : Machine D} (h : enterLoop P s = .ok () s') :
    s'.cpu = s.cpu := by
  obtain ⟨c, rfl⟩ := enterLoop_shape h
  rfl

/-- The exception check leaves nothing pending. -/
theorem hasException_settle (P : Platform D) (s : Machine D) :
    (s.settle P).cpu.hasException = false := by
  unfold Machine.settle
  split
  · rfl
  · split
    · rfl
    · rw [hasException_tick]
      exact Bool.eq_false_iff.2 ‹_›

theorem hasException_iteration {P : Platform D} (hx : P.cfg.exception = true)
    {s s' : Machine D} (h : iteration P s = .ok () s') : s'.cpu.hasException = false := by
  rw [iteration_apply hx] at h
  cases ht : execInst P s with
  | error e t => rw [ht] at h; cases h
  | ok a t =>
    rw [ht] at h
    cases h
    exact hasException_settle P t

theorem Run.hasException {P : Platform D} (hx : P.cfg.exception = true) {ok : Machine D → Prop}
    {s₀ s : Machine D} {last : Option (Machine D × Machine D)} (h0 : Booted P s₀)
    (h : Run P ok s₀ last s) : s.cpu.hasException = false := by
  induction h with
  | start => exact h0.idle.hasException
  | iterate _ _ hi _ => exact hasException_iteration hx hi
  | host _ f ih => exact ih
  | enter _ he ih => rw [enterLoop_cpu he]; exact ih

end NemuMips32
