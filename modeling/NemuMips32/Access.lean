/-
  The memory accesses of the CPU, by outcome. `Machine.faultOf` decides whether an access
  faults; if it does, the exception is all it leaves behind (`vaddrRead_of_fault`,
  `vaddrWrite_of_fault`), and if not, it raises nothing and keeps the CPU apart from the
  interrupt lines that a device drives (`vaddrRead_quiet`, `vaddrWrite_quiet`).
-/
import NemuMips32.Translate

namespace NemuMips32

open StateExcept

variable {D : Type} {α : Type}

/-! ## Outcomes -/

/-- The TLB fault of an access, if it has one. -/
def Machine.faultOf (P : Platform D) (s : Machine D) (rw : Access) (addr : Word) :
    Option TlbFault :=
  if s.cached P rw addr then none
  else
    match P.translate s.toArch addr rw with
    | .fault f => some f
    | _ => none

/-- The machine after an access that raised nothing. -/
def Machine.access (s : Machine D) (x : DevCtx D) (m : Memory)
    (mc : BitVec 12 → MmuCacheEntry) : Machine D :=
  { s with toArch := { s.putDev x with ram := m }, mmuCache := mc }

theorem access_self (s : Machine D) : s.access s.devCtx s.ram s.mmuCache = s := rfl

/-- The result of an access that raised nothing; a load keeps RAM. -/
def Quiet (rw : Access) (s : Machine D) : EStateM.Result Stop (Machine D) α → Prop
  | .ok _ s' => ∃ x m mc, s' = s.access x m mc ∧ (rw = .load → m = s.ram)
  | .error e s' => (∃ why, e = .halt why) ∧ s'.toArch = s.toArch

theorem quiet_ok (rw : Access) (a : α) (s : Machine D) : Quiet rw s (.ok a s) :=
  ⟨_, _, _, (access_self s).symm, fun _ => rfl⟩

theorem quiet_halt (rw : Access) (why : Halt) (s : Machine D) :
    Quiet rw s (.error (.halt why) s : EStateM.Result Stop (Machine D) α) := ⟨⟨why, rfl⟩, rfl⟩

theorem quiet_void {rw : Access} {m : Exec D α} {s : Machine D} (h : Quiet rw s (m s)) :
    Quiet rw s ((m >>= fun _ => pure ()) s) := by
  rw [bind_apply]
  cases hr : m s with
  | ok a t => rw [hr] at h; exact h
  | error e t => rw [hr] at h; exact h

/-- The MMU cache does not matter to a quiet result. -/
theorem quiet_of_mmuCache {rw : Access} {s : Machine D} {mc : BitVec 12 → MmuCacheEntry}
    {r : EStateM.Result Stop (Machine D) α} (h : Quiet rw { s with mmuCache := mc } r) :
    Quiet rw s r := by
  cases r with
  | ok a s' =>
    obtain ⟨x, m, mc', rfl, hm⟩ := h
    exact ⟨x, m, mc', rfl, hm⟩
  | error e s' => exact h

/-! ## Devices -/

theorem ramRead_quiet (r : Ram) (addr : Word) (len : Nat) (s : Machine D) :
    Quiet .load s (ramRead r addr len s) := by
  simp only [ramRead, bind_apply, ite_run, halt_apply, pure_apply, get_apply]
  split
  · exact quiet_ok _ _ s
  · exact quiet_halt _ _ s

theorem ramWrite_quiet (r : Ram) (addr : Word) (len : Nat) (data : Word) (s : Machine D) :
    Quiet .store s (ramWrite r addr len data s) := by
  by_cases hc : checkIoaddr addr len r.size = true
  · simp only [ramWrite, hc]
    exact ⟨s.devCtx, _, s.mmuCache, rfl, nofun⟩
  · simp only [ramWrite, hc]
    exact quiet_halt _ _ s

theorem devRead_quiet {P : Platform D} {d : DevName} {read : Word → Nat → Exec D Word}
    (h : P.devRead d = some read) (addr : Word) (len : Nat) (s : Machine D) :
    Quiet .load s (read addr len s) := by
  simp only [Platform.devRead] at h
  split at h
  · obtain rfl := Option.some.inj h
    exact ramRead_quiet ..
  · split at h
    · obtain rfl := Option.some.inj h
      exact quiet_ok _ _ s
    · obtain ⟨f, -, rfl⟩ := Option.map_eq_some_iff.1 h
      simp only [mmioRead]
      split
      · exact ⟨_, s.ram, s.mmuCache, rfl, fun _ => rfl⟩
      · exact quiet_halt _ _ s

theorem devWrite_quiet {P : Platform D} {d : DevName} {write : Word → Nat → Word → Exec D Unit}
    (h : P.devWrite d = some write) (addr : Word) (len : Nat) (data : Word) (s : Machine D) :
    Quiet .store s (write addr len data s) := by
  simp only [Platform.devWrite] at h
  split at h
  · obtain rfl := Option.some.inj h
    exact ramWrite_quiet ..
  · split at h
    · obtain rfl := Option.some.inj h
      exact quiet_ok _ _ s
    · obtain ⟨f, -, rfl⟩ := Option.map_eq_some_iff.1 h
      simp only [mmioWrite]
      split
      · exact ⟨_, _, s.mmuCache, rfl, nofun⟩
      · exact quiet_halt _ _ s

/-! ## Cached and uncached accesses -/

/-- `update_mmu_cache` touches nothing but the cache, and may fail its bounds check. -/
theorem updateMmuCache_cases (vaddr paddr : Word) (dev : Device) (w : Bool) (s : Machine D) :
    (∃ mc, updateMmuCache vaddr paddr dev w s = .ok () { s with mmuCache := mc }) ∨
      updateMmuCache vaddr paddr dev w s = .error (.halt .cpuAssert) s := by
  simp only [updateMmuCache, bind_apply, getCpu_apply, ite_run, pure_apply]
  split
  · exact .inl ⟨s.mmuCache, rfl⟩
  · cases dev.name.ram with
    | none => exact .inl ⟨s.mmuCache, rfl⟩
    | some r =>
      by_cases hc : checkIoaddr ((paddr &&& ~~~0xFFF) - dev.start) 0 r.size = true
      · exact .inl ⟨_, by simp only [devMap, hc, bind_apply]; rfl⟩
      · exact .inr (by simp only [devMap, hc, bind_apply]; rfl)

theorem quiet_updateMmuCache_bind {rw : Access} {f : Unit → Exec D α}
    (h : ∀ s, Quiet rw s (f () s))
    (vaddr paddr : Word) (dev : Device) (w : Bool) (s : Machine D) :
    Quiet rw s ((updateMmuCache vaddr paddr dev w >>= f) s) := by
  obtain ⟨mc, hu⟩ | hu := updateMmuCache_cases vaddr paddr dev w s
  · rw [bind_of_ok hu]
    exact quiet_of_mmuCache (h _)
  · rw [bind_of_error hu]
    exact quiet_halt _ _ s

theorem readPaddr_quiet (P : Platform D) (addr paddr : Word) (dirty : Bool) (len : Nat)
    (s : Machine D) : Quiet .load s (readPaddr P addr paddr dirty len s) := by
  unfold readPaddr
  cases P.findDevice paddr with
  | none => exact quiet_halt _ _ s
  | some dev =>
    cases hr : P.devRead dev.name with
    | none => simp only [hr]; exact quiet_halt _ _ s
    | some read =>
      simp only [hr]
      exact quiet_updateMmuCache_bind (fun s => devRead_quiet hr _ _ s) ..

theorem writePaddr_quiet (P : Platform D) (addr paddr : Word) (len : Nat) (data : Word)
    (s : Machine D) : Quiet .store s (writePaddr P addr paddr len data s) := by
  unfold writePaddr
  cases P.findDevice paddr with
  | none => exact quiet_halt _ _ s
  | some dev =>
    cases hr : P.devWrite dev.name with
    | none => simp only [hr]; exact quiet_halt _ _ s
    | some write =>
      simp only [hr]
      exact quiet_updateMmuCache_bind (fun s => devWrite_quiet hr _ _ _ s) ..

theorem hostRead_quiet (ptr : Option (Ram × Word)) (off : Word) (len : Nat) (s : Machine D) :
    Quiet .load s (hostRead ptr off len s) := by
  cases ptr with
  | none => exact quiet_halt _ _ s
  | some p =>
    by_cases hc : hostInBounds p.1 (p.2 + off) len = true
    · simp only [hostRead, hc]
      exact quiet_ok _ _ s
    · simp only [hostRead, hc]
      exact quiet_halt _ _ s

theorem hostWrite_quiet (ptr : Option (Ram × Word)) (off : Word) (len : Nat) (data : Word)
    (s : Machine D) : Quiet .store s (hostWrite ptr off len data s) := by
  cases ptr with
  | none => exact quiet_halt _ _ s
  | some p =>
    by_cases hc : hostInBounds p.1 (p.2 + off) len = true
    · simp only [hostWrite, hc]
      exact ⟨s.devCtx, _, s.mmuCache, rfl, nofun⟩
    · simp only [hostWrite, hc]
      exact quiet_halt _ _ s

/-! ## The accesses of the CPU -/

theorem faultOf_eq_some {P : Platform D} {s : Machine D} {rw : Access} {addr : Word}
    {f : TlbFault} (h : s.faultOf P rw addr = some f) :
    ¬ s.cached P rw addr ∧ P.translate s.toArch addr rw = .fault f := by
  unfold Machine.faultOf at h
  split at h
  · cases h
  · rename_i hc
    split at h
    · rename_i f' hf
      obtain rfl := Option.some.inj h
      exact ⟨hc, hf⟩
    · cases h

theorem faultOf_code {P : Platform D} {s : Machine D} {rw : Access} {addr : Word}
    {f : TlbFault} (h : s.faultOf P rw addr = some f) : f.code ≠ .INTR := by
  obtain hc | hc := translate_code (faultOf_eq_some h).2
  · cases rw <;> rw [hc] <;> decide
  · rw [hc]
    decide

theorem vaddrRead_of_fault {P : Platform D} {s : Machine D} {addr : Word} {f : TlbFault}
    (h : s.faultOf P .load addr = some f) (len : Nat) :
    vaddrRead P addr len s = .ok 0 (s.fault P f addr) := by
  obtain ⟨hc, hf⟩ := faultOf_eq_some h
  rw [vaddrRead_eq, if_neg hc, hf]

theorem vaddrWrite_of_fault {P : Platform D} {s : Machine D} {addr : Word} {f : TlbFault}
    (h : s.faultOf P .store addr = some f) (len : Nat) (data : Word) :
    vaddrWrite P addr len data s = .ok () (s.fault P f addr) := by
  obtain ⟨hc, hf⟩ := faultOf_eq_some h
  rw [vaddrWrite_eq, if_neg hc, hf]

theorem vaddrRead_quiet {P : Platform D} {s : Machine D} {addr : Word}
    (h : s.faultOf P .load addr = none) (len : Nat) : Quiet .load s (vaddrRead P addr len s) := by
  rw [vaddrRead_eq]
  split
  · exact hostRead_quiet ..
  · rename_i hc
    unfold Machine.faultOf at h
    rw [if_neg hc] at h
    cases hv : P.translate s.toArch addr .load with
    | ok p d => exact readPaddr_quiet ..
    | fault f => simp [hv] at h
    | abort why => exact quiet_halt _ _ s

theorem vaddrWrite_quiet {P : Platform D} {s : Machine D} {addr : Word}
    (h : s.faultOf P .store addr = none) (len : Nat) (data : Word) :
    Quiet .store s (vaddrWrite P addr len data s) := by
  rw [vaddrWrite_eq]
  split
  · exact hostWrite_quiet ..
  · rename_i hc
    unfold Machine.faultOf at h
    rw [if_neg hc] at h
    cases hv : P.translate s.toArch addr .store with
    | ok p d => exact writePaddr_quiet ..
    | fault f => simp [hv] at h
    | abort why => exact quiet_halt _ _ s

end NemuMips32
