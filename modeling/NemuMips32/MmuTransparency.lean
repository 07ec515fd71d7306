/-
  Runs with and without the MMU cache. One iteration keeps `Sim`, unless it executes a `tlbr`
  whose entry belongs to another address space than EntryHi (`StaleTlbr`): that moves
  EntryHi.ASID under entries that were cached for the old one. So do device callbacks and
  entries of `cpu_exec`; over a run from `init_cpu` the two builds pass through the same
  architectural states. They also end the same way if no access that hits the cache runs past
  the end of its array (`Machine.overrun`): `ddr_write` would fail `check_ioaddr` there, while
  the cached path checks nothing.
-/
import NemuMips32.Exec.Simulation
import NemuMips32.Run
import NemuMips32.Board

namespace NemuMips32

open StateExcept

variable {D : Type}

/-! ## The parts of an iteration -/

section Parts

variable {P : Platform D} {s t : Machine D} {past : Prop}

theorem fetchInst_sim (hs : Sim P s t) (ho : s.overruns P .load s.cpu.pc 4 = true → past) :
    ResRel (SameStop past) (Sim P) (fetchInst P s) (fetchInst P.plain t) := by
  refine resRel_bindAt (getCpu_sim s t hs) fun c s₁ t₁ hc h₁ => ?_
  cases hc
  exact vaddrRead_sim h₁ _ _ ho

theorem makeEntry_sim (hd : P.cfg.decodeCache = false) (hs : Sim P s t)
    (ho : s.overruns P .load s.cpu.pc 4 = true → past) :
    ResRel (SameStop past) (Sim P) (makeEntry P s) (makeEntry P.plain t) := by
  have hd' : P.plain.cfg.decodeCache = false := rfl
  unfold makeEntry
  refine resRel_bindAt (modifyRegs_sim _ s t hs) fun _ s₁ t₁ hr h₁ => ?_
  cases hr
  rw [if_neg (by simp [hd]), if_neg (by simp [hd'])]
  exact resRel_bind (fetchInst_sim h₁ ho) fun _ => relates_pure _

theorem instEnd_sim (hd : P.cfg.decodeCache = false) (h : Handler) :
    Relates (SameStop past) (Sim P) (instEnd P h) (instEnd P.plain h) := by
  have hd' : P.plain.cfg.decodeCache = false := rfl
  unfold instEnd
  refine relates_ite (relates_bind getCpu_sim fun c => relates_ite ?_ ?_)
    (relates_ite (relates_pure ()) ?_)
  · refine relates_bind (modifyCpu_sim (fun _ => rfl) fun _ => rfl) fun _ => ?_
    rw [if_neg (by simp [hd]), if_neg (by simp [hd'])]
    exact modifyCpu_sim (fun _ => rfl) fun _ => rfl
  · exact modifyCpu_sim (fun _ => rfl) fun _ => rfl
  · exact modifyCpu_sim (fun _ => rfl) fun _ => rfl

theorem enterDelayslot_sim (hd : P.cfg.decodeCache = false) :
    Relates (SameStop past) (Sim P) (enterDelayslot P) (enterDelayslot P.plain) := by
  have hd' : P.plain.cfg.decodeCache = false := rfl
  unfold enterDelayslot
  refine relates_ite (modifyCpu_sim (fun _ => rfl) fun _ => rfl) ?_
  rw [if_neg (by simp [hd]), if_neg (by simp [hd'])]
  exact relates_pure ()

theorem exec_sim (hs : Sim P s t) {h : Handler} (o : Ops)
    (ht : P.Remaps → h = .tlbr →
      (s.tlb s.cpu.cp0.index.idx.toFin).asid = s.cpu.cp0.entryHi.asid)
    (ho : (body P o h).rejects s.cpu = false → (body P o h).overruns P s = true → past) :
    ResRel (SameStop past) (Sim P) (exec P o h s) (exec P.plain o h t) := by
  unfold exec
  rw [body_plain]
  exact run_sim _ hs (fun hr => keepsMapping_body P o (ht hr)) ho

theorem dispatch_sim (hd : P.cfg.decodeCache = false) (hs : Sim P s t) {h : Handler} (o : Ops)
    (ht : P.Remaps → h = .tlbr →
      (s.tlb s.cpu.cp0.index.idx.toFin).asid = s.cpu.cp0.entryHi.asid)
    (ho : (body P o h).rejects s.cpu = false → (body P o h).overruns P s = true → past) :
    ResRel (SameStop past) (Sim P) (dispatch P h o s) (dispatch P.plain h o t) := by
  have hx := exec_sim hs o ht ho
  unfold dispatch
  cases hxs : exec P o h s with
  | ok a u =>
    cases hxt : exec P.plain o h t with
    | ok b v =>
      rw [hxs, hxt] at hx
      exact instEnd_sim hd h u v hx.2
    | error e v => rw [hxs, hxt] at hx; exact hx.elim
  | error e u =>
    cases hxt : exec P.plain o h t with
    | ok b v => rw [hxs, hxt] at hx; exact hx.elim
    | error e' v =>
      rw [hxs, hxt] at hx
      obtain ⟨rfl | ⟨hover, rfl, rfl⟩, huv⟩ := hx
      · cases e with
        | exit => exact ⟨rfl, huv⟩
        | delayslot => exact enterDelayslot_sim hd u v huv
        | halt why => exact ⟨sameStop_refl _, huv⟩
      · exact ⟨.inr ⟨hover, rfl, rfl⟩, huv⟩

theorem tick_mapping (c : Cp0) :
    c.tick.entryHi.asid = c.entryHi.asid ∧ c.tick.status.ERL = c.status.ERL := by
  unfold Cp0.tick
  simp only
  split
  · exact ⟨rfl, rfl⟩
  · exact ⟨rfl, rfl⟩

theorem checkIntrs_sim : Relates (SameStop past) (Sim P) (checkIntrs P) (checkIntrs P.plain) := by
  have hraise : Relates (SameStop past) (Sim P)
      (getCpu >>= fun c => if c.cp0.takesIntr then raiseException P ⟨.none, .INTR⟩ else pure ())
      (getCpu >>= fun c =>
        if c.cp0.takesIntr then raiseException P.plain ⟨.none, .INTR⟩ else pure ()) :=
    relates_bind getCpu_sim fun c => relates_ite (raiseException_sim _) (relates_pure ())
  refine relates_ite (relates_bind ?_ fun _ => hraise) hraise
  exact modifyCp0_sim (fun c => (tick_mapping c).1) fun c => (tick_mapping c).2

theorem checkException_sim :
    Relates (SameStop past) (Sim P) (checkException P) (checkException P.plain) := by
  have henter : Relates (SameStop past) (Sim P)
      (getCpu >>= fun c => if c.hasException then
        modifyCpu fun c => { c with hasException := false, pc := c.brTarget } else pure ())
      (getCpu >>= fun c => if c.hasException then
        modifyCpu fun c => { c with hasException := false, pc := c.brTarget } else pure ()) := by
    refine relates_bind getCpu_sim fun c => relates_ite ?_ (relates_pure ())
    exact modifyCpu_sim (fun _ => rfl) fun _ => rfl
  refine relates_ite (relates_bind getCpu_sim fun c => ?_) (relates_pure ())
  exact relates_ite henter (relates_bind checkIntrs_sim fun _ => henter)

end Parts

/-! ## Steps -/

/-- A `tlbr` is executed whose entry belongs to another address space. -/
def StaleTlbr (P : Platform D) (s : Machine D) : Prop :=
  (∃ o t, Entered P s .tlbr o t) ∧
    (s.tlb s.cpu.cp0.index.idx.toFin).asid ≠ s.cpu.cp0.entryHi.asid

/-- The fetch of an iteration at `s`, or an access of the handler it goes to, hits the cache and
    runs past the end of the array behind it. -/
def Machine.overrun (P : Platform D) (s : Machine D) : Bool :=
  decide (s.cpu.pc &&& 3 = 0) &&
    (s.overruns P .load s.cpu.pc 4 ||
      okAnd (makeEntry P s) fun (h, o) t =>
        !(body P o h).rejects t.cpu && (body P o h).overruns P t)

theorem overrun_fetch {P : Platform D} {s : Machine D} (ha : s.cpu.pc &&& 3 = 0)
    (h : s.overruns P .load s.cpu.pc 4 = true) : s.overrun P = true := by
  simp only [Machine.overrun, ha, h, decide_true, Bool.true_or, Bool.and_self]

theorem overrun_body {P : Platform D} {s t : Machine D} {h : Handler} {o : Ops}
    (ha : s.cpu.pc &&& 3 = 0) (he : makeEntry P s = .ok (h, o) t)
    (hr : (body P o h).rejects t.cpu = false) (hb : (body P o h).overruns P t = true) :
    s.overrun P = true := by
  simp only [Machine.overrun, ha, he, okAnd, hr, hb, decide_true, Bool.not_false, Bool.and_self,
    Bool.or_true]

/-- A word that was fetched as `tlbr` raised nothing. -/
theorem entered_tlbr {P : Platform D} {s t : Machine D} {o : Ops}
    (ha : s.cpu.pc &&& 3 = 0) (he : makeEntry P s = .ok (.tlbr, o) t) :
    Entered P s .tlbr o t := by
  refine ⟨ha, he, ?_⟩
  obtain ⟨why, u, hu, -⟩ | ⟨f, o', c, hu, -⟩ | ⟨h, o', x, mc, c, hu⟩ := makeEntry_cases P s
  · rw [he] at hu
    cases hu
  · rw [he] at hu
    cases hu
  · rw [he] at hu
    cases hu
    rfl

section Steps

variable {P : Platform D} {s t : Machine D} {past : Prop} (hd : P.cfg.decodeCache = false)
include hd

theorem iteration_sim (hx : P.cfg.exception = true) (h : Sim P s t)
    (hk : P.Remaps → ¬ StaleTlbr P s) (ho : s.overrun P = true → past) :
    ResRel (SameStop past) (Sim P) (iteration P s) (iteration P.plain t) := by
  refine resRel_bind ?_ fun _ => checkException_sim
  have hc : t.cpu = s.cpu := congrArg Arch.cpu h.arch.symm
  by_cases ha : s.cpu.pc &&& 3 = 0
  · have ha' : t.cpu.pc &&& 3 = 0 := by rw [hc, ha]
    rw [execInst_of_aligned ha, execInst_of_aligned ha', bind_apply, bind_apply]
    have hm := makeEntry_sim hd h fun hover => ho (overrun_fetch ha hover)
    cases hms : makeEntry P s with
    | ok r u =>
      obtain ⟨h, o⟩ := r
      cases hmt : makeEntry P.plain t with
      | ok r' v =>
        rw [hms, hmt] at hm
        obtain ⟨rfl, huv⟩ := hm
        refine dispatch_sim hd huv o (fun hr ht => ?_) fun hr hb => ho (overrun_body ha hms hr hb)
        subst ht
        have he := entered_tlbr ha hms
        obtain ⟨x, mc, c, rfl⟩ := he.access
        exact not_not.1 fun hne => hk hr ⟨⟨o, _, he⟩, hne⟩
      | error e v => rw [hms, hmt] at hm; exact hm.elim
    | error e u =>
      cases hmt : makeEntry P.plain t with
      | ok r v => rw [hms, hmt] at hm; exact hm.elim
      | error e' v => rw [hms, hmt] at hm; exact hm
  · have ha' : t.cpu.pc &&& 3 ≠ 0 := by rw [hc]; exact ha
    have hx' : P.plain.cfg.exception = true := hx
    rw [execInst_of_misaligned hx ha, execInst_of_misaligned hx' ha', hc]
    have hb : Sim P (s.setBadvaddr s.cpu.pc) (t.setBadvaddr s.cpu.pc) := by
      refine h.of_arch ?_ ⟨rfl, rfl, rfl⟩ rfl
      exact congrArg (fun a : Arch D =>
        { a with cpu := { a.cpu with cp0 := { a.cpu.cp0 with badvaddr := s.cpu.pc } } }) h.arch
    exact ⟨rfl, sim_raise hb _⟩

theorem enterLoop_sim : Relates (SameStop past) (Sim P) (enterLoop P) (enterLoop P.plain) := by
  have hd' : P.plain.cfg.decodeCache = false := rfl
  unfold enterLoop setNemuState
  refine relates_bind (modifyArch_sim fun _ => ⟨rfl, rfl, rfl⟩) fun _ => ?_
  rw [if_neg (by simp [hd]), if_neg (by simp [hd'])]
  exact relates_pure ()

theorem step_sim (hx : P.cfg.exception = true) (i : Input D) (h : Sim P s t)
    (hk : i = .iterate → P.Remaps → ¬ StaleTlbr P s)
    (ho : i = .iterate → s.overrun P = true → past) :
    StepRel (SameStop past) (Sim P) (step P s i) (stop P s i) (step P.plain t i)
      (stop P.plain t i) := by
  cases i with
  | iterate => exact (iteration_sim hd hx h (hk rfl) (ho rfl)).endRel.step
  | host f =>
    refine ⟨h.of_arch ?_ ⟨rfl, rfl, rfl⟩ rfl, trivial⟩
    exact congrArg (fun a : Arch D => a.putDev (f a.devCtx)) h.arch
  | enter => exact (enterLoop_sim hd s t h).endRel.step

end Steps

/-! ## Reset -/

/-- A write of the string runs past the end of the array behind the entry it hits. -/
def cmdlineOverruns (P : Platform D) (addr : Word) : List (BitVec 8) → Machine D → Bool
  | [], s => s.overruns P .store addr 1
  | b :: bs, s =>
    s.overruns P .store addr 1 ||
      okAnd (vaddrWrite P addr 1 (b.setWidth 32) s) fun _ t => cmdlineOverruns P (addr + 1) bs t

/-- A write of `init_cpu` does, which begins to write at `s`. -/
def initOverruns (P : Platform D) (cmdline : List (BitVec 8)) (s : Machine D) : Bool :=
  let argv := P.cfg.cmdlineAddr
  decide (cmdline ≠ []) &&
    (s.overruns P .store argv 4 || okAnd (vaddrWrite P argv 4 (argv + 8) s) fun _ t =>
      t.overruns P .store (argv + 4) 4 || okAnd (vaddrWrite P (argv + 4) 4 0 t) fun _ u =>
        cmdlineOverruns P (argv + 8) cmdline u)

theorem storeCmdline_sim {P : Platform D} {past : Prop} (bs : List (BitVec 8)) {addr : Word}
    {s t : Machine D} (h : Sim P s t) (ho : cmdlineOverruns P addr bs s = true → past) :
    ResRel (SameStop past) (Sim P) (storeCmdline P addr bs s)
      (storeCmdline P.plain addr bs t) := by
  induction bs generalizing addr s t with
  | nil => exact vaddrWrite_sim h addr 1 0 ho
  | cons b bs ih =>
    simp only [cmdlineOverruns, Bool.or_eq_true] at ho
    refine resRel_bindAt (vaddrWrite_sim h _ _ _ fun h => ho (.inl h)) fun _ u v hw huv => ?_
    rw [hw] at ho
    exact ih huv fun h => ho (.inr h)

/-- `init_cpu` flushes the cache before it uses it. -/
theorem initCpu_sim (P : Platform D) {past : Prop} (entry : Word) (cmdline : List (BitVec 8))
    (s : Machine D) (ho : initOverruns P cmdline (final (initCpu P entry [] s)) = true → past) :
    ResRel (SameStop past) (Sim P) (initCpu P entry cmdline s)
      (initCpu P.plain entry cmdline s) := by
  unfold initCpu at ho ⊢
  rw [bind_of_ok (modifyCpu_apply s _), bind_of_ok (clearMmuCache_apply _),
    bind_of_ok (clearDecodeCache_apply _)] at ho
  rw [bind_of_ok (modifyCpu_apply s _), bind_of_ok (clearMmuCache_apply _),
    bind_of_ok (clearDecodeCache_apply _), bind_of_ok (modifyCpu_apply s _),
    bind_of_ok (clearMmuCache_apply _), bind_of_ok (clearDecodeCache_apply _)]
  by_cases hc : cmdline = []
  · rw [if_neg (by simp [hc]), if_neg (by simp [hc])]
    exact ⟨rfl, rfl, fun _ => coherent_of_clear (m := s.mmuCache) rfl⟩
  · rw [if_pos hc, if_pos hc]
    rw [if_neg (by simp), pure_apply, final_ok, initOverruns] at ho
    simp only [decide_eq_true hc, Bool.true_and, Bool.or_eq_true] at ho
    refine resRel_bindAt (vaddrWrite_sim ⟨rfl, fun _ => coherent_of_clear (m := s.mmuCache) rfl⟩
      _ _ _ fun h => ho (.inl h)) fun _ t t' hw h₁ => ?_
    rw [hw] at ho
    simp only [okAnd, Bool.or_eq_true] at ho
    refine resRel_bindAt (vaddrWrite_sim h₁ _ _ _ fun h => ho (.inr (.inl h)))
      fun _ u u' hw' h₂ => ?_
    rw [hw'] at ho
    exact resRel_bind (storeCmdline_sim cmdline h₂ fun h => ho (.inr (.inr h)))
      fun _ => modifyRegs_sim _

/-! ## Runs -/

/-- A fresh `prot_addr_with_attr` of `v` succeeds without exception, and designates the byte
    that the cached entry points to. -/
def SameByte (P : Platform D) (s : Machine D) (rw : Access) (v : Word) : Prop :=
  ∃ p attr dev r base, protAddrWithAttr P v (.init rw true) s = .ok (p, attr) s ∧
    P.findDevice p = some dev ∧ dev.name.ram = some r ∧
    (s.mmuCache (mmuCacheIndex v)).ptr = some (r, base) ∧
    base + (v &&& 0xFFF) = p - dev.start

/-- The cached path of every access leads where the uncached one would. -/
def CacheExact (P : Platform D) (s : Machine D) : Prop :=
  ∀ rw v, s.cached P rw v → SameByte P s rw v

theorem Sim.cacheExact {P : Platform D} {s t : Machine D} (h : Sim P s t) :
    CacheExact P s := by
  intro rw v hc
  obtain ⟨p, d, dev, r, ht, hd, hr, he, -⟩ := cached_designates h.coherent hc
  refine ⟨p, { MmuAttr.init rw true with dirty := d }, dev, r, _, ?_, hd, hr, he, cached_addr ht dev.start⟩
  rw [protAddrWithAttr_eq, ht]
  rfl

/-- A fetch keeps the cache coherent. -/
theorem Sim.entered {P : Platform D} (hd : P.cfg.decodeCache = false) {s t : Machine D}
    (hs : Sim P s t) {h : Handler} {o : Ops} {u : Machine D} (he : Entered P s h o u) :
    ∃ v, Sim P u v := by
  have hm := makeEntry_sim hd hs fun _ => trivial
  rw [he.entry] at hm
  cases hmt : makeEntry P.plain t with
  | ok r v => rw [hmt] at hm; exact ⟨v, hm.2⟩
  | error e v => rw [hmt] at hm; exact hm.elim

/-- The run executes no `tlbr` that changes the address space, and no access of it that hits the
    cache runs past the end of an array. -/
structure CacheSafe (P : Platform D) (ram : Memory) (dev : D) (entry : Word)
    (cmdline : List (BitVec 8)) (is : List (Input D)) : Prop where
  init : initOverruns P cmdline (final (initCpu P entry [] (Machine.boot ram dev))) = false
  steps : ∀ s, initCpu P entry cmdline (Machine.boot ram dev) = .ok () s →
    Along (step P) (fun s i => i = .iterate → ¬ StaleTlbr P s ∧ s.overrun P = false) s is

section Runs

variable {P : Platform D} (hp : P.cfg.paging = true) (hd : P.cfg.decodeCache = false)
  {ram : Memory} {dev : D} {entry : Word} {cmdline : List (BitVec 8)} {is : List (Input D)}
  (hk : CacheSafe P ram dev entry cmdline is)
include hk

theorem initCpu_safe : ResRel (SameStop False) (Sim P)
    (initCpu P entry cmdline (Machine.boot ram dev))
    (initCpu P.plain entry cmdline (Machine.boot ram dev)) :=
  initCpu_sim P entry cmdline _ fun h => by
    rw [hk.init] at h
    cases h

include hp hd

omit hk in
theorem step_safe {s t : Machine D} {i : Input D} (h : Sim P s t)
    (hok : i = .iterate → ¬ StaleTlbr P s ∧ s.overrun P = false) :
    StepRel (SameStop False) (Sim P) (step P s i) (stop P s i) (step P.plain t i)
      (stop P.plain t i) :=
  step_sim hd hp i h (fun hi _ => (hok hi).1) fun hi ho => by
    rw [(hok hi).2] at ho
    cases ho

theorem states_sim : List.Forall₂ (Sim P) (states P ram dev entry cmdline is)
    (states P.plain ram dev entry cmdline is) := by
  have h := initCpu_safe hk
  unfold states
  cases hs : initCpu P entry cmdline (Machine.boot ram dev) with
  | ok a s =>
    cases ht : initCpu P.plain entry cmdline (Machine.boot ram dev) with
    | ok b t =>
      rw [hs, ht] at h
      refine .cons h.2 (trace_forall₂ (fun s t i hst hok => ?_) h.2 is (hk.steps s hs))
      exact (step_safe hp hd hst hok).state
    | error e t => rw [hs, ht] at h; exact h.elim
  | error e s =>
    cases ht : initCpu P.plain entry cmdline (Machine.boot ram dev) with
    | ok b t => rw [hs, ht] at h; exact h.elim
    | error e' t => exact .nil

theorem runEnd_sim :
    runEnd P ram dev entry cmdline is = runEnd P.plain ram dev entry cmdline is := by
  have h := initCpu_safe hk
  unfold runEnd
  cases hs : initCpu P entry cmdline (Machine.boot ram dev) with
  | ok a s =>
    cases ht : initCpu P.plain entry cmdline (Machine.boot ram dev) with
    | ok b t =>
      rw [hs, ht] at h
      refine eq_of_optRel (fun _ _ => sameStop_false)
        (ending_optRel (fun s t i hst hok => ?_) h.2 is (hk.steps s hs))
      exact step_safe hp hd hst hok
    | error e t => rw [hs, ht] at h; exact h.elim
  | error e s =>
    cases ht : initCpu P.plain entry cmdline (Machine.boot ram dev) with
    | ok b t => rw [hs, ht] at h; exact h.elim
    | error e' t =>
      rw [hs, ht] at h
      exact congrArg some (sameStop_false h.1)

/-- Such a run passes through the architectural states of the run without the MMU cache and
    ends as that does, and at every fetch and every access of an instruction the cached path
    leads where the uncached one would. -/
theorem mmuCache_transparent :
    (states P ram dev entry cmdline is).map Machine.toArch =
        (states P.plain ram dev entry cmdline is).map Machine.toArch ∧
      runEnd P ram dev entry cmdline is = runEnd P.plain ram dev entry cmdline is ∧
      ∀ s ∈ states P ram dev entry cmdline is, CacheExact P s ∧
        ∀ h o t, Entered P s h o t → CacheExact P t := by
  have hsim := states_sim hp hd hk
  refine ⟨map_eq_of_forall₂ (fun _ _ h => h.arch) hsim, runEnd_sim hp hd hk, fun s hs => ?_⟩
  obtain ⟨t, hst⟩ := exists_of_forall₂ hsim hs
  refine ⟨hst.cacheExact, fun h o u he => ?_⟩
  obtain ⟨v, huv⟩ := hst.entered hd he
  exact huv.cacheExact

end Runs

/-- `MARCH_MIPS32_R1` with the MMU cache. -/
def mmuCached : Platform Unit := ramPlatform (buildOf .mips32R1 true false)

/-- Maps the page at 0x10000 with `tlbwi` and loads from it twice. -/
def mapDemo : Memory :=
  image [0x3C010001, 0x40815000, 0x34020086, 0x40821000, 0x42000002, 0x8C260000, 0x8C270000]

/-- The second load hits the cache. -/
theorem mmuCache_transparent_mapDemo :
    (states mmuCached mapDemo () 0x80001000 [] (List.replicate 7 .iterate)).map
        Machine.toArch =
      (states mmuCached.plain mapDemo () 0x80001000 [] (List.replicate 7 .iterate)).map
        Machine.toArch ∧
    runEnd mmuCached mapDemo () 0x80001000 [] (List.replicate 7 .iterate) =
      runEnd mmuCached.plain mapDemo () 0x80001000 [] (List.replicate 7 .iterate) ∧
    ∀ s ∈ states mmuCached mapDemo () 0x80001000 [] (List.replicate 7 .iterate),
      CacheExact mmuCached s ∧
        ∀ h o t, Entered mmuCached s h o t → CacheExact mmuCached t := by
  refine mmuCache_transparent rfl rfl ⟨rfl, fun s hs => ?_⟩
  have ha : Along (step mmuCached)
      (fun s _ => (s.tlb s.cpu.cp0.index.idx.toFin).asid = s.cpu.cp0.entryHi.asid ∧
        s.overrun mmuCached = false)
      (final (initCpu mmuCached 0x80001000 [] (Machine.boot mapDemo ())))
      (List.replicate 7 .iterate) := by decide +kernel
  rw [hs] at ha
  exact ha.imp fun _ _ hok _ => ⟨fun hst => hst.2 hok.1, hok.2⟩

/-- A store to the last word of DDR, and an unaligned `swc1` across its end: only the build
    without the cache stops in `check_ioaddr`. -/
def swc1Demo : Memory := image [0x3C019000, 0xAC20FFFC, 0xE420FFFE]

example : runEnd mmuCached swc1Demo () 0x80001000 [] (List.replicate 3 .iterate) =
      some (.halt .undefined) ∧
    runEnd mmuCached.plain swc1Demo () 0x80001000 [] (List.replicate 3 .iterate) =
      some (.halt .cpuAssert) := by decide +kernel

/-- Two address spaces map the page at 0x10000 to different frames. The last `tlbr` brings
    back the second one, and the load after it still hits the page of the first. -/
def tlbrDemo : Memory :=
  ddrOf ([0x3C010001, 0x40815000, 0x34020086, 0x40821000, 0x42000002, 0x24230001, 0x40835000,
      0x340400C6, 0x40841000, 0x34050001, 0x40850000, 0x42000002, 0x40815000, 0x8C260000,
      0x42000001, 0x8C270000].zipIdx.map
        (fun (w, i) => (0x1000 + 4 * BitVec.ofNat 32 i, w)) ++
    [(0x2000, 0x11), (0x3000, 0x22)])

theorem not_mmuCache_transparent_tlbrDemo : ¬ ∀ (ram : Memory) (is : List (Input Unit)),
    (states mmuCached ram () 0x80001000 [] is).map Machine.toArch =
      (states mmuCached.plain ram () 0x80001000 [] is).map Machine.toArch := by
  intro h
  have h := congrArg (List.map fun a : Arch Unit => a.cpu.gpr 7)
    (h tlbrDemo (List.replicate 16 .iterate))
  rw [List.map_map, List.map_map] at h
  have hc : (states mmuCached tlbrDemo () 0x80001000 [] (List.replicate 16 .iterate)).map
      (fun s => s.cpu.gpr 7) = List.replicate 16 0 ++ [0x11] := by decide +kernel
  have hp : (states mmuCached.plain tlbrDemo () 0x80001000 [] (List.replicate 16 .iterate)).map
      (fun s => s.cpu.gpr 7) = List.replicate 16 0 ++ [0x22] := by decide +kernel
  exact absurd (hc.symm.trans (h.trans hp)) (by decide)

end NemuMips32
