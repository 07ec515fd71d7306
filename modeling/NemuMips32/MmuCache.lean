/-
  The MMU cache is transparent as long as it is coherent: every entry that can be hit agrees
  with a fresh translation of the address (`Coherent`).

  `Sim` relates a machine with caches to one that runs the same program without
  (`Platform.plain`): their architectural states are equal and the MMU cache of the first is
  coherent. Every handler keeps it (`run_sim`), because everything that changes the TLB,
  EntryHi.ASID or Status.ERL flushes the cache; the one exception is `tlbr`, which loads
  EntryHi from a TLB entry and flushes nothing.
-/
import NemuMips32.Page
import NemuMips32.Exec.Effect

namespace NemuMips32

open StateExcept

variable {D : Type}

/-- The build with both caches switched off. -/
def Platform.plain (P : Platform D) : Platform D :=
  { P with cfg := { P.cfg with mmuCache := false, decodeCache := false } }

/-! ## Coherence -/

/-- A fresh translation of `v` succeeds, on a RAM page, and `e` points to that page. -/
def Designates (P : Platform D) (a : Arch D) (e : MmuCacheEntry) (v : Word) (rw : Access) :
    Prop :=
  ∃ p d dev r, P.translate a v rw = .ok p d ∧ P.findDevice p = some dev ∧
    dev.name.ram = some r ∧ e.ptr = some (r, (p &&& ~~~0xFFF) - dev.start) ∧
    checkIoaddr ((p &&& ~~~0xFFF) - dev.start) 0 r.size = true

/-- Every entry that an access can hit is right for that access. -/
def Coherent (P : Platform D) (s : Machine D) : Prop :=
  ∀ v, (s.mmuCache (mmuCacheIndex v)).id = mmuCacheId v →
    Designates P s.toArch (s.mmuCache (mmuCacheIndex v)) v .load ∧
    ((s.mmuCache (mmuCacheIndex v)).canWrite = true →
      Designates P s.toArch (s.mmuCache (mmuCacheIndex v)) v .store)

/-- Without paging nothing is read. -/
theorem translate_of_paging {P : Platform D} (hp : P.cfg.paging = false) (a b : Arch D) (v : Word)
    (rw : Access) : P.translate a v rw = P.translate b v rw := by
  unfold Platform.translate
  rw [hp]
  rfl

/-- What a translation reads: the TLB, EntryHi.ASID and Status.ERL. -/
structure SameMapping (a b : Arch D) : Prop where
  tlb : a.tlb = b.tlb
  asid : a.cpu.cp0.entryHi.asid = b.cpu.cp0.entryHi.asid
  erl : a.cpu.cp0.status.ERL = b.cpu.cp0.status.ERL

theorem SameMapping.translate {a b : Arch D} (h : SameMapping a b) (P : Platform D) (v : Word)
    (rw : Access) : P.translate a v rw = P.translate b v rw := by
  unfold Platform.translate Arch.pageVerdict
  rw [h.tlb, h.asid, h.erl]

theorem SameMapping.designates {a b : Arch D} (h : SameMapping a b) {P : Platform D}
    {e : MmuCacheEntry} {v : Word} {rw : Access} (hd : Designates P a e v rw) :
    Designates P b e v rw := by
  obtain ⟨p, d, dev, r, ht, hd⟩ := hd
  exact ⟨p, d, dev, r, (h.translate P v rw).symm.trans ht, hd⟩

theorem Coherent.of_sameMapping {P : Platform D} {s t : Machine D} (h : Coherent P s)
    (hm : SameMapping s.toArch t.toArch) (hc : t.mmuCache = s.mmuCache) : Coherent P t := by
  intro v hv
  rw [hc] at hv ⊢
  obtain ⟨hl, hs⟩ := h v hv
  exact ⟨hm.designates hl, fun hw => hm.designates (hs hw)⟩

theorem Coherent.of_paging {P : Platform D} (hp : P.cfg.paging = false) {s t : Machine D}
    (h : Coherent P s) (hc : t.mmuCache = s.mmuCache) : Coherent P t := by
  have hd : ∀ {e v rw}, Designates P s.toArch e v rw → Designates P t.toArch e v rw := by
    rintro e v rw ⟨p, d, dev, r, ht, hd⟩
    exact ⟨p, d, dev, r, (translate_of_paging hp _ _ v rw).trans ht, hd⟩
  intro v hv
  rw [hc] at hv ⊢
  obtain ⟨hl, hs⟩ := h v hv
  exact ⟨hd hl, fun hw => hd (hs hw)⟩

theorem mmuCacheId_ne (v : Word) : (0xFFFFFFFF : Word) ≠ mmuCacheId v := by
  intro h
  have := congrArg BitVec.toNat h
  simp only [mmuCacheId, BitVec.toNat_ushiftRight, Nat.shiftRight_eq_div_pow] at this
  have hv := v.isLt
  have hl : (0xFFFFFFFF : Word).toNat = 4294967295 := rfl
  omega

/-- After a flush nothing can be hit. -/
theorem coherent_of_clear {P : Platform D} {s : Machine D} {m : BitVec 12 → MmuCacheEntry}
    (h : s.mmuCache = clearMmu m) : Coherent P s := by
  intro v hv
  rw [h] at hv
  exact absurd hv (mmuCacheId_ne v)

/-- An address with the index and the id of `v` is on its page. -/
theorem samePage_of_hit {v v' : Word} (hi : mmuCacheIndex v = mmuCacheIndex v')
    (hd : mmuCacheId v = mmuCacheId v') : SamePage v v' := by
  apply BitVec.eq_of_toNat_eq
  have hi := congrArg BitVec.toNat hi
  have hd := congrArg BitVec.toNat hd
  simp only [mmuCacheIndex, mmuCacheId, BitVec.toNat_setWidth, BitVec.toNat_ushiftRight,
    Nat.shiftRight_eq_div_pow] at hi hd ⊢
  omega

theorem findDevice_samePage (P : Platform D) (p v : Word) :
    P.findDevice (atOffset p v) = P.findDevice p := by
  have h : mrIndex (ioremap (atOffset p v)) = mrIndex (ioremap p) := by
    rw [ioremap_atOffset]
    have hs : atOffset (ioremap p) v >>> 12 = ioremap p >>> 12 := by
      apply BitVec.eq_of_getLsbD_eq
      intro i hi
      rw [BitVec.getLsbD_ushiftRight, BitVec.getLsbD_ushiftRight]
      by_cases h32 : 12 + i < 32
      · rw [getLsbD_atOffset _ _ h32, if_neg (by omega)]
      · rw [BitVec.getLsbD_of_ge _ _ (by omega), BitVec.getLsbD_of_ge _ _ (by omega)]
    have hdiv : ∀ x : Word, mrIndex x = x >>> 12 := by
      intro x
      apply BitVec.eq_of_toNat_eq
      rw [mrIndex, BitVec.toNat_udiv, BitVec.toNat_ushiftRight, Nat.shiftRight_eq_div_pow]
      rfl
    rw [hdiv, hdiv, hs]
  unfold Platform.findDevice
  rw [h]

theorem atOffset_page (p v : Word) : atOffset p v &&& ~~~0xFFF = p &&& ~~~0xFFF := by
  apply BitVec.eq_of_getLsbD_eq
  intro i hi
  rw [BitVec.getLsbD_and, BitVec.getLsbD_and, getLsbD_atOffset _ _ hi]
  simp only [BitVec.getLsbD_not, BitVec.ofNat_eq_ofNat, getLsbD_mask, hi]
  by_cases h : i < 12 <;> simp [h]

/-- What designates an address designates its whole page. -/
theorem Designates.samePage {P : Platform D} {a : Arch D} {e : MmuCacheEntry} {v v' : Word}
    {rw : Access} (h : Designates P a e v rw) (hp : SamePage v v') : Designates P a e v' rw := by
  obtain ⟨p, d, dev, r, ht, hd, hr, he, hc⟩ := h
  refine ⟨atOffset p v', d, dev, r, ?_, ?_, hr, ?_, ?_⟩
  · rw [translate_samePage P a hp, ht]
    rfl
  · rw [findDevice_samePage, hd]
  · rw [atOffset_page, he]
  · rw [atOffset_page, hc]

/-! ## Loads and stores of one page -/

theorem decide_load_of_store {e : TlbEntry} {v p : Word} {d : Bool}
    (h : e.decide v .store = .ok p d) : e.decide v .load = .ok p d := by
  unfold TlbEntry.decide at h ⊢
  split at h
  · cases h
  · rw [if_neg ‹_›]
    split at h
    · cases h
    · rw [if_neg (by simp)]
      exact h

theorem decide_store_of_dirty {e : TlbEntry} {v p : Word}
    (h : e.decide v .load = .ok p true) : e.decide v .store = .ok p true := by
  unfold TlbEntry.decide at h ⊢
  split at h
  · cases h
  · rw [if_neg ‹_›]
    rw [if_neg (by simp)] at h
    have hd : (e.phyn v).d = true := (Verdict.ok.inj h).2
    rw [if_neg (by simp [hd])]
    exact h

theorem pageVerdict_load_of_store {a : Arch D} {v p : Word} {d : Bool}
    (h : (a.pageVerdict v .store).remap = .ok p d) :
    (a.pageVerdict v .load).remap = .ok p d := by
  unfold Arch.pageVerdict at h ⊢
  cases hl : lookup a.tlb v a.cpu.cp0.entryHi.asid (List.finRange 32) with
  | hit e =>
    rw [hl] at h
    simp only [Lookup.decide] at h ⊢
    cases hd : e.decide v .store with
    | ok q d' =>
      rw [decide_load_of_store hd]
      rw [hd] at h
      exact h
    | fault f => rw [hd] at h; cases h
    | abort why => rw [hd] at h; cases h
  | miss => rw [hl] at h; cases h
  | abort => rw [hl] at h; cases h

theorem pageVerdict_store_of_dirty {a : Arch D} {v p : Word}
    (h : (a.pageVerdict v .load).remap = .ok p true) :
    (a.pageVerdict v .store).remap = .ok p true := by
  unfold Arch.pageVerdict at h ⊢
  cases hl : lookup a.tlb v a.cpu.cp0.entryHi.asid (List.finRange 32) with
  | hit e =>
    rw [hl] at h
    simp only [Lookup.decide] at h ⊢
    cases hd : e.decide v .load with
    | ok q d' =>
      rw [hd] at h
      obtain ⟨-, rfl⟩ := Verdict.ok.inj h
      rw [decide_store_of_dirty hd]
      exact h
    | fault f => rw [hd] at h; cases h
    | abort why => rw [hd] at h; cases h
  | miss => rw [hl] at h; cases h
  | abort => rw [hl] at h; cases h

/-- A segment is unmapped, a panic, or mapped by the TLB, whatever the access. -/
theorem translate_segment (P : Platform D) (a : Arch D) (v : Word) :
    (∃ q, ∀ rw, P.translate a v rw = .ok q false) ∨
    (∀ rw, P.translate a v rw = .abort .panic) ∨
    ∀ rw, P.translate a v rw = (a.pageVerdict v rw).remap := by
  have hif : ∀ c : Prop, [Decidable c] →
      (∃ q, ∀ rw, (if c then Verdict.ok v false else (a.pageVerdict v rw).remap) = .ok q false) ∨
      (∀ rw, (if c then Verdict.ok v false else (a.pageVerdict v rw).remap) = .abort .panic) ∨
      ∀ rw, (if c then Verdict.ok v false else (a.pageVerdict v rw).remap) =
        (a.pageVerdict v rw).remap := by
    intro c _
    by_cases hc : c
    · exact .inl ⟨v, fun rw => if_pos hc⟩
    · exact .inr (.inr fun rw => if_neg hc)
  have hlt : (v >>> 29).toNat < 8 := by
    rw [BitVec.toNat_ushiftRight, Nat.shiftRight_eq_div_pow]
    have := v.isLt
    omega
  unfold Platform.translate
  generalize (v >>> 29).toNat = k at hlt
  have hk : k = 4 ∨ k = 5 ∨ k = 7 ∨ k = 6 ∨ k = 0 ∨ k = 1 ∨ k = 2 ∨ k = 3 := by omega
  rcases hk with rfl | rfl | rfl | rfl | rfl | rfl | rfl | rfl
  · exact .inl ⟨_, fun _ => rfl⟩
  · exact .inl ⟨_, fun _ => rfl⟩
  · exact .inr (.inl fun _ => rfl)
  all_goals exact hif _

theorem translate_load_of_store {P : Platform D} {a : Arch D} {v p : Word} {d : Bool}
    (h : P.translate a v .store = .ok p d) : P.translate a v .load = .ok p d := by
  obtain ⟨q, hq⟩ | ht | ht := translate_segment P a v
  · rw [hq] at h ⊢
    exact h
  · rw [ht] at h
    cases h
  · rw [ht] at h ⊢
    exact pageVerdict_load_of_store h

theorem translate_store_of_dirty {P : Platform D} {a : Arch D} {v p : Word}
    (h : P.translate a v .load = .ok p true) : P.translate a v .store = .ok p true := by
  obtain ⟨q, hq⟩ | ht | ht := translate_segment P a v
  · rw [hq] at h
    cases h
  · rw [ht] at h
    cases h
  · rw [ht] at h ⊢
    exact pageVerdict_store_of_dirty h

/-! ## Simulation -/

/-- The machine with caches, and one without in the same architectural state. -/
structure Sim (P : Platform D) (s t : Machine D) : Prop where
  arch : s.toArch = t.toArch
  coherent : P.cfg.mmuCache = true → Coherent P s

/-- The access hits the MMU cache, and runs past the end of the array that its entry points
    into. -/
def Machine.overruns (P : Platform D) (s : Machine D) (rw : Access) (v : Word) (len : Nat) :
    Bool :=
  decide (s.cached P rw v) &&
    match (s.mmuCache (mmuCacheIndex v)).ptr with
    | some (r, base) => !hostInBounds r (base + (v &&& 0xFFF)) len
    | none => true

/-- Both stop the same way. Where an access may run past its array (`past`), what the cached
    path leaves undefined fails `check_ioaddr` without the cache. -/
def SameStop (past : Prop) (e e' : Stop) : Prop :=
  e = e' ∨ past ∧ e = .halt .undefined ∧ e' = .halt .cpuAssert

theorem sameStop_refl {past : Prop} (e : Stop) : SameStop past e e := .inl rfl

/-- Both stop the same way, up to an access past the end of an array, which is undefined where
    it hits the MMU cache and fails `check_ioaddr` where it does not. -/
def SameEnd (e e' : Stop) : Prop :=
  e = e' ∨ e = .halt .undefined ∧ e' = .halt .cpuAssert ∨
    e = .halt .cpuAssert ∧ e' = .halt .undefined

theorem sameEnd_of_sameStop {past : Prop} {e e' g : Stop} (h : SameStop past e g)
    (h' : SameStop past e' g) : SameEnd e e' := by
  obtain rfl | ⟨-, rfl, rfl⟩ := h
  · obtain rfl | ⟨-, rfl, rfl⟩ := h'
    · exact .inl rfl
    · exact .inr (.inr ⟨rfl, rfl⟩)
  · obtain rfl | ⟨-, rfl, -⟩ := h'
    · exact .inr (.inl ⟨rfl, rfl⟩)
    · exact .inl rfl

theorem SameEnd.symm {e e' : Stop} (h : SameEnd e e') : SameEnd e' e := by
  obtain rfl | ⟨rfl, rfl⟩ | ⟨rfl, rfl⟩ := h
  · exact .inl rfl
  · exact .inr (.inr ⟨rfl, rfl⟩)
  · exact .inr (.inl ⟨rfl, rfl⟩)

theorem sameStop_false {e e' : Stop} (h : SameStop False e e') : e = e' := by
  obtain h | ⟨hf, -⟩ := h
  · exact h
  · exact hf.elim

section Sim

variable {P : Platform D} {s t : Machine D} {past : Prop}

theorem sim_raise (h : Sim P s t) (e : Exception) : Sim P (s.raise P e) (t.raise P.plain e) where
  arch := congrArg (Arch.raise P.cfg e) h.arch
  coherent _ := coherent_of_clear (m := s.mmuCache) rfl

theorem sim_fault (h : Sim P s t) (f : TlbFault) (addr : Word) :
    Sim P (s.fault P f addr) (t.fault P.plain f addr) where
  arch := by
    have := congrArg (fun a : Arch D => Arch.raise P.cfg ⟨f.ex, f.code⟩
      { a with cpu := { a.cpu with cp0 := a.cpu.cp0.setFault addr f.asid } }) h.arch
    exact this
  coherent _ := coherent_of_clear (m := s.mmuCache) rfl

theorem Sim.of_arch {s' t' : Machine D} (h : Sim P s t) (ha : s'.toArch = t'.toArch)
    (hm : SameMapping s.toArch s'.toArch) (hc : s'.mmuCache = s.mmuCache) : Sim P s' t' :=
  ⟨ha, fun hmc => (h.coherent hmc).of_sameMapping hm hc⟩

/-! ## Accesses -/

theorem not_cached_plain (rw : Access) (v : Word) : ¬ t.cached P.plain rw v := by
  cases rw with
  | load => exact fun h => Bool.false_ne_true h.1
  | store => exact fun h => Bool.false_ne_true h.1

theorem cached_designates (h : P.cfg.mmuCache = true → Coherent P s) {rw : Access} {v : Word}
    (hc : s.cached P rw v) : Designates P s.toArch (s.mmuCache (mmuCacheIndex v)) v rw := by
  cases rw with
  | load => exact (h hc.1 v hc.2).1
  | store => exact (h hc.1 v hc.2.1).2 hc.2.2

/-- The entry that `update_mmu_cache` makes after a translation. -/
theorem coherent_update (h : Coherent P s) {v p : Word} {d w : Bool} {dev : Device} {r : Ram}
    (hl : P.translate s.toArch v .load = .ok p d)
    (hs : w = true → ∃ d, P.translate s.toArch v .store = .ok p d)
    (hd : P.findDevice p = some dev) (hr : dev.name.ram = some r)
    (hc : checkIoaddr ((p &&& ~~~0xFFF) - dev.start) 0 r.size = true) :
    Coherent P
      { s with
        mmuCache := Function.update s.mmuCache (mmuCacheIndex v)
          ⟨mmuCacheId v, some (r, (p &&& ~~~0xFFF) - dev.start), w⟩ } := by
  intro v' hv
  by_cases hi : mmuCacheIndex v' = mmuCacheIndex v
  · simp only [hi, Function.update_self] at hv ⊢
    have hp : SamePage v v' := samePage_of_hit hi.symm hv
    refine ⟨Designates.samePage ⟨p, d, dev, r, hl, hd, hr, rfl, hc⟩ hp, fun hw => ?_⟩
    obtain ⟨d', hs⟩ := hs hw
    exact Designates.samePage ⟨p, d', dev, r, hs, hd, hr, rfl, hc⟩ hp
  · simp only [Function.update_of_ne hi] at hv ⊢
    exact h v' hv

/-- `update_mmu_cache` in both builds. -/
theorem updateMmuCache_sim (h : Sim P s t) {v p : Word} {d w : Bool} {dev : Device}
    (hl : P.translate s.toArch v .load = .ok p d)
    (hs : w = true → ∃ d, P.translate s.toArch v .store = .ok p d)
    (hd : P.findDevice p = some dev) :
    ResRel (SameStop past) (Sim P) (updateMmuCache v p dev w s) (updateMmuCache v p dev w t) := by
  have hex : t.cpu.hasException = s.cpu.hasException := by rw [h.arch]
  simp only [updateMmuCache, bind_apply, getCpu_apply, ite_run, pure_apply, hex]
  split
  · exact ⟨rfl, h⟩
  · cases hr : dev.name.ram with
    | none => exact ⟨rfl, h⟩
    | some r =>
      by_cases hc : checkIoaddr ((p &&& ~~~0xFFF) - dev.start) 0 r.size = true
      · simp only [devMap, hc, bind_apply]
        exact ⟨rfl, h.arch, fun hm => coherent_update (h.coherent hm) hl hs hd hr hc⟩
      · simp only [devMap, hc, bind_apply]
        exact ⟨sameStop_refl _, h⟩

theorem ramRead_sim (r : Ram) (addr : Word) (len : Nat) :
    Relates (SameStop past) (Sim P) (ramRead r addr len) (ramRead r addr len) := by
  intro s t h
  simp only [ramRead, bind_apply, ite_run, halt_apply, pure_apply, get_apply]
  split
  · exact ⟨by rw [h.arch], h⟩
  · exact ⟨sameStop_refl _, h⟩

theorem devRead_sim {d : DevName} {read : Word → Nat → Exec D Word}
    (hr : P.devRead d = some read) (addr : Word) (len : Nat) :
    Relates (SameStop past) (Sim P) (read addr len) (read addr len) := by
  simp only [Platform.devRead] at hr
  split at hr
  · obtain rfl := Option.some.inj hr
    exact ramRead_sim _ addr len
  · split at hr
    · obtain rfl := Option.some.inj hr
      exact relates_pure 0
    · obtain ⟨f, -, rfl⟩ := Option.map_eq_some_iff.1 hr
      intro s t h
      simp only [mmioRead, ← h.arch]
      split
      · exact ⟨rfl, h.of_arch rfl ⟨rfl, rfl, rfl⟩ rfl⟩
      · exact ⟨sameStop_refl _, h⟩

theorem ramWrite_sim (r : Ram) (addr : Word) (len : Nat) (data : Word) :
    Relates (SameStop past) (Sim P) (ramWrite r addr len data) (ramWrite r addr len data) := by
  intro s t h
  simp only [ramWrite, bind_apply, ite_run, halt_apply]
  split
  · refine ⟨rfl, h.of_arch ?_ ⟨rfl, rfl, rfl⟩ rfl⟩
    exact congrArg (fun a : Arch D => { a with ram := a.ram.store r addr len data }) h.arch
  · exact ⟨sameStop_refl _, h⟩

theorem devWrite_sim {d : DevName} {write : Word → Nat → Word → Exec D Unit}
    (hr : P.devWrite d = some write) (addr : Word) (len : Nat) (data : Word) :
    Relates (SameStop past) (Sim P) (write addr len data) (write addr len data) := by
  simp only [Platform.devWrite] at hr
  split at hr
  · obtain rfl := Option.some.inj hr
    exact ramWrite_sim _ addr len data
  · split at hr
    · obtain rfl := Option.some.inj hr
      exact relates_pure ()
    · obtain ⟨f, -, rfl⟩ := Option.map_eq_some_iff.1 hr
      intro s t h
      simp only [mmioWrite, ← h.arch]
      split
      · exact ⟨rfl, h.of_arch rfl ⟨rfl, rfl, rfl⟩ rfl⟩
      · exact ⟨sameStop_refl _, h⟩

theorem readPaddr_sim (h : Sim P s t) {v p : Word} {d : Bool}
    (hv : P.translate s.toArch v .load = .ok p d) (len : Nat) :
    ResRel (SameStop past) (Sim P) (readPaddr P v p d len s) (readPaddr P.plain v p d len t) := by
  have hd' : P.plain.findDevice p = P.findDevice p := rfl
  unfold readPaddr
  rw [hd']
  cases hd : P.findDevice p with
  | none => exact ⟨sameStop_refl _, h⟩
  | some dev =>
    have hr' : P.plain.devRead dev.name = P.devRead dev.name := rfl
    simp only [hr']
    cases hr : P.devRead dev.name with
    | none => exact ⟨sameStop_refl _, h⟩
    | some read =>
      refine resRel_bind (updateMmuCache_sim h hv (fun hw => ⟨true, ?_⟩) hd) fun _ =>
        devRead_sim hr _ len
      rw [hw] at hv
      exact translate_store_of_dirty hv

theorem writePaddr_sim (h : Sim P s t) {v p : Word} {d : Bool}
    (hv : P.translate s.toArch v .store = .ok p d) (len : Nat) (data : Word) :
    ResRel (SameStop past) (Sim P) (writePaddr P v p len data s)
      (writePaddr P.plain v p len data t) := by
  have hd' : P.plain.findDevice p = P.findDevice p := rfl
  unfold writePaddr
  rw [hd']
  cases hd : P.findDevice p with
  | none => exact ⟨sameStop_refl _, h⟩
  | some dev =>
    have hr' : P.plain.devWrite dev.name = P.devWrite dev.name := rfl
    simp only [hr']
    cases hr : P.devWrite dev.name with
    | none => exact ⟨sameStop_refl _, h⟩
    | some write =>
      exact resRel_bind (updateMmuCache_sim h (translate_load_of_store hv) (fun _ => ⟨d, hv⟩) hd)
        fun _ => devWrite_sim hr _ len data

/-- The address that a cached access uses is the translated one. -/
theorem cached_addr {a : Arch D} {v p : Word} {rw : Access} {d : Bool}
    (h : P.translate a v rw = .ok p d) (start : Word) :
    (p &&& ~~~0xFFF) - start + (v &&& 0xFFF) = p - start := by
  have hp : atOffset p v = p := by
    have := translate_samePage P a (rfl : SamePage v v) rw
    rw [h] at this
    exact (Verdict.ok.inj this).1.symm
  have hdis : (p &&& ~~~0xFFF) &&& (v &&& 0xFFF) = 0 := by
    apply BitVec.eq_of_getLsbD_eq
    intro i hi
    simp only [BitVec.getLsbD_and, BitVec.getLsbD_not, BitVec.ofNat_eq_ofNat, getLsbD_mask, hi]
    by_cases h12 : i < 12 <;> simp [h12]
  have hsum : (p &&& ~~~0xFFF) + (v &&& 0xFFF) = p :=
    (BitVec.add_eq_or_of_and_eq_zero _ _ hdis).trans hp
  generalize (p &&& ~~~0xFFF) = a, (v &&& 0xFFF) = b at hsum
  subst hsum
  bv_omega

/-- `update_mmu_cache` where its bounds check passes. -/
theorem updateMmuCache_ok {dev : Device} {r : Ram} {p : Word} (hr : dev.name.ram = some r)
    (hc : checkIoaddr ((p &&& ~~~0xFFF) - dev.start) 0 r.size = true) (v : Word) (w : Bool)
    (t : Machine D) :
    ∃ mc, updateMmuCache v p dev w t = .ok () { t with mmuCache := mc } := by
  by_cases he : t.cpu.hasException = true
  · exact ⟨t.mmuCache, updateMmuCache_of_exception he v p dev w⟩
  · refine ⟨Function.update t.mmuCache (mmuCacheIndex v)
      ⟨mmuCacheId v, some (r, (p &&& ~~~0xFFF) - dev.start), w⟩, ?_⟩
    simp only [updateMmuCache, bind_apply, getCpu_apply, ite_run, he, hr, devMap, hc]
    rfl

/-- What RAM holds is read from it. -/
theorem readPaddr_of_ram {p : Word} {dev : Device} {r : Ram} (hd : P.findDevice p = some dev)
    (hr : dev.name.ram = some r)
    (hc : checkIoaddr ((p &&& ~~~0xFFF) - dev.start) 0 r.size = true) {len : Nat}
    (hb : checkIoaddr (p - dev.start) len r.size = true) (v : Word) (d : Bool) (s : Machine D) :
    ∃ mc, readPaddr P v p d len s =
      .ok (loadBytes (s.ram r) (p - dev.start) len) { s with mmuCache := mc } := by
  have hread : P.devRead dev.name = some (ramRead r) := by simp only [Platform.devRead, hr]
  obtain ⟨mc, hmc⟩ := updateMmuCache_ok hr hc v d s
  refine ⟨mc, ?_⟩
  simp only [readPaddr, hd, hread]
  rw [bind_of_ok hmc]
  simp only [ramRead, bind_apply, pure_apply, get_apply, hb, if_true]

theorem vaddrRead_of_translate {v p : Word} {d : Bool}
    (h : P.translate s.toArch v .load = .ok p d) (len : Nat) :
    vaddrRead P.plain v len s = readPaddr P.plain v p d len s := by
  have h' : P.plain.translate s.toArch v .load = .ok p d := h
  rw [vaddrRead_eq, if_neg (not_cached_plain .load v), h']

theorem hostRead_sim {mc : BitVec 12 → MmuCacheEntry} (h : Sim P s t) (r : Ram)
    {base off addr : Word} (ha : base + off = addr) (len : Nat)
    (ho : hostInBounds r addr len = false → past) :
    ResRel (SameStop past) (Sim P) (hostRead (some (r, base)) off len s)
      (ramRead r addr len { t with mmuCache := mc }) := by
  simp only [hostInBounds] at ho
  simp only [hostRead, ramRead, hostInBounds, bind_apply, ite_run, halt_apply, pure_apply,
    get_apply, ha]
  split
  · exact ⟨by rw [h.arch], h.arch, h.coherent⟩
  · rename_i hc
    exact ⟨.inr ⟨ho (Bool.eq_false_iff.2 hc), rfl, rfl⟩, h.arch, h.coherent⟩

theorem hostWrite_sim {mc : BitVec 12 → MmuCacheEntry} (h : Sim P s t) (r : Ram)
    {base off addr : Word} (ha : base + off = addr) (len : Nat) (data : Word)
    (ho : hostInBounds r addr len = false → past) :
    ResRel (SameStop past) (Sim P) (hostWrite (some (r, base)) off len data s)
      (ramWrite r addr len data { t with mmuCache := mc }) := by
  simp only [hostInBounds] at ho
  simp only [hostWrite, ramWrite, hostInBounds, bind_apply, ite_run, halt_apply, ha]
  split
  · refine ⟨rfl, h.of_arch ?_ ⟨rfl, rfl, rfl⟩ rfl⟩
    exact congrArg (fun a : Arch D => { a with ram := a.ram.store r addr len data }) h.arch
  · rename_i hc
    exact ⟨.inr ⟨ho (Bool.eq_false_iff.2 hc), rfl, rfl⟩, h.arch, h.coherent⟩

/-- An access that does not stay inside the array of the entry it hits. -/
theorem overruns_of_hit {rw : Access} {v : Word} (hc : s.cached P rw v) {r : Ram} {base : Word}
    (he : (s.mmuCache (mmuCacheIndex v)).ptr = some (r, base)) {len : Nat}
    (hb : hostInBounds r (base + (v &&& 0xFFF)) len = false) : s.overruns P rw v len = true := by
  simp only [Machine.overruns, decide_eq_true hc, he, hb]
  rfl

theorem vaddrRead_sim (h : Sim P s t) (v : Word) (len : Nat)
    (ho : s.overruns P .load v len = true → past) :
    ResRel (SameStop past) (Sim P) (vaddrRead P v len s) (vaddrRead P.plain v len t) := by
  have htr : P.plain.translate t.toArch v .load = P.translate s.toArch v .load := by
    rw [h.arch]
    rfl
  rw [vaddrRead_eq, vaddrRead_eq, if_neg (not_cached_plain .load v), htr]
  split
  · rename_i hc
    obtain ⟨p, d, dev, r, ht, hd, hr, he, hck⟩ := cached_designates h.coherent hc
    obtain ⟨mc, hu⟩ := updateMmuCache_ok hr hck v d t
    have hread : readPaddr P.plain v p d len t =
        ramRead r (p - dev.start) len { t with mmuCache := mc } := by
      have hd' : P.plain.findDevice p = some dev := hd
      have hr' : P.plain.devRead dev.name = some (ramRead r) := by
        simp only [Platform.devRead, hr]
      simp only [readPaddr, hd', hr']
      exact bind_of_ok hu _
    rw [ht, he]
    simp only [hread]
    refine hostRead_sim h r (cached_addr ht dev.start) len fun hb => ho (overruns_of_hit hc he ?_)
    rw [cached_addr ht dev.start, hb]
  · cases hv : P.translate s.toArch v .load with
    | ok p d => exact readPaddr_sim h hv len
    | fault f => exact ⟨rfl, sim_fault h f v⟩
    | abort why => exact ⟨sameStop_refl _, h⟩

theorem vaddrWrite_sim (h : Sim P s t) (v : Word) (len : Nat) (data : Word)
    (ho : s.overruns P .store v len = true → past) :
    ResRel (SameStop past) (Sim P) (vaddrWrite P v len data s)
      (vaddrWrite P.plain v len data t) := by
  have htr : P.plain.translate t.toArch v .store = P.translate s.toArch v .store := by
    rw [h.arch]
    rfl
  rw [vaddrWrite_eq, vaddrWrite_eq, if_neg (not_cached_plain .store v), htr]
  split
  · rename_i hc
    obtain ⟨p, d, dev, r, ht, hd, hr, he, hck⟩ := cached_designates h.coherent hc
    obtain ⟨mc, hu⟩ := updateMmuCache_ok hr hck v true t
    have hwrite : writePaddr P.plain v p len data t =
        ramWrite r (p - dev.start) len data { t with mmuCache := mc } := by
      have hd' : P.plain.findDevice p = some dev := hd
      have hr' : P.plain.devWrite dev.name = some (ramWrite r) := by
        simp only [Platform.devWrite, hr]
      simp only [writePaddr, hd', hr']
      exact bind_of_ok hu _
    rw [ht, he]
    simp only [hwrite]
    refine hostWrite_sim h r (cached_addr ht dev.start) len data fun hb =>
      ho (overruns_of_hit hc he ?_)
    rw [cached_addr ht dev.start, hb]
  · cases hv : P.translate s.toArch v .store with
    | ok p d => exact writePaddr_sim h hv len data
    | fault f => exact ⟨rfl, sim_fault h f v⟩
    | abort why => exact ⟨sameStop_refl _, h⟩

end Sim

end NemuMips32
