/-
  Where the memory accesses of the CPU go. `Machine.hostPage` says which page of which RAM
  array an access uses, cached or not, and `Machine.place` which byte. An access moves the
  bytes of its places (`vaddrRead_place`, `vaddrWrite_place`) and keeps the pages of its own
  and of the neighbouring page (`SamePlaces`).

  Nothing here asks the MMU cache to agree with the TLB. All that is used of it is that its
  pointers are those of whole pages, and that holds in every run (`paged_states`).
-/
import NemuMips32.Devices
import NemuMips32.MmuCache
import NemuMips32.Run

namespace NemuMips32

open StateExcept

variable {D : Type}

/-! ## Places -/

/-- The page of a RAM array that an access to `v` uses: the one in the MMU cache, or the one
    that the translated address designates. -/
def Machine.hostPage (P : Platform D) (s : Machine D) (rw : Access) (v : Word) :
    Option (Ram × Word) :=
  if s.cached P rw v then (s.mmuCache (mmuCacheIndex v)).ptr
  else
    match P.translate s.toArch v rw with
    | .ok p _ => (P.findDevice p).bind fun dev =>
      dev.name.ram.map fun r => (r, (p &&& ~~~0xFFF) - dev.start)
    | _ => none

/-- The byte of a RAM array that an access to `v` uses. -/
def Machine.place (P : Platform D) (s : Machine D) (rw : Access) (v : Word) :
    Option (Ram × Word) :=
  (s.hostPage P rw v).map fun x => (x.1, x.2 + (v &&& 0xFFF))

/-- An access to the byte `v` translates without an exception, to a byte of RAM. -/
def Machine.InRam (P : Platform D) (s : Machine D) (rw : Access) (v : Word) : Prop :=
  ∃ r x, s.place P rw v = some (r, x) ∧ x.toNat < r.size.toNat

/-- The cached pointers are those of whole pages. -/
def Machine.Paged (s : Machine D) : Prop :=
  ∀ i r base, (s.mmuCache i).ptr = some (r, base) → base.toNat % 4096 = 0

theorem SamePage.hostPage {v w : Word} (h : SamePage v w) (P : Platform D) (s : Machine D)
    (rw : Access) : s.hostPage P rw w = s.hostPage P rw v := by
  unfold Machine.hostPage
  simp only [← h.cached P s rw, ← h.mmuCacheIndex, translate_samePage P s.toArch h rw]
  cases P.translate s.toArch v rw with
  | ok p d => simp only [Verdict.onPage, findDevice_samePage, atOffset_page]
  | fault f => rfl
  | abort why => rfl

theorem toNat_offset (v : Word) : (v &&& 0xFFF).toNat = v.toNat % 4096 := by
  rw [BitVec.toNat_and, show (0xFFF : Word).toNat = 2 ^ 12 - 1 from rfl,
    Nat.and_two_pow_sub_one_eq_mod]

/-- `n` bytes inside an aligned word. -/
def InWordOf (v : Word) (n : Nat) : Prop := v.toNat % 4 + n ≤ 4

theorem toNat_add_lt {v : Word} {n j : Nat} (h : InWordOf v n) (hj : j < n) :
    (v + BitVec.ofNat 32 j).toNat = v.toNat + j := by
  have hv := v.isLt
  unfold InWordOf at h
  rw [BitVec.toNat_add, BitVec.toNat_ofNat]
  omega

theorem samePage_add {v : Word} {n j : Nat} (h : InWordOf v n) (hj : j < n) :
    SamePage v (v + BitVec.ofNat 32 j) := by
  have ha := toNat_add_lt h hj
  unfold InWordOf at h
  apply BitVec.eq_of_toNat_eq
  rw [BitVec.toNat_ushiftRight, BitVec.toNat_ushiftRight, ha, Nat.shiftRight_eq_div_pow,
    Nat.shiftRight_eq_div_pow]
  omega

/-- The bytes of a word lie side by side. -/
theorem place_add {P : Platform D} {s : Machine D} {rw : Access} {v : Word} {n j : Nat}
    {r : Ram} {x : Word} (h : InWordOf v n) (hj : j < n) (hp : s.place P rw v = some (r, x)) :
    s.place P rw (v + BitVec.ofNat 32 j) = some (r, x + BitVec.ofNat 32 j) := by
  unfold Machine.place at hp ⊢
  rw [(samePage_add h hj).hostPage P s rw]
  obtain ⟨⟨r', b⟩, hb, he⟩ := Option.map_eq_some_iff.1 hp
  obtain ⟨rfl, rfl⟩ := Prod.mk.inj he
  rw [hb, Option.map_some]
  have hoff : (v + BitVec.ofNat 32 j) &&& 0xFFF = (v &&& 0xFFF) + BitVec.ofNat 32 j := by
    apply BitVec.eq_of_toNat_eq
    have ha := toNat_add_lt h hj
    unfold InWordOf at h
    rw [toNat_offset, ha, BitVec.toNat_add, toNat_offset, BitVec.toNat_ofNat]
    omega
  rw [hoff, BitVec.add_assoc]

theorem hostPage_congr {P : Platform D} {s t : Machine D} (hm : SameMapping s.toArch t.toArch)
    (rw : Access) {w : Word}
    (hc : t.mmuCache (mmuCacheIndex w) = s.mmuCache (mmuCacheIndex w)) :
    t.hostPage P rw w = s.hostPage P rw w := by
  have hcached : t.cached P rw w ↔ s.cached P rw w := by
    cases rw <;> simp only [Machine.cached, hc]
  unfold Machine.hostPage
  simp only [hcached, hc, hm.translate]

theorem hostPage_uncached {P : Platform D} {s : Machine D} {rw : Access} {v : Word} {r : Ram}
    {b : Word} (hc : ¬ s.cached P rw v) (h : s.hostPage P rw v = some (r, b)) :
    ∃ p d dev, P.translate s.toArch v rw = .ok p d ∧ P.findDevice p = some dev ∧
      dev.name.ram = some r ∧ b = (p &&& ~~~0xFFF) - dev.start := by
  unfold Machine.hostPage at h
  rw [if_neg hc] at h
  cases ht : P.translate s.toArch v rw with
  | ok p d =>
    rw [ht] at h
    obtain ⟨dev, hd, he⟩ := Option.bind_eq_some_iff.1 h
    obtain ⟨r', hr, he⟩ := Option.map_eq_some_iff.1 he
    obtain ⟨rfl, rfl⟩ := Prod.mk.inj he
    exact ⟨p, d, dev, rfl, hd, hr, rfl⟩
  | fault f => rw [ht] at h; cases h
  | abort why => rw [ht] at h; cases h

theorem place_hostPage {P : Platform D} {s : Machine D} {rw : Access} {v : Word} {r : Ram}
    {x : Word} (h : s.place P rw v = some (r, x)) :
    ∃ b, s.hostPage P rw v = some (r, b) ∧ x = b + (v &&& 0xFFF) := by
  obtain ⟨⟨r', b⟩, hb, he⟩ := Option.map_eq_some_iff.1 h
  obtain ⟨rfl, rfl⟩ := Prod.mk.inj he
  exact ⟨b, hb, rfl⟩

/-! ## Accesses -/

/-- The host page that `update_mmu_cache` puts into the cache for `v`. -/
def Machine.fill (s : Machine D) (v : Word) (r : Ram) (b : Word) (w : Bool) : Machine D :=
  { s with
    mmuCache := Function.update s.mmuCache (mmuCacheIndex v)
      { id := mmuCacheId v, ptr := some (r, b), canWrite := w } }

/-- After an access to `v` its page, and every page with another index, is where it was. A
    store settles where loads of its page go. -/
structure SamePlaces (P : Platform D) (rw : Access) (v : Word) (s t : Machine D) : Prop where
  own : ∀ w rw', SamePage v w → (rw' = .store → rw = .store) →
    t.hostPage P rw' w = s.hostPage P rw w
  other : ∀ w rw', mmuCacheIndex w ≠ mmuCacheIndex v → t.hostPage P rw' w = s.hostPage P rw' w

theorem samePlaces_cached {P : Platform D} {s : Machine D} {rw : Access} {v : Word}
    (hc : s.cached P rw v) : SamePlaces P rw v s s where
  own w rw' hw hrw := by
    have hw' := (hw.cached P s rw).1 hc
    cases rw with
    | load =>
      cases rw' with
      | load => rfl
      | store => cases hrw rfl
    | store =>
      cases rw' with
      | load =>
        have hl : s.cached P .load w := ⟨hw'.1, hw'.2.1⟩
        unfold Machine.hostPage
        rw [if_pos hl, if_pos hw']
      | store => rfl
  other w rw' _ := rfl

theorem samePlaces_fill {P : Platform D} {s : Machine D} {rw : Access} {v : Word} {r : Ram}
    {b : Word} {w : Bool} (hc : ¬ s.cached P rw v) (hp : s.hostPage P rw v = some (r, b))
    (hw : rw = .store → w = true) : SamePlaces P rw v s (s.fill v r b w) where
  own v' rw' hv hrw := by
    rw [hv.hostPage P s rw, hp]
    have he : (s.fill v r b w).mmuCache (mmuCacheIndex v') = ⟨mmuCacheId v', some (r, b), w⟩ := by
      rw [← hv.mmuCacheIndex, ← hv.mmuCacheId]
      exact Function.update_self _ _ _
    by_cases hm : P.cfg.mmuCache = true
    · have hcached : (s.fill v r b w).cached P rw' v' := by
        cases rw' with
        | load => exact ⟨hm, by rw [he]⟩
        | store => exact ⟨hm, by rw [he], by rw [he]; exact hw (hrw rfl)⟩
      unfold Machine.hostPage
      rw [if_pos hcached, he]
    · -- nothing is looked up: a load goes where the store went
      have hn : ∀ (t : Machine D) rw'', ¬ t.cached P rw'' v' := by
        intro t rw''
        cases rw'' with
        | load => exact fun h => hm h.1
        | store => exact fun h => hm h.1
      obtain ⟨p, d, dev, ht, hd, hr, rfl⟩ :=
        hostPage_uncached (hn s rw) ((hv.hostPage P s rw).trans hp)
      have ht' : P.translate s.toArch v' rw' = .ok p d := by
        cases rw with
        | load =>
          cases rw' with
          | load => exact ht
          | store => cases hrw rfl
        | store =>
          cases rw' with
          | load => exact translate_load_of_store ht
          | store => exact ht
      have htf : P.translate (s.fill v r ((p &&& ~~~0xFFF) - dev.start) w).toArch v' rw' =
          .ok p d := ht'
      unfold Machine.hostPage
      rw [if_neg (hn _ rw'), htf]
      simp only [hd, hr, Option.bind_some, Option.map_some]
  other v' rw' hv := by
    have hm : SameMapping s.toArch (s.fill v r b w).toArch := ⟨rfl, rfl, rfl⟩
    exact hostPage_congr hm rw' (Function.update_of_ne hv _ _)

theorem SamePlaces.of_ram {P : Platform D} {rw : Access} {v : Word} {s t : Machine D}
    (h : SamePlaces P rw v s t) {u : Machine D} (hm : SameMapping t.toArch u.toArch)
    (hc : u.mmuCache = t.mmuCache) : SamePlaces P rw v s u where
  own w rw' hw hrw := (hostPage_congr hm rw' (by rw [hc])).trans (h.own w rw' hw hrw)
  other w rw' hw := (hostPage_congr hm rw' (by rw [hc])).trans (h.other w rw' hw)

theorem updateMmuCache_fill {s : Machine D} (hx : s.cpu.hasException = false) {dev : Device}
    {r : Ram} {p : Word} (hr : dev.name.ram = some r)
    (hc : checkIoaddr ((p &&& ~~~0xFFF) - dev.start) 0 r.size = true) (v : Word) (w : Bool) :
    updateMmuCache v p dev w s = .ok () (s.fill v r ((p &&& ~~~0xFFF) - dev.start) w) := by
  simp only [updateMmuCache, bind_apply, getCpu_apply, ite_run, hx, hr, devMap, hc]
  rfl

section Places

variable {P : Platform D} {bases : List (DevName × Word)} (hb : P.board.Realizes bases)
  {s : Machine D} (hp : s.Paged)
include hb hp

omit hb in
theorem paged_fill {v : Word} {r : Ram} {b : Word} (hb' : b.toNat % 4096 = 0) (w : Bool) :
    (s.fill v r b w).Paged := by
  intro i r' b' h
  by_cases hi : i = mmuCacheIndex v
  · subst hi
    have he : (s.fill v r b w).mmuCache (mmuCacheIndex v) = ⟨mmuCacheId v, some (r, b), w⟩ :=
      Function.update_self _ _ _
    rw [he] at h
    obtain ⟨-, rfl⟩ := Prod.mk.inj (Option.some.inj h)
    exact hb'
  · have he : (s.fill v r b w).mmuCache i = s.mmuCache i := Function.update_of_ne hi _ _
    rw [he] at h
    exact hp _ _ _ h

theorem hostPage_aligned {rw : Access} {v : Word} {r : Ram} {b : Word}
    (h : s.hostPage P rw v = some (r, b)) : b.toNat % 4096 = 0 := by
  by_cases hc : s.cached P rw v
  · unfold Machine.hostPage at h
    rw [if_pos hc] at h
    exact hp _ _ _ h
  · obtain ⟨p, d, dev, -, hd, -, rfl⟩ := hostPage_uncached hc h
    have ha := (findDevice_covers hb hd).2.aligned
    have hpage := toNat_pageOf p
    rw [BitVec.toNat_sub, hpage]
    have := dev.start.isLt
    have := p.isLt
    omega

theorem place_offset {rw : Access} {v : Word} {r : Ram} {x : Word}
    (h : s.place P rw v = some (r, x)) : x.toNat % 4096 = v.toNat % 4096 := by
  obtain ⟨b, hb', rfl⟩ := place_hostPage h
  have ha := hostPage_aligned hb hp hb'
  rw [BitVec.toNat_add, toNat_offset]
  have := b.isLt
  omega

/-- Two of the four bytes at `a` never share a place. -/
theorem place_inj {rw : Access} {a : Word} {i j : Nat} (hi : i < 4) (hj : j < 4) {y : Ram × Word}
    (h : s.place P rw (a + BitVec.ofNat 32 i) = some y)
    (h' : s.place P rw (a + BitVec.ofNat 32 j) = some y) : i = j := by
  have ho := place_offset hb hp h
  have ho' := place_offset hb hp h'
  rw [BitVec.toNat_add, BitVec.toNat_ofNat] at ho ho'
  have := a.isLt
  omega

/-- The bounds checks of an access whose bytes are all in RAM. -/
theorem checks_of_inRam {rw : Access} {v : Word} {n : Nat} (hn : 0 < n) (hv : InWordOf v n)
    (hin : ∀ j < n, s.InRam P rw (v + BitVec.ofNat 32 j)) :
    ∃ r b, s.hostPage P rw v = some (r, b) ∧ checkIoaddr b 0 r.size = true ∧
      checkIoaddr (b + (v &&& 0xFFF)) n r.size = true := by
  obtain ⟨r, x, h0, hx⟩ := hin 0 hn
  obtain ⟨r', x', hlast, hx'⟩ := hin (n - 1) (by omega)
  rw [show v + BitVec.ofNat 32 0 = v from BitVec.add_zero v] at h0
  rw [place_add hv (by omega) h0] at hlast
  obtain ⟨rfl, rfl⟩ := Prod.mk.inj (Option.some.inj hlast)
  obtain ⟨b, hpage, rfl⟩ := place_hostPage h0
  have ha := hostPage_aligned hb hp hpage
  have hs : r.size.toNat ≤ 2 ^ 28 := by cases r <;> decide
  have hbl := b.isLt
  unfold InWordOf at hv
  have hsum : (b + (v &&& 0xFFF)).toNat = b.toNat + v.toNat % 4096 := by
    rw [BitVec.toNat_add, toNat_offset]
    omega
  rw [hsum] at hx
  rw [BitVec.toNat_add, hsum, BitVec.toNat_ofNat] at hx'
  refine ⟨r, b, hpage, ?_, ?_⟩
  · simp only [checkIoaddr, Bool.and_eq_true, decide_eq_true_eq, BitVec.le_def, BitVec.toNat_add,
      BitVec.toNat_ofNat]
    omega
  · simp only [checkIoaddr, Bool.and_eq_true, decide_eq_true_eq, BitVec.le_def, BitVec.toNat_add,
      BitVec.toNat_ofNat, toNat_offset]
    omega

/-- A load inside an aligned word of RAM. -/
theorem vaddrRead_place (hx : s.cpu.hasException = false) {v : Word} {n : Nat} (hn : 0 < n)
    (hv : InWordOf v n) (hin : ∀ j < n, s.InRam P .load (v + BitVec.ofNat 32 j)) :
    ∃ r x mc, s.place P .load v = some (r, x) ∧
      vaddrRead P v n s = .ok (loadBytes (s.ram r) x n) { s with mmuCache := mc } ∧
      SamePlaces P .load v s { s with mmuCache := mc } ∧
      ({ s with mmuCache := mc } : Machine D).Paged := by
  obtain ⟨r, b, hpage, hc0, hcn⟩ := checks_of_inRam hb hp hn hv hin
  have hplace : s.place P .load v = some (r, b + (v &&& 0xFFF)) := by
    unfold Machine.place
    rw [hpage, Option.map_some]
  by_cases hc : s.cached P .load v
  · refine ⟨r, b + (v &&& 0xFFF), s.mmuCache, hplace, ?_, samePlaces_cached hc, hp⟩
    have hptr : (s.mmuCache (mmuCacheIndex v)).ptr = some (r, b) := by
      unfold Machine.hostPage at hpage
      rwa [if_pos hc] at hpage
    rw [vaddrRead_eq, if_pos hc, hptr]
    simp only [hostRead, hostInBounds, hcn]
    rfl
  · obtain ⟨p, d, dev, ht, hd, hr, rfl⟩ := hostPage_uncached hc hpage
    refine ⟨r, _, (s.fill v r _ d).mmuCache, hplace, ?_,
      samePlaces_fill (w := d) hc hpage (by simp), paged_fill hp (hostPage_aligned hb hp hpage) d⟩
    have hread : P.devRead dev.name = some (ramRead r) := by simp only [Platform.devRead, hr]
    rw [cached_addr ht dev.start] at hcn ⊢
    rw [vaddrRead_eq, if_neg hc, ht]
    simp only [readPaddr, hd, hread]
    rw [bind_of_ok (updateMmuCache_fill hx hr hc0 v d)]
    simp only [ramRead, hcn]
    rfl

/-- A store inside an aligned word of RAM. -/
theorem vaddrWrite_place (hx : s.cpu.hasException = false) {v : Word} {n : Nat} (hn : 0 < n)
    (hv : InWordOf v n) (hin : ∀ j < n, s.InRam P .store (v + BitVec.ofNat 32 j))
    (data : Word) :
    ∃ r x mc, s.place P .store v = some (r, x) ∧
      vaddrWrite P v n data s =
        .ok () { s with ram := s.ram.store r x n data, mmuCache := mc } ∧
      SamePlaces P .store v s { s with ram := s.ram.store r x n data, mmuCache := mc } ∧
      ({ s with ram := s.ram.store r x n data, mmuCache := mc } : Machine D).Paged := by
  obtain ⟨r, b, hpage, hc0, hcn⟩ := checks_of_inRam hb hp hn hv hin
  have hplace : s.place P .store v = some (r, b + (v &&& 0xFFF)) := by
    unfold Machine.place
    rw [hpage, Option.map_some]
  by_cases hc : s.cached P .store v
  · refine ⟨r, b + (v &&& 0xFFF), s.mmuCache, hplace, ?_,
      (samePlaces_cached hc).of_ram ⟨rfl, rfl, rfl⟩ rfl, hp⟩
    have hptr : (s.mmuCache (mmuCacheIndex v)).ptr = some (r, b) := by
      unfold Machine.hostPage at hpage
      rwa [if_pos hc] at hpage
    rw [vaddrWrite_eq, if_pos hc, hptr]
    simp only [hostWrite, hostInBounds, hcn]
    rfl
  · obtain ⟨p, d, dev, ht, hd, hr, rfl⟩ := hostPage_uncached hc hpage
    refine ⟨r, _, (s.fill v r _ true).mmuCache, hplace, ?_,
      (samePlaces_fill (w := true) hc hpage fun _ => rfl).of_ram ⟨rfl, rfl, rfl⟩ rfl,
      paged_fill hp (hostPage_aligned hb hp hpage) true⟩
    have hwrite : P.devWrite dev.name = some (ramWrite r) := by simp only [Platform.devWrite, hr]
    rw [cached_addr ht dev.start] at hcn ⊢
    rw [vaddrWrite_eq, if_neg hc, ht]
    simp only [writePaddr, hd, hwrite]
    rw [bind_of_ok (updateMmuCache_fill hx hr hc0 v true)]
    simp only [ramWrite, hcn]
    rfl

end Places

/-! ## Cached pointers in every run -/

/-- A step keeps the cached pointers those of whole pages. -/
def PagedStep (s t : Machine D) : Prop := s.Paged → t.Paged

theorem pagedStep_trans (s t u : Machine D) (h : PagedStep s t) (h' : PagedStep t u) :
    PagedStep s u := fun hs => h' (h hs)

theorem pagedStep_refl (s : Machine D) : PagedStep s s := id

theorem pagedStep_of_eq {s t : Machine D} (h : t.mmuCache = s.mmuCache) : PagedStep s t := by
  intro hs i r b
  rw [h]
  exact hs i r b

theorem paged_of_clear {s : Machine D} {m : BitVec 12 → MmuCacheEntry}
    (h : s.mmuCache = clearMmu m) : s.Paged := by
  intro i r b hi
  rw [h] at hi
  cases hi

section Keeps

variable {α β : Type}

theorem keepsPaged_bind {m : Exec D α} {f : α → Exec D β} (hm : Keeps PagedStep m)
    (hf : ∀ a, Keeps PagedStep (f a)) : Keeps PagedStep (m >>= f) :=
  keeps_bind pagedStep_trans hm hf

theorem keepsPaged_pure (a : α) : Keeps PagedStep (pure a : Exec D α) :=
  keeps_pure pagedStep_refl a

theorem keepsPaged_throw (e : Stop) : Keeps PagedStep (throw e : Exec D α) :=
  keeps_throw pagedStep_refl e

theorem keepsPaged_getCpu : Keeps PagedStep (getCpu : Exec D CpuState) := pagedStep_refl

theorem keepsPaged_get : Keeps PagedStep (get : Exec D (Machine D)) := pagedStep_refl

theorem keepsPaged_modifyArch (f : Arch D → Arch D) : Keeps PagedStep (modifyArch f) :=
  fun _ => pagedStep_of_eq rfl

theorem keepsPaged_modifyCpu (f : CpuState → CpuState) :
    Keeps PagedStep (modifyCpu f : Exec D Unit) := fun _ => pagedStep_of_eq rfl

theorem keepsPaged_modifyCp0 (f : Cp0 → Cp0) : Keeps PagedStep (modifyCp0 f : Exec D Unit) :=
  fun _ => pagedStep_of_eq rfl

theorem keepsPaged_modifyRegs (f : CpuState → Regs) :
    Keeps PagedStep (modifyRegs f : Exec D Unit) := fun _ => pagedStep_of_eq rfl

theorem keepsPaged_clearMmuCache : Keeps PagedStep (clearMmuCache : Exec D Unit) :=
  fun _ _ => paged_of_clear rfl

theorem keepsPaged_clearDecodeCache : Keeps PagedStep (clearDecodeCache : Exec D Unit) :=
  fun _ => pagedStep_of_eq rfl

theorem keepsPaged_onDecodeCache (f : DecodeCache → Option (α × DecodeCache)) :
    Keeps PagedStep (onDecodeCache f : Exec D α) := by
  intro s
  unfold onDecodeCache
  split
  · exact pagedStep_of_eq rfl
  · exact pagedStep_refl s

/-- An access that raised nothing and left the MMU cache alone. -/
theorem keepsPaged_devRead {P : Platform D} {d : DevName} {read : Word → Nat → Exec D Word}
    (h : P.devRead d = some read) (addr : Word) (len : Nat) : Keeps PagedStep (read addr len) := by
  simp only [Platform.devRead] at h
  split at h
  · obtain rfl := Option.some.inj h
    exact keeps_ite (keepsPaged_bind keepsPaged_get fun _ => keepsPaged_pure _)
      (keepsPaged_bind (keepsPaged_throw _) fun _ =>
        keepsPaged_bind keepsPaged_get fun _ => keepsPaged_pure _)
  · split at h
    · obtain rfl := Option.some.inj h
      exact keepsPaged_pure 0
    · obtain ⟨f, -, rfl⟩ := Option.map_eq_some_iff.1 h
      intro s
      unfold mmioRead
      split
      · exact pagedStep_of_eq rfl
      · exact pagedStep_refl s

theorem keepsPaged_devWrite {P : Platform D} {d : DevName}
    {write : Word → Nat → Word → Exec D Unit} (h : P.devWrite d = some write) (addr : Word)
    (len : Nat) (data : Word) : Keeps PagedStep (write addr len data) := by
  simp only [Platform.devWrite] at h
  split at h
  · obtain rfl := Option.some.inj h
    exact keeps_ite (keepsPaged_modifyArch _)
      (keepsPaged_bind (keepsPaged_throw _) fun _ => keepsPaged_modifyArch _)
  · split at h
    · obtain rfl := Option.some.inj h
      exact keepsPaged_pure ()
    · obtain ⟨f, -, rfl⟩ := Option.map_eq_some_iff.1 h
      intro s
      unfold mmioWrite
      split
      · exact pagedStep_of_eq rfl
      · exact pagedStep_refl s

theorem keepsPaged_hostRead (ptr : Option (Ram × Word)) (off : Word) (len : Nat) :
    Keeps PagedStep (hostRead ptr off len : Exec D Word) := by
  cases ptr with
  | none => exact keepsPaged_throw _
  | some p =>
    exact keeps_ite (keepsPaged_bind keepsPaged_get fun _ => keepsPaged_pure _)
      (keepsPaged_bind (keepsPaged_throw _) fun _ =>
        keepsPaged_bind keepsPaged_get fun _ => keepsPaged_pure _)

theorem keepsPaged_hostWrite (ptr : Option (Ram × Word)) (off : Word) (len : Nat) (data : Word) :
    Keeps PagedStep (hostWrite ptr off len data : Exec D Unit) := by
  cases ptr with
  | none => exact keepsPaged_throw _
  | some p =>
    exact keeps_ite (keepsPaged_modifyArch _)
      (keepsPaged_bind (keepsPaged_throw _) fun _ => keepsPaged_modifyArch _)

end Keeps

section Programs

variable {P : Platform D} {bases : List (DevName × Word)} (hb : P.board.Realizes bases)

theorem keepsPaged_raise (e : Exception) : Keeps PagedStep (raiseException P e) := by
  intro s
  by_cases he : e.code = .TRAP
  · simp only [raiseException, if_pos he]
    exact pagedStep_of_eq rfl
  · rw [raiseException_apply P he]
    exact fun _ => paged_of_clear rfl

theorem keepsPaged_instAssert (c : Bool) : Keeps PagedStep (instAssert P c) := by
  refine keeps_ite (keepsPaged_pure _) (keeps_ite ?_ (keepsPaged_throw _))
  refine keepsPaged_bind (keepsPaged_modifyCpu _) fun _ => ?_
  exact keepsPaged_bind (keepsPaged_raise _) fun _ => keepsPaged_throw _

theorem keepsPaged_checkAlignedAddr (code : ExcCode) (align addr : Word) :
    Keeps PagedStep (checkAlignedAddr P code align addr) := by
  refine keeps_ite (keepsPaged_pure _) (keeps_ite ?_ (keepsPaged_throw _))
  refine keepsPaged_bind (keepsPaged_modifyCp0 _) fun _ => ?_
  exact keepsPaged_bind (keepsPaged_raise _) fun _ => keepsPaged_throw _

theorem keepsPaged_check (code : ExcCode) (a : AccessOp) (c : CpuState) :
    Keeps PagedStep (a.check P code c) := by
  unfold AccessOp.check
  split
  · exact keepsPaged_pure _
  · exact keepsPaged_checkAlignedAddr code _ _

theorem keepsPaged_tlbPresentFrom (is : List (Fin 32)) :
    Keeps PagedStep (tlbPresentFrom is : Exec D Unit) := by
  induction is with
  | nil => exact keepsPaged_modifyCp0 _
  | cons i is ih =>
    refine keepsPaged_bind keepsPaged_get fun s => keeps_ite ?_ ?_
    · exact keeps_ite (keepsPaged_modifyCp0 _) ih
    · exact keepsPaged_bind (keepsPaged_throw _) fun _ => keeps_ite (keepsPaged_modifyCp0 _) ih

theorem keepsPaged_flush : Keeps PagedStep (do clearMmuCache; clearDecodeCache : Exec D Unit) :=
  keepsPaged_bind keepsPaged_clearMmuCache fun _ => keepsPaged_clearDecodeCache

theorem keepsPaged_tlbwr : Keeps PagedStep (tlbwr P) := by
  refine keeps_ite ?_ ?_
  · refine keepsPaged_bind keepsPaged_getCpu fun c => ?_
    by_cases hr : c.cp0.random.toNat < 32
    · simp only [hr, dite_true]
      refine keepsPaged_bind (keepsPaged_modifyArch _) fun _ => ?_
      exact keepsPaged_bind (keepsPaged_modifyCp0 _) fun _ => keepsPaged_flush
    · simp only [hr, dite_false]
      refine keepsPaged_bind (keepsPaged_throw _) fun _ => ?_
      exact keepsPaged_bind (keepsPaged_modifyCp0 _) fun _ => keepsPaged_flush
  · have hnext : Keeps PagedStep (nextRandom P) :=
      keepsPaged_bind keepsPaged_get fun _ =>
        keepsPaged_bind (keepsPaged_modifyArch _) fun _ => keepsPaged_pure _
    refine keepsPaged_bind hnext fun i => keepsPaged_bind (keepsPaged_modifyCp0 _) fun _ => ?_
    exact keepsPaged_bind (keepsPaged_modifyArch _) fun _ => keepsPaged_flush

include hb in
/-- The pointer that `update_mmu_cache` stores is that of a page, since devices start on page
    boundaries. -/
theorem keepsPaged_updateMmuCache {p : Word} {dev : Device} (hd : P.findDevice p = some dev)
    (v : Word) (w : Bool) : Keeps PagedStep (updateMmuCache v p dev w : Exec D Unit) := by
  have ha := (findDevice_covers hb hd).2.aligned
  have hpage : ((p &&& ~~~0xFFF) - dev.start).toNat % 4096 = 0 := by
    have := toNat_pageOf p
    have := dev.start.isLt
    have := p.isLt
    rw [BitVec.toNat_sub]
    omega
  intro s hs
  by_cases hx : s.cpu.hasException = true
  · rw [updateMmuCache_of_exception hx]
    exact hs
  · cases hr : dev.name.ram with
    | none =>
      simp only [updateMmuCache, bind_apply, getCpu_apply, ite_run, hx, hr]
      exact hs
    | some r =>
      by_cases hc : checkIoaddr ((p &&& ~~~0xFFF) - dev.start) 0 r.size = true
      · rw [updateMmuCache_fill (Bool.eq_false_iff.2 hx) hr hc]
        exact paged_fill hs hpage w
      · simp only [updateMmuCache, bind_apply, getCpu_apply, ite_run, hx, hr, devMap, hc]
        exact hs

include hb in
theorem keepsPaged_vaddrRead (v : Word) (len : Nat) : Keeps PagedStep (vaddrRead P v len) := by
  intro s
  rw [vaddrRead_eq]
  split
  · exact keepsPaged_hostRead _ _ len s
  · split
    · rename_i p d _
      unfold readPaddr
      cases hd : P.findDevice p with
      | none => exact pagedStep_refl s
      | some dev =>
        cases hr : P.devRead dev.name with
        | none => simp only [hr]; exact pagedStep_refl s
        | some read =>
          simp only [hr]
          exact keepsPaged_bind (keepsPaged_updateMmuCache hb hd v d)
            (fun _ => keepsPaged_devRead hr _ len) s
    · exact fun _ => paged_of_clear rfl
    · exact pagedStep_refl s

include hb in
theorem keepsPaged_vaddrWrite (v : Word) (len : Nat) (data : Word) :
    Keeps PagedStep (vaddrWrite P v len data) := by
  intro s
  rw [vaddrWrite_eq]
  split
  · exact keepsPaged_hostWrite _ _ len data s
  · split
    · rename_i p d _
      unfold writePaddr
      cases hd : P.findDevice p with
      | none => exact pagedStep_refl s
      | some dev =>
        cases hr : P.devWrite dev.name with
        | none => simp only [hr]; exact pagedStep_refl s
        | some write =>
          simp only [hr]
          exact keepsPaged_bind (keepsPaged_updateMmuCache hb hd v true)
            (fun _ => keepsPaged_devWrite hr _ len data) s
    · exact fun _ => paged_of_clear rfl
    · exact pagedStep_refl s

include hb in
/-- The rule for a handler. -/
theorem keepsPaged_run (b : Body) : Keeps PagedStep (b.run P) := by
  have hregs : ∀ f : CpuState → Regs, Keeps PagedStep (modifyRegs f : Exec D Unit) :=
    keepsPaged_modifyRegs
  cases b with
  | regs mbz bad f =>
    refine keepsPaged_bind (keepsPaged_instAssert mbz) fun _ =>
      keepsPaged_bind keepsPaged_getCpu fun c => ?_
    split
    · exact keepsPaged_throw _
    · exact hregs f
  | addOv mbz dst ret =>
    refine keepsPaged_bind (keepsPaged_instAssert mbz) fun _ =>
      keepsPaged_bind keepsPaged_getCpu fun c => ?_
    exact keeps_ite (keeps_ite (keepsPaged_raise _) (keepsPaged_throw _)) (hregs _)
  | raiseIf cond e =>
    exact keepsPaged_bind keepsPaged_getCpu fun c =>
      keeps_ite (keepsPaged_raise e) (keepsPaged_pure _)
  | branch mbz link target =>
    refine keepsPaged_bind (keepsPaged_instAssert mbz) fun _ => keepsPaged_bind (hregs _) fun _ => ?_
    exact keepsPaged_bind (keepsPaged_modifyCpu _) fun _ => keepsPaged_throw _
  | branchLikely mbz link cond o =>
    refine keepsPaged_bind (keepsPaged_instAssert mbz) fun _ => keepsPaged_bind (hregs _) fun _ => ?_
    exact keepsPaged_bind keepsPaged_getCpu fun c =>
      keeps_ite (keepsPaged_bind (keepsPaged_modifyCpu _) fun _ => keepsPaged_throw _) (keepsPaged_modifyCpu _)
  | read a put =>
    refine keepsPaged_bind keepsPaged_getCpu fun c =>
      keepsPaged_bind (keepsPaged_check _ a c) fun _ => ?_
    exact keepsPaged_bind (keepsPaged_vaddrRead hb _ _) fun _ =>
      keepsPaged_bind keepsPaged_getCpu fun _ => keeps_ite (hregs _) (keepsPaged_modifyCp0 _)
  | write a data put =>
    refine keepsPaged_bind keepsPaged_getCpu fun c =>
      keepsPaged_bind (keepsPaged_check _ a c) fun _ => ?_
    exact keepsPaged_bind (keepsPaged_vaddrWrite hb _ _ _) fun _ =>
      keepsPaged_bind keepsPaged_getCpu fun _ => keeps_ite (hregs _) (keepsPaged_modifyCp0 _)
  | cp0 f flush =>
    exact keepsPaged_bind keepsPaged_get fun s => keepsPaged_bind (keepsPaged_modifyCp0 _) fun _ =>
      keeps_ite keepsPaged_flush (keepsPaged_pure _)
  | halt why => exact keepsPaged_throw _
  | cfc1Bad rt => exact keepsPaged_bind (hregs _) fun _ => keepsPaged_instAssert false
  | ll o =>
    exact keepsPaged_bind keepsPaged_getCpu fun _ =>
      keepsPaged_bind (keepsPaged_checkAlignedAddr _ _ _) fun _ =>
      keepsPaged_bind (keepsPaged_vaddrRead hb _ _) fun _ => hregs _
  | ldc1 o =>
    exact keepsPaged_bind keepsPaged_getCpu fun _ =>
      keepsPaged_bind (keepsPaged_checkAlignedAddr _ _ _) fun _ =>
      keepsPaged_bind (keepsPaged_vaddrRead hb _ _) fun _ =>
      keepsPaged_bind (keepsPaged_vaddrRead hb _ _) fun _ =>
      keepsPaged_bind keepsPaged_getCpu fun _ => keeps_ite (keepsPaged_pure _) (hregs _)
  | sdc1 o =>
    exact keepsPaged_bind keepsPaged_getCpu fun _ =>
      keepsPaged_bind (keepsPaged_checkAlignedAddr _ _ _) fun _ =>
      keepsPaged_bind keepsPaged_getCpu fun _ =>
      keepsPaged_bind (keepsPaged_vaddrWrite hb _ _ _) fun _ =>
      keepsPaged_bind keepsPaged_getCpu fun _ => keepsPaged_vaddrWrite hb _ _ _
  | cache => exact keepsPaged_clearDecodeCache
  | tlbp => exact keepsPaged_tlbPresentFrom _
  | tlbwi =>
    exact keepsPaged_bind keepsPaged_getCpu fun _ =>
      keepsPaged_bind (fun _ => pagedStep_of_eq rfl) fun _ => keepsPaged_flush
  | tlbwr => exact keepsPaged_tlbwr
  | eret => exact keepsPaged_bind (keepsPaged_modifyCpu _) fun _ => keepsPaged_flush
  | gdbStop => exact fun _ => pagedStep_of_eq rfl
  | invEnd =>
    exact keepsPaged_bind keepsPaged_getCpu fun _ =>
      keepsPaged_bind (keepsPaged_vaddrRead hb _ _) fun _ => keepsPaged_modifyArch _

end Programs

section Runs

variable {P : Platform D} {bases : List (DevName × Word)} (hb : P.board.Realizes bases)
include hb

theorem keepsPaged_makeEntry : Keeps PagedStep (makeEntry P) := by
  have hfetch : Keeps PagedStep (fetchInst P) :=
    keepsPaged_bind keepsPaged_getCpu fun _ => keepsPaged_vaddrRead hb _ _
  refine keepsPaged_bind (keepsPaged_modifyRegs _) fun _ =>
    keeps_ite ?_ (keepsPaged_bind hfetch fun _ => keepsPaged_pure _)
  refine keepsPaged_bind (keepsPaged_onDecodeCache _) fun d => ?_
  cases d with
  | none =>
    exact keepsPaged_bind (keepsPaged_onDecodeCache _) fun _ => keepsPaged_bind hfetch fun _ =>
      keepsPaged_bind (keepsPaged_onDecodeCache _) fun _ => keepsPaged_pure _
  | some d =>
    cases hd : d.handler with
    | none => simp only [hd]; exact keepsPaged_throw _
    | some h => simp only [hd]; exact keepsPaged_pure _

theorem keepsPaged_dispatch (h : Handler) (o : Ops) : Keeps PagedStep (dispatch P h o) := by
  have hpc : Keeps PagedStep (modifyCpu fun c => { c with pc := c.pc + 4 } : Exec D Unit) :=
    keepsPaged_modifyCpu _
  have hend : Keeps PagedStep (instEnd P h) := by
    refine keeps_ite (keepsPaged_bind keepsPaged_getCpu fun _ => keeps_ite ?_ hpc)
      (keeps_ite (keepsPaged_pure _) hpc)
    refine keepsPaged_bind (keepsPaged_modifyCpu _) fun _ => keeps_ite ?_ (keepsPaged_modifyCpu _)
    exact keepsPaged_bind keepsPaged_getCpu fun _ =>
      keepsPaged_bind (keepsPaged_onDecodeCache _) fun _ => keepsPaged_modifyCpu _
  have hslot : Keeps PagedStep (enterDelayslot P) := by
    refine keeps_ite (keepsPaged_modifyCpu _) (keeps_ite ?_ (keepsPaged_pure _))
    exact keepsPaged_bind (keepsPaged_modifyCpu _) fun _ =>
      keepsPaged_bind keepsPaged_getCpu fun _ => keepsPaged_onDecodeCache _
  intro s
  have hr := keepsPaged_run hb (body P o h) s
  unfold dispatch exec
  cases hx : (body P o h).run P s with
  | ok a u =>
    rw [hx] at hr
    exact pagedStep_trans _ _ _ hr (hend u)
  | error e u =>
    rw [hx] at hr
    cases e with
    | exit => exact hr
    | delayslot => exact pagedStep_trans _ _ _ hr (hslot u)
    | halt why => exact hr

theorem keepsPaged_iteration : Keeps PagedStep (iteration P) := by
  have hexec : Keeps PagedStep (execInst P) := by
    refine keepsPaged_bind keepsPaged_getCpu fun _ => keeps_ite ?_ ?_
    · exact keepsPaged_bind (keepsPaged_modifyCp0 _) fun _ => keepsPaged_raise _
    · exact keepsPaged_bind (keepsPaged_makeEntry hb) fun x => keepsPaged_dispatch hb x.1 x.2
  have hvector : Keeps PagedStep (do
      if (← getCpu).hasException then
        modifyCpu fun c => { c with hasException := false, pc := c.brTarget } : Exec D Unit) :=
    keepsPaged_bind keepsPaged_getCpu fun _ =>
      keeps_ite (keepsPaged_modifyCpu _) (keepsPaged_pure _)
  have hintrs : Keeps PagedStep (checkIntrs P) := by
    have hrest : Keeps PagedStep (do
        if (← getCpu).cp0.takesIntr then raiseException P ⟨.none, .INTR⟩ : Exec D Unit) :=
      keepsPaged_bind keepsPaged_getCpu fun _ => keeps_ite (keepsPaged_raise _) (keepsPaged_pure _)
    exact keeps_ite (keepsPaged_bind (keepsPaged_modifyCp0 _) fun _ => hrest) hrest
  refine keepsPaged_bind hexec fun _ => keeps_ite ?_ (keepsPaged_pure _)
  exact keepsPaged_bind keepsPaged_getCpu fun _ =>
    keeps_ite hvector (keepsPaged_bind hintrs fun _ => hvector)

theorem keepsPaged_initCpu (entry : Word) (cmdline : List (BitVec 8)) :
    Keeps PagedStep (initCpu P entry cmdline) := by
  have hstore : ∀ (bs : List (BitVec 8)) (addr : Word),
      Keeps PagedStep (storeCmdline P addr bs) := by
    intro bs
    induction bs with
    | nil => exact fun addr => keepsPaged_vaddrWrite hb addr 1 0
    | cons b bs ih =>
      exact fun addr => keepsPaged_bind (keepsPaged_vaddrWrite hb _ _ _) fun _ => ih _
  refine keepsPaged_bind (keepsPaged_modifyCpu _) fun _ =>
    keepsPaged_bind keepsPaged_clearMmuCache fun _ =>
    keepsPaged_bind keepsPaged_clearDecodeCache fun _ => keeps_ite ?_ (keepsPaged_pure _)
  exact keepsPaged_bind (keepsPaged_vaddrWrite hb _ _ _) fun _ =>
    keepsPaged_bind (keepsPaged_vaddrWrite hb _ _ _) fun _ =>
    keepsPaged_bind (hstore _ _) fun _ => keepsPaged_modifyRegs _

theorem paged_step {s s' : Machine D} {i : Input D} (hs : s.Paged) (h : step P s i = some s') :
    s'.Paged := by
  cases i with
  | iterate =>
    have hi := keepsPaged_iteration hb s hs
    rw [eq_ok_of_okState h] at hi
    exact hi
  | host f =>
    cases h
    exact hs
  | enter =>
    have he : Keeps PagedStep (enterLoop P) := by
      refine keepsPaged_bind (keepsPaged_modifyArch _) fun _ => keeps_ite ?_ (keepsPaged_pure _)
      exact keepsPaged_bind keepsPaged_getCpu fun _ => keepsPaged_onDecodeCache _
    have hi := he s hs
    rw [eq_ok_of_okState h] at hi
    exact hi

/-- In every state of every run the cached pointers are those of whole pages. -/
theorem paged_states (ram : Memory) (dev : D) (entry : Word) (cmdline : List (BitVec 8))
    (is : List (Input D)) : ∀ s ∈ states P ram dev entry cmdline is, s.Paged := by
  have hboot : (Machine.boot ram dev).Paged := by
    intro i r b h
    cases h
  refine states_keep (fun s hs => ?_) (paged_step hb) is
  have hinit := keepsPaged_initCpu hb entry cmdline _ hboot
  rw [hs] at hinit
  exact hinit

end Runs

end NemuMips32
