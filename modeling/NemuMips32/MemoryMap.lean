/-
  The construction of the memory map. The devices register one by one, and `init_mmio` gives
  each its pages. It succeeds exactly if no page belongs to two devices, and the table is then
  determined by the set of the devices: `initMmio_spec`.
-/
import NemuMips32.Devices
import Mathlib.Order.CompletePartialOrder
import Mathlib.Data.Set.Lattice

namespace NemuMips32

/-! ## Registration -/

/-- `register_device`, on the list from `device_list_head` on. -/
def registerDevice (head : List Device) (dev : Device) : List Device := dev :: head

/-- `get_device_list_head` after the registration of some devices. -/
def deviceList (devs : List Device) : List Device := devs.foldl registerDevice []

/-- `find_device` in a table of regions. -/
def Regions.findDevice (m : Regions) (addr : Word) : Option Device := m (mrIndex (ioremap addr))

/-- A device that the physical address space has room for. -/
structure Placed (d : Device) : Prop where
  aligned : d.start.toNat % 4096 = 0
  start_lt : d.start.toNat < 2 ^ 29
  end_le : d.start.toNat + d.size.toNat ≤ 2 ^ 29

/-- The pages that contain an address of the device. -/
def Device.pages (d : Device) : Set Nat :=
  {k | ∃ a, d.start.toNat ≤ a ∧ a < d.start.toNat + d.size.toNat ∧ a / 4096 = k}

theorem Placed.mem_pages {d : Device} (h : Placed d) {k : Nat} :
    k ∈ d.pages ↔ d.start.toNat ≤ 4096 * k ∧ 4096 * k < d.start.toNat + d.size.toNat := by
  have hal := h.aligned
  constructor
  · rintro ⟨a, hlo, hhi, rfl⟩
    omega
  · rintro ⟨hlo, hhi⟩
    exact ⟨4096 * k, hlo, hhi, by omega⟩

theorem deviceList_eq (devs : List Device) : deviceList devs = devs.reverse := by
  have h : ∀ l, devs.foldl registerDevice l = devs.reverse ++ l := by
    induction devs with
    | nil => exact fun l => rfl
    | cons d devs ih =>
      intro l
      rw [List.foldl_cons, ih, List.reverse_cons, List.append_assoc]
      rfl
  rw [deviceList, h, List.append_nil]

/-! ## One device -/

/-- The loop stops at a page that is taken. -/
theorem realizePages_all_free {dev : Device}
    (hend : dev.start.toNat + dev.size.toNat + 4096 ≤ 2 ^ 32) {fuel : Nat} {i : Word}
    {m m' : Regions} (hi : i.toNat % 4096 = 0) (h : realizePages dev fuel i m = some m') {p : Word}
    (hlo : i.toNat ≤ 4096 * p.toNat) (hhi : 4096 * p.toNat < dev.start.toNat + dev.size.toNat) :
    m p = none := by
  have hsum : (dev.start + dev.size).toNat = dev.start.toNat + dev.size.toNat := by
    rw [BitVec.toNat_add]
    omega
  induction fuel generalizing i m with
  | zero => cases h
  | succ fuel ih =>
    have hlt : i < dev.start + dev.size := by
      rw [BitVec.lt_def, hsum]
      omega
    rw [realizePages, if_pos hlt] at h
    split at h
    · cases h
    · rename_i hfree
      by_cases hp : p = mrIndex i
      · rw [hp]
        simpa using hfree
      · have hnext : (i + 4096).toNat = i.toNat + 4096 := by
          rw [toNat_nextPage]
          omega
        have hne : p.toNat ≠ i.toNat / 4096 := by
          rw [← toNat_mrIndex]
          exact fun hn => hp (BitVec.eq_of_toNat_eq hn)
        have hnone := ih (by omega) h (by omega)
        rwa [Function.update_of_ne hp] at hnone

/-- A device takes its pages if they are free, and else the assertion fails. -/
theorem realizeDevice_iff {d : Device} (hd : Placed d) {m m' : Regions} :
    realizeDevice m d = some m' ↔
      (∀ p : Word, p.toNat ∈ d.pages → m p = none) ∧ withPages d d.start m = m' := by
  have hend := hd.end_le
  simp only [hd.mem_pages, and_imp]
  constructor
  · intro h
    have hpages := h
    rw [realizeDevice, if_pos ((aligned_iff _).2 hd.aligned)] at hpages
    have hfree : ∀ p : Word, d.start.toNat ≤ 4096 * p.toNat →
        4096 * p.toNat < d.start.toNat + d.size.toNat → m p = none :=
      fun p hlo hhi => realizePages_all_free (by omega) hd.aligned hpages hlo hhi
    rw [realizeDevice_free hd.aligned (by omega) hfree, Option.some.injEq] at h
    exact ⟨hfree, h⟩
  · rintro ⟨hfree, rfl⟩
    exact realizeDevice_free hd.aligned (by omega) hfree

/-- What a device leaves free. -/
theorem withPages_none {d : Device} (hd : Placed d) (m : Regions) (p : Word) :
    withPages d d.start m p = none ↔ p.toNat ∉ d.pages ∧ m p = none := by
  rw [hd.mem_pages, withPages]
  split_ifs with h
  · simp [h]
  · simp [h]

/-! ## The list of devices -/

/-- No page belongs to two devices. -/
def Apart (devs : List Device) : Prop := devs.Pairwise fun d e => Disjoint d.pages e.pages

theorem apart_perm {devs devs' : List Device} (h : devs'.Perm devs) : Apart devs' ↔ Apart devs :=
  h.pairwise_iff fun hd => hd.symm

/-- The pages that two devices share are those of indices. -/
theorem disjoint_pages {d e : Device} (hd : Placed d) :
    Disjoint d.pages e.pages ↔ ∀ p : Word, p.toNat ∈ e.pages → p.toNat ∉ d.pages := by
  rw [Set.disjoint_left]
  constructor
  · exact fun h p he hmem => h hmem he
  · intro h k hk he
    have hend := hd.end_le
    have hlt := (hd.mem_pages.1 hk).2
    have hword : (BitVec.ofNat 32 k).toNat = k := by
      rw [BitVec.toNat_ofNat]
      omega
    exact h (BitVec.ofNat 32 k) (by rwa [hword]) (by rwa [hword])

theorem foldlM_iff (l : List Device) (hl : ∀ d ∈ l, Placed d) (m : Regions) :
    (∃ m', l.foldlM realizeDevice m = some m') ↔
      Apart l ∧ ∀ d ∈ l, ∀ p : Word, p.toNat ∈ d.pages → m p = none := by
  induction l generalizing m with
  | nil => exact iff_of_true ⟨m, rfl⟩ ⟨List.Pairwise.nil, fun d hd => (by cases hd)⟩
  | cons d l ih =>
    obtain ⟨hd, hl⟩ := List.forall_mem_cons.1 hl
    have hstep : (∃ m', (d :: l).foldlM realizeDevice m = some m') ↔
        (∀ p : Word, p.toNat ∈ d.pages → m p = none) ∧
          ∃ m', l.foldlM realizeDevice (withPages d d.start m) = some m' := by
      simp only [List.foldlM_cons, Option.bind_eq_bind, Option.bind_eq_some_iff,
        realizeDevice_iff hd]
      constructor
      · rintro ⟨m', m₁, ⟨hfree, rfl⟩, h⟩
        exact ⟨hfree, m', h⟩
      · rintro ⟨hfree, m', h⟩
        exact ⟨m', _, ⟨hfree, rfl⟩, h⟩
    simp only [hstep, ih hl, withPages_none hd, Apart, List.pairwise_cons, List.forall_mem_cons,
      disjoint_pages hd]
    constructor
    · rintro ⟨hfree, hapart, hrest⟩
      exact ⟨⟨fun e he p hp => (hrest e he p hp).1, hapart⟩, hfree,
        fun e he p hp => (hrest e he p hp).2⟩
    · rintro ⟨⟨hdisj, hapart⟩, hfree, hrest⟩
      exact ⟨hfree, hapart, fun e he p hp => ⟨hdisj e he p hp, hrest e he p hp⟩⟩

/-- What the table holds. -/
theorem initMmio_at {l : List Device} (hl : ∀ d ∈ l, Placed d) {m : Regions}
    (h : initMmio l = some m) (p : Word) (d : Device) :
    m p = some d ↔ d ∈ l ∧ p.toNat ∈ d.pages := by
  constructor
  · intro hp
    obtain ⟨hd, hon⟩ := covers_initMmio h p d hp
    exact ⟨hd, (hl d hd).mem_pages.2 ⟨hon.start_le, hon.lt_end⟩⟩
  · rintro ⟨hd, hp⟩
    obtain ⟨hlo, hhi⟩ := (hl d hd).mem_pages.1 hp
    have hend := (hl d hd).end_le
    exact foldlM_stores h hd (by omega) hlo hhi

/-- The order does not matter. -/
theorem initMmio_perm {l l' : List Device} (hl : ∀ d ∈ l, Placed d) (hperm : l'.Perm l) :
    initMmio l' = initMmio l := by
  have hl' : ∀ d ∈ l', Placed d := fun d hd => hl d (hperm.mem_iff.1 hd)
  have hsome : (∃ m, initMmio l' = some m) ↔ ∃ m, initMmio l = some m := by
    simp only [initMmio, foldlM_iff l' hl', foldlM_iff l hl, apart_perm hperm, hperm.mem_iff]
  cases h : initMmio l with
  | none =>
    cases h' : initMmio l' with
    | none => rfl
    | some m' =>
      obtain ⟨m, hm⟩ := hsome.1 ⟨m', h'⟩
      rw [h] at hm
      cases hm
  | some m =>
    obtain ⟨m', h'⟩ := hsome.2 ⟨m, h⟩
    rw [h', Option.some.injEq]
    funext p
    apply Option.ext
    intro d
    rw [initMmio_at hl' h', initMmio_at hl h, hperm.mem_iff]

/-- Whatever devices are registered in whatever order, the memory map can be built exactly if
    their pages are apart, and finds the device of each page. -/
theorem initMmio_spec (devs : List Device) (h : ∀ d ∈ devs, Placed d) :
    ((∃ m, initMmio (deviceList devs) = some m) ↔ Apart devs) ∧
      (∀ m, initMmio (deviceList devs) = some m → ∀ p : Word,
        (∀ d, m.findDevice p = some d ↔ d ∈ devs ∧ p.toNat % 2 ^ 29 / 4096 ∈ d.pages) ∧
        (m.findDevice p = none ↔ ∀ d ∈ devs, p.toNat % 2 ^ 29 / 4096 ∉ d.pages)) ∧
      ∀ devs', devs'.Perm devs → initMmio (deviceList devs') = initMmio (deviceList devs) := by
  have hperm : (deviceList devs).Perm devs := by
    rw [deviceList_eq]
    exact devs.reverse_perm
  have hplaced : ∀ d ∈ deviceList devs, Placed d := fun d hd => h d (hperm.mem_iff.1 hd)
  refine ⟨?_, fun m hm p => ?_, fun devs' hd => ?_⟩
  · rw [← apart_perm hperm, initMmio, foldlM_iff _ hplaced]
    exact and_iff_left fun _ _ _ _ => rfl
  · have hpage : (mrIndex (ioremap p)).toNat = p.toNat % 2 ^ 29 / 4096 := by
      rw [toNat_mrIndex, toNat_ioremap]
    have hfind : ∀ d, m.findDevice p = some d ↔
        d ∈ devs ∧ p.toNat % 2 ^ 29 / 4096 ∈ d.pages := by
      intro d
      rw [Regions.findDevice, initMmio_at hplaced hm, hpage, hperm.mem_iff]
    refine ⟨hfind, ?_⟩
    simp only [Option.eq_none_iff_forall_ne_some, ne_eq, hfind, not_and]
  · refine initMmio_perm hplaced ?_
    rw [deviceList_eq, deviceList_eq]
    exact (devs'.reverse_perm.trans hd).trans devs.reverse_perm.symm

/-- A UART, whose page it does not fill, and a ROM. -/
theorem initMmio_spec_pair :
    ∃ m, initMmio (deviceList [deviceAt .xlnxUlite 0x10400000, deviceAt .bram 0x1fc00000]) =
      some m := by
  have hulite : Placed (deviceAt .xlnxUlite 0x10400000) := ⟨by decide, by decide, by decide⟩
  have hbram : Placed (deviceAt .bram 0x1fc00000) := ⟨by decide, by decide, by decide⟩
  refine (initMmio_spec [deviceAt .xlnxUlite 0x10400000, deviceAt .bram 0x1fc00000] ?_).1.2 ?_
  · intro d hd
    rcases List.mem_pair.1 hd with rfl | rfl
    · exact hulite
    · exact hbram
  · refine List.pairwise_pair.2 ?_
    rw [disjoint_pages hulite]
    intro p hp hp'
    have hlo : 0x1fc00000 ≤ 4096 * p.toNat := (hbram.mem_pages.1 hp).1
    have hhi : 4096 * p.toNat < 0x10400000 + 0x10 := (hulite.mem_pages.1 hp').2
    omega

end NemuMips32
