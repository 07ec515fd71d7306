/-
  The TLB as a table of page pairs (`tlb_write` and `page_translate`, `mmu.c`).

  With every page mask 0 the search of `page_translate` is a first-match search
  (`lookup_eq_find`) and an entry matches on its VPN2 and ASID alone. The update law of
  `tlb_write` then has two halves: one for the addresses the new entry decides
  (`lookup_update_of_match`), one for those that neither the new entry nor the one it
  replaced matches (`lookup_update_of_not_match`). The loop of `tlb_present` is the same
  first-match search, with EntryHi for a key.
-/
import NemuMips32.Page
import NemuMips32.Board

namespace NemuMips32

open StateExcept

variable {D : Type}

/-! ## Search -/

theorem find?_eq_some_of_first {n : Nat} {p : Fin n → Bool} {i : Fin n} (hi : p i = true)
    (hlt : ∀ j < i, p j = false) : (List.finRange n).find? p = some i := by
  obtain ⟨as, bs, h⟩ := List.append_of_mem (List.mem_finRange i)
  have hp := List.pairwise_lt_finRange n
  rw [h, List.pairwise_append] at hp
  rw [List.find?_eq_some_iff_append]
  refine ⟨hi, as, bs, h, fun j hj => ?_⟩
  simp [hlt j (hp.2.2 j hj i (List.mem_cons_self ..))]

theorem lookup_eq_find {tlb : Fin 32 → TlbEntry} (h : ∀ j, (tlb j).pagemask = 0)
    (vaddr : Word) (asid : BitVec 8) (is : List (Fin 32)) :
    lookup tlb vaddr asid is =
      match is.find? fun j => (tlb j).matches (vaddr >>> 13) asid with
      | some j => .hit (tlb j)
      | none => .miss := by
  induction is with
  | nil => rfl
  | cons i is ih =>
    have hm : pagemaskOk (tlb i).pagemask = true := by rw [h i]; decide
    by_cases hv : (tlb i).matches (vaddr >>> 13) asid = true
    · simp [lookup, hm, hv]
    · simpa [lookup, hm, hv] using ih

/-! ## Entries without a page mask -/

theorem shift_eq_iff (v : Word) (vpn : BitVec 19) :
    vpn.setWidth 32 = v >>> 13 ↔ v.extractLsb' 13 19 = vpn := by
  have hv := v.isLt
  have hn := vpn.isLt
  rw [← BitVec.toNat_inj, ← BitVec.toNat_inj]
  simp only [BitVec.toNat_setWidth, BitVec.toNat_ushiftRight, BitVec.extractLsb'_toNat,
    Nat.shiftRight_eq_div_pow]
  omega

theorem matches_iff {e : TlbEntry} (he : e.pagemask = 0) (v : Word) (asid : BitVec 8) :
    e.matches (v >>> 13) asid = true ↔
      v.extractLsb' 13 19 = e.vpn ∧ (e.g = true ∨ e.asid = asid) := by
  simp only [TlbEntry.matches, he, and_not_setWidth_zero, BitVec.ofNat_eq_ofNat]
  simp [shift_eq_iff]

/-- Bit 12 chooses between the two pages of the pair. -/
theorem phyn_eq {e : TlbEntry} (he : e.pagemask = 0) (v : Word) :
    e.phyn v = if v.getLsbD 12 then e.p1 else e.p0 := by
  have h : v &&& 4096#32 = if v.getLsbD 12 then 4096#32 else 0#32 := BitVec.and_twoPow v 12
  by_cases hb : v.getLsbD 12 = true <;> simp [TlbEntry.phyn, he, h, hb]

/-! ## The update law -/

def Machine.withTlb (s : Machine D) (tlb : Fin 32 → TlbEntry) : Machine D :=
  { s with tlb := tlb }

@[simp] theorem tlb_withTlb (s : Machine D) (tlb : Fin 32 → TlbEntry) :
    (s.withTlb tlb).tlb = tlb := rfl

def Machine.withAsid (s : Machine D) (a : BitVec 8) : Machine D :=
  { s with cpu := { s.cpu with cp0 := { s.cpu.cp0 with
      entryHi := { s.cpu.cp0.entryHi with asid := a } } } }

/-- EntryLo0 or EntryLo1, by bit 12. -/
def Cp0.entryLo (c : Cp0) (v : Word) : Cp0EntryLo :=
  if v.getLsbD 12 then c.entryLo1 else c.entryLo0

/-- What the EntryLo register of an address decides. -/
def Cp0EntryLo.decide (lo : Cp0EntryLo) (v : Word) (rw : Access) (asid : BitVec 8) : Verdict :=
  if lo.v = false then .fault ⟨.tlbInvalid, rw.exccode, asid⟩
  else if lo.d = false ∧ rw = .store then .fault ⟨.tlbModified, .TLBM, asid⟩
  else .ok ((lo.pfn.setWidth 32 <<< 12) ||| (v &&& 0xFFF)) lo.d

@[simp] theorem writePhyn_v (lo : Cp0EntryLo) (m : BitVec 16) : (writePhyn lo m).v = lo.v := rfl
@[simp] theorem writePhyn_d (lo : Cp0EntryLo) (m : BitVec 16) : (writePhyn lo m).d = lo.d := rfl

theorem writePhyn_pfn (lo : Cp0EntryLo) :
    (writePhyn lo 0).pfn.setWidth 32 = lo.pfn.setWidth 32 := by
  have := lo.pfn.isLt
  simp only [writePhyn, BitVec.ofNat_eq_ofNat, and_not_setWidth_zero]
  apply BitVec.eq_of_toNat_eq
  simp only [BitVec.toNat_setWidth]
  omega

theorem tlbEntryOf_phyn {c : Cp0} (hc : c.pagemask = 0) (v : Word) :
    (tlbEntryOf c).phyn v = writePhyn (c.entryLo v) 0 := by
  rw [phyn_eq (e := tlbEntryOf c) hc]
  simp only [Cp0.entryLo, tlbEntryOf, hc]
  split <;> rfl

/-- The entry `tlb_write` stores decides as the EntryLo registers do. -/
theorem tlbEntryOf_decide {c : Cp0} (hc : c.pagemask = 0) (v : Word) (rw : Access) :
    (tlbEntryOf c).decide v rw = (c.entryLo v).decide v rw c.entryHi.asid := by
  have ha : (tlbEntryOf c).asid = c.entryHi.asid := rfl
  simp only [TlbEntry.decide, Cp0EntryLo.decide, paddr_eq (e := tlbEntryOf c) hc,
    tlbEntryOf_phyn hc, writePhyn_v, writePhyn_d, writePhyn_pfn, ha]

theorem tlbEntryOf_matches {c : Cp0} (hc : c.pagemask = 0) (v : Word) (a : BitVec 8) :
    (tlbEntryOf c).matches (v >>> 13) a = true ↔
      v.extractLsb' 13 19 = c.entryHi.vpn ∧
        ((c.entryLo0.g = true ∧ c.entryLo1.g = true) ∨ c.entryHi.asid = a) := by
  have hv : (tlbEntryOf c).vpn = c.entryHi.vpn := by
    simp only [tlbEntryOf, hc, and_not_setWidth_zero, BitVec.ofNat_eq_ofNat]
  rw [matches_iff (e := tlbEntryOf c) hc, hv]
  simp [tlbEntryOf]

/-- The machine after `tlb_write(i)`, looked at under ASID `a`. -/
theorem tlbWrite_apply (i : Fin 32) (s : Machine D) :
    tlbWrite i s = .ok () (s.withTlb (Function.update s.tlb i (tlbEntryOf s.cpu.cp0))) := rfl

section UpdateLaw

variable {s : Machine D} (hm : ∀ j, (s.tlb j).pagemask = 0) (hc : s.cpu.cp0.pagemask = 0)
include hm hc

theorem update_pagemask (i j : Fin 32) :
    (Function.update s.tlb i (tlbEntryOf s.cpu.cp0) j).pagemask = 0 := by
  by_cases h : j = i
  · rw [h, Function.update_self]; exact hc
  · rw [Function.update_of_ne h]; exact hm j

/-- The new entry decides its own addresses, unless an earlier entry does. -/
theorem lookup_update_of_match {i : Fin 32} {v : Word} {a : BitVec 8}
    (hi : (tlbEntryOf s.cpu.cp0).matches (v >>> 13) a = true)
    (hlt : ∀ j < i, (s.tlb j).matches (v >>> 13) a = false) :
    lookup (Function.update s.tlb i (tlbEntryOf s.cpu.cp0)) v a (List.finRange 32) =
      .hit (tlbEntryOf s.cpu.cp0) := by
  have hf : (List.finRange 32).find? (fun j =>
      (Function.update s.tlb i (tlbEntryOf s.cpu.cp0) j).matches (v >>> 13) a) = some i := by
    refine find?_eq_some_of_first (by simpa using hi) fun j hj => ?_
    rw [Function.update_of_ne (ne_of_lt hj)]
    exact hlt j hj
  rw [lookup_eq_find (update_pagemask hm hc i), hf]
  simp

/-- No other address notices the write. -/
theorem lookup_update_of_not_match {i : Fin 32} {v : Word} {a : BitVec 8}
    (hi : (tlbEntryOf s.cpu.cp0).matches (v >>> 13) a = false)
    (ho : (s.tlb i).matches (v >>> 13) a = false) :
    lookup (Function.update s.tlb i (tlbEntryOf s.cpu.cp0)) v a (List.finRange 32) =
      lookup s.tlb v a (List.finRange 32) := by
  have hp : ∀ j, (Function.update s.tlb i (tlbEntryOf s.cpu.cp0) j).matches (v >>> 13) a =
      (s.tlb j).matches (v >>> 13) a := by
    intro j
    by_cases h : j = i
    · rw [h, Function.update_self, hi, ho]
    · rw [Function.update_of_ne h]
  rw [lookup_eq_find (update_pagemask hm hc i), lookup_eq_find hm]
  simp only [hp]
  cases hf : (List.finRange 32).find? (fun j => (s.tlb j).matches (v >>> 13) a) with
  | none => rfl
  | some j =>
    have hj : (s.tlb j).matches (v >>> 13) a = true := by
      simpa using List.find?_some hf
    have hne : j ≠ i := by rintro rfl; simp [ho] at hj
    simp only [Function.update_of_ne hne]

end UpdateLaw

theorem act_withTlb (P : Platform D) (v : Word) (rw : Access) (exbit : Bool) (r : Verdict)
    (s : Machine D) (t : Fin 32 → TlbEntry) :
    r.act P v rw exbit (s.withTlb t) =
      mapFinal (fun u => u.withTlb t) (r.act P v rw exbit s) := by
  cases r <;> cases exbit <;> rfl

/-- The update law of `tlb_write`, under any ASID `a` that is current at the lookup. -/
theorem pageTranslate_tlbWrite (P : Platform D) (s : Machine D) (i : Fin 32)
    (hm : ∀ j, (s.tlb j).pagemask = 0) (hc : s.cpu.cp0.pagemask = 0) :
    ∃ s', tlbWrite i s = .ok () s' ∧ ∀ (v : Word) (a : BitVec 8) (rw : Access) (exbit : Bool),
      (v.extractLsb' 13 19 = s.cpu.cp0.entryHi.vpn →
        (s.cpu.cp0.entryLo0.g = true ∧ s.cpu.cp0.entryLo1.g = true) ∨
          a = s.cpu.cp0.entryHi.asid →
        (∀ j < i, (s'.tlb j).matches (v >>> 13) a = false) →
        pageTranslate P v (.init rw exbit) (s'.withAsid a) =
          ((s.cpu.cp0.entryLo v).decide v rw s.cpu.cp0.entryHi.asid).act P v rw exbit
            (s'.withAsid a)) ∧
      ((s'.tlb i).matches (v >>> 13) a = false → (s.tlb i).matches (v >>> 13) a = false →
        pageTranslate P v (.init rw exbit) (s'.withAsid a) =
          mapFinal (fun u => u.withTlb s'.tlb)
            (pageTranslate P v (.init rw exbit) (s.withAsid a))) := by
  refine ⟨_, tlbWrite_apply i s, fun v a rw exbit => ⟨fun hv ha hlt => ?_, fun hn ho => ?_⟩⟩
  · have hi := (tlbEntryOf_matches hc v a).2 ⟨hv, ha.imp_right Eq.symm⟩
    have hlt' : ∀ j < i, (s.tlb j).matches (v >>> 13) a = false := by
      intro j hj
      have := hlt j hj
      rwa [tlb_withTlb, Function.update_of_ne (ne_of_lt hj)] at this
    rw [pageTranslate_eq]
    congr 1
    simp only [Arch.pageVerdict, Machine.withAsid, Machine.withTlb,
      lookup_update_of_match hm hc hi hlt', Lookup.decide, tlbEntryOf_decide hc]
  · rw [tlb_withTlb, Function.update_self] at hn
    rw [pageTranslate_eq, pageTranslate_eq, ← act_withTlb]
    congr 1
    simp only [Arch.pageVerdict, Machine.withAsid, Machine.withTlb,
      lookup_update_of_not_match hm hc hn ho]

/-- A page pair with VPN2 2 and ASID 5, whose odd page is valid and clean. -/
def tlbWriteDemo : Machine Unit :=
  let s := Machine.boot (ddrOf []) ()
  { s with cpu := { s.cpu with cp0 := { s.cpu.cp0 with
      entryHi := { vpn := 2, asid := 5 }
      entryLo1 := { g := false, v := true, d := false, c := 0, pfn := 0x1234 } } } }

theorem pageTranslate_tlbWrite_demo :
    ∃ s', tlbWrite 3 tlbWriteDemo = .ok () s' ∧
      pageTranslate (ramPlatform (buildOf .mips32R1 false false)) 0x5678 (.init .load true)
          (s'.withAsid 5) =
        .ok (0x1234678, { MmuAttr.init .load true with dirty := false }) (s'.withAsid 5) := by
  obtain ⟨s', hs, h⟩ := pageTranslate_tlbWrite (ramPlatform (buildOf .mips32R1 false false))
    tlbWriteDemo 3 (fun _ => rfl) rfl
  refine ⟨s', hs, ?_⟩
  cases hs
  exact (h 0x5678 5 .load true).1 rfl (.inr rfl) (by decide)

/-! ## Probe -/

/-- The loop of `page_translate`, with the entry at which it returns (`none` after the
    last one). -/
def pageTranslateAt (P : Platform D) (vaddr : Word) (attr : MmuAttr) :
    List (Fin 32) → Exec D (Option (Fin 32) × Word × MmuAttr)
  | [] => do
    if attr.exbit then
      tlbException P .tlbRefill attr.rwbit.exccode vaddr (← getCpu).cp0.entryHi.asid
    return (none, blackholeDev.start, { attr with miss := true })
  | i :: is => do
    let s ← get
    let e := s.tlb i
    unless pagemaskOk e.pagemask do halt .assert
    if e.matches (vaddr >>> 13) s.cpu.cp0.entryHi.asid then
      let phyn := e.phyn vaddr
      if phyn.v = false then
        if attr.exbit then tlbException P .tlbInvalid attr.rwbit.exccode vaddr e.asid
        return (some i, blackholeDev.start, attr)
      else if phyn.d = false ∧ attr.rwbit = .store then
        if attr.exbit then tlbException P .tlbModified .TLBM vaddr e.asid
        return (some i, blackholeDev.start, { attr with dirty := phyn.d })
      else
        return (some i, e.paddr vaddr, { attr with dirty := phyn.d })
    else
      pageTranslateAt P vaddr attr is

/-- Without the index it is `page_translate`. -/
theorem pageTranslateAt_forget (P : Platform D) (vaddr : Word) (attr : MmuAttr)
    (is : List (Fin 32)) (s : Machine D) :
    (Prod.snd <$> pageTranslateAt P vaddr attr is) s = pageTranslateFrom P vaddr attr is s := by
  have hc := exccode_ne_trap attr.rwbit
  induction is with
  | nil =>
    cases he : attr.exbit <;>
      simp [pageTranslateAt, pageTranslateFrom, he, map_apply, bind_apply,
        tlbException_apply P _ hc]
  | cons i is ih =>
    rw [map_apply] at ih
    simp only [pageTranslateAt, pageTranslateFrom, map_apply, bind_apply, get_apply]
    by_cases hm : pagemaskOk (s.tlb i).pagemask = true
    · by_cases hv : (s.tlb i).matches (vaddr >>> 13) s.cpu.cp0.entryHi.asid = true
      · simp only [hm, hv]
        by_cases h1 : ((s.tlb i).phyn vaddr).v = false
        · cases he : attr.exbit <;>
            simp [h1, map_apply, tlbException_apply P _ hc]
        · by_cases h2 : ((s.tlb i).phyn vaddr).d = false ∧ attr.rwbit = .store
          · cases he : attr.exbit <;>
              simp [h1, h2.1, h2.2, map_apply, tlbException_apply]
          · simp [h1, h2]
      · simpa [hm, hv] using ih
    · simp [hm, halt]

/-- `page_translate` of `vaddr` is decided by entry `o`, or refills (`none`). -/
def DecidedBy (P : Platform D) (s : Machine D) (vaddr : Word) (attr : MmuAttr)
    (o : Option (Fin 32)) : Prop :=
  ∃ r s', pageTranslateAt P vaddr attr (List.finRange 32) s = .ok (o, r) s' ∧
    pageTranslate P vaddr attr s = .ok r s'

/-- The CP0 Index register after a probe that found `o`. -/
def Cp0Index.probed (x : Cp0Index) : Option (Fin 32) → Cp0Index
  | some i => { p := false, idx := BitVec.ofNat 5 i.val }
  | none => { x with p := true }

section Probe

variable {s : Machine D} (hm : ∀ j, (s.tlb j).pagemask = 0)
include hm

theorem pagemaskOk_of_zero (j : Fin 32) : pagemaskOk (s.tlb j).pagemask = true := by
  rw [hm j]; decide

theorem pageTranslateAt_find (P : Platform D) (vaddr : Word) (attr : MmuAttr)
    (is : List (Fin 32)) :
    ∃ r s', pageTranslateAt P vaddr attr is s =
      .ok (is.find? fun j => (s.tlb j).matches (vaddr >>> 13) s.cpu.cp0.entryHi.asid, r) s' := by
  have hc := exccode_ne_trap attr.rwbit
  induction is with
  | nil =>
    cases he : attr.exbit <;>
      simp [pageTranslateAt, he, map_apply, bind_apply, tlbException_apply P _ hc]
  | cons i is ih =>
    simp only [pageTranslateAt, bind_apply, get_apply, pagemaskOk_of_zero hm i, List.find?_cons]
    by_cases hv : (s.tlb i).matches (vaddr >>> 13) s.cpu.cp0.entryHi.asid = true
    · by_cases h1 : ((s.tlb i).phyn vaddr).v = false
      · cases he : attr.exbit <;>
          simp [hv, h1, map_apply, tlbException_apply P _ hc]
      · by_cases h2 : ((s.tlb i).phyn vaddr).d = false ∧ attr.rwbit = .store
        · cases he : attr.exbit <;>
            simp [hv, h1, h2.1, h2.2, map_apply, tlbException_apply]
        · simp [hv, h1, h2]
    · simpa [hv] using ih

theorem decidedBy_iff (P : Platform D) (vaddr : Word) (attr : MmuAttr) (o : Option (Fin 32)) :
    DecidedBy P s vaddr attr o ↔
      (List.finRange 32).find? (fun j =>
        (s.tlb j).matches (vaddr >>> 13) s.cpu.cp0.entryHi.asid) = o := by
  obtain ⟨r, s', h⟩ := pageTranslateAt_find hm P vaddr attr (List.finRange 32)
  have hf : pageTranslate P vaddr attr s = .ok r s' := by
    rw [pageTranslate, ← pageTranslateAt_forget, map_apply, h]
  unfold DecidedBy
  rw [h, hf]
  constructor
  · rintro ⟨r', t, ht, -⟩
    cases ht
    rfl
  · intro ho
    exact ⟨r, s', by rw [ho], rfl⟩

theorem tlbPresentFrom_find (is : List (Fin 32)) :
    tlbPresentFrom is s = .ok () { s with cpu := { s.cpu with cp0 := { s.cpu.cp0 with
      index := s.cpu.cp0.index.probed (is.find? fun j =>
        (s.tlb j).matches (s.cpu.cp0.entryHi.vpn.setWidth 32) s.cpu.cp0.entryHi.asid) } } } := by
  induction is with
  | nil => rfl
  | cons i is ih =>
    simp only [tlbPresentFrom, bind_apply, get_apply, pagemaskOk_of_zero hm i, List.find?_cons]
    by_cases hv : (s.tlb i).matches (s.cpu.cp0.entryHi.vpn.setWidth 32)
        s.cpu.cp0.entryHi.asid = true
    · simp only [hv]
      rfl
    · simpa [hv] using ih

end Probe

theorem probed_p_iff (x : Cp0Index) (o : Option (Fin 32)) : (x.probed o).p = true ↔ o = none := by
  cases o <;> simp [Cp0Index.probed]

theorem probed_idx_iff (x : Cp0Index) (o : Option (Fin 32)) (i : Fin 32) :
    (x.probed o).p = false ∧ (x.probed o).idx = BitVec.ofNat 5 i.val ↔ o = some i := by
  cases o with
  | none => simp [Cp0Index.probed]
  | some j =>
    have hj := j.isLt
    have hi := i.isLt
    simp only [Cp0Index.probed, true_and, Option.some_inj, ← BitVec.toNat_inj, BitVec.toNat_ofNat,
      Fin.ext_iff]
    omega

/-- Every address of the probed page pair is searched for with the probe's own key. -/
theorem probe_key {v : Word} {vpn : BitVec 19} (h : v.extractLsb' 13 19 = vpn) :
    v >>> 13 = vpn.setWidth 32 := ((shift_eq_iff v vpn).2 h).symm

theorem exists_probe_key (vpn : BitVec 19) : ∃ v : Word, v.extractLsb' 13 19 = vpn := by
  refine ⟨vpn ++ 0#13, BitVec.eq_of_toNat_eq ?_⟩
  have := vpn.isLt
  simp only [BitVec.extractLsb'_toNat, BitVec.toNat_append, BitVec.toNat_ofNat,
    Nat.shiftRight_eq_div_pow, Nat.shiftLeft_eq]
  simp
  omega

/-- `tlb_present` finds the entry that decides the translations of the probed page pair. -/
theorem tlbPresent_pageTranslate (P : Platform D) (s : Machine D)
    (hm : ∀ j, (s.tlb j).pagemask = 0) :
    ∃ s', tlbPresent s = .ok () s' ∧
      s' = { s with cpu := { s.cpu with cp0 := { s.cpu.cp0 with
        index := s'.cpu.cp0.index } } } ∧
      (∀ i : Fin 32,
        s'.cpu.cp0.index.p = false ∧ s'.cpu.cp0.index.idx = BitVec.ofNat 5 i.val ↔
          ∀ v : Word, v.extractLsb' 13 19 = s.cpu.cp0.entryHi.vpn →
            ∀ attr, DecidedBy P s v attr (some i)) ∧
      (s'.cpu.cp0.index.p = true ↔
        ∀ v : Word, v.extractLsb' 13 19 = s.cpu.cp0.entryHi.vpn →
          ∀ attr, DecidedBy P s v attr none) := by
  -- both searches use the same key, whichever address of the page pair is translated
  have hall (o : Option (Fin 32)) :
      (List.finRange 32).find? (fun j => (s.tlb j).matches
          (s.cpu.cp0.entryHi.vpn.setWidth 32) s.cpu.cp0.entryHi.asid) = o ↔
        ∀ v : Word, v.extractLsb' 13 19 = s.cpu.cp0.entryHi.vpn →
          ∀ attr, DecidedBy P s v attr o := by
    constructor
    · intro ho v hv attr
      rwa [decidedBy_iff hm, probe_key hv]
    · intro h
      obtain ⟨v, hv⟩ := exists_probe_key s.cpu.cp0.entryHi.vpn
      have hd := (decidedBy_iff hm P v (.init .load false) o).1 (h v hv _)
      rwa [probe_key hv] at hd
  refine ⟨_, tlbPresentFrom_find hm (List.finRange 32), rfl, fun i => ?_, ?_⟩
  · rw [← hall]
    exact probed_idx_iff _ _ i
  · rw [← hall]
    exact probed_p_iff _ _

/-- Entries 3 and 7 both map the probed page pair; entry 3 decides. -/
def probeDemo : Machine Unit :=
  let e : TlbEntry := tlbEntryOf tlbWriteDemo.cpu.cp0
  tlbWriteDemo.withTlb (Function.update (Function.update tlbWriteDemo.tlb (7#5).toFin e) (3#5).toFin e)

theorem tlbPresent_pageTranslate_demo :
    ∃ s', tlbPresent probeDemo = .ok () s' ∧ s'.cpu.cp0.index.p = false ∧
      s'.cpu.cp0.index.idx = 3 ∧
      ∀ v : Word, v.extractLsb' 13 19 = probeDemo.cpu.cp0.entryHi.vpn → ∀ attr,
        DecidedBy (ramPlatform (buildOf .mips32R1 false false)) probeDemo v attr (some 3) := by
  obtain ⟨s', hs, -, hi, -⟩ := tlbPresent_pageTranslate
    (ramPlatform (buildOf .mips32R1 false false)) probeDemo (by decide)
  have hp : s'.cpu.cp0.index.p = false ∧ s'.cpu.cp0.index.idx = BitVec.ofNat 5 (3 : Fin 32) := by
    rw [show tlbPresent probeDemo = .ok () _ from tlbPresentFrom_find (by decide) _] at hs
    cases hs
    decide
  exact ⟨s', hs, hp.1, hp.2, (hi 3).1 hp⟩

end NemuMips32
