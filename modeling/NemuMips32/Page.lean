/-
  Addresses on one page are translated alike. The search of `page_translate` and the choice
  between the two pages of an entry look at bits 12 and up of the address, the check on page
  masks leaves only 4 KB pages, and the segments are larger than a page; so the verdict for
  one address gives that for every other on its page (`translate_samePage`). This is what
  makes it sound to cache translations by page, and what makes the second access of a
  doubleword succeed when the first did (`vaddrRead_next`).
-/
import NemuMips32.Access

namespace NemuMips32

open StateExcept

variable {D : Type}

/-! ## Pages -/

/-- Two addresses on one 4 KB page. -/
def SamePage (v v' : Word) : Prop := v >>> 12 = v' >>> 12

/-- The address at the offset of `v` in the page of `p`. -/
def atOffset (p v : Word) : Word := (p &&& ~~~0xFFF) ||| (v &&& 0xFFF)

theorem SamePage.shift {v v' : Word} (h : SamePage v v') {n : Nat} (hn : 12 ≤ n) :
    v >>> n = v' >>> n := by
  obtain ⟨k, rfl⟩ := Nat.exists_eq_add_of_le hn
  rw [BitVec.shiftRight_add, BitVec.shiftRight_add, h]

theorem SamePage.getLsbD {v v' : Word} (h : SamePage v v') {i : Nat} (hi : 12 ≤ i) :
    v.getLsbD i = v'.getLsbD i := by
  have := congrArg (fun x : Word => x.getLsbD (i - 12)) h
  simp only [BitVec.getLsbD_ushiftRight] at this
  rwa [Nat.add_sub_cancel' hi] at this

theorem SamePage.and_shiftLeft {v v' : Word} (h : SamePage v v') (x : Word) :
    v &&& (x <<< 12) = v' &&& (x <<< 12) := by
  apply BitVec.eq_of_getLsbD_eq
  intro i hi
  simp only [BitVec.getLsbD_and, BitVec.getLsbD_shiftLeft]
  by_cases h12 : i < 12
  · simp [h12]
  · rw [h.getLsbD (by omega)]

theorem SamePage.phyn {v v' : Word} (h : SamePage v v') (e : TlbEntry) :
    e.phyn v = e.phyn v' := by
  unfold TlbEntry.phyn
  rw [h.and_shiftLeft]

theorem SamePage.lookup {v v' : Word} (h : SamePage v v') (tlb : Fin 32 → TlbEntry)
    (asid : BitVec 8) (is : List (Fin 32)) : lookup tlb v asid is = lookup tlb v' asid is := by
  induction is with
  | nil => rfl
  | cons i is ih => simp only [NemuMips32.lookup, h.shift (by decide : 12 ≤ 13), ih]

theorem getLsbD_mask (i : Nat) : (0xFFF#32).getLsbD i = decide (i < 12) := by
  by_cases h : i < 32
  · revert h; revert i; decide
  · rw [BitVec.getLsbD_of_ge _ _ (by omega)]; simp; omega

theorem getLsbD_atOffset (p v : Word) {i : Nat} (hi : i < 32) :
    (atOffset p v).getLsbD i = if i < 12 then v.getLsbD i else p.getLsbD i := by
  simp only [atOffset, BitVec.getLsbD_or, BitVec.getLsbD_and, BitVec.getLsbD_not,
    BitVec.ofNat_eq_ofNat, getLsbD_mask, hi]
  by_cases h12 : i < 12 <;> simp [h12]

theorem SamePage.atOffset {v v' : Word} (h : SamePage v v') : atOffset v v' = v' := by
  apply BitVec.eq_of_getLsbD_eq
  intro i hi
  rw [getLsbD_atOffset v v' hi]
  split
  · rfl
  · exact h.getLsbD (by omega)

theorem ioremap_atOffset (p v : Word) : ioremap (atOffset p v) = atOffset (ioremap p) v := by
  apply BitVec.eq_of_getLsbD_eq
  intro i hi
  rw [getLsbD_atOffset _ _ hi]
  simp only [ioremap, BitVec.getLsbD_and, getLsbD_atOffset _ _ hi]
  split
  · have : (0x1FFFFFFF#32).getLsbD i = true := by
      rename_i h; revert h; revert i; decide
    simp [this]
  · rfl

theorem pagemask_of_ok {m : BitVec 16} (h : pagemaskOk m = true) : m = 0 := by
  have hm := m.isLt
  simp only [pagemaskOk, Bool.or_eq_true, beq_iff_eq] at h
  obtain h | h := h
  · apply BitVec.eq_of_toNat_eq
    have := congrArg BitVec.toNat h
    simpa [Nat.mod_eq_of_lt (show m.toNat < 4294967296 by omega)] using this
  · have h1 := (BitVec.or_eq_zero_iff.1 h).2
    have := congrArg BitVec.toNat h1
    simp at this
    omega

theorem lookup_hit_ok {tlb : Fin 32 → TlbEntry} {v : Word} {asid : BitVec 8} {e : TlbEntry}
    {is : List (Fin 32)} (h : lookup tlb v asid is = .hit e) : e.pagemask = 0 := by
  induction is with
  | nil => simp [lookup] at h
  | cons i is ih =>
    simp only [lookup] at h
    split at h
    · cases h
    · split at h
      · rename_i hm _
        cases h
        exact pagemask_of_ok (by simpa using hm)
      · exact ih h

/-! ## Verdicts -/

theorem and_not_setWidth_zero {n m : Nat} (x : BitVec n) :
    x &&& ~~~((0#m).setWidth n) = x := by
  have h : (0#m).setWidth n = 0#n := by simp
  rw [h, BitVec.not_zero, BitVec.and_allOnes]

theorem paddr_eq {e : TlbEntry} (he : e.pagemask = 0) (v : Word) :
    e.paddr v = ((e.phyn v).pfn.setWidth 32 <<< 12) ||| (v &&& 0xFFF) := by
  simp only [TlbEntry.paddr, he, and_not_setWidth_zero, BitVec.ofNat_eq_ofNat]
  rfl

/-- The verdict for another address on the page. -/
def Verdict.onPage (v : Word) : Verdict → Verdict
  | .ok p d => .ok (atOffset p v) d
  | r => r

theorem remap_onPage (v : Word) (r : Verdict) : (r.onPage v).remap = r.remap.onPage v := by
  cases r <;> simp [Verdict.onPage, Verdict.remap, ioremap_atOffset]

theorem SamePage.paddr {v v' : Word} (h : SamePage v v') {e : TlbEntry} (he : e.pagemask = 0) :
    e.paddr v' = NemuMips32.atOffset (e.paddr v) v' := by
  rw [paddr_eq he, paddr_eq he, h.phyn]
  apply BitVec.eq_of_getLsbD_eq
  intro i hi
  rw [getLsbD_atOffset _ _ hi]
  simp only [BitVec.getLsbD_or, BitVec.getLsbD_and, BitVec.getLsbD_shiftLeft,
    BitVec.ofNat_eq_ofNat, getLsbD_mask]
  by_cases h12 : i < 12 <;> simp [h12]

theorem SamePage.pageVerdict {v v' : Word} (h : SamePage v v') (a : Arch D) (rw : Access) :
    a.pageVerdict v' rw = (a.pageVerdict v rw).onPage v' := by
  unfold Arch.pageVerdict
  rw [← h.lookup]
  cases hl : NemuMips32.lookup a.tlb v a.cpu.cp0.entryHi.asid (List.finRange 32) with
  | hit e =>
    simp only [Lookup.decide, TlbEntry.decide, ← h.phyn, h.paddr (lookup_hit_ok hl)]
    split
    · rfl
    · split <;> rfl
  | miss => rfl
  | abort => rfl

theorem translate_samePage (P : Platform D) (a : Arch D) {v v' : Word} (h : SamePage v v')
    (rw : Access) : P.translate a v' rw = (P.translate a v rw).onPage v' := by
  unfold Platform.translate
  rw [← h.shift (by decide : 12 ≤ 29), h.pageVerdict, remap_onPage]
  have hv : Verdict.ok v' false = (Verdict.ok v false).onPage v' := by
    rw [Verdict.onPage, h.atOffset]
  have hio : Verdict.ok (ioremap v') false = (Verdict.ok (ioremap v) false).onPage v' := by
    rw [Verdict.onPage, ← ioremap_atOffset, h.atOffset]
  have hseg : ∀ c : Bool, (if c = true then Verdict.ok v' false
      else (a.pageVerdict v rw).remap.onPage v') =
      (if c = true then Verdict.ok v false else (a.pageVerdict v rw).remap).onPage v' := by
    intro c
    split
    · exact hv
    · rfl
  generalize (v >>> 29).toNat = k
  match k with
  | 4 | 5 => exact hio
  | 7 => rfl
  | 6 | 0 | 1 | 2 | 3 | _ + 8 => exact hseg _

theorem fault_samePage {P : Platform D} {a : Arch D} {v v' : Word} (h : SamePage v v')
    {rw : Access} {f : TlbFault} :
    P.translate a v' rw = .fault f ↔ P.translate a v rw = .fault f := by
  rw [translate_samePage P a h]
  cases P.translate a v rw <;> simp [Verdict.onPage]

/-! ## The MMU cache by page -/

theorem SamePage.mmuCacheIndex {v v' : Word} (h : SamePage v v') :
    mmuCacheIndex v = mmuCacheIndex v' := by
  rw [NemuMips32.mmuCacheIndex, h]
  rfl

theorem SamePage.mmuCacheId {v v' : Word} (h : SamePage v v') : mmuCacheId v = mmuCacheId v' :=
  h.shift (by decide)

theorem SamePage.cached {v v' : Word} (h : SamePage v v') (P : Platform D) (s : Machine D)
    (rw : Access) : s.cached P rw v ↔ s.cached P rw v' := by
  cases rw <;> simp only [Machine.cached, h.mmuCacheIndex, h.mmuCacheId]

/-- The two words of an aligned doubleword share a page. -/
theorem samePage_next {v : Word} (h : v &&& 7 = 0) : SamePage v (v + 4) := by
  have h8 : v.toNat % 8 = 0 := by
    have := congrArg BitVec.toNat h
    rwa [BitVec.toNat_and, show (7 : Word).toNat = 2 ^ 3 - 1 from rfl,
      Nat.and_two_pow_sub_one_eq_mod] at this
  have hv := v.isLt
  apply BitVec.eq_of_toNat_eq
  simp only [BitVec.toNat_ushiftRight, BitVec.toNat_add, BitVec.ofNat_eq_ofNat,
    BitVec.toNat_ofNat, Nat.shiftRight_eq_div_pow]
  omega

/-! ## The second access of a doubleword -/

theorem faultOf_eq_none {P : Platform D} {s : Machine D} {rw : Access} {addr : Word} :
    s.faultOf P rw addr = none ↔
      s.cached P rw addr ∨ ∀ f, P.translate s.toArch addr rw ≠ .fault f := by
  unfold Machine.faultOf
  by_cases hc : s.cached P rw addr
  · simp [hc]
  · cases hv : P.translate s.toArch addr rw <;> simp [hc]

theorem hostRead_ok {ptr : Option (Ram × Word)} {off : Word} {len : Nat} {s t : Machine D}
    {v : Word} (h : hostRead ptr off len s = .ok v t) : t = s := by
  cases ptr with
  | none => cases h
  | some p =>
    by_cases hc : hostInBounds p.1 (p.2 + off) len = true
    · simp only [hostRead, hc] at h
      cases h
      rfl
    · simp only [hostRead, hc] at h
      cases h

theorem hostWrite_ok {ptr : Option (Ram × Word)} {off : Word} {len : Nat} {data : Word}
    {s t : Machine D} (h : hostWrite ptr off len data s = .ok () t) :
    t.mmuCache = s.mmuCache := by
  cases ptr with
  | none => cases h
  | some p =>
    by_cases hc : hostInBounds p.1 (p.2 + off) len = true
    · simp only [hostWrite, hc] at h
      cases h
      rfl
    · simp only [hostWrite, hc] at h
      cases h

/-- Where a word was accessed without a fault, so is the next one on its page. -/
theorem faultOf_of_access {P : Platform D} {s t : Machine D} {rw : Access} {v v' : Word}
    (hp : SamePage v v') (hf : s.faultOf P rw v = none)
    (ht : ∃ x m mc, t = s.access x m mc ∧ (rw = .load → m = s.ram))
    (hc : s.cached P rw v → t.mmuCache = s.mmuCache) : t.faultOf P rw v' = none := by
  obtain ⟨x, m, mc, rfl, -⟩ := ht
  rw [faultOf_eq_none] at hf ⊢
  obtain h | h := hf
  · refine .inl ((hp.cached P _ rw).1 ?_)
    have hmc : mc = s.mmuCache := hc h
    subst hmc
    exact h
  · exact .inr fun f hf => h f ((fault_samePage hp).1 hf)

theorem vaddrRead_next {P : Platform D} {s t : Machine D} {addr : Word} {len : Nat} {v : Word}
    (h8 : addr &&& 7 = 0) (hf : s.faultOf P .load addr = none)
    (hr : vaddrRead P addr len s = .ok v t) : t.faultOf P .load (addr + 4) = none := by
  have hq := vaddrRead_quiet hf len
  rw [hr] at hq
  refine faultOf_of_access (samePage_next h8) hf hq fun hc => ?_
  rw [vaddrRead_eq, if_pos hc] at hr
  rw [hostRead_ok hr]

theorem vaddrWrite_next {P : Platform D} {s t : Machine D} {addr : Word} {len : Nat}
    {data : Word} (h8 : addr &&& 7 = 0) (hf : s.faultOf P .store addr = none)
    (hr : vaddrWrite P addr len data s = .ok () t) :
    t.faultOf P .store (addr + 4) = none := by
  have hq := vaddrWrite_quiet hf len data
  rw [hr] at hq
  refine faultOf_of_access (samePage_next h8) hf hq fun hc => ?_
  rw [vaddrWrite_eq, if_pos hc] at hr
  exact hostWrite_ok hr

end NemuMips32
