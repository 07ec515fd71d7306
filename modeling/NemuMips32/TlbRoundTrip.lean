/-
  TLBWI and TLBR (`tlb_write` and `tlb_read`, `mmu.c`) undo each other.

  `tlb_write` clears the bits under the page mask, joins the two G bits and widens the PFNs to
  24 bits; `tlb_read` cuts them back to 20. Writing and reading back therefore brings CP0 to
  `Cp0.stored`, whatever it held. The other way round needs an invariant of the entries: the
  bits that `tlb_read` drops have to be clear already (`TlbEntry.Masked`). Every writer of the
  TLB establishes it, so it holds in every state of a run (`cp0_run`).
-/
import NemuMips32.Cp0
import NemuMips32.Lib.Words

namespace NemuMips32

open StateExcept

variable {D : Type}

/-! ## Masks -/

/-- The mask cut to the 20 bits of a PFN. -/
theorem setWidth_and_not (x : BitVec 20) (m : BitVec 16) :
    (x.setWidth 24 &&& ~~~(m.setWidth 24)).setWidth 20 = x &&& ~~~(m.setWidth 20) := by
  ext i hi
  simp

theorem setWidth_setWidth_of_lt {x : BitVec 24} (h : x.toNat < 2 ^ 20) :
    (x.setWidth 20).setWidth 24 = x := by
  apply BitVec.eq_of_toNat_eq
  simp only [BitVec.toNat_setWidth]
  omega

/-! ## One page -/

/-- An EntryLo register as the TLB gives it back: the PFN without the bits under the page mask,
    and the G bit of the entry. -/
def Cp0EntryLo.stored (lo : Cp0EntryLo) (mask : BitVec 16) (g : Bool) : Cp0EntryLo :=
  { lo with pfn := lo.pfn &&& ~~~(mask.setWidth 20), g := g }

theorem readPhyn_writePhyn (lo : Cp0EntryLo) (mask : BitVec 16) (g : Bool) :
    readPhyn (writePhyn lo mask) g mask = lo.stored mask g := by
  simp only [readPhyn, writePhyn, Cp0EntryLo.stored, Words.and_not_and_not, setWidth_and_not]

theorem writePhyn_readPhyn {p : TlbPhyn} {mask : BitVec 16} (g : Bool)
    (hp : p.pfn &&& mask.setWidth 24 = 0) (hlt : p.pfn.toNat < 2 ^ 20) :
    writePhyn (readPhyn p g mask) mask = p := by
  have hpfn : p.pfn &&& ~~~(mask.setWidth 24) = p.pfn := Words.and_not_eq_self_iff.2 hp
  simp only [readPhyn, writePhyn, hpfn, setWidth_setWidth_of_lt hlt]

/-! ## One entry -/

/-- CP0 after TLBWI and TLBR with one index: VPN2 and the PFNs lose the bits under the page
    mask, and both G bits become their conjunction. -/
def Cp0.stored (c : Cp0) : Cp0 :=
  { c with
    entryHi := { c.entryHi with vpn := c.entryHi.vpn &&& ~~~(c.pagemask.setWidth 19) }
    entryLo0 := c.entryLo0.stored c.pagemask (c.entryLo0.g && c.entryLo1.g)
    entryLo1 := c.entryLo1.stored c.pagemask (c.entryLo0.g && c.entryLo1.g) }

theorem tlbRead_tlbEntryOf (c : Cp0) : tlbRead (tlbEntryOf c) c = c.stored := by
  simp only [tlbRead, tlbEntryOf, Cp0.stored, readPhyn_writePhyn, Words.and_not_and_not]

theorem tlbEntryOf_tlbRead {e : TlbEntry} (he : e.Masked) (c : Cp0) :
    tlbEntryOf (tlbRead e c) = e := by
  have hvpn : e.vpn &&& ~~~(e.pagemask.setWidth 19) = e.vpn := Words.and_not_eq_self_iff.2 he.vpn
  have h0 := writePhyn_readPhyn e.g he.pfn0 he.pfn0_lt
  have h1 := writePhyn_readPhyn e.g he.pfn1 he.pfn1_lt
  have hg : (e.g && e.g) = e.g := Bool.and_self e.g
  simp only [tlbEntryOf, tlbRead, readPhyn] at h0 h1 ⊢
  rw [h0, h1, hvpn, hvpn, hg]

theorem stored_stored (c : Cp0) : c.stored.stored = c.stored := by
  have hlo : ∀ (lo : Cp0EntryLo) (m : BitVec 16) (g : Bool),
      (lo.stored m g).stored m g = lo.stored m g := by
    intro lo m g
    simp only [Cp0EntryLo.stored, Words.and_not_and_not]
  have hg : ∀ lo : Cp0EntryLo, ∀ m g, (lo.stored m g).g = g := fun _ _ _ => rfl
  simp only [Cp0.stored, hg, Bool.and_self, hlo, Words.and_not_and_not]

/-! ## The instructions -/

/-- TLBWI, then TLBR. -/
def tlbwiTlbr (P : Platform D) (o o' : Ops) : Exec D Unit := do
  exec P o .tlbwi
  exec P o' .tlbr

/-- TLBR, then TLBWI. -/
def tlbrTlbwi (P : Platform D) (o o' : Ops) : Exec D Unit := do
  exec P o .tlbr
  exec P o' .tlbwi

def Machine.withIndex (s : Machine D) (i : BitVec 5) : Machine D :=
  s.setCp0 { s.cpu.cp0 with index := { s.cpu.cp0.index with idx := i } }

theorem exec_tlbwi (P : Platform D) (o : Ops) (s : Machine D) :
    exec P o .tlbwi s = .ok ()
      { s.writeTlb s.cpu.cp0.index.idx.toFin with
        mmuCache := clearMmu s.mmuCache
        dc := s.dc.clear } := rfl

theorem exec_tlbr (P : Platform D) (o : Ops) (s : Machine D) :
    exec P o .tlbr s = .ok ()
      (s.setCp0 (tlbRead (s.tlb s.cpu.cp0.index.idx.toFin) s.cpu.cp0)) := rfl

theorem tlbwiTlbr_apply (P : Platform D) (o o' : Ops) (s : Machine D) :
    ∃ t, tlbwiTlbr P o o' s = .ok () t ∧ t.cpu.cp0 = s.cpu.cp0.stored := by
  refine ⟨_, bind_of_ok (exec_tlbwi P o s) _, ?_⟩
  have he : Function.update s.tlb s.cpu.cp0.index.idx.toFin (tlbEntryOf s.cpu.cp0)
      s.cpu.cp0.index.idx.toFin = tlbEntryOf s.cpu.cp0 := Function.update_self ..
  change tlbRead (Function.update s.tlb s.cpu.cp0.index.idx.toFin (tlbEntryOf s.cpu.cp0)
    s.cpu.cp0.index.idx.toFin) s.cpu.cp0 = s.cpu.cp0.stored
  rw [he, tlbRead_tlbEntryOf]

theorem tlbrTlbwi_apply (P : Platform D) (o o' : Ops) {s : Machine D}
    (hs : ∀ i, (s.tlb i).Masked) :
    ∃ t, tlbrTlbwi P o o' s = .ok () t ∧ t.tlb = s.tlb := by
  refine ⟨_, bind_of_ok (exec_tlbr P o s) _, ?_⟩
  change Function.update s.tlb s.cpu.cp0.index.idx.toFin
    (tlbEntryOf (tlbRead (s.tlb s.cpu.cp0.index.idx.toFin) s.cpu.cp0)) = s.tlb
  rw [tlbEntryOf_tlbRead (hs _), Function.update_eq_self]

/-- What TLBWI and TLBR do to each other in state `s`. -/
structure TlbRoundTrip (P : Platform D) (s : Machine D) : Prop where
  writeRead : ∀ o o', ∃ t, tlbwiTlbr P o o' s = .ok () t ∧ t.cpu.cp0 = s.cpu.cp0.stored
  readWrite : ∀ o o', ∃ t, tlbrTlbwi P o o' s = .ok () t ∧ t.tlb = s.tlb
  idempotent : ∀ o₁ o₂ o₃ o₄, ∃ t u, tlbwiTlbr P o₁ o₂ s = .ok () t ∧
    tlbwiTlbr P o₃ o₄ t = .ok () u ∧ u.cpu.cp0 = t.cpu.cp0

/-- In every state of a run, and for every index, TLBR gives back what TLBWI stored, and TLBWI
    stores what TLBR read. -/
theorem tlb_round_trip {P : Platform D} {s₀ s : Machine D}
    {last : Option (Machine D × Machine D)} (h0 : Booted P s₀)
    (h : Run P (fun _ => True) s₀ last s) (i : BitVec 5) : TlbRoundTrip P (s.withIndex i) where
  writeRead o o' := tlbwiTlbr_apply P o o' (s.withIndex i)
  readWrite o o' := tlbrTlbwi_apply P o o' (cp0_run h0 h).inRange.tlb
  idempotent o₁ o₂ o₃ o₄ := by
    obtain ⟨t, ht, hc⟩ := tlbwiTlbr_apply P o₁ o₂ (s.withIndex i)
    obtain ⟨u, hu, hc'⟩ := tlbwiTlbr_apply P o₃ o₄ t
    exact ⟨t, u, ht, hu, by rw [hc', hc, stored_stored]⟩

/-- `ori $2, $0, 0x6000; mtc0 $2, PageMask; tlbwi`. -/
def tlbRoundTripDemo : Machine Unit := started mips32r1 [0x34026000, 0x40822800, 0x42000002]

theorem tlb_round_trip_demo :
    TlbRoundTrip mips32r1 ((after mips32r1 3 tlbRoundTripDemo).withIndex 7) := by
  have hb : Booted mips32r1 tlbRoundTripDemo := booted_started _ (by decide) (by decide +kernel)
  exact tlb_round_trip hb (run_after 2 (fun _ _ => trivial) (by decide +kernel)) 7

end NemuMips32
