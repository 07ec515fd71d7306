/-
  Page masks. The arithmetic of `page_translate` is right for all nine page sizes
  (`phyn_of_legal`, `paddr_of_legal`), but its assertion, and that of `tlb_present`, accepts
  the mask of 4 KB pages only: `mask | (mask + 1)` is 0 for no 16-bit mask. So it holds in
  exactly the runs that write no other mask to the TLB; `pageMasks_run` says that it does hold
  in those, and that addresses are translated there by the mask of their entry.
-/
import NemuMips32.Cp0
import NemuMips32.Tlb

namespace NemuMips32

open StateExcept

variable {D : Type}

/-! ## Mask arithmetic -/

/-- The masks of the pages of 4 KB to 256 MB. -/
def legalMasks : List (BitVec 16) := [0, 3, 0xF, 0x3F, 0xFF, 0x3FF, 0xFFF, 0x3FFF, 0xFFFF]

/-- The number of ones. -/
def ones (m : BitVec 16) : Nat := (List.range 16).countP m.getLsbD

/-- The page of the pair, chosen by the bit above the page offset. -/
def TlbEntry.pageOf (e : TlbEntry) (v : Word) : TlbPhyn :=
  if v.getLsbD (12 + ones e.pagemask) then e.p1 else e.p0

/-- The PFN with the masked bits cleared, before the page offset of `v`. -/
def TlbEntry.physical (e : TlbEntry) (v : Word) : Word :=
  let k := ones e.pagemask
  (((e.pageOf v).pfn.setWidth 32 >>> k <<< k) <<< 12) ||| (v.setWidth (12 + k)).setWidth 32

theorem toNat_legal {m : BitVec 16} (h : m ∈ legalMasks) :
    ones m ≤ 16 ∧ m.toNat = 2 ^ ones m - 1 := by
  simp only [legalMasks, List.mem_cons, List.not_mem_nil, or_false] at h
  rcases h with rfl | rfl | rfl | rfl | rfl | rfl | rfl | rfl | rfl
  all_goals decide

section Legal

variable {m : BitVec 16} (h : m ∈ legalMasks)
include h

theorem mask_legal : m.setWidth 32 = BitVec.ofNat 32 (2 ^ ones m - 1) := by
  obtain ⟨-, hm⟩ := toNat_legal h
  apply BitVec.eq_of_toNat_eq
  rw [BitVec.toNat_setWidth, BitVec.toNat_ofNat, hm]

theorem oddBit_legal : (m.setWidth 32 + 1) <<< 12 = BitVec.twoPow 32 (12 + ones m) := by
  obtain ⟨hk, hm⟩ := toNat_legal h
  have hpow : 2 ^ ones m ≤ 2 ^ 16 := Nat.pow_le_pow_right (by decide) hk
  have hpos : 0 < 2 ^ ones m := Nat.two_pow_pos _
  have hsum : (m.setWidth 32 + 1).toNat = 2 ^ ones m := by
    rw [BitVec.toNat_add, BitVec.toNat_setWidth, hm]
    have h1 : (1 : Word).toNat = 1 := rfl
    omega
  apply BitVec.eq_of_toNat_eq
  rw [BitVec.toNat_shiftLeft, hsum, Nat.shiftLeft_eq, BitVec.toNat_twoPow, Nat.pow_add,
    Nat.mul_comm]

theorem getLsbD_mask_legal {i : Nat} (hi : i < 32) :
    (m.setWidth 32).getLsbD i = decide (i < ones m) := by
  rw [mask_legal h, BitVec.getLsbD_ofNat, Nat.testBit_two_pow_sub_one]
  simp [hi]

theorem getLsbD_offset_legal {i : Nat} (hi : i < 32) :
    ((m.setWidth 32 + 1) <<< 12 - 1).getLsbD i = decide (i < 12 + ones m) := by
  obtain ⟨hk, -⟩ := toNat_legal h
  have hpow : 2 ^ (12 + ones m) ≤ 2 ^ 28 := Nat.pow_le_pow_right (by decide) (by omega)
  have hpos : 0 < 2 ^ (12 + ones m) := Nat.two_pow_pos _
  have hlow : (m.setWidth 32 + 1) <<< 12 - 1 = BitVec.ofNat 32 (2 ^ (12 + ones m) - 1) := by
    apply BitVec.eq_of_toNat_eq
    rw [oddBit_legal h, BitVec.toNat_sub, BitVec.toNat_twoPow, BitVec.toNat_ofNat]
    have h1 : (1 : Word).toNat = 1 := rfl
    omega
  rw [hlow, BitVec.getLsbD_ofNat, Nat.testBit_two_pow_sub_one]
  simp [hi]

end Legal

section Entry

variable {e : TlbEntry} (h : e.pagemask ∈ legalMasks) (v : Word)
include h

theorem phyn_of_legal : e.phyn v = e.pageOf v := by
  have hne : BitVec.twoPow 32 (12 + ones e.pagemask) ≠ 0 := by
    obtain ⟨hk, -⟩ := toNat_legal h
    intro h0
    have := congrArg (fun x => BitVec.getLsbD x (12 + ones e.pagemask)) h0
    simp [BitVec.getLsbD_twoPow] at this
    omega
  unfold TlbEntry.phyn TlbEntry.pageOf
  rw [oddBit_legal h, BitVec.and_twoPow]
  by_cases hb : v.getLsbD (12 + ones e.pagemask) = true
  · rw [if_pos hb, if_pos hb, if_pos hne]
  · rw [if_neg hb, if_neg hb, if_neg (fun hn => hn rfl)]

theorem paddr_of_legal : e.paddr v = e.physical v := by
  apply BitVec.eq_of_getLsbD_eq
  intro i hi
  unfold TlbEntry.paddr TlbEntry.physical
  rw [phyn_of_legal h]
  have hm := getLsbD_mask_legal h (i := i - 12) (by omega)
  simp only [BitVec.getLsbD_or, BitVec.getLsbD_and, getLsbD_offset_legal h hi,
    BitVec.getLsbD_shiftLeft, BitVec.getLsbD_not, BitVec.getLsbD_ushiftRight, hm]
  by_cases h12 : i < 12
  · simp [h12, hi, show i < 12 + ones e.pagemask by omega, BitVec.getLsbD_setWidth]
  · by_cases hk : i < 12 + ones e.pagemask
    · simp [h12, hi, hk, show i - 12 < ones e.pagemask by omega, BitVec.getLsbD_setWidth]
    · have hsub : ones e.pagemask + (i - 12 - ones e.pagemask) = i - 12 := by omega
      simp [h12, hi, hk, show ¬(i - 12 < ones e.pagemask) by omega, BitVec.getLsbD_setWidth, hsub,
        show i - 12 < 32 by omega]

end Entry

/-! ## Runs -/

/-- If the iteration from `s` executes TLBWI or TLBWR, PageMask is one of `masks`. -/
def WritesMask (P : Platform D) (masks : List (BitVec 16)) (s : Machine D) : Prop :=
  ∀ h o t, makeEntry P s = .ok (h, o) t → h = .tlbwi ∨ h = .tlbwr → s.cpu.cp0.pagemask ∈ masks

/-- No entry of the TLB has a mask. -/
def Unmasked (s : Machine D) : Prop := ∀ i, (s.tlb i).pagemask = 0

theorem unmasked_frame (P : Platform D) :
    Frame P (fun s t : Machine D => Unmasked s → Unmasked t) where
  trans _ _ _ h h' := fun hs => h' (h hs)
  silent s t _ ht _ := by
    unfold Unmasked
    rw [ht]
    exact id
  irq _ _ _ := id
  fault _ _ _ _ _ := id
  badvaddr _ _ := id
  raise _ _ := id
  panic _ _ := id

theorem unmasked_writeTlb {s : Machine D} (hc : s.cpu.cp0.pagemask = 0) (hs : Unmasked s)
    (i : Fin 32) : Unmasked (s.writeTlb i) := fun j => update_pagemask hs hc i j

theorem unmasked_acted {o : Ops} {h : Handler} {s t : Machine D} (ha : Acted o s h t)
    (hc : h = .tlbwi ∨ h = .tlbwr → s.cpu.cp0.pagemask = 0) (hs : Unmasked s) : Unmasked t := by
  cases ha with
  | tlbwi i => exact unmasked_writeTlb (hc (.inl rfl)) hs i
  | tlbwr i r hr => exact unmasked_writeTlb (hc (.inr rfl)) hs i
  | _ => exact hs

/-- The entry code keeps PageMask. -/
theorem pagemask_makeEntry {P : Platform D} {s t : Machine D} {h : Handler} {o : Ops}
    (he : makeEntry P s = .ok (h, o) t) : t.cpu.cp0.pagemask = s.cpu.cp0.pagemask := by
  have hf : AccessFrame P fun s t : Machine D => t.cpu.cp0.pagemask = s.cpu.cp0.pagemask :=
    { trans := fun _ _ _ h h' => h'.trans h
      silent := fun _ _ hc _ _ => by rw [hc]
      irq := fun _ _ _ => rfl
      fault := fun _ _ _ _ _ => rfl }
  have hm := hf.makeEntry s
  rw [he] at hm
  exact hm

theorem unmasked_step {P : Platform D} {s s' : Machine D} {i : Input D}
    (hw : i = .iterate → WritesMask P [0] s) (h : step P s i = some s') (hs : Unmasked s) :
    Unmasked s' := by
  refine (unmasked_frame P).step (fun _ _ => id) (fun _ _ => id) (fun hi h o t he u hu => ?_) h hs
  refine unmasked_acted (acted_of_acts hu) fun hh => ?_
  rw [pagemask_makeEntry he]
  exact List.mem_singleton.1 (hw hi h o t he hh)

theorem unmasked_run {P : Platform D} {s₀ s : Machine D} {last : Option (Machine D × Machine D)}
    (h0 : Booted P s₀) (h : Run P (WritesMask P [0]) s₀ last s) : Unmasked s := by
  induction h with
  | start =>
    obtain ⟨ram, dev, entry, cmdline, -, hi⟩ := h0
    have hk := (unmasked_frame P).initCpu entry cmdline (Machine.boot ram dev)
    rw [hi] at hk
    exact hk fun _ => rfl
  | iterate _ hok hi ih => exact unmasked_step (i := .iterate) (fun _ => hok) (by rw [step, hi]; rfl) ih
  | host _ f ih => exact ih
  | enter _ he ih =>
    exact unmasked_step (i := .enter) (fun h => by cases h) (by rw [step, he]; rfl) ih

/-- In a run that writes TLB entries with PageMask 0 only, the assertion on the page masks
    holds in every state, and an address is translated as the mask of its entry says. -/
theorem pageMasks_run {P : Platform D} {s₀ s : Machine D}
    {last : Option (Machine D × Machine D)} (h0 : Booted P s₀)
    (h : Run P (WritesMask P [0]) s₀ last s) :
    (∀ i, pagemaskOk (s.tlb i).pagemask = true) ∧
    ∀ (v : Word) (rw : Access) (exbit : Bool) (i : Fin 32),
      (s.tlb i).matches (v >>> 13) s.cpu.cp0.entryHi.asid = true →
      (∀ j < i, (s.tlb j).matches (v >>> 13) s.cpu.cp0.entryHi.asid = false) →
      ((s.tlb i).pageOf v).v = true → ((s.tlb i).pageOf v).d = true ∨ rw = .load →
      pageTranslate P v (.init rw exbit) s =
        .ok ((s.tlb i).physical v,
          { MmuAttr.init rw exbit with dirty := ((s.tlb i).pageOf v).d }) s := by
  have hs := unmasked_run h0 h
  refine ⟨fun i => by rw [hs i]; decide, fun v rw exbit i hm hlt hv hd => ?_⟩
  have hlegal : (s.tlb i).pagemask ∈ legalMasks := by
    rw [hs i]
    decide
  have hlook : lookup s.tlb v s.cpu.cp0.entryHi.asid (List.finRange 32) = .hit (s.tlb i) := by
    rw [lookup_eq_find hs, find?_eq_some_of_first hm hlt]
  have hstore : ¬(((s.tlb i).pageOf v).d = false ∧ rw = .store) := by
    rintro ⟨hd0, rfl⟩
    rcases hd with hd | hd
    · rw [hd0] at hd
      cases hd
    · cases hd
  rw [pageTranslate_eq]
  simp only [Arch.pageVerdict, hlook, Lookup.decide, TlbEntry.decide, phyn_of_legal hlegal v,
    paddr_of_legal hlegal v, hv, hstore, if_false, Bool.true_eq_false]
  rfl

/-- Writes the pair of 4 KB pages at 0x10000 with `tlbwi`, the odd one at frame 3. -/
def pageCode : List Word :=
  [0x34020086, 0x40821000, 0x340300C6, 0x40831800, 0x3C010001, 0x40815000, 0x42000002]

def pageDemo : Machine Unit := started mips32r1 pageCode

theorem pageMasks_run_pageDemo :
    (returned (makeEntry mips32r1 (after mips32r1 6 pageDemo))).map Prod.fst = some .tlbwi ∧
    (∀ i, pagemaskOk ((after mips32r1 7 pageDemo).tlb i).pagemask = true) ∧
    pageTranslate mips32r1 0x11004 (.init .load true) (after mips32r1 7 pageDemo) =
      .ok (0x3004, { MmuAttr.init .load true with dirty := true })
        (after mips32r1 7 pageDemo) := by
  have hmask : ∀ i ≤ 6, (after mips32r1 i pageDemo).cpu.cp0.pagemask = 0 := by decide +kernel
  have hboot : Booted mips32r1 pageDemo := booted_started pageCode (by decide) (by decide +kernel)
  obtain ⟨hok, htr⟩ := pageMasks_run hboot
    (run_after 6 (fun i hi _ _ _ _ _ => List.mem_singleton.2 (hmask i hi)) (by decide +kernel))
  have hp : ((after mips32r1 7 pageDemo).tlb 0).physical 0x11004 = 0x3004 := by decide +kernel
  have hd : (((after mips32r1 7 pageDemo).tlb 0).pageOf 0x11004).d = true := by decide +kernel
  have hpage := htr 0x11004 .load true 0 (by decide +kernel) (fun j hj => absurd hj (by simp))
    (by decide +kernel) (.inl hd)
  rw [hp, hd] at hpage
  exact ⟨by decide +kernel, hok, hpage⟩

/-- `ori $2, $0, 0x6000; mtc0 $2, PageMask; tlbwi; lw $3, 0($0)`: a pair of 16 KB pages. -/
def maskDemo : Machine Unit :=
  started mips32r1 [0x34026000, 0x40822800, 0x42000002, 0x8C030000]

theorem booted_maskDemo : Booted mips32r1 maskDemo :=
  booted_started _ (by decide) (by decide +kernel)

/-- The mask of 16 KB pages is legal; the assertion fails once it is in the TLB, and ends the
    emulator at the next translation. -/
theorem not_pageMasks_demo :
    Booted mips32r1 maskDemo ∧
    Run mips32r1 (WritesMask mips32r1 legalMasks) maskDemo
      (some (after mips32r1 2 maskDemo, after mips32r1 3 maskDemo)) (after mips32r1 3 maskDemo) ∧
    pagemaskOk ((after mips32r1 3 maskDemo).tlb 0).pagemask = false ∧
    thrown (iteration mips32r1 (after mips32r1 3 maskDemo)) = some (.halt .assert) := by
  refine ⟨booted_maskDemo, run_after 2 (fun i hi h o t _ _ => ?_) (by decide +kernel),
    by decide +kernel, by decide +kernel⟩
  have hl : ∀ i ≤ 2, (after mips32r1 i maskDemo).cpu.cp0.pagemask ∈ legalMasks := by
    decide +kernel
  exact hl i hi

end NemuMips32
