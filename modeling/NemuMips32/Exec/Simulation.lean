/-
  Handlers with and without the MMU cache. `run_sim` runs one body in both builds: from
  states related by `Sim` they stop the same way, in related states. The body must not move
  EntryHi.ASID or Status.ERL under a live cache (`Body.KeepsMapping`), which only `tlbr`
  can do (`keepsMapping_body`), and where the two stop apart, an access of the body runs past
  the end of its array (`Body.overruns`).
-/
import NemuMips32.MmuCache

namespace NemuMips32

open StateExcept

variable {D : Type}

/-! ## Primitives -/

section Primitives

variable {P : Platform D} {past : Prop}

theorem getCpu_sim : Relates (SameStop past) (Sim P) (getCpu : Exec D CpuState) getCpu := by
  intro s t h
  exact ⟨congrArg Arch.cpu h.arch, h⟩

theorem halt_sim {α : Type} (why : Halt) :
    Relates (SameStop past) (Sim P) (halt why : Exec D α) (halt why) := relates_throw sameStop_refl _

theorem modifyArch_sim {f : Arch D → Arch D} (hf : ∀ a, SameMapping a (f a)) :
    Relates (SameStop past) (Sim P) (modifyArch f) (modifyArch f) := by
  intro s t h
  exact ⟨rfl, h.of_arch (congrArg f h.arch) (hf _) rfl⟩

theorem modifyCpu_sim {f : CpuState → CpuState}
    (ha : ∀ c, (f c).cp0.entryHi.asid = c.cp0.entryHi.asid)
    (he : ∀ c, (f c).cp0.status.ERL = c.cp0.status.ERL) :
    Relates (SameStop past) (Sim P) (modifyCpu f : Exec D Unit) (modifyCpu f) :=
  modifyArch_sim fun a => ⟨rfl, (ha a.cpu).symm, (he a.cpu).symm⟩

theorem modifyRegs_sim (f : CpuState → Regs) :
    Relates (SameStop past) (Sim P) (modifyRegs f : Exec D Unit) (modifyRegs f) :=
  modifyCpu_sim (fun _ => rfl) fun _ => rfl

theorem modifyCp0_sim {f : Cp0 → Cp0} (ha : ∀ c, (f c).entryHi.asid = c.entryHi.asid)
    (he : ∀ c, (f c).status.ERL = c.status.ERL) :
    Relates (SameStop past) (Sim P) (modifyCp0 f : Exec D Unit) (modifyCp0 f) :=
  modifyCpu_sim (fun c => ha c.cp0) fun c => he c.cp0

theorem raiseException_sim (e : Exception) :
    Relates (SameStop past) (Sim P) (raiseException P e) (raiseException P.plain e) := by
  intro s t h
  by_cases he : e.code = .TRAP
  · simp only [raiseException, if_pos he]
    refine ⟨sameStop_refl _, h.of_arch ?_ ⟨rfl, rfl, rfl⟩ rfl⟩
    exact congrArg (fun a : Arch D => { a with raised := a.raised ++ [Raised.of e a.cpu] }) h.arch
  · rw [raiseException_apply P he, raiseException_apply P.plain he]
    exact ⟨rfl, sim_raise h e⟩

theorem instAssert_sim (c : Bool) :
    Relates (SameStop past) (Sim P) (instAssert P c) (instAssert P.plain c) := by
  refine relates_ite (relates_pure ()) (relates_ite ?_ (halt_sim _))
  refine relates_bind (modifyCpu_sim (fun _ => rfl) fun _ => rfl) fun _ => ?_
  exact relates_bind (raiseException_sim _) fun _ => relates_throw sameStop_refl _

theorem checkAlignedAddr_sim (code : ExcCode) (align addr : Word) :
    Relates (SameStop past) (Sim P) (checkAlignedAddr P code align addr)
      (checkAlignedAddr P.plain code align addr) := by
  refine relates_ite (relates_pure ()) (relates_ite ?_ (halt_sim _))
  refine relates_bind (modifyCp0_sim (fun _ => rfl) fun _ => rfl) fun _ => ?_
  exact relates_bind (raiseException_sim _) fun _ => relates_throw sameStop_refl _

/-- A check that returns has passed. -/
theorem checkAlignedAddr_ok {code : ExcCode} {align addr : Word} {s u : Machine D} {a : Unit}
    (h : checkAlignedAddr P code align addr s = .ok a u) :
    misaligned align addr = false ∧ u = s := by
  by_cases hz : addr &&& (align - 1) = 0
  · simp only [checkAlignedAddr, hz] at h
    cases h
    exact ⟨by rw [misaligned, hz]; rfl, rfl⟩
  · simp only [checkAlignedAddr, hz, if_false] at h
    split at h
    · obtain ⟨_, v, -, h⟩ := bind_eq_ok h
      obtain ⟨_, w, -, h⟩ := bind_eq_ok h
      cases h
    · cases h

theorem check_ok {code : ExcCode} {a : AccessOp} {c : CpuState} {s u : Machine D} {x : Unit}
    (h : a.check P code c s = .ok x u) : a.misaligned c = false ∧ u = s := by
  unfold AccessOp.check at h
  unfold AccessOp.misaligned
  cases ha : a.align with
  | none =>
    rw [ha] at h
    cases h
    exact ⟨rfl, rfl⟩
  | some align =>
    rw [ha] at h
    exact checkAlignedAddr_ok h

theorem check_sim (code : ExcCode) (a : AccessOp) (c : CpuState) :
    Relates (SameStop past) (Sim P) (a.check P code c) (a.check P.plain code c) := by
  unfold AccessOp.check
  split
  · exact relates_pure ()
  · exact checkAlignedAddr_sim code _ _

theorem fixBadvaddr_sim (a : AccessOp) (c : CpuState) :
    Relates (SameStop past) (Sim P) (modifyCp0 (a.fixBadvaddr c) : Exec D Unit)
      (modifyCp0 (a.fixBadvaddr c)) := by
  refine modifyCp0_sim ?_ ?_
  · intro c0
    unfold AccessOp.fixBadvaddr
    split <;> rfl
  · intro c0
    unfold AccessOp.fixBadvaddr
    split <;> rfl

end Primitives

/-! ## Bodies -/

/-- A CP0 update flushes the cache, or leaves what translation reads alone. -/
def Body.KeepsMapping (b : Body) (a : Arch D) : Prop :=
  match b with
  | .cp0 f flush => flush a.cpu = true ∨
    (f a.cpu a.tlb).entryHi.asid = a.cpu.cp0.entryHi.asid ∧
      (f a.cpu a.tlb).status.ERL = a.cpu.cp0.status.ERL
  | _ => True

/-- An access of the body, once its alignment check has passed, runs past the end of the array
    behind the entry it hits. -/
def Body.overruns (P : Platform D) (b : Body) (s : Machine D) : Bool :=
  match b with
  | .read a _ => s.overruns P .load (a.addr s.cpu) (a.len s.cpu)
  | .write a _ _ => s.overruns P .store (a.addr s.cpu) (a.len s.cpu)
  | .ll o => s.overruns P .load (effAddr o s.cpu) 4
  | .ldc1 o =>
    s.overruns P .load (effAddr o s.cpu) 4 ||
      okAnd (vaddrRead P (effAddr o s.cpu) 4 s) fun _ t =>
        t.overruns P .load (effAddr o s.cpu + 4) 4
  | .sdc1 o =>
    s.overruns P .store (effAddr o s.cpu) 4 ||
      okAnd (vaddrWrite P (effAddr o s.cpu) 4 (s.cpu.fpr32i (evenReg o.ft)) s) fun _ t =>
        t.overruns P .store (effAddr o s.cpu + 4) 4
  | .invEnd => s.overruns P .load s.cpu.pc 4
  | _ => false

/-- The build uses the MMU cache, and has a mapping that can change. -/
def Platform.Remaps (P : Platform D) : Prop := P.cfg.mmuCache = true ∧ P.cfg.paging = true

section Bodies

variable {P : Platform D} {s t : Machine D} {past : Prop}

theorem readOp_sim (hs : Sim P s t) (a : AccessOp) (put : CpuState → Word → CpuState → Regs)
    (ho : a.misaligned s.cpu = false →
      s.overruns P .load (a.addr s.cpu) (a.len s.cpu) = true → past) :
    ResRel (SameStop past) (Sim P) (readOp P a put s) (readOp P.plain a put t) := by
  refine resRel_bindAt (getCpu_sim s t hs) fun c s₁ t₁ hc h₁ => ?_
  cases hc
  refine resRel_bindAt (check_sim _ a _ _ _ h₁) fun _ s₂ t₂ hk h₂ => ?_
  obtain ⟨hm, rfl⟩ := check_ok hk
  refine resRel_bind (vaddrRead_sim h₂ _ _ (ho hm)) fun v => relates_bind getCpu_sim fun c' => ?_
  exact relates_ite (modifyRegs_sim _) (fixBadvaddr_sim a _)

theorem writeOp_sim (hs : Sim P s t) (a : AccessOp) (data : CpuState → Word)
    (put : CpuState → Regs)
    (ho : a.misaligned s.cpu = false →
      s.overruns P .store (a.addr s.cpu) (a.len s.cpu) = true → past) :
    ResRel (SameStop past) (Sim P) (writeOp P a data put s) (writeOp P.plain a data put t) := by
  refine resRel_bindAt (getCpu_sim s t hs) fun c s₁ t₁ hc h₁ => ?_
  cases hc
  refine resRel_bindAt (check_sim _ a _ _ _ h₁) fun _ s₂ t₂ hk h₂ => ?_
  obtain ⟨hm, rfl⟩ := check_ok hk
  refine resRel_bind (vaddrWrite_sim h₂ _ _ _ (ho hm)) fun v =>
    relates_bind getCpu_sim fun c' => ?_
  exact relates_ite (modifyRegs_sim _) (fixBadvaddr_sim a _)

theorem ll_sim (hs : Sim P s t) (o : Ops)
    (ho : misaligned 4 (effAddr o s.cpu) = false →
      s.overruns P .load (effAddr o s.cpu) 4 = true → past) :
    ResRel (SameStop past) (Sim P) (ll P o s) (ll P.plain o t) := by
  refine resRel_bindAt (getCpu_sim s t hs) fun c s₁ t₁ hc h₁ => ?_
  cases hc
  refine resRel_bindAt (checkAlignedAddr_sim _ _ _ _ _ h₁) fun _ s₂ t₂ hk h₂ => ?_
  obtain ⟨hm, rfl⟩ := checkAlignedAddr_ok hk
  exact resRel_bind (vaddrRead_sim h₂ _ _ (ho hm)) fun v => modifyRegs_sim _

theorem ldc1_sim (hs : Sim P s t) (o : Ops)
    (ho : misaligned 8 (effAddr o s.cpu) = false → (Body.ldc1 o).overruns P s = true → past) :
    ResRel (SameStop past) (Sim P) (ldc1 P o s) (ldc1 P.plain o t) := by
  refine resRel_bindAt (getCpu_sim s t hs) fun c s₁ t₁ hc h₁ => ?_
  cases hc
  refine resRel_bindAt (checkAlignedAddr_sim _ _ _ _ _ h₁) fun _ s₂ t₂ hk h₂ => ?_
  obtain ⟨hm, rfl⟩ := checkAlignedAddr_ok hk
  simp only [Body.overruns, Bool.or_eq_true] at ho
  refine resRel_bindAt (vaddrRead_sim h₂ _ _ fun h => ho hm (.inl h)) fun v s₃ t₃ hr h₃ => ?_
  rw [hr] at ho
  refine resRel_bind (vaddrRead_sim h₃ _ _ fun h => ho hm (.inr h)) fun v' => ?_
  exact relates_bind getCpu_sim fun c' => relates_ite (relates_pure ()) (modifyRegs_sim _)

theorem sdc1_sim (hs : Sim P s t) (o : Ops)
    (ho : misaligned 8 (effAddr o s.cpu) = false → (Body.sdc1 o).overruns P s = true → past) :
    ResRel (SameStop past) (Sim P) (sdc1 P o s) (sdc1 P.plain o t) := by
  refine resRel_bindAt (getCpu_sim s t hs) fun c s₁ t₁ hc h₁ => ?_
  cases hc
  refine resRel_bindAt (checkAlignedAddr_sim _ _ _ _ _ h₁) fun _ s₂ t₂ hk h₂ => ?_
  obtain ⟨hm, rfl⟩ := checkAlignedAddr_ok hk
  refine resRel_bindAt (getCpu_sim _ _ h₂) fun c' s₃ t₃ hc' h₃ => ?_
  cases hc'
  simp only [Body.overruns, Bool.or_eq_true] at ho
  refine resRel_bindAt (vaddrWrite_sim h₃ _ _ _ fun h => ho hm (.inl h)) fun _ s₄ t₄ hw h₄ => ?_
  rw [hw] at ho
  refine resRel_bindAt (getCpu_sim _ _ h₄) fun c'' s₅ t₅ hc'' h₅ => ?_
  cases hc''
  exact vaddrWrite_sim h₅ _ _ _ fun h => ho hm (.inr h)

theorem jump_sim (mbz : Bool) (link : CpuState → Regs) (target : CpuState → Word) :
    Relates (SameStop past) (Sim P) (jump P mbz link target) (jump P.plain mbz link target) := by
  refine relates_bind (instAssert_sim mbz) fun _ => relates_bind (modifyRegs_sim _) fun _ => ?_
  refine relates_bind (modifyCpu_sim (fun _ => rfl) fun _ => rfl) fun _ => ?_
  exact relates_throw sameStop_refl _

theorem branchLikely_sim (mbz : Bool) (link : CpuState → Regs) (cond : Regs → Bool) (o : Ops) :
    Relates (SameStop past) (Sim P) (branchLikely P mbz link cond o)
      (branchLikely P.plain mbz link cond o) := by
  refine relates_bind (instAssert_sim mbz) fun _ => relates_bind (modifyRegs_sim _) fun _ => ?_
  refine relates_bind getCpu_sim fun c => relates_ite ?_ (modifyCpu_sim (fun _ => rfl) fun _ => rfl)
  refine relates_bind (modifyCpu_sim (fun _ => rfl) fun _ => rfl) fun _ => ?_
  exact relates_throw sameStop_refl _

theorem tlbPresentFrom_sim (is : List (Fin 32)) :
    Relates (SameStop past) (Sim P) (tlbPresentFrom is : Exec D Unit) (tlbPresentFrom is) := by
  induction is with
  | nil => exact modifyCp0_sim (fun _ => rfl) fun _ => rfl
  | cons i is ih =>
    intro s t h
    simp only [tlbPresentFrom, bind_apply, get_apply, ← h.arch, ite_run]
    by_cases hm : pagemaskOk (s.tlb i).pagemask = true
    · simp only [hm, if_true]
      split
      · refine modifyCp0_sim ?_ ?_ s t h
        · exact fun _ => rfl
        · exact fun _ => rfl
      · exact ih s t h
    · simp only [hm]
      exact ⟨sameStop_refl _, h⟩

/-- Whatever ends with a flush of both caches. -/
theorem sim_flush {s t : Machine D} {mc : BitVec 12 → MmuCacheEntry} (ha : s.toArch = t.toArch)
    (hc : s.mmuCache = clearMmu mc) : Sim P s t := ⟨ha, fun _ => coherent_of_clear hc⟩

theorem tlbwi_sim : Relates (SameStop past) (Sim P) (tlbwi : Exec D Unit) tlbwi := by
  rintro s ⟨_, mc, dc⟩ ⟨rfl, -⟩
  exact ⟨rfl, sim_flush rfl rfl⟩

theorem eret_sim : Relates (SameStop past) (Sim P) (eret : Exec D Unit) eret := by
  rintro s ⟨_, mc, dc⟩ ⟨rfl, -⟩
  exact ⟨rfl, sim_flush rfl rfl⟩

theorem tlbwr_sim : Relates (SameStop past) (Sim P) (tlbwr P) (tlbwr P.plain) := by
  rintro s ⟨_, mc, dc⟩ ⟨rfl, hc⟩
  have hm' : P.plain.cfg.march = P.cfg.march := rfl
  unfold tlbwr
  rw [hm']
  by_cases hm : P.cfg.march = .noop
  · rw [if_pos hm, if_pos hm, bind_of_ok (getCpu_apply s), bind_of_ok (getCpu_apply _)]
    by_cases hr : s.cpu.cp0.random.toNat < 32
    · simp only [hr, dite_true]
      exact ⟨rfl, sim_flush rfl rfl⟩
    · simp only [hr, dite_false]
      exact ⟨sameStop_refl _, rfl, hc⟩
  · rw [if_neg hm, if_neg hm]
    exact ⟨rfl, sim_flush rfl rfl⟩

theorem cp0_sim (f : CpuState → (Fin 32 → TlbEntry) → Cp0) (flush : CpuState → Bool)
    {s t : Machine D} (h : Sim P s t)
    (hb : P.Remaps → (Body.cp0 f flush).KeepsMapping s.toArch) :
    ResRel (SameStop past) (Sim P) ((Body.cp0 f flush).run P s) ((Body.cp0 f flush).run P.plain t) := by
  obtain ⟨ta, mc, dc⟩ := t
  obtain rfl : s.toArch = ta := h.arch
  simp only [Body.run, bind_apply, get_apply, modifyCp0_apply, ite_run]
  by_cases hf : flush s.cpu = true
  · rw [if_pos hf, if_pos hf]
    exact ⟨rfl, sim_flush rfl rfl⟩
  · rw [if_neg hf, if_neg hf]
    refine ⟨rfl, rfl, fun hm => ?_⟩
    by_cases hp : P.cfg.paging = true
    · obtain ⟨hasid, herl⟩ := (hb ⟨hm, hp⟩).resolve_left hf
      exact (h.coherent hm).of_sameMapping ⟨rfl, hasid.symm, herl.symm⟩ rfl
    · exact (h.coherent hm).of_paging (Bool.eq_false_iff.2 hp) rfl

theorem run_sim (b : Body) (h : Sim P s t) (hb : P.Remaps → b.KeepsMapping s.toArch)
    (ho : b.rejects s.cpu = false → b.overruns P s = true → past) :
    ResRel (SameStop past) (Sim P) (b.run P s) (b.run P.plain t) := by
  cases b with
  | regs mbz bad f =>
    refine relates_bind (instAssert_sim mbz) (fun _ => relates_bind getCpu_sim fun c => ?_) s t h
    split
    · exact halt_sim _
    · exact modifyRegs_sim f
  | addOv mbz dst ret =>
    refine relates_bind (instAssert_sim mbz) (fun _ => relates_bind getCpu_sim fun c => ?_) s t h
    exact relates_ite (relates_ite (raiseException_sim _) (halt_sim _)) (modifyRegs_sim _)
  | raiseIf cond e =>
    exact relates_bind getCpu_sim
      (fun c => relates_ite (raiseException_sim e) (relates_pure ())) s t h
  | branch mbz link target => exact jump_sim mbz link target s t h
  | branchLikely mbz link cond o => exact branchLikely_sim mbz link cond o s t h
  | read a put => exact readOp_sim h a put ho
  | write a data put => exact writeOp_sim h a data put ho
  | cp0 f flush => exact cp0_sim f flush h hb
  | halt why => exact halt_sim why s t h
  | cfc1Bad rt =>
    exact relates_bind (modifyRegs_sim _) (fun _ => instAssert_sim false) s t h
  | ll o => exact ll_sim h o ho
  | ldc1 o => exact ldc1_sim h o ho
  | sdc1 o => exact sdc1_sim h o ho
  | cache => exact ⟨rfl, h.arch, h.coherent⟩
  | tlbp => exact tlbPresentFrom_sim _ s t h
  | tlbwi => exact tlbwi_sim s t h
  | tlbwr => exact tlbwr_sim s t h
  | eret => exact eret_sim s t h
  | gdbStop =>
    obtain ⟨ta, mc, dc⟩ := t
    obtain rfl : s.toArch = ta := h.arch
    exact ⟨rfl, h.of_arch rfl ⟨rfl, rfl, rfl⟩ rfl⟩
  | invEnd =>
    refine resRel_bindAt (getCpu_sim s t h) fun c s₁ t₁ hc h₁ => ?_
    cases hc
    refine resRel_bind (vaddrRead_sim h₁ _ _ (ho rfl)) fun _ => modifyArch_sim ?_
    exact fun _ => ⟨rfl, rfl, rfl⟩

/-- `mtc0` flushes where it writes EntryHi or changes ERL. -/
theorem keepsMapping_mtc0 (o : Ops) (a : Arch D) : (mtc0 o).KeepsMapping a := by
  have hreg : ∀ f : Word → Cp0 → Cp0,
      (∀ v c, (f v c).entryHi.asid = c.entryHi.asid ∧ (f v c).status.ERL = c.status.ERL) →
      (mtc0Reg o f).KeepsMapping a := fun f hf => .inr (hf _ _)
  unfold mtc0
  split
  case h_7 =>
    by_cases he : a.cpu.cp0.status.ERL = (Cp0Status.ofWord (a.cpu.gpr o.rt)).ERL
    · exact .inr ⟨rfl, he.symm⟩
    · exact .inl (bne_iff_ne.2 he)
  case h_13 => exact .inl rfl
  case h_4 | h_15 | h_16 => trivial
  all_goals exact hreg _ fun v c => ⟨rfl, rfl⟩

/-- Only `tlbr` can move the mapping under a live cache, when the entry it reads belongs to
    another address space. -/
theorem keepsMapping_body (P : Platform D) (o : Ops) {h : Handler} {a : Arch D}
    (ht : h = .tlbr → (a.tlb a.cpu.cp0.index.idx.toFin).asid = a.cpu.cp0.entryHi.asid) :
    (body P o h).KeepsMapping a := by
  cases h
  case mtc0 => exact keepsMapping_mtc0 o a
  case tlbr => exact .inr ⟨ht rfl, rfl⟩
  case inv => simp only [body, inv]; split <;> trivial
  case breakpoint => simp only [body, breakpoint]; split <;> trivial
  case cfc1 => simp only [body, cfc1]; split <;> trivial
  case srl => simp only [body, srl]; split <;> trivial
  case srlv => simp only [body, srlv]; split <;> trivial
  all_goals trivial

theorem body_plain (P : Platform D) (o : Ops) (h : Handler) : body P.plain o h = body P o h := by
  cases h <;> rfl

end Bodies

end NemuMips32
