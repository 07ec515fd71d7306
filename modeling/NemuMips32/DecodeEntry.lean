/-
  `make_entry` with and without the decode cache. At the top of the loop the successor of `ds`,
  if there is one, decodes a word that was executed at `pc` before (`AtTop`). As long as a fetch
  from there would still read that word, and do nothing else (`Reads`), going to the successor
  is the same as fetching and decoding; without a successor the cached build fetches as well.
  `entry_hit` and `entry_miss` relate the two builds in these cases.
-/
import NemuMips32.DecodeLabel
import NemuMips32.Flow
import NemuMips32.MmuTransparency

namespace NemuMips32

open StateExcept

variable {D : Type}

/-- A fetch from `pc` would read `w`, raise nothing and change nothing. -/
def Reads (P : Platform D) (s : Machine D) (pc w : Word) : Prop :=
  ∃ t, vaddrRead P pc 4 s.zeroGpr = .ok w t ∧ t.toArch = s.zeroGpr.toArch

/-- The word that an uncached `make_entry` fetches. -/
def fetched (P : Platform D) (s : Machine D) : Option Word := returned (fetchInst P s.zeroGpr)

/-- The chains decode the words in `seen`, and the successor of `ds` the one at `pc`. -/
def AtTop (follows : Word → Handler → Word → Prop) (seen : List (Word × Word)) (s : Machine D) :
    Prop :=
  ∃ label, Traced (fun a w => (a, w) ∈ seen) follows label True s.dc ∧ Tagged label s.dc ∧
    label s.dc.ds = s.cpu.pc

/-- Both builds go to the handler of `w`, the cached one with a decode state that is being
    executed. -/
structure Enters (P : Platform D) (follows : Word → Handler → Word → Prop)
    (seen : List (Word × Word)) (s u : Machine D) (w : Word) (o : Ops) (s' u' : Machine D) :
    Prop where
  cached : makeEntry P s = .ok (decoderGetHandler w, o) s'
  plain : makeEntry P.plain u = .ok (decoderGetHandler w, Inst.ops w) u'
  sim : Sim P s' u'
  pc : s'.cpu.pc = s.cpu.pc
  ops : ∃ d, o = (decoderSetState d w).ops
  active : ∃ label n d, Active (fun a x => (a, x) ∈ (s.cpu.pc, w) :: seen) follows label s.cpu.pc
    (decoderGetHandler w) n d s'.dc ∧ Tagged label s'.dc

section Entry

variable {P : Platform D} {follows : Word → Handler → Word → Prop} {seen : List (Word × Word)}
  {s u : Machine D}

theorem onDecodeCache_of_some {α : Type} {f : DecodeCache → Option (α × DecodeCache)} {a : α}
    {c : DecodeCache} (h : f s.dc = some (a, c)) : onDecodeCache f s = .ok a (s.withDc c) := by
  unfold onDecodeCache
  rw [h]
  rfl

theorem makeEntry_plain (P : Platform D) (u : Machine D) :
    makeEntry P.plain u =
      (fetchInst P.plain >>= fun w => pure (decoderGetHandler w, Inst.ops w)) u.zeroGpr := rfl

theorem makeEntry_cached (hd : P.cfg.decodeCache = true) (s : Machine D) :
    makeEntry P s = makeEntryCached P s.zeroGpr := by
  unfold makeEntry
  rw [bind_of_ok (modifyRegs_apply s _), if_pos hd]
  rfl

theorem Sim.zeroGpr (h : Sim P s u) : Sim P s.zeroGpr u.zeroGpr := by
  refine h.of_arch ?_ ⟨rfl, rfl, rfl⟩ rfl
  exact congrArg (fun a : Arch D =>
    { a with cpu := { a.cpu with toRegs := a.cpu.setGpr 0 0 } }) h.arch

theorem Sim.cpu (h : Sim P s u) : u.cpu = s.cpu := congrArg Arch.cpu h.arch.symm

theorem fetched_of_reads {w : Word} (h : Reads P u u.cpu.pc w) : fetched P u = some w := by
  obtain ⟨t, ht, -⟩ := h
  have hf : fetchInst P u.zeroGpr = .ok w t := ht
  rw [fetched, hf]
  rfl

/-- Both builds go to the handler of `w`. -/
structure GoesTo (P : Platform D) (s u : Machine D) (w : Word) (o : Ops) (s' u' : Machine D) :
    Prop where
  cached : makeEntry P s = .ok (decoderGetHandler w, o) s'
  plain : makeEntry P.plain u = .ok (decoderGetHandler w, Inst.ops w) u'
  sim : Sim P s' u'
  pc : s'.cpu.pc = s.cpu.pc
  ops : ∃ d, o = (decoderSetState d w).ops

/-- The successor of `ds` decodes the word that a fetch would read. -/
theorem goesTo_follow (hd : P.cfg.decodeCache = true) (hs : Sim P s u) {n : Nat}
    {d : DecodeState} {w : Word}
    (hfol : s.dc.follow = some (some d, { s.dc with ds := .node n })) (hdec : d.Decodes w)
    (hreads : Reads P.plain u s.cpu.pc w) :
    ∃ u', GoesTo P s u w d.ops (s.zeroGpr.withDc { s.dc with ds := .node n }) u' := by
  obtain ⟨u', hu', harch⟩ := hreads
  rw [← hs.cpu] at hu'
  have hentry : makeEntryCached P s.zeroGpr =
      .ok (decoderGetHandler w, d.ops) (s.zeroGpr.withDc { s.dc with ds := .node n }) := by
    have hon : onDecodeCache DecodeCache.follow s.zeroGpr =
        .ok (some d) (s.zeroGpr.withDc { s.dc with ds := .node n }) :=
      onDecodeCache_of_some hfol
    unfold makeEntryCached
    rw [bind_of_ok hon]
    simp only [hdec.handler]
    rfl
  refine ⟨u', (makeEntry_cached hd s).trans hentry, ?_, ?_, rfl, hdec.ops⟩
  · have hfu : fetchInst P.plain u.zeroGpr = .ok w u' := hu'
    rw [makeEntry_plain, bind_of_ok hfu]
    rfl
  · have h0 := hs.zeroGpr
    refine ⟨h0.arch.trans harch.symm, fun hm => ?_⟩
    exact (h0.coherent hm).of_sameMapping ⟨rfl, rfl, rfl⟩ rfl

/-- The successor of `ds` is executed. -/
theorem entry_hit (hd : P.cfg.decodeCache = true) (hs : Sim P s u) (ht : AtTop follows seen s)
    (hr : ∀ x ∈ seen, Reads P.plain u x.1 x.2) {n : Nat} (hn : s.dc.nextOf s.dc.ds = some n) :
    ∃ d w s' u', s.dc.heap n = some d ∧ d.Decodes w ∧ Reads P.plain u s.cpu.pc w ∧
      fetched P.plain u = some w ∧ Enters P follows seen s u w d.ops s' u' := by
  obtain ⟨label, htr, htag, haddr⟩ := ht
  obtain ⟨d, w, hheap, hfol, hw, hdec, hact⟩ := htr.follow hn
  rw [haddr] at hw hact
  have hreads : Reads P.plain u s.cpu.pc w := hr (s.cpu.pc, w) hw
  have hfet : fetched P.plain u = some w := fetched_of_reads (hs.cpu ▸ hreads)
  obtain ⟨u', he⟩ := goesTo_follow hd hs hfol hdec hreads
  refine ⟨d, w, _, u', hheap, hdec, hreads, hfet,
    ⟨he.cached, he.plain, he.sim, he.pc, he.ops, label, n, d, ?_, htag.follow n⟩⟩
  exact hact.mono fun a x hx => List.mem_cons_of_mem _ hx

/-- What `make_entry` does when `ds` has no successor. -/
theorem makeEntryCached_miss (hl : s.dc.DsLive)
    (hn : s.dc.nextOf s.dc.ds = none) :
    ∃ d, s.dc.deref s.dc.ds = some d ∧
      makeEntryCached P s = (fetchInst P >>= fun w =>
        onDecodeCache (fun c => c.fill w) >>= fun o => pure (decoderGetHandler w, o))
          (s.withDc (s.dc.linked d (P.malloc s.dc.brk))) := by
  have hex : ∃ d, s.dc.deref s.dc.ds = some d := by
    cases hds : s.dc.ds with
    | head i => exact ⟨_, rfl⟩
    | node k => exact heap_of_live (hl k hds)
  obtain ⟨d, hd⟩ := hex
  have hnext : d.next = none := by
    rw [DecodeCache.nextOf, hd] at hn
    exact hn
  have hfol : onDecodeCache DecodeCache.follow s = .ok none s := by
    simp only [onDecodeCache, DecodeCache.follow, hd, hnext]
  have hgrow : onDecodeCache (fun c => c.grow (P.malloc c.brk)) s =
      .ok () (s.withDc (s.dc.linked d (P.malloc s.dc.brk))) :=
    onDecodeCache_of_some (grow_eq hd _)
  refine ⟨d, hd, ?_⟩
  unfold makeEntryCached
  rw [bind_of_ok hfol]
  simp only []
  rw [bind_of_ok hgrow]

theorem linked_ds (c : DecodeCache) (d fresh : DecodeState) :
    (c.linked d fresh).ds = .node c.brk := rfl

theorem linked_fresh (c : DecodeCache) (d fresh : DecodeState) :
    (c.linked d fresh).heap c.brk = some { fresh with next := none } := Function.update_self ..

/-- The cache after `make_entry` has filled a new state behind `ds`. -/
def Platform.grown (P : Platform D) (c : DecodeCache) (d : DecodeState) (w : Word) :
    DecodeCache :=
  (c.linked d (P.malloc c.brk)).fillFresh c.brk (filled (P.malloc c.brk) w)

/-- Both builds fetch. -/
theorem goesTo_fetch (hd : P.cfg.decodeCache = true) (hs : Sim P s u) (hl : s.dc.DsLive)
    (hn : s.dc.nextOf s.dc.ds = none) (hf : s.faultOf P .load s.cpu.pc = none) :
    (∃ e e' t t', makeEntry P s = .error e t ∧ makeEntry P.plain u = .error e' t' ∧
      SameStop True e e') ∨
    ∃ d w o s' u', s.dc.deref s.dc.ds = some d ∧ fetched P.plain u = some w ∧
      GoesTo P s u w o s' u' ∧ s'.raised = s.raised ∧ s'.dc = P.grown s.dc d w := by
  obtain ⟨d, hderef, hentry⟩ := makeEntryCached_miss (P := P) (s := s.zeroGpr) hl hn
  generalize hc₁ : s.zeroGpr.dc.linked d (P.malloc s.zeroGpr.dc.brk) = c₁ at hentry
  have hsim : Sim P (s.zeroGpr.withDc c₁) u.zeroGpr := ⟨hs.zeroGpr.arch, fun hm =>
    (hs.zeroGpr.coherent hm).of_sameMapping ⟨rfl, rfl, rfl⟩ rfl⟩
  have hfetch := fetchInst_sim hsim fun _ => trivial
  have hquiet : Quiet .load (s.zeroGpr.withDc c₁) (fetchInst P (s.zeroGpr.withDc c₁)) :=
    vaddrRead_quiet (P := P) (s := s.zeroGpr.withDc c₁) hf 4
  unfold fetched
  cases hfs : fetchInst P (s.zeroGpr.withDc c₁) with
  | error e t =>
    rw [hfs] at hfetch hquiet
    cases hfu : fetchInst P.plain u.zeroGpr with
    | ok w' t' => rw [hfu] at hfetch; exact hfetch.elim
    | error e' t' =>
      rw [hfu] at hfetch
      have hms : makeEntry P s = .error e t := by
        rw [makeEntry_cached hd, hentry, bind_of_error hfs]
      have hmu : makeEntry P.plain u = .error e' t' := by
        rw [makeEntry_plain, bind_of_error hfu]
      exact .inl ⟨e, e', t, t', hms, hmu, hfetch.1⟩
  | ok w t =>
    rw [hfs] at hfetch hquiet
    cases hfu : fetchInst P.plain u.zeroGpr with
    | error e' t' => rw [hfu] at hfetch; exact hfetch.elim
    | ok w' t' =>
      rw [hfu] at hfetch
      obtain ⟨rfl, hst⟩ := hfetch
      obtain ⟨x, m, mc, rfl, -⟩ := hquiet
      have hfill : onDecodeCache (fun c => c.fill w) ((s.zeroGpr.withDc c₁).access x m mc) =
          .ok (filled (P.malloc s.dc.brk) w).ops
            (((s.zeroGpr.withDc c₁).access x m mc).withDc (P.grown s.dc d w)) := by
        subst hc₁
        exact onDecodeCache_of_some
          (fill_eq (linked_ds s.dc d (P.malloc s.dc.brk)) (linked_fresh s.dc d _) w)
      refine .inr ⟨d, w, _, ((s.zeroGpr.withDc c₁).access x m mc).withDc (P.grown s.dc d w), t',
        hderef, rfl, ⟨?_, ?_, ?_, rfl, (filled_decodes (P.malloc s.dc.brk) w).ops⟩, rfl, rfl⟩
      · rw [makeEntry_cached hd, hentry, bind_of_ok hfs, bind_of_ok hfill]
        rfl
      · rw [makeEntry_plain, bind_of_ok hfu]
        rfl
      · exact ⟨hst.arch, fun hm => (hst.coherent hm).of_sameMapping ⟨rfl, rfl, rfl⟩ rfl⟩

/-- The fetch faults in both builds, which then go to the handler of the word 0. -/
theorem goesTo_fault (hd : P.cfg.decodeCache = true) (hs : Sim P s u) (hl : s.dc.DsLive)
    (hn : s.dc.nextOf s.dc.ds = none) {f : TlbFault}
    (hf : s.faultOf P .load s.cpu.pc = some f) :
    ∃ d o s' u', s.dc.deref s.dc.ds = some d ∧ GoesTo P s u 0 o s' u' ∧ Raises s s' ∧
      s'.cpu.gpr 0 = 0 ∧ s'.dc = (P.grown s.dc d 0).clear := by
  obtain ⟨d, hderef, hentry⟩ := makeEntryCached_miss (P := P) (s := s.zeroGpr) hl hn
  generalize hc₁ : s.zeroGpr.dc.linked d (P.malloc s.zeroGpr.dc.brk) = c₁ at hentry
  have hsim : Sim P (s.zeroGpr.withDc c₁) u.zeroGpr := ⟨hs.zeroGpr.arch, fun hm =>
    (hs.zeroGpr.coherent hm).of_sameMapping ⟨rfl, rfl, rfl⟩ rfl⟩
  have hfs : fetchInst P (s.zeroGpr.withDc c₁) =
      .ok 0 ((s.zeroGpr.withDc c₁).fault P f s.cpu.pc) :=
    vaddrRead_of_fault (s := s.zeroGpr.withDc c₁) hf 4
  have hfetch := fetchInst_sim hsim fun _ => trivial
  rw [hfs] at hfetch
  cases hfu : fetchInst P.plain u.zeroGpr with
  | error e' t' => rw [hfu] at hfetch; exact hfetch.elim
  | ok w' t' =>
    rw [hfu] at hfetch
    obtain ⟨rfl, hst⟩ := hfetch
    have hfill : onDecodeCache (fun c => c.fill 0) ((s.zeroGpr.withDc c₁).fault P f s.cpu.pc) =
        .ok (filled (P.malloc s.dc.brk) 0).ops
          (((s.zeroGpr.withDc c₁).fault P f s.cpu.pc).withDc (P.grown s.dc d 0).clear) := by
      subst hc₁
      exact onDecodeCache_of_some (fill_eq (c := (s.dc.linked d (P.malloc s.dc.brk)).clear)
        (linked_ds s.dc d (P.malloc s.dc.brk)) (linked_fresh s.dc d _) 0)
    refine ⟨d, _, ((s.zeroGpr.withDc c₁).fault P f s.cpu.pc).withDc (P.grown s.dc d 0).clear, t',
      hderef, ⟨?_, ?_, ?_, rfl, (filled_decodes (P.malloc s.dc.brk) 0).ops⟩, ?_, ?_, rfl⟩
    · rw [makeEntry_cached hd, hentry, bind_of_ok hfs, bind_of_ok hfill]
      rfl
    · rw [makeEntry_plain, bind_of_ok hfu]
      rfl
    · exact ⟨hst.arch, fun hm => (hst.coherent hm).of_sameMapping ⟨rfl, rfl, rfl⟩ rfl⟩
    · exact raises_fault (P := P) f s.cpu.pc (s.zeroGpr.withDc c₁)
    · exact (gpr_setGpr s.cpu.toRegs 0 0 0).trans (if_pos rfl)

/-- Both builds fetch, and the new state is labelled. -/
theorem entry_miss (hd : P.cfg.decodeCache = true) (hs : Sim P s u) (ht : AtTop follows seen s)
    (hn : s.dc.nextOf s.dc.ds = none) (hf : s.faultOf P .load s.cpu.pc = none) :
    (∃ e e' t t', makeEntry P s = .error e t ∧ makeEntry P.plain u = .error e' t' ∧
      SameStop True e e') ∨
    ∃ w o s' u', fetched P.plain u = some w ∧ Enters P follows seen s u w o s' u' := by
  obtain ⟨label, htr, htag, haddr⟩ := ht
  obtain hhalt | ⟨d, w, o, s', u', hderef, hfet, he, -, hdc⟩ :=
    goesTo_fetch hd hs htr.live hn hf
  · exact .inl hhalt
  · have hgrown := grown_fill htr.chained htr.live hderef (P.malloc s.dc.brk) w
    rw [← Platform.grown, ← hdc] at hgrown
    have htr' : Traced (fun a x => (a, x) ∈ (s.cpu.pc, w) :: seen) follows label _ s.dc :=
      htr.mono fun a x hx => List.mem_cons_of_mem _ hx
    have hact := htr'.grow hgrown (filled_next _ w) (w := w)
      (by rw [haddr]; exact List.mem_cons_self ..) (filled_decodes _ w)
    rw [haddr] at hact
    exact .inr ⟨w, o, s', u', hfet, he.cached, he.plain, he.sim, he.pc, he.ops, label, _, _, hact,
      htag.grow hgrown⟩

end Entry

end NemuMips32
