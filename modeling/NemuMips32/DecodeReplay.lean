/-
  The decode cache in the builds with delay slots and exceptions. `make_entry` follows
  `ds->next` without looking at `pc`, and four things may have brought execution elsewhere than
  when that state was decoded: an exception or an interrupt, a likely branch that goes the other
  way, an array entry whose chain was begun at an exception vector, and another mapping. A run
  in which none of them meets a state that has a successor (`Unswerving`) passes through the
  states of the build without the cache (`decodeCache_replay`).

  The invariant is `Rested`: every pointer that can still be reached is labelled with the place
  (`Site`) its successor was decoded at. Wherever execution was not diverted, the label of a
  state is where it goes on, and an array entry is tagged with it, by the comparison that
  `decode_cache_fetch` makes.
-/
import NemuMips32.Bench

namespace NemuMips32

open StateExcept

variable {D : Type}

/-! ## Places -/

/-- An address, with what it is mapped to. -/
structure Site where
  pc : Word
  paddr : Option Word

/-- Where execution is. -/
def Platform.site (P : Platform D) (s : Machine D) : Site where
  pc := s.cpu.pc
  paddr :=
    match P.translate s.toArch s.cpu.pc .load with
    | .ok p _ => some p
    | _ => none

/-- The word at physical address `p` is `w`, and reading it has no other effect. -/
def StillReads (P : Platform D) (s : Machine D) (p w : Word) : Prop :=
  ∀ v d, ∃ t, readPaddr P v p d 4 s.zeroGpr = .ok w t ∧ t.toArch = s.zeroGpr.toArch

/-- The word that memory has for an iteration at `s`. -/
def executed (P : Platform D) (s : Machine D) : Option Word :=
  if s.cpu.pc &&& 3 = 0 then fetched P s else none

/-! ## The history of a run -/

def Ptr.isHead : Ptr → Bool
  | .head _ => true
  | .node _ => false

/-- What a run has left behind: where execution was when it last went on from a pointer, the
    words it has executed, with their physical addresses, and whether the last step diverted
    it. -/
structure Trail where
  site : Ptr → Site
  seen : List (Word × Word)
  swerved : Bool

/-- Nothing was executed yet, and `ds` was not fetched for the entry point. -/
def Trail.start : Trail := { site := fun _ => ⟨0, none⟩, seen := [], swerved := true }

def noteFetch (P : Platform D) (s : Machine D) (seen : List (Word × Word)) : List (Word × Word) :=
  match (P.site s).paddr, executed P s with
  | some p, some w => (p, w) :: seen
  | _, _ => seen

/-- The iteration from `s` to `s'` raised an exception or took an interrupt, or executed a likely
    branch. -/
def swerves (P : Platform D) (s s' : Machine D) : Bool :=
  !(newRaised s s').isEmpty || (executed P s).any fun w => isLikely (decoderGetHandler w)

def Trail.after (P : Platform D) (g : Trail) (s s' : Machine D) : Trail where
  site := Function.update g.site s.dc.ds (P.site s)
  seen := noteFetch P s g.seen
  swerved := swerves P s s'

/-- A step with its history. -/
def trailStep (P : Platform D) (x : Machine D × Trail) (i : Input D) :
    Option (Machine D × Trail) :=
  (step P x.1 i).map fun s' =>
    match i with
    | .iterate => (s', x.2.after P x.1 s')
    | .host _ => (s', x.2)
    | .enter => (s', { x.2 with swerved := false })

/-! ## What is asked of a run -/

/-- The guest has changed no word it has executed, and the next one is not COP1, integer MOVF
    or MOVT. -/
structure GuestKeeps (P : Platform D) (x : Machine D × Trail) : Prop where
  kept : ∀ y ∈ x.2.seen, StillReads P x.1 y.1 y.2
  word : ∀ w, executed P x.1 = some w → Inst.op w ≠ 0x11 ∧ decoderGetHandler w ≠ .movci

/-- Where `ds` has a successor, `pc` is mapped to where that was decoded, and where execution
    was diverted, `pc` is the address it was decoded at. The chain of an array entry that
    `decode_cache_fetch` has chosen was begun at the address the entry is tagged with, not at the
    vector of an interrupt that was taken right after an earlier fetch. With the MMU cache, no
    `tlbr` changes the address space. -/
structure Unswerving (P : Platform D) (x : Machine D × Trail) : Prop where
  mapped : x.1.dc.nextOf x.1.dc.ds ≠ none → (x.2.site x.1.dc.ds).paddr = (P.site x.1).paddr
  turned : x.2.swerved = true → x.1.dc.nextOf x.1.dc.ds ≠ none →
    (x.2.site x.1.dc.ds).pc = x.1.cpu.pc
  begun : x.2.swerved = false → x.1.dc.nextOf x.1.dc.ds ≠ none → ∀ i, x.1.dc.ds = .head i →
    (x.2.site (.head i)).pc = (x.1.dc.heads i).pc
  tlbr : ∀ w, P.Remaps → executed P x.1 = some w → decoderGetHandler w = .tlbr →
    (x.1.tlb x.1.cpu.cp0.index.idx.toFin).asid = x.1.cpu.cp0.entryHi.asid

/-! ## The invariant -/

/-- Memory has `w` at the place. -/
def Site.Code (seen : List (Word × Word)) (x : Site) (w : Word) : Prop :=
  x.pc &&& 3 = 0 ∧ ∃ p, x.paddr = some p ∧ (p, w) ∈ seen

/-- Execution may go on at `y` after it executed `h` at `x`, with the decode states that were
    there before. -/
def Follows (x : Site) (h : Handler) (y : Site) : Prop :=
  h ≠ .eret ∧ (isLikely h = false → y.pc = x.pc + 4)

/-- Between two steps the chains are labelled by `site`. What was executed last goes on at `pc`,
    and unless it was diverted, so it did before; an array entry is then tagged with `pc`. -/
structure Rested (P : Platform D) (x : Machine D × Trail) : Prop where
  traced : Traced (Site.Code x.2.seen) Follows x.2.site False x.1.dc
  last : ∀ {p n d w}, x.1.dc.Reach p → x.1.dc.nextOf p = some n → x.1.dc.ds = .node n →
    x.1.dc.heap n = some d → d.Decodes w → Follows (x.2.site p) (decoderGetHandler w) (P.site x.1)
  next : x.2.swerved = false → x.1.dc.nextOf x.1.dc.ds ≠ none → x.1.dc.ds.isHead = false →
    (x.2.site x.1.dc.ds).pc = x.1.cpu.pc
  head : x.2.swerved = false → ∀ {i}, x.1.dc.ds = .head i → (x.1.dc.heads i).pc = x.1.cpu.pc
  hasException : x.1.cpu.hasException = false

theorem mem_noteFetch {P : Platform D} {s : Machine D} {seen : List (Word × Word)}
    {y : Word × Word} (hy : y ∈ seen) : y ∈ noteFetch P s seen := by
  unfold noteFetch
  split
  · exact List.mem_cons_of_mem _ hy
  · exact hy

theorem Site.Code.note {P : Platform D} {s : Machine D} {seen : List (Word × Word)} {x : Site}
    {w : Word} (h : x.Code seen w) : x.Code (noteFetch P s seen) w := by
  obtain ⟨ha, p, hp, hm⟩ := h
  exact ⟨ha, p, hp, mem_noteFetch hm⟩

/-- At the top of the loop the label of `ds` is where execution is. -/
theorem Rested.top {P : Platform D} {x : Machine D × Trail} (h : Rested P x)
    (hk : Unswerving P x) :
    Traced (Site.Code x.2.seen) Follows (Function.update x.2.site x.1.dc.ds (P.site x.1)) True
      x.1.dc := by
  refine h.traced.settle (fun hn => ?_) h.last
  have hpc : (x.2.site x.1.dc.ds).pc = (P.site x.1).pc := by
    cases hsw : x.2.swerved with
    | true => exact hk.turned hsw hn
    | false =>
      cases hds : x.1.dc.ds with
      | head i => exact (hk.begun hsw hn i hds).trans (h.head hsw hds)
      | node n =>
        rw [← hds]
        exact h.next hsw hn (by rw [hds]; rfl)
  have hmap := hk.mapped hn
  generalize x.2.site x.1.dc.ds = a at hpc hmap
  obtain ⟨pc, paddr⟩ := a
  obtain rfl : pc = (P.site x.1).pc := hpc
  obtain rfl : paddr = (P.site x.1).paddr := hmap
  rfl

/-! ## Before the exception check -/

/-- What an iteration that executed `h` leaves behind, before the exception check. -/
structure Landed (seen : List (Word × Word)) (label : Ptr → Site) (h : Handler)
    (s t : Machine D) : Prop where
  traced : Traced (Site.Code seen) Follows label False t.dc
  last : ∀ {p n d w}, t.dc.Reach p → t.dc.nextOf p = some n → t.dc.ds = .node n →
    t.dc.heap n = some d → d.Decodes w → t.cpu.hasException = false ∧
      ∀ y : Site, y.pc = t.cpu.pc → Follows (label p) (decoderGetHandler w) y
  next : t.dc.nextOf t.dc.ds ≠ none → Raises s t ∨ isLikely h = true ∨ t.dc.ds.isHead = true ∨
    t.cpu.hasException = false ∧ (label t.dc.ds).pc = t.cpu.pc
  head : ∀ {i}, t.dc.ds = .head i → Raises s t ∨
    (t.dc.heads i).pc = t.cpu.pc ∧ t.cpu.pc = t.cpu.brTarget
  raised : t.cpu.hasException = false → t.raised = s.raised

section Landing

variable {seen : List (Word × Word)} {label : Ptr → Site} {h : Handler} {s t : Machine D}

/-- An exception has flushed the cache. -/
theorem landed_raises {c : DecodeCache} (hdc : t.dc = c.clear)
    (htr : Traced (Site.Code seen) Follows label False t.dc) (hch : c.Chained)
    (hr : Raises s t) : Landed seen label h s t where
  traced := htr
  last := by
    intro p n d w hp hn hds _ _
    rw [hdc] at hp hn hds
    exact absurd hn (clear_unreached hch hds hp)
  next _ := .inl hr
  head _ := .inl hr
  raised he := by
    rw [hr.1] at he
    cases he

/-- `decode_cache_fetch` has brought `ds` to the array entry for `pc`. -/
theorem landed_head {c : DecodeCache} (htr : Traced (Site.Code seen) Follows label False t.dc)
    (hfet : Fetched t.cpu.pc c t.dc) (hpc : t.cpu.pc = t.cpu.brTarget)
    (hr : t.cpu.hasException = false → t.raised = s.raised) : Landed seen label h s t where
  traced := htr
  last := by
    intro p n d w _ _ hn _ _
    rw [hfet.ds] at hn
    cases hn
  next _ := .inr (.inr (.inl (by rw [hfet.ds]; rfl)))
  head hds := by
    rw [hfet.ds] at hds
    cases hds
    exact .inr ⟨hfet.pc, hpc⟩
  raised := hr

/-- `eret` has flushed the cache, and its own decode state has no successor. -/
theorem landed_eret {a : Site} {n : Nat} {d : DecodeState} {c : DecodeCache}
    (hdc : t.dc = c.clear) (ha : Active (Site.Code seen) Follows label a .eret n d c)
    (hr : t.cpu.hasException = true) : Landed seen label h s t where
  traced := by
    rw [hdc]
    exact ha.traced.clear
  last := by
    intro p m e w hp hm hds _ _
    rw [hdc] at hp hm hds
    exact absurd hm (clear_unreached ha.traced.chained hds hp)
  next := by
    intro hn
    rw [hdc, ha.clear.ds, nextOf_node ha.clear.heap] at hn
    exact absurd rfl (ha.next hn).1
  head hds := by
    rw [hdc, ha.clear.ds] at hds
    cases hds
  raised he := by
    rw [hr] at he
    cases he

/-- The handler went to the next instruction, or past its annulled slot. -/
theorem landed_active {a : Site} {n : Nat} {d : DecodeState}
    (ha : Active (Site.Code seen) Follows label a h n d t.dc) (hne : h ≠ .eret)
    (hx : t.cpu.hasException = false) (hr : t.raised = s.raised)
    (hpc : isLikely h = false → t.cpu.pc = a.pc + 4) : Landed seen label h s t where
  traced := ha.traced
  last := by
    intro p m e w hp hm hds he hdec
    obtain rfl : m = n := by
      rw [ha.ds] at hds
      exact (Ptr.node.inj hds).symm
    obtain rfl : e = d := Option.some.inj (he.symm.trans ha.heap)
    obtain rfl : h = decoderGetHandler w := Option.some.inj (ha.handler.symm.trans hdec.handler)
    refine ⟨hx, fun y hy => ⟨hne, fun hl => ?_⟩⟩
    rw [hy, ha.pred hp hm]
    exact hpc hl
  next := by
    intro hn
    rw [ha.ds, nextOf_node ha.heap] at hn
    cases hl : isLikely h with
    | true => exact .inr (.inl rfl)
    | false =>
      refine .inr (.inr (.inr ⟨hx, ?_⟩))
      rw [ha.ds, hpc hl]
      exact (ha.next hn).2 hl
  head hds := by
    rw [ha.ds] at hds
    cases hds
  raised _ := hr

end Landing

theorem swerves_false {P : Platform D} {s s' : Machine D} (h : swerves P s s' = false) :
    newRaised s s' = [] ∧
      ∀ w, executed P s = some w → isLikely (decoderGetHandler w) = false := by
  obtain ⟨hr, hl⟩ := Bool.or_eq_false_iff.1 h
  refine ⟨?_, fun w hw => ?_⟩
  · rw [Bool.not_eq_false'] at hr
    exact List.isEmpty_iff.1 hr
  · rw [hw] at hl
    exact hl

/-- Without an exception or an interrupt the check keeps `pc`; both leave a record, and an
    interrupt flushes the cache. -/
theorem settle_cases (P : Platform D) (t : Machine D) :
    (t.cpu.hasException = true ∧ (t.settle P).dc = t.dc ∧
      (t.settle P).cpu.pc = t.cpu.brTarget) ∨
    (t.cpu.hasException = false ∧ (t.settle P).dc = t.dc.clear ∧
      ∃ r, (t.settle P).raised = t.raised ++ [r]) ∨
    (t.cpu.hasException = false ∧ (t.settle P).dc = t.dc ∧ (t.settle P).cpu.pc = t.cpu.pc) := by
  cases he : t.cpu.hasException with
  | true =>
    have hs : t.settle P = t.enterVector := by rw [Machine.settle, if_pos he]
    exact .inl ⟨rfl, by rw [hs]; rfl, by rw [hs]; rfl⟩
  | false =>
    have hs : t.settle P = if (t.tick P).cpu.cp0.takesIntr then
        ((t.tick P).raise P ⟨.none, .INTR⟩).enterVector else t.tick P := by
      rw [Machine.settle, if_neg (by simp [he])]
    rw [hs]
    split
    · have hr := raised_raise P ⟨.none, .INTR⟩ (t.tick P)
      rw [raised_tick] at hr
      refine .inr (.inl ⟨rfl, ?_, _, hr⟩)
      change (t.tick P).dc.clear = t.dc.clear
      rw [dc_tick]
    · exact .inr (.inr ⟨rfl, dc_tick P t, pc_tick P t⟩)

/-- The exception check. -/
theorem Landed.rested {P : Platform D} {g : Trail} {s t : Machine D} {h : Handler}
    (hl : Landed (noteFetch P s g.seen) (Function.update g.site s.dc.ds (P.site s)) h s t)
    (hlikely : isLikely h = true →
      ∃ w, executed P s = some w ∧ isLikely (decoderGetHandler w) = true) :
    Rested P (t.settle P, g.after P s (t.settle P)) := by
  have hnext : swerves P s (t.settle P) = false → t.dc.nextOf t.dc.ds ≠ none →
      t.dc.ds.isHead = false → t.cpu.hasException = false ∧
        (Function.update g.site s.dc.ds (P.site s) t.dc.ds).pc = t.cpu.pc := by
    intro hsw hn hhead
    obtain ⟨hnew, hnl⟩ := swerves_false hsw
    obtain hr | hlk | hh | hgo := hl.next hn
    · exact absurd hnew (newRaised_of_raises hr)
    · obtain ⟨w, hw, hwl⟩ := hlikely hlk
      rw [hnl w hw] at hwl
      cases hwl
    · rw [hh] at hhead
      cases hhead
    · exact hgo
  have htag : swerves P s (t.settle P) = false → ∀ {i}, t.dc.ds = .head i →
      (t.dc.heads i).pc = t.cpu.pc ∧ t.cpu.pc = t.cpu.brTarget := by
    intro hsw i hds
    refine (hl.head hds).resolve_left fun hr => ?_
    exact absurd (swerves_false hsw).1 (newRaised_of_raises hr)
  obtain ⟨hx, hdc, hpc⟩ | ⟨hx, hdc, r, hr⟩ | ⟨hx, hdc, hpc⟩ := settle_cases P t
  · -- the exception vector, or the address that `eret` returns to
    refine ⟨by rw [hdc]; exact hl.traced, ?_, fun hsw hn hhead => ?_, fun hsw i hds => ?_,
      hasException_settle P t⟩
    · intro p n d w hp hn hds hd hdec
      rw [hdc] at hp hn hds hd
      have := (hl.last hp hn hds hd hdec).1
      rw [hx] at this
      cases this
    · simp only [hdc] at hn hhead
      have := (hnext hsw hn hhead).1
      rw [hx] at this
      cases this
    · simp only [hdc] at hds ⊢
      obtain ⟨htagged, hbr⟩ := htag hsw hds
      rw [hpc, htagged, hbr]
  · -- an interrupt
    have hnew : newRaised s (t.settle P) = [r] := newRaised_of_eq (by rw [hr, hl.raised hx])
    have hsw : swerves P s (t.settle P) ≠ false := by
      intro hsw
      rw [(swerves_false hsw).1] at hnew
      cases hnew
    refine ⟨by rw [hdc]; exact hl.traced.clear, ?_, fun h => absurd h hsw, fun h => absurd h hsw,
      hasException_settle P t⟩
    intro p n d w hp hn hds _ _
    rw [hdc] at hp hn hds
    exact absurd hn (clear_unreached hl.traced.chained hds hp)
  · refine ⟨by rw [hdc]; exact hl.traced, ?_, fun hsw hn hhead => ?_, fun hsw i hds => ?_,
      hasException_settle P t⟩
    · intro p n d w hp hn hds hd hdec
      rw [hdc] at hp hn hds hd
      exact (hl.last hp hn hds hd hdec).2 _ hpc
    · simp only [hdc] at hn hhead
      have h := (hnext hsw hn hhead).2
      rw [← hdc, ← hpc] at h
      exact h
    · simp only [hdc] at hds ⊢
      rw [hpc]
      exact (htag hsw hds).1

/-! ## The handler -/

def Body.isEret : Body → Bool
  | .eret => true
  | _ => false

theorem isEret_body (P : Platform D) (o : Ops) (h : Handler) :
    (body P o h).isEret = (h == .eret) := by
  cases h
  case mtc0 => simp only [body, mtc0]; split <;> rfl
  case inv => simp only [body, inv]; split <;> rfl
  case breakpoint => simp only [body, breakpoint]; split <;> rfl
  case cfc1 => simp only [body, cfc1]; split <;> rfl
  case srl => simp only [body, srl]; split <;> rfl
  case srlv => simp only [body, srlv]; split <;> rfl
  all_goals rfl

theorem hasException_eret (s : Machine D) : s.eret.cpu.hasException = true := by
  change s.cpu.eret.hasException = true
  unfold CpuState.eret
  split <;> rfl

theorem Raises.instEnd {s t : Machine D} (h : Raises s t) : Raises s t.instEnd :=
  ⟨(hasException_instEnd t).trans h.1, h.2⟩

theorem Sim.instEnd {P : Platform D} {s t : Machine D} (h : Sim P s t) :
    Sim P s.instEnd t.instEnd := by
  refine h.of_arch ?_ ⟨rfl, ?_, ?_⟩ rfl
  · exact congrArg (fun a : Arch D => { a with cpu :=
      if a.cpu.isDelayslot then { a.cpu with pc := a.cpu.brTarget, isDelayslot := false }
      else { a.cpu with pc := a.cpu.pc + 4 } }) h.arch
  · rw [cp0_instEnd]
  · rw [cp0_instEnd]

theorem Sim.withDc {P : Platform D} {s t : Machine D} (h : Sim P s t) (c : DecodeCache) :
    Sim P (s.withDc c) t :=
  ⟨h.arch, fun hm => (h.coherent hm).of_sameMapping ⟨rfl, rfl, rfl⟩ rfl⟩

section Handlers

variable {P : Platform D} (hx : P.cfg.exception = true) (hd : P.cfg.decodeCache = true)
  {seen : List (Word × Word)} {label : Ptr → Site} {h : Handler} {s : Machine D}
include hx hd

/-- `inst_end` in both builds. -/
theorem instEnd_lands {t v : Machine D} (hs : Sim P t v)
    (htr : Traced (Site.Code seen) Follows label False t.dc)
    (hr : t.cpu.hasException = false → t.raised = s.raised)
    (hnext : t.cpu.isDelayslot = false → Landed seen label h s t.instEnd) :
    EndRel (SameStop True) (fun t v => Sim P t v ∧ Landed seen label h s t) (instEnd P h t)
      (.ok () v.instEnd : EStateM.Result Stop (Machine D) Unit) := by
  cases hslot : t.cpu.isDelayslot with
  | false =>
    rw [instEnd_next hx h hslot]
    exact ⟨hs.instEnd, hnext hslot⟩
  | true =>
    obtain ⟨c, hf, htr', hfet⟩ := htr.fetch t.cpu.brTarget
    have hpc : t.instEnd.cpu.pc = t.cpu.brTarget := pc_instEnd_of_slot hslot
    have hbr : t.instEnd.cpu.brTarget = t.cpu.brTarget := by
      unfold Machine.instEnd
      rw [if_pos hslot]
    rw [instEnd_fetch hx hd h hslot hf]
    refine ⟨hs.instEnd.withDc c, landed_head (c := t.dc) htr' ?_ ?_ fun he => ?_⟩
    · change Fetched t.instEnd.cpu.pc t.dc c
      rw [hpc]
      exact hfet
    · exact hpc.trans hbr.symm
    · exact hr ((hasException_instEnd t).symm.trans he)

/-- The handler of an allowed word, and what follows it. -/
theorem dispatch_lands {a : Site} {n : Nat} {d : DecodeState} {w : Word} {o : Ops}
    {u s' u' : Machine D} (he : GoesTo P s u w o s' u') (hr : s'.raised = s.raised)
    (hs : s'.cpu.hasException = false)
    (ha : Active (Site.Code seen) Follows label a (decoderGetHandler w) n d s'.dc)
    (hpc : s'.cpu.pc = a.pc) (hop : Inst.op w ≠ 0x11) (hmov : decoderGetHandler w ≠ .movci)
    (ht : P.Remaps → decoderGetHandler w = .tlbr →
      (s'.tlb s'.cpu.cp0.index.idx.toFin).asid = s'.cpu.cp0.entryHi.asid) :
    EndRel (SameStop True) (fun t v => Sim P t v ∧ Landed seen label (decoderGetHandler w) s t)
      (dispatch P (decoderGetHandler w) o s')
      (dispatch P.plain (decoderGetHandler w) (Inst.ops w) u') := by
  obtain ⟨d₀, rfl⟩ := he.ops
  have hsame : SameOperands P w := (sameOperands_iff P w).2 ⟨hmov, fun h => absurd h hop⟩
  have hflow := exec_flow P (Inst.ops w) (handler_ne_bc1 hop) s'
  have hsim := exec_sim he.sim (h := decoderGetHandler w) (Inst.ops w) ht fun _ _ => trivial
  have hst := run_stopsBy hx hs (body_isInvEnd hx (Inst.ops w) (decoderGetHandler w))
  change StopsBy P _ s' (exec P (Inst.ops w) (decoderGetHandler w) s') at hst
  have hx' : P.plain.cfg.exception = true := hx
  rw [dispatch_apply hx' rfl]
  unfold dispatch
  rw [hsame.exec d₀]
  cases hxs : exec P (Inst.ops w) (decoderGetHandler w) s' with
  | ok _ t =>
    cases hxu : exec P.plain (Inst.ops w) (decoderGetHandler w) u' with
    | error e v => rw [hxs, hxu] at hsim; exact hsim.elim
    | ok _ v =>
      rw [hxs, hxu] at hsim
      rw [hxs] at hflow
      obtain ⟨hpc', hdc⟩ := hflow
      have hkept : Active (Site.Code seen) Follows label a (decoderGetHandler w) n d t.dc := by
        obtain hdc | hdc := hdc
        · rw [hdc]
          exact ha
        · rw [hdc]
          exact ha.clear
      simp only []
      obtain ⟨hb, ht⟩ | ⟨hq, hraised⟩ | ⟨hraise, hclear⟩ := run_returns hx hs
        (body_isInvEnd hx (Inst.ops w) (decoderGetHandler w)) hxs
      · have hret : decoderGetHandler w = .eret := by
          have hbody := isEret_body P (Inst.ops w) (decoderGetHandler w)
          rw [hb] at hbody
          exact beq_iff_eq.1 hbody.symm
        subst ht
        refine instEnd_lands hx hd hsim.2 hkept.traced (fun he => ?_) fun _ => ?_
        · rw [hasException_eret] at he
          cases he
        · refine landed_eret (a := a) (n := n) (d := d) (c := s'.dc) rfl (hret ▸ ha) ?_
          exact (hasException_instEnd _).trans (hasException_eret s')
      · refine instEnd_lands hx hd hsim.2 hkept.traced (fun _ => hraised.trans hr) fun hslot => ?_
        refine landed_active hkept (fun hret => ?_) ((hasException_instEnd t).trans hq)
          (hraised.trans hr) fun hl => ?_
        · rw [hret] at hxs
          cases hxs
          exact Bool.false_ne_true (hq.symm.trans (hasException_eret s'))
        · rw [pc_instEnd_of_not_slot hslot, hpc', hl, hpc]
          rfl
      · refine instEnd_lands hx hd hsim.2 hkept.traced (fun he => ?_) fun _ => ?_
        · rw [hraise.1] at he
          cases he
        · exact landed_raises (c := s'.dc) hclear hkept.traced ha.traced.chained
            (hraise.of_raised hr).instEnd
  | error e t =>
    cases hxu : exec P.plain (Inst.ops w) (decoderGetHandler w) u' with
    | ok _ v => rw [hxs, hxu] at hsim; exact hsim.elim
    | error e' v =>
      rw [hxs, hxu] at hsim
      rw [hxs] at hst
      obtain ⟨rfl | ⟨hover, rfl, rfl⟩, htv⟩ := hsim
      · cases e with
        | exit =>
          obtain ⟨-, r, bad, e, rfl⟩ := hst
          exact ⟨htv, landed_raises (c := s'.dc) rfl ha.clear.traced ha.traced.chained
            ((raises_raise e _).of_raised hr)⟩
        | delayslot =>
          obtain ⟨-, r, b, rfl⟩ := hst
          simp only []
          rw [enterDelayslot_apply hx]
          refine ⟨htv.of_arch ?_ ⟨rfl, rfl, rfl⟩ rfl, ?_⟩
          · exact congrArg (fun a : Arch D =>
              { a with cpu := { a.cpu with isDelayslot := true, pc := a.cpu.pc + 4 } }) htv.arch
          · refine landed_active ha (fun hret => ?_) hs hr fun _ => congrArg (· + 4) hpc
            rw [hret] at hxs
            cases hxs
        | halt why => exact sameStop_refl _
      · exact .inr ⟨hover, rfl, rfl⟩

end Handlers

/-! ## The entry -/

theorem paddr_of_translate {P : Platform D} {s : Machine D} {p : Word} {d : Bool}
    (h : P.translate s.toArch s.cpu.pc .load = .ok p d) : (P.site s).paddr = some p := by
  simp only [Platform.site, h]

theorem translate_of_paddr {P : Platform D} {s : Machine D} {p : Word}
    (h : (P.site s).paddr = some p) : ∃ d, P.translate s.toArch s.cpu.pc .load = .ok p d := by
  unfold Platform.site at h
  cases ht : P.translate s.toArch s.cpu.pc .load with
  | ok q d =>
    rw [ht] at h
    exact ⟨d, by rw [Option.some.inj h]⟩
  | fault f => rw [ht] at h; cases h
  | abort why => rw [ht] at h; cases h

section Entry

variable {P : Platform D} {s u : Machine D}

/-- A word that is still at its place is read from there. -/
theorem reads_of_holds (hs : Sim P s u) {p w : Word} (hp : (P.site s).paddr = some p)
    (hw : StillReads P s p w) : Reads P.plain u s.cpu.pc w := by
  obtain ⟨d, ht⟩ := translate_of_paddr hp
  obtain ⟨t, hread, harch⟩ := hw s.cpu.pc d
  have h0 := hs.zeroGpr
  have hsim : ResRel (SameStop True) (Sim P) (readPaddr P s.cpu.pc p d 4 s.zeroGpr)
      (readPaddr P.plain s.cpu.pc p d 4 u.zeroGpr) := readPaddr_sim h0 ht 4
  rw [hread] at hsim
  have ht' : P.plain.translate u.zeroGpr.toArch s.cpu.pc .load = .ok p d := by
    rw [← h0.arch]
    exact ht
  unfold Reads
  rw [vaddrRead_eq, if_neg (not_cached_plain .load _), ht']
  simp only []
  cases hu : readPaddr P.plain s.cpu.pc p d 4 u.zeroGpr with
  | error e v => rw [hu] at hsim; exact hsim.elim
  | ok w' v =>
    rw [hu] at hsim
    obtain ⟨rfl, htv⟩ := hsim
    exact ⟨v, rfl, by rw [← htv.arch, harch, h0.arch]⟩

/-- What was fetched came from somewhere. -/
theorem paddr_of_fetched (hs : Sim P s u) (hf : s.faultOf P .load s.cpu.pc = none) {w : Word}
    (hw : fetched P.plain u = some w) : ∃ p, (P.site s).paddr = some p := by
  obtain hc | hnf := faultOf_eq_none.1 hf
  · obtain ⟨p, d, dev, r, ht, -⟩ := cached_designates hs.coherent hc
    exact ⟨p, paddr_of_translate ht⟩
  · cases ht : P.translate s.toArch s.cpu.pc .load with
    | ok p d => exact ⟨p, paddr_of_translate ht⟩
    | fault f => exact absurd ht (hnf f)
    | abort why =>
      have ht' : P.plain.translate u.zeroGpr.toArch u.zeroGpr.cpu.pc .load = .abort why := by
        rw [← hs.zeroGpr.arch]
        exact ht
      have hfu : fetchInst P.plain u.zeroGpr = .error (.halt why) u.zeroGpr := by
        unfold fetchInst
        rw [bind_of_ok (getCpu_apply _), vaddrRead_eq, if_neg (not_cached_plain .load _), ht']
      unfold fetched at hw
      rw [hfu] at hw
      cases hw

theorem executed_of_fetched (hs : Sim P s u) (ha : s.cpu.pc &&& 3 = 0) {w : Word}
    (hw : fetched P.plain u = some w) : executed P s = some w := by
  rw [executed, if_pos ha, fetched_sim hs, hw]

end Entry

/-! ## One iteration -/

section Iteration

variable {P : Platform D} (hx : P.cfg.exception = true) (hd : P.cfg.decodeCache = true)
  {x : Machine D × Trail} {u : Machine D}
include hx hd

/-- An allowed word is executed, from a decode state that is labelled with its place. -/
theorem goesTo_lands {a : Site} {n : Nat} {d : DecodeState} {w : Word} {o : Ops}
    {s' u' : Machine D} (hs : x.1.cpu.hasException = false) (hg : GuestKeeps P x)
    (hk : Unswerving P x) (hw : executed P x.1 = some w) (ha : x.1.cpu.pc &&& 3 = 0)
    (he : GoesTo P x.1 u w o s' u') (hr : s'.raised = x.1.raised)
    (hact : Active (Site.Code (noteFetch P x.1 x.2.seen)) Follows
      (Function.update x.2.site x.1.dc.ds (P.site x.1)) a (decoderGetHandler w) n d s'.dc)
    (hpc : a.pc = x.1.cpu.pc) :
    EndRel (SameStop True) (fun t v => Sim P t v ∧ Landed (noteFetch P x.1 x.2.seen)
        (Function.update x.2.site x.1.dc.ds (P.site x.1)) (decoderGetHandler w) x.1 t)
      (dispatch P (decoderGetHandler w) o s')
      (dispatch P.plain (decoderGetHandler w) (Inst.ops w) u') := by
  have hen : Entered P x.1 (decoderGetHandler w) o s' := ⟨ha, he.cached, hr⟩
  obtain ⟨hop, hmov⟩ := hg.word w hw
  refine dispatch_lands hx hd he hr (hen.hasException.trans hs) hact (he.pc.trans hpc.symm) hop hmov
    fun hrem ht => ?_
  obtain ⟨y, mc, c, rfl⟩ := hen.access
  exact hk.tlbr w hrem hw ht

/-- The loop body up to the exception check. -/
theorem execInst_lands (hs : Sim P x.1 u) (hr : Rested P x) (hg : GuestKeeps P x)
    (hk : Unswerving P x) :
    ∃ h : Handler, (isLikely h = true →
        ∃ w, executed P x.1 = some w ∧ isLikely (decoderGetHandler w) = true) ∧
      EndRel (SameStop True) (fun t v => Sim P t v ∧ Landed (noteFetch P x.1 x.2.seen)
          (Function.update x.2.site x.1.dc.ds (P.site x.1)) h x.1 t)
        (execInst P x.1) (execInst P.plain u) := by
  have hx' : P.plain.cfg.exception = true := hx
  have hcpu := hs.cpu
  have htop := (hr.top hk).mono fun a w (hc : a.Code x.2.seen w) => hc.note (P := P) (s := x.1)
  by_cases ha : x.1.cpu.pc &&& 3 = 0
  · have ha' : u.cpu.pc &&& 3 = 0 := by rw [hcpu, ha]
    rw [execInst_of_aligned ha, execInst_of_aligned ha']
    cases hn : x.1.dc.nextOf x.1.dc.ds with
    | some n =>
      -- the successor decodes the word that is still there
      obtain ⟨d, w, -, hfol, hcode, hdec, hact⟩ := (hr.top hk).follow hn
      rw [Function.update_self] at hcode hact
      obtain ⟨-, p, hp, hmem⟩ := hcode
      have hreads := reads_of_holds hs hp (hg.kept _ hmem)
      have hw := executed_of_fetched hs ha (fetched_of_reads (hcpu ▸ hreads))
      obtain ⟨u', he⟩ := goesTo_follow hd hs hfol hdec hreads
      refine ⟨decoderGetHandler w, fun hl => ⟨w, hw, hl⟩, ?_⟩
      rw [bind_of_ok he.cached, bind_of_ok he.plain]
      exact goesTo_lands hx hd hr.hasException hg hk hw ha he rfl
        (hact.mono fun a w hc => hc.note) rfl
    | none =>
      cases hf : x.1.faultOf P .load x.1.cpu.pc with
      | some f =>
        -- the word 0 runs as a no-op, in a cache that was flushed
        obtain ⟨d, o, s', u', hderef, he, hraises, h0, hdc⟩ := goesTo_fault hd hs htop.live hn hf
        have hgrown := grown_fill htop.chained htop.live hderef (P.malloc x.1.dc.brk) 0
        have hfresh := filled_next (P.malloc x.1.dc.brk) 0
        have hchained := hgrown.chained htop.chained htop.live hfresh
        have hact : Active (Site.Code (noteFetch P x.1 x.2.seen)) Follows
            (Function.update x.2.site x.1.dc.ds (P.site x.1)) (P.site x.1) .sll x.1.dc.brk
            (filled (P.malloc x.1.dc.brk) 0) s'.dc := by
          rw [hdc]
          exact active_clear hchained hgrown.dsLive hgrown.ds hgrown.fresh rfl hfresh
        have hu0 : u'.cpu.gpr 0 = 0 := by rw [he.sim.cpu]; exact h0
        obtain ⟨d₀, rfl⟩ := he.ops
        have hexec : exec P (decoderSetState d₀ 0).ops .sll s' = .ok () s' :=
          exec_zero h0 ⟨rfl, rfl, rfl, rfl⟩
        have hexec' : exec P.plain (Inst.ops 0) .sll u' = .ok () u' :=
          exec_zero hu0 ⟨rfl, rfl, rfl, rfl⟩
        refine ⟨.sll, fun h => absurd h (by decide), ?_⟩
        rw [bind_of_ok he.cached, bind_of_ok he.plain]
        change EndRel _ _ (dispatch P .sll (decoderSetState d₀ 0).ops s')
          (dispatch P.plain .sll (Inst.ops 0) u')
        rw [dispatch_apply hx' rfl, hexec', dispatch, hexec]
        refine instEnd_lands hx hd he.sim hact.traced (fun hfalse => ?_) fun _ => ?_
        · rw [hraises.1] at hfalse
          cases hfalse
        · exact landed_raises (c := P.grown x.1.dc d 0) hdc hact.traced hchained hraises.instEnd
      | none =>
        obtain ⟨e, e', t, t', hms, hmu, hstop⟩ |
            ⟨d, w, o, s', u', hderef, hfet, he, hraised, hdc⟩ := goesTo_fetch hd hs htop.live hn hf
        · rw [bind_of_error hms, bind_of_error hmu]
          exact ⟨.sll, fun h => absurd h (by decide), hstop⟩
        · have hw := executed_of_fetched hs ha hfet
          obtain ⟨p, hp⟩ := paddr_of_fetched hs hf hfet
          have hcode : (P.site x.1).Code (noteFetch P x.1 x.2.seen) w := by
            refine ⟨ha, p, hp, ?_⟩
            rw [noteFetch, hp, hw]
            exact List.mem_cons_self ..
          have hact := htop.grow (grown_fill htop.chained htop.live hderef (P.malloc x.1.dc.brk) w)
            (filled_next _ w) (by rw [Function.update_self]; exact hcode) (filled_decodes _ w)
          rw [← Platform.grown, ← hdc, Function.update_self] at hact
          refine ⟨decoderGetHandler w, fun hl => ⟨w, hw, hl⟩, ?_⟩
          rw [bind_of_ok he.cached, bind_of_ok he.plain]
          exact goesTo_lands hx hd hr.hasException hg hk hw ha he hraised hact rfl
  · have ha' : u.cpu.pc &&& 3 ≠ 0 := by rw [hcpu]; exact ha
    rw [execInst_of_misaligned hx ha, execInst_of_misaligned hx' ha', hcpu]
    have hb : Sim P (x.1.setBadvaddr x.1.cpu.pc) (u.setBadvaddr x.1.cpu.pc) := by
      refine hs.of_arch ?_ ⟨rfl, rfl, rfl⟩ rfl
      exact congrArg (fun a : Arch D =>
        { a with cpu := { a.cpu with cp0 := { a.cpu.cp0 with badvaddr := x.1.cpu.pc } } }) hs.arch
    refine ⟨.sll, fun h => absurd h (by decide), sim_raise hb _, ?_⟩
    exact landed_raises (c := x.1.dc) rfl htop.clear htop.chained
      (raises_raise ⟨.none, .AdEL⟩ (x.1.setBadvaddr x.1.cpu.pc))

/-- One iteration of both builds. -/
theorem iteration_replay (hs : Sim P x.1 u) (hr : Rested P x) (hg : GuestKeeps P x)
    (hk : Unswerving P x) :
    EndRel (SameStop True) (fun s v => Sim P s v ∧ Rested P (s, x.2.after P x.1 s))
      (iteration P x.1) (iteration P.plain u) := by
  have hx' : P.plain.cfg.exception = true := hx
  obtain ⟨h, hlikely, hrel⟩ := execInst_lands hx hd hs hr hg hk
  rw [iteration_apply hx, iteration_apply hx']
  cases hes : execInst P x.1 with
  | ok _ t =>
    cases heu : execInst P.plain u with
    | ok _ v =>
      rw [hes, heu] at hrel
      obtain ⟨htv, hl⟩ := hrel
      have hcheck : ResRel (SameStop True) (Sim P) (checkException P t)
          (checkException P.plain v) := checkException_sim t v htv
      rw [checkException_apply hx, checkException_apply hx'] at hcheck
      exact ⟨hcheck.2, hl.rested hlikely⟩
    | error e v => rw [hes, heu] at hrel; exact hrel.elim
  | error e t =>
    cases heu : execInst P.plain u with
    | ok _ v => rw [hes, heu] at hrel; exact hrel.elim
    | error e' v => rw [hes, heu] at hrel; exact hrel

end Iteration

/-! ## Runs -/

/-- The cached build with its history, and the reference: both have a machine without caches in
    the same architectural state. -/
def ReplayRel (P : Platform D) (x : Machine D × Trail) (t : Machine D) : Prop :=
  ∃ u, Sim P.uncached t u ∧ Sim P x.1 u ∧ Rested P x

/-- The guest keeps its code, and the run does not swerve. -/
def ReplayStep (P : Platform D) (x : Machine D × Trail) (i : Input D) : Prop :=
  i = .iterate → GuestKeeps P x ∧ Unswerving P x

section Runs

variable {P : Platform D} {x : Machine D × Trail} {t u : Machine D}

theorem Rested.host (h : Rested P x) (f : DevCtx D → DevCtx D) :
    Rested P ({ x.1 with toArch := x.1.putDev (f x.1.devCtx) }, x.2) :=
  ⟨h.traced, h.last, h.next, h.head, h.hasException⟩

/-- The word behind a `tlbr` that was entered. -/
theorem fetched_of_entered (hd : P.cfg.decodeCache = false) {s s' : Machine D} {h : Handler}
    {o : Ops} (he : Entered P s h o s') : ∃ w, fetched P s = some w ∧ decoderGetHandler w = h := by
  have hentry := he.entry
  unfold makeEntry at hentry
  rw [bind_of_ok (modifyRegs_apply s _), if_neg (by simp [hd])] at hentry
  obtain ⟨w, v, hw, hr⟩ := bind_eq_ok hentry
  cases hr
  refine ⟨w, ?_, rfl⟩
  have hf : fetchInst P s.zeroGpr = .ok w s' := hw
  rw [fetched, hf]
  rfl

theorem not_staleTlbr (htu : Sim P.uncached t u) (hsu : Sim P x.1 u) (hk : Unswerving P x) :
    P.uncached.Remaps → ¬ StaleTlbr P.uncached t := by
  rintro hrem ⟨⟨o, v, he⟩, hne⟩
  have harch : t.toArch = x.1.toArch := htu.arch.trans hsu.arch.symm
  obtain ⟨w, hw, htlbr⟩ := fetched_of_entered rfl he
  have ha : x.1.cpu.pc &&& 3 = 0 := by
    rw [← harch]
    exact he.aligned
  have hex := executed_of_fetched hsu ha ((fetched_sim htu).symm.trans hw)
  rw [harch] at hne
  exact hne (hk.tlbr w hrem hex htlbr)

variable (hd : P.cfg.decodeCache = true)
include hd

theorem enter_replay (h : ReplayRel P x t) :
    StepRel SameEnd (ReplayRel P) (trailStep P x .enter) (stop P x.1 .enter)
      (step P.uncached t .enter) (stop P.uncached t .enter) := by
  obtain ⟨u, htu, hsu, hr⟩ := h
  obtain ⟨c, hfetch, htr, hfet⟩ := hr.traced.fetch x.1.cpu.pc
  have henter : enterLoop P x.1 = .ok () (Machine.withDc c { x.1 with nemuState := .running }) := by
    unfold enterLoop setNemuState
    rw [bind_of_ok (modifyArch_apply x.1 _), if_pos hd, bind_of_ok (getCpu_apply _)]
    exact onDecodeCache_of_some (by rw [hfetch]; rfl)
  simp only [trailStep, step, stop, henter]
  refine ⟨⟨{ u with nemuState := .running }, htu.running, hsu.running.withDc c, htr, ?_, ?_, ?_,
    hr.hasException⟩, trivial⟩
  · intro p n d w _ _ hn _ _
    have hds' : c.ds = .node n := hn
    rw [hfet.ds] at hds'
    cases hds'
  · intro _ _ hhead
    have hhead' : c.ds.isHead = false := hhead
    rw [hfet.ds] at hhead'
    cases hhead'
  · intro _ i hds
    have hds' : c.ds = .head i := hds
    rw [hfet.ds] at hds'
    cases hds'
    exact hfet.pc

theorem step_replay (hx : P.cfg.exception = true) {i : Input D} (h : ReplayRel P x t)
    (hok : ReplayStep P x i) :
    StepRel SameEnd (ReplayRel P) (trailStep P x i) (stop P x.1 i) (step P.uncached t i)
      (stop P.uncached t i) := by
  cases i with
  | enter => exact enter_replay hd h
  | host f =>
    obtain ⟨u, htu, hsu, hr⟩ := h
    exact ⟨⟨_, htu.host f, hsu.host f, hr.host f⟩, trivial⟩
  | iterate =>
    obtain ⟨u, htu, hsu, hr⟩ := h
    obtain ⟨hg, hk⟩ := hok rfl
    have href := (iteration_sim (P := P.uncached) rfl hx htu (not_staleTlbr htu hsu hk)
      fun _ => trivial).endRel
    have hiter := iteration_replay hx hd hsu hr hg hk
    have hjoin := hiter.join href fun _ _ _ => sameEnd_of_sameStop
    simp only [trailStep, step, stop]
    cases hs : iteration P x.1 with
    | ok _ s' =>
      cases ht : iteration P.uncached t with
      | ok _ t' =>
        rw [hs, ht] at hjoin
        obtain ⟨v, ⟨hsv, hr'⟩, htv⟩ := hjoin
        exact ⟨⟨v, htv, hsv, hr'⟩, trivial⟩
      | error e t' => rw [hs, ht] at hjoin; exact hjoin.elim
    | error e s' =>
      cases ht : iteration P.uncached t with
      | ok _ t' => rw [hs, ht] at hjoin; exact hjoin.elim
      | error e' t' =>
        rw [hs, ht] at hjoin
        exact ⟨trivial, hjoin⟩

omit hd in
theorem ReplayRel.arch (h : ReplayRel P x t) : x.1.toArch = t.toArch := by
  obtain ⟨u, htu, hxu, -⟩ := h
  exact hxu.arch.trans htu.arch.symm

omit hd in
/-- At an iteration the successor of `ds` is the right one. -/
theorem Rested.chainExact (hs : Sim P x.1 u) (hr : Rested P x) (hg : GuestKeeps P x)
    (hk : Unswerving P x) : ChainExact P x.1 := by
  intro n hn
  obtain ⟨d, w, hheap, -, hcode, hdec, -⟩ := (hr.top hk).follow hn
  rw [Function.update_self] at hcode
  obtain ⟨ha, p, hp, hmem⟩ := hcode
  have hreads := reads_of_holds hs hp (hg.kept _ hmem)
  obtain ⟨hop, hmov⟩ :=
    hg.word w (executed_of_fetched hs ha (fetched_of_reads (hs.cpu ▸ hreads)))
  have hsame : SameOperands P w := (sameOperands_iff P w).2 ⟨hmov, fun h => absurd h hop⟩
  obtain ⟨d₀, hget⟩ := hdec.get
  refine ⟨d, w, hheap, (reads_sim hs _ w).2 hreads, hdec.handler, fun f hf => ?_⟩
  rw [hget]
  exact hsame.stored d₀ f hf

end Runs

/-- The history does not influence the run. -/
theorem trailStep_fst (P : Platform D) (x : Machine D × Trail) (i : Input D) :
    OptRel (fun y s => y.1 = s) (trailStep P x i) (step P x.1 i) := by
  unfold trailStep
  cases step P x.1 i with
  | none => trivial
  | some s' => cases i <;> rfl

/-- The run without the history. -/
theorem trailStep_replay {P : Platform D} (hd : P.cfg.decodeCache = true)
    (hx : P.cfg.exception = true) {x : Machine D × Trail} {t : Machine D} {i : Input D}
    (h : ReplayRel P x t) (hok : ReplayStep P x i) :
    OptRel (fun y s => y.1 = s ∧ ∃ t, ReplayRel P y t) (trailStep P x i) (step P x.1 i) := by
  have hfst := trailStep_fst P x i
  have hrel := (step_replay hd hx h hok).state
  cases hy : trailStep P x i with
  | none =>
    rw [hy] at hfst
    cases hs : step P x.1 i with
    | none => trivial
    | some s => rw [hs] at hfst; exact hfst.elim
  | some y =>
    rw [hy] at hfst hrel
    cases hs : step P x.1 i with
    | none => rw [hs] at hfst; exact hfst.elim
    | some s =>
      rw [hs] at hfst
      cases ht : step P.uncached t i with
      | none => rw [ht] at hrel; exact hrel.elim
      | some t' =>
        rw [ht] at hrel
        exact ⟨hfst, t', hrel⟩

theorem ending_trailStep (P : Platform D) (x : Machine D × Trail) (is : List (Input D)) :
    ending (trailStep P) (fun x i => stop P x.1 i) x is = ending (step P) (stop P) x.1 is := by
  induction is generalizing x with
  | nil => rfl
  | cons i is ih =>
    simp only [ending, trailStep]
    cases hi : step P x.1 i with
    | none => rfl
    | some s' => cases i <;> exact ih _

theorem rested_reset {P : Platform D} {ram : Memory} {dev : D} {entry : Word}
    {cmdline : List (BitVec 8)} (hc : CmdlineUnmapped P.cfg cmdline) {s : Machine D}
    (h : initCpu P entry cmdline (Machine.boot ram dev) = .ok () s) :
    Rested P (s, Trail.start) := by
  have hdc := dc_initCpu h
  have hnext : s.dc.nextOf s.dc.ds = none := by
    rw [hdc]
    rfl
  refine ⟨?_, fun _ _ hds _ _ => ?_, fun _ hn => absurd hnext hn, nofun, ?_⟩
  · simp only [hdc]
    exact traced_empty (fun _ => rfl) (fun _ => rfl) ⟨0, rfl⟩
  · simp only [hdc] at hds
    cases hds
  · exact (initCpu_idle P entry hc _ _ _ ⟨rfl, rfl⟩ h).hasException

/-- The word lies in a RAM device. -/
def inRam (P : Platform D) (s : Machine D) (y : Word × Word) : Bool :=
  match P.findDevice y.1 with
  | some dev =>
    match dev.name.ram with
    | some r =>
      checkIoaddr ((y.1 &&& ~~~0xFFF) - dev.start) 0 r.size &&
        checkIoaddr (y.1 - dev.start) 4 r.size &&
        loadBytes (s.ram r) (y.1 - dev.start) 4 == y.2
    | none => false
  | none => false

theorem stillReads_of_inRam {P : Platform D} {s : Machine D} {y : Word × Word}
    (h : inRam P s y = true) : StillReads P s y.1 y.2 := by
  intro v d
  unfold inRam at h
  cases hdev : P.findDevice y.1 with
  | none => rw [hdev] at h; cases h
  | some dev =>
    simp only [hdev] at h
    cases hr : dev.name.ram with
    | none => rw [hr] at h; cases h
    | some r =>
      simp only [hr, Bool.and_eq_true, beq_iff_eq] at h
      obtain ⟨⟨hpage, hc⟩, hw⟩ := h
      obtain ⟨mc, hread⟩ := readPaddr_of_ram hdev hr hpage hc v d s.zeroGpr
      refine ⟨{ s.zeroGpr with mmuCache := mc }, hread.trans ?_, rfl⟩
      exact congrArg (fun w => EStateM.Result.ok w _) hw

/-- `GuestKeeps` for a guest in RAM. -/
def keepsOk (P : Platform D) (x : Machine D × Trail) : Bool :=
  x.2.seen.all (inRam P x.1) &&
    (executed P x.1).all fun w => Inst.op w != 0x11 && decoderGetHandler w != .movci

theorem guestKeeps_of_ok {P : Platform D} {x : Machine D × Trail} (h : keepsOk P x = true) :
    GuestKeeps P x := by
  simp only [keepsOk, Bool.and_eq_true, List.all_eq_true] at h
  obtain ⟨hseen, hword⟩ := h
  refine ⟨fun y hy => stillReads_of_inRam (hseen y hy), fun w hw => ?_⟩
  rw [hw] at hword
  simpa using hword

/-- `ReplayStep` for a guest in RAM without `tlbr`. -/
def replayOk (P : Platform D) (x : Machine D × Trail) : Bool :=
  let c := x.1.dc
  keepsOk P x && (executed P x.1).all (fun w => decoderGetHandler w != .tlbr) &&
    ((c.nextOf c.ds).isNone ||
      (x.2.site c.ds).paddr == (P.site x.1).paddr &&
        (if x.2.swerved then (x.2.site c.ds).pc == x.1.cpu.pc
        else match c.ds with
          | .head i => (x.2.site (.head i)).pc == (c.heads i).pc
          | .node _ => true))

theorem replayStep_of_ok {P : Platform D} {x : Machine D × Trail} (h : replayOk P x = true)
    (i : Input D) : ReplayStep P x i := by
  intro _
  simp only [replayOk, Bool.and_eq_true, Bool.or_eq_true, beq_iff_eq,
    Option.isNone_iff_eq_none] at h
  obtain ⟨⟨hkeeps, htlbr⟩, hnext⟩ := h
  refine ⟨guestKeeps_of_ok hkeeps, fun hn => (hnext.resolve_left hn).1, fun hs hn => ?_,
    fun hs hn i hds => ?_, fun w _ hw ht => ?_⟩
  · have hpc := (hnext.resolve_left hn).2
    rw [hs] at hpc
    exact beq_iff_eq.1 hpc
  · have hpc := (hnext.resolve_left hn).2
    rw [hs, hds] at hpc
    exact beq_iff_eq.1 hpc
  · rw [hw] at htlbr
    simp [ht] at htlbr

/-- `mips32r1_defconfig` with the decode cache, without its memory-mapped devices. -/
def replayed : Platform Unit := ramPlatform (buildOf .mips32R1 false true)

/-- Twice around a loop with a delay slot, and a system call. -/
def loopDemo : Memory := image [0x24210001, 0x28220002, 0x1440FFFD, 0x0, 0xC]

/-- `beql $1, $0` to itself with `addiu $1, $1, 1` in its slot. -/
def likelyDemo : Memory := image [0x5020FFFF, 0x24210001]

end NemuMips32
