/-
  Labels for the chains of the decode cache. `make_entry` goes to the successor of `ds` without
  looking at `pc`, so every pointer stands for the place its successor was decoded at: an array
  entry for where its chain was begun, a malloc'd state for where execution went on after it.

  `Traced` says that the states that can still be reached agree with such labels, which may be
  of any type. It holds at the top of the loop (`top`) and, except for the state that is being
  executed, within an iteration (`Active`); entering a state, growing a chain,
  `clear_decode_cache` and `decode_cache_fetch` keep it. The label of `ds` changes where `ds`
  comes to rest (`Traced.settle`): it becomes where execution goes on, which has to be the old
  label if there is a successor.

  Where every chain was begun at the address its array entry is tagged with (`Tagged`), the
  comparison that `decode_cache_fetch` makes is enough for that (`Traced.arrive`).
-/
import NemuMips32.DecodeChain
import NemuMips32.Operands

namespace NemuMips32

open Chain

/-! ## Reachable states -/

/-- The array entries, and what `ds` points to. -/
def DecodeCache.Root (c : DecodeCache) (p : Ptr) : Prop := (∃ i, p = .head i) ∨ p = c.ds

def DecodeCache.Reach (c : DecodeCache) : Ptr → Prop := Chain.Reach Ptr.node c.nextOf c.Root

/-- `c'` has lost pointers of `c`, and `ds` may have moved along one. -/
structure Shrinks (c c' : DecodeCache) : Prop where
  heads : ∀ {i n}, (c'.heads i).next = some n →
    (c.heads i).next = some n ∧ (c.heads i).pc = (c'.heads i).pc
  heap : ∀ {n d}, c'.heap n = some d → c.heap n = some d
  ds : c.Reach c'.ds

variable {c c' : DecodeCache}

theorem nextOf_node_iff {n m : Nat} :
    c.nextOf (.node n) = some m ↔ ∃ d, c.heap n = some d ∧ d.next = some m := by
  unfold DecodeCache.nextOf DecodeCache.deref
  exact Option.bind_eq_some_iff

theorem Shrinks.nextOf (h : Shrinks c c') {p : Ptr} {n : Nat} (hp : c'.nextOf p = some n) :
    c.nextOf p = some n := by
  cases p with
  | head i => exact (h.heads hp).1
  | node m =>
    obtain ⟨d, hd, hn⟩ := nextOf_node_iff.1 hp
    exact nextOf_node_iff.2 ⟨d, h.heap hd, hn⟩

theorem Shrinks.reach (h : Shrinks c c') {p : Ptr} (hp : c'.Reach p) : c.Reach p := by
  refine Reach.mono hp (fun q hq => ?_) fun _ _ => h.nextOf
  obtain ⟨i, rfl⟩ | rfl := hq
  · exact .root (.inl ⟨i, rfl⟩)
  · exact h.ds

/-! ## Labels -/

/-- The state holds what `w` decodes to. -/
def DecodeState.Decodes (d : DecodeState) (w : Word) : Prop :=
  ∃ d₀, d = { decoderSetState d₀ w with handler := some (decoderGetHandler w), next := d.next }

theorem DecodeState.Decodes.handler {d : DecodeState} {w : Word} (h : d.Decodes w) :
    d.handler = some (decoderGetHandler w) := by
  obtain ⟨d₀, hd⟩ := h
  rw [hd]

theorem DecodeState.Decodes.ops {d : DecodeState} {w : Word} (h : d.Decodes w) :
    ∃ d₀, d.ops = (decoderSetState d₀ w).ops := by
  obtain ⟨d₀, hd⟩ := h
  exact ⟨d₀, by rw [hd]; rfl⟩

theorem DecodeState.Decodes.get {d : DecodeState} {w : Word} (h : d.Decodes w) :
    ∃ d₀, ∀ f, d.get f = (decoderSetState d₀ w).get f := by
  obtain ⟨d₀, hd⟩ := h
  refine ⟨d₀, fun f => ?_⟩
  rw [hd]
  cases f <;> rfl

variable {L : Type} {code code' : L → Word → Prop} {follows : L → Handler → L → Prop}
  {label : Ptr → L} {top : Prop}

/-- The states behind the reachable pointers decode the words that `code` has at their labels,
    and where one has a successor, or is the last one executed, its label `follows`. -/
structure Traced (code : L → Word → Prop) (follows : L → Handler → L → Prop) (label : Ptr → L)
    (top : Prop) (c : DecodeCache) : Prop where
  chained : c.Chained
  live : c.DsLive
  node : ∀ {p n d}, c.Reach p → c.nextOf p = some n → c.heap n = some d →
    ∃ w, code (label p) w ∧ d.Decodes w ∧
      (d.next ≠ none ∨ top ∧ c.ds = .node n →
        follows (label p) (decoderGetHandler w) (label (.node n)))

/-- `ds` is at a state with label `a` and handler `h`, which is being executed. -/
structure Active (code : L → Word → Prop) (follows : L → Handler → L → Prop) (label : Ptr → L)
    (a : L) (h : Handler) (n : Nat) (d : DecodeState) (c : DecodeCache) : Prop where
  traced : Traced code follows label False c
  ds : c.ds = .node n
  heap : c.heap n = some d
  handler : d.handler = some h
  pred : ∀ {p}, c.Reach p → c.nextOf p = some n → label p = a
  next : d.next ≠ none → follows a h (label (.node n))

theorem Traced.mono (h : Traced code follows label top c) (hc : ∀ a w, code a w → code' a w) :
    Traced code' follows label top c := by
  refine ⟨h.chained, h.live, fun hp hn hd => ?_⟩
  obtain ⟨w, hw, hdec, hf⟩ := h.node hp hn hd
  exact ⟨w, hc _ _ hw, hdec, hf⟩

theorem Active.mono {a : L} {h : Handler} {n : Nat} {d : DecodeState}
    (ha : Active code follows label a h n d c) (hc : ∀ a w, code a w → code' a w) :
    Active code' follows label a h n d c :=
  ⟨ha.traced.mono hc, ha.ds, ha.heap, ha.handler, ha.pred, ha.next⟩

theorem Traced.shrink (h : Traced code follows label top c) (hs : Shrinks c c')
    (hch : c'.Chained) (hl : c'.DsLive) : Traced code follows label False c' := by
  refine ⟨hch, hl, fun {p n d} hp hn hd => ?_⟩
  obtain ⟨w, hw, hdec, hf⟩ := h.node (hs.reach hp) (hs.nextOf hn) (hs.heap hd)
  refine ⟨w, hw, hdec, fun hnext => hf (.inl ?_)⟩
  obtain hnext | ⟨hfalse, -⟩ := hnext
  · exact hnext
  · exact hfalse.elim

/-! ## Flushing and fetching -/

theorem shrinks_clear (c : DecodeCache) : Shrinks c c.clear where
  heads h := by cases h
  heap h := h
  ds := .root (.inr rfl)

theorem Fetched.shrinks {pc : Word} (hf : Fetched pc c c') : Shrinks c c' where
  heads := by
    intro i n hn
    obtain h | h := hf.heads i
    · rw [h] at hn
      exact ⟨hn, by rw [h]⟩
    · rw [h] at hn
      cases hn
  heap := by
    intro n d hd
    obtain h | h := hf.heap n
    · rw [← h, hd]
    · rw [h] at hd
      cases hd
  ds := .root (.inl ⟨_, hf.ds⟩)

theorem Traced.clear (h : Traced code follows label top c) :
    Traced code follows label False c.clear :=
  h.shrink (shrinks_clear c) (chained_clear h.chained) h.live

/-- In a flushed cache nothing that can be reached leads to `ds`. -/
theorem clear_unreached (h : c.Chained) {n : Nat} (hds : c.ds = .node n) {p : Ptr}
    (hp : c.clear.Reach p) : c.clear.nextOf p ≠ some n := by
  have hge : (∃ i, p = .head i) ∨ ∃ m, p = .node m ∧ n ≤ m := by
    induction hp with
    | root hr =>
      obtain ⟨i, rfl⟩ | rfl := hr
      · exact .inl ⟨i, rfl⟩
      · exact .inr ⟨n, hds, Nat.le_refl n⟩
    | @next q m _ hq ih =>
      obtain ⟨i, rfl⟩ | ⟨k, rfl, hk⟩ := ih
      · cases hq
      · exact .inr ⟨m, rfl, Nat.le_trans hk (Nat.le_of_lt ((chained_clear h).lt_next hq))⟩
  obtain ⟨i, rfl⟩ | ⟨m, rfl, hm⟩ := hge
  · exact fun hn => by cases hn
  · exact fun hn => absurd ((chained_clear h).lt_next hn) (by omega)

theorem Active.clear {a : L} {h : Handler} {n : Nat} {d : DecodeState}
    (ha : Active code follows label a h n d c) : Active code follows label a h n d c.clear where
  traced := ha.traced.clear
  ds := ha.ds
  heap := ha.heap
  handler := ha.handler
  pred hp hn := absurd hn (clear_unreached ha.traced.chained ha.ds hp)
  next := ha.next

/-- `decode_cache_fetch` puts `ds` at the entry for `pc`. -/
theorem Traced.fetch (h : Traced code follows label top c) (pc : Word) :
    ∃ c', c.fetch pc = some c' ∧ Traced code follows label False c' ∧ Fetched pc c c' := by
  obtain ⟨c', hf, hfet⟩ := fetch_chained h.chained pc
  refine ⟨c', hf, h.shrink hfet.shrinks hfet.chained fun n hn => ?_, hfet⟩
  rw [hfet.ds] at hn
  cases hn

/-! ## Coming to rest -/

/-- Execution goes on at `l` behind `ds`. -/
theorem Traced.settle (h : Traced code follows label False c) {l : L}
    (hsame : c.nextOf c.ds ≠ none → label c.ds = l)
    (hf : ∀ {p n d w}, c.Reach p → c.nextOf p = some n → c.ds = .node n → c.heap n = some d →
      d.Decodes w → follows (label p) (decoderGetHandler w) l) :
    Traced code follows (Function.update label c.ds l) True c := by
  have hkept : ∀ {p n}, c.nextOf p = some n → Function.update label c.ds l p = label p := by
    intro p n hp
    by_cases hpd : p = c.ds
    · subst hpd
      rw [Function.update_self, hsame (by rw [hp]; exact Option.some_ne_none n)]
    · exact Function.update_of_ne hpd _ _
  refine ⟨h.chained, h.live, fun {p n d} hp hn hd => ?_⟩
  rw [hkept hn]
  obtain ⟨w, hw, hdec, hfol⟩ := h.node hp hn hd
  refine ⟨w, hw, hdec, fun hnext => ?_⟩
  by_cases hds : c.ds = .node n
  · rw [← hds, Function.update_self]
    exact hf hp hn hds hd hdec
  · rw [Function.update_of_ne (Ne.symm hds)]
    obtain hnext | ⟨-, hds'⟩ := hnext
    · exact hfol (.inl hnext)
    · exact absurd hds' hds

/-- Execution goes on at `l` behind the state. -/
theorem Active.goOn {a l : L} {h : Handler} {n : Nat} {d : DecodeState}
    (ha : Active code follows label a h n d c) (hf : follows a h l)
    (hsame : d.next ≠ none → label (.node n) = l) :
    Traced code follows (Function.update label c.ds l) True c := by
  refine ha.traced.settle (fun hn => ?_) fun {p m e w} hp hm hds he hdec => ?_
  · rw [ha.ds, nextOf_node ha.heap] at hn
    rw [ha.ds, hsame hn]
  · obtain rfl : m = n := by
      rw [ha.ds] at hds
      exact (Ptr.node.inj hds).symm
    obtain rfl : e = d := Option.some.inj (he.symm.trans ha.heap)
    obtain rfl : h = decoderGetHandler w := Option.some.inj (ha.handler.symm.trans hdec.handler)
    rw [ha.pred hp hm]
    exact hf

/-! ## Entering a state -/

/-- `ds` moves to a successor that exists. -/
theorem Traced.follow (h : Traced code follows label True c) {n : Nat}
    (hn : c.nextOf c.ds = some n) :
    ∃ d w, c.heap n = some d ∧ c.follow = some (some d, { c with ds := .node n }) ∧
      code (label c.ds) w ∧ d.Decodes w ∧
      Active code follows label (label c.ds) (decoderGetHandler w) n d
        { c with ds := .node n } := by
  have hlive : c.Live n := h.chained.live_of_next hn
  obtain ⟨d, hd⟩ := heap_of_live hlive
  obtain ⟨w, hw, hdec, hfol⟩ := h.node (.root (.inr rfl)) hn hd
  obtain ⟨d₁, hd₁, hn₁⟩ := Option.bind_eq_some_iff.1 hn
  have hs : Shrinks c { c with ds := .node n } :=
    ⟨fun hi => ⟨hi, rfl⟩, fun hh => hh, .next (.root (.inr rfl)) hn⟩
  refine ⟨d, w, hd, ?_, hw, hdec, h.shrink hs h.chained ?_, rfl, hd, hdec.handler, ?_, ?_⟩
  · simp only [DecodeCache.follow, hd₁, hn₁, hd, Option.map_some]
  · intro m hm
    cases hm
    exact hlive
  · intro p _ hp
    rw [h.chained.unique hp hn]
  · exact fun hnext => hfol (.inl hnext)

/-- A new state behind `ds`, filled with `d`. -/
structure Grown (d : DecodeState) (c c' : DecodeCache) : Prop where
  ds : c'.ds = .node c.brk
  brk : c'.brk = c.brk + 1
  heads : ∀ i, (c'.heads i).pc = (c.heads i).pc
  fresh : c'.heap c.brk = some d
  next : c'.nextOf c.ds = some c.brk
  nextOf : ∀ {q}, q ≠ c.ds → q ≠ .node c.brk → c'.nextOf q = c.nextOf q
  heap : ∀ {n e'}, n ≠ c.brk → c'.heap n = some e' →
    ∃ e, c.heap n = some e ∧ e' = { e with next := e'.next } ∧
      (e'.next = e.next ∨ c.ds = .node n)
  live : ∀ n, c'.Live n ↔ c.Live n ∨ n = c.brk

theorem DecodeState.Decodes.withNext {d : DecodeState} {w : Word} (h : d.Decodes w)
    (n : Option Nat) : DecodeState.Decodes { d with next := n } w := by
  obtain ⟨d₀, hd⟩ := h
  exact ⟨d₀, by rw [hd]⟩

theorem Grown.chained (hg : Grown d c c') (hch : c.Chained) (hl : c.DsLive)
    (hnext : d.next = none) : c'.Chained := by
  have h0 : c'.nextOf (.node c.brk) = none := by rw [nextOf_node hg.fresh, hnext]
  unfold DecodeCache.Chained
  rw [hg.brk]
  exact Linked.grow hch hl hg.next h0 (fun q => hg.nextOf) hg.live

theorem Grown.dsLive (hg : Grown d c c') : c'.DsLive := by
  intro n hn
  rw [hg.ds] at hn
  cases hn
  exact (hg.live _).2 (.inr rfl)

theorem Traced.grow (h : Traced code follows label True c) {d : DecodeState}
    (hg : Grown d c c') (hnext : d.next = none) {w : Word} (hw : code (label c.ds) w)
    (hdec : d.Decodes w) :
    Active code follows label (label c.ds) (decoderGetHandler w) c.brk d c' := by
  have hnew : ∀ {n}, c.Live n → n ≠ c.brk := fun hn => Nat.ne_of_lt (h.chained.lt_brk hn)
  have h0 : c'.nextOf (.node c.brk) = none := by rw [nextOf_node hg.fresh, hnext]
  have hreach : ∀ {q}, c'.Reach q → c.Reach q ∨ q = .node c.brk := by
    intro q hq
    refine Reach.grow hq (fun q hq => ?_) hg.next h0 fun q => hg.nextOf
    obtain ⟨i, rfl⟩ | rfl := hq
    · exact .inl (.root (.inl ⟨i, rfl⟩))
    · exact .inr hg.ds
  have hold : ∀ {p n}, p ≠ c.ds → c'.nextOf p = some n → c.nextOf p = some n := by
    intro p n hpd hp
    have hpb : p ≠ .node c.brk := by
      rintro rfl
      rw [h0] at hp
      cases hp
    rwa [hg.nextOf hpd hpb] at hp
  refine ⟨⟨hg.chained h.chained h.live hnext, hg.dsLive, fun {p n e'} hp hn he' => ?_⟩, hg.ds,
    hg.fresh, hdec.handler, ?_, fun hne => absurd hnext hne⟩
  · by_cases hpd : p = c.ds
    · -- the new state
      rw [hpd, hg.next] at hn
      cases hn
      rw [hg.fresh] at he'
      cases he'
      refine ⟨w, hpd ▸ hw, hdec, fun hf => ?_⟩
      obtain hf | ⟨hf, -⟩ := hf
      · exact absurd hnext hf
      · exact hf.elim
    · have hn := hold hpd hn
      obtain hp | rfl := hreach hp
      · obtain ⟨e, he, hee, hsame⟩ := hg.heap (hnew (h.chained.live_of_next hn)) he'
        obtain ⟨w', hw', hdec', hf'⟩ := h.node hp hn he
        refine ⟨w', hw', ?_, fun hf => hf' ?_⟩
        · rw [hee]
          exact hdec'.withNext _
        · obtain hf | ⟨hf, -⟩ := hf
          · obtain hsame | hds := hsame
            · exact .inl (hsame ▸ hf)
            · exact .inr ⟨trivial, hds⟩
          · exact hf.elim
      · have hlt := h.chained.lt_next hn
        have hbrk := h.chained.lt_brk (h.chained.live_of_next hn)
        omega
  · intro p _ hp
    by_cases hpd : p = c.ds
    · rw [hpd]
    · exact absurd rfl (hnew (h.chained.live_of_next (hold hpd hp)))

/-- A state that was filled in a flushed cache is on a chain of its own. -/
theorem active_clear {a : L} {h : Handler} {n : Nat} {d : DecodeState} (hch : c.Chained)
    (hl : c.DsLive) (hds : c.ds = .node n) (hd : c.heap n = some d) (hh : d.handler = some h)
    (hnext : d.next = none) : Active code follows label a h n d c.clear := by
  have h0 : c.clear.nextOf (.node n) = none := (nextOf_node hd).trans hnext
  have hnone : ∀ {p}, c.clear.Reach p → c.clear.nextOf p = none := by
    intro p hp
    induction hp with
    | root hr =>
      obtain ⟨i, rfl⟩ | rfl := hr
      · rfl
      · change c.clear.nextOf c.ds = none
        rw [hds]
        exact h0
    | next _ hq ih => rw [ih] at hq; cases hq
  refine ⟨⟨chained_clear hch, hl, fun hp hn _ => ?_⟩, hds, hd, hh, fun hp hn => ?_,
    fun hne => absurd hnext hne⟩
  · rw [hnone hp] at hn
    cases hn
  · rw [hnone hp] at hn
    cases hn

/-- Without chains there is nothing to label. -/
theorem traced_empty (hh : ∀ i, (c.heads i).next = none) (hp : ∀ n, c.heap n = none)
    (hds : ∃ i, c.ds = .head i) : Traced code follows label top c := by
  have hnext : ∀ p, c.nextOf p = none := by
    intro p
    cases p with
    | head i => exact hh i
    | node n => exact nextOf_freed (hp n)
  refine ⟨⟨?_, ?_, ?_, ?_⟩, ?_, ?_⟩
  · intro p m hm
    rw [hnext] at hm
    cases hm
  · intro p q m hm
    rw [hnext] at hm
    cases hm
  · intro n hn
    rw [DecodeCache.Live, hp n] at hn
    cases hn
  · intro n m hm
    rw [hnext] at hm
    cases hm
  · intro n hn
    obtain ⟨i, hi⟩ := hds
    rw [hi] at hn
    cases hn
  · intro p n d _ hn _
    rw [hnext] at hn
    cases hn

/-! ## Growing a chain -/

/-- A fresh state, once it is filled for `w`. -/
def filled (fresh : DecodeState) (w : Word) : DecodeState :=
  { decoderSetState { fresh with next := none } w with handler := some (decoderGetHandler w) }

theorem next_decoderSetState (d : DecodeState) (w : Word) :
    (decoderSetState d w).next = d.next := by
  unfold decoderSetState
  split <;> rfl

theorem filled_next (fresh : DecodeState) (w : Word) : (filled fresh w).next = none :=
  next_decoderSetState _ w

theorem filled_decodes (fresh : DecodeState) (w : Word) : (filled fresh w).Decodes w :=
  ⟨_, rfl⟩

/-- The cache with a fresh state behind `ds`. -/
def DecodeCache.linked (c : DecodeCache) (d fresh : DecodeState) : DecodeCache :=
  let c₁ := c.assign c.ds { d with next := some c.brk }
  { c₁ with
    heap := Function.update c₁.heap c.brk (some { fresh with next := none })
    ds := .node c.brk
    brk := c.brk + 1 }

theorem grow_eq {d : DecodeState} (hd : c.deref c.ds = some d) (fresh : DecodeState) :
    c.grow fresh = some ((), c.linked d fresh) := by
  simp only [DecodeCache.grow, hd]
  cases hds : c.ds with
  | head i => simp [DecodeCache.assign, DecodeCache.linked, hds]
  | node n => simp [DecodeCache.assign, DecodeCache.linked, hds]

/-- The fresh state, filled, of a cache that may have been flushed in between. -/
def DecodeCache.fillFresh (c : DecodeCache) (n : Nat) (d : DecodeState) : DecodeCache :=
  { c with heap := Function.update c.heap n (some d) }

theorem fill_eq {c : DecodeCache} {n : Nat} (hds : c.ds = .node n) {fresh : DecodeState}
    (hn : c.heap n = some { fresh with next := none }) (w : Word) :
    c.fill w = some ((filled fresh w).ops, c.fillFresh n (filled fresh w)) := by
  simp only [DecodeCache.fill, DecodeCache.deref, hds, hn]
  rfl

theorem grown_fill (hch : c.Chained) (hl : c.DsLive) {d : DecodeState}
    (hd : c.deref c.ds = some d) (fresh : DecodeState) (w : Word) :
    Grown (filled fresh w) c ((c.linked d fresh).fillFresh c.brk (filled fresh w)) := by
  have hnew : ∀ {n}, c.Live n → n ≠ c.brk := fun hn => Nat.ne_of_lt (hch.lt_brk hn)
  cases hds : c.ds with
  | head i =>
    rw [hds] at hd
    cases hd
    refine ⟨?_, ?_, ?_, ?_, ?_, ?_, ?_, ?_⟩
    · rfl
    · rfl
    · intro j
      by_cases hj : j = i
      · simp [DecodeCache.linked, DecodeCache.fillFresh, DecodeCache.assign, hds, hj]
      · simp [DecodeCache.linked, DecodeCache.fillFresh, DecodeCache.assign, hds, hj]
    · simp [DecodeCache.fillFresh]
    · simp [DecodeCache.linked, DecodeCache.fillFresh, DecodeCache.assign, hds]
    · intro q hq hb
      cases q with
      | head j =>
        have hj : j ≠ i := fun h => hq (by rw [hds, h])
        simp [DecodeCache.linked, DecodeCache.fillFresh, DecodeCache.assign, hds, hj]
      | node m =>
        have hm : m ≠ c.brk := fun h => hb (by rw [h])
        simp [DecodeCache.nextOf, DecodeCache.deref, DecodeCache.linked, DecodeCache.fillFresh,
          DecodeCache.assign, hds, hm]
    · intro n e' hn he'
      refine ⟨e', ?_, rfl, .inl rfl⟩
      simpa [DecodeCache.linked, DecodeCache.fillFresh, DecodeCache.assign, hds, hn] using he'
    · intro n
      by_cases hn : n = c.brk
      · simp [DecodeCache.Live, DecodeCache.fillFresh, hn]
      · simp [DecodeCache.Live, DecodeCache.linked, DecodeCache.fillFresh, DecodeCache.assign,
          hds, hn]
  | node k =>
    rw [hds] at hd
    have hk : k ≠ c.brk := hnew (hl k hds)
    have hk' : c.heap k = some d := hd
    refine ⟨?_, ?_, ?_, ?_, ?_, ?_, ?_, ?_⟩
    · rfl
    · rfl
    · intro j
      simp [DecodeCache.linked, DecodeCache.fillFresh, DecodeCache.assign, hds]
    · simp [DecodeCache.fillFresh]
    · simp [DecodeCache.nextOf, DecodeCache.deref, DecodeCache.linked, DecodeCache.fillFresh,
        DecodeCache.assign, hds, hk]
    · intro q hq hb
      cases q with
      | head j => simp [DecodeCache.linked, DecodeCache.fillFresh, DecodeCache.assign, hds]
      | node m =>
        have hm : m ≠ c.brk := fun h => hb (by rw [h])
        have hmk : m ≠ k := fun h => hq (by rw [hds, h])
        simp [DecodeCache.nextOf, DecodeCache.deref, DecodeCache.linked, DecodeCache.fillFresh,
          DecodeCache.assign, hds, hm, hmk]
    · intro n e' hn he'
      by_cases hnk : n = k
      · refine ⟨d, hnk ▸ hk', ?_, .inr (by rw [hds, hnk])⟩
        have he : e' = { d with next := some c.brk } := by
          simpa [DecodeCache.linked, DecodeCache.fillFresh, DecodeCache.assign, hds, hn, hnk, hk]
            using he'.symm
        rw [he]
      · refine ⟨e', ?_, rfl, .inl rfl⟩
        simpa [DecodeCache.linked, DecodeCache.fillFresh, DecodeCache.assign, hds, hn, hnk]
          using he'
    · intro n
      by_cases hn : n = c.brk
      · simp [DecodeCache.Live, DecodeCache.fillFresh, hn]
      · by_cases hnk : n = k
        · simp [DecodeCache.Live, DecodeCache.linked, DecodeCache.fillFresh, DecodeCache.assign,
            hds, hnk, hk, hk']
        · simp [DecodeCache.Live, DecodeCache.linked, DecodeCache.fillFresh, DecodeCache.assign,
            hds, hn, hnk]

/-! ## Tags -/

/-- The chain of every array entry was begun at the address the entry is tagged with. -/
def Tagged (label : Ptr → Word) (c : DecodeCache) : Prop :=
  ∀ i, (c.heads i).next ≠ none ∨ c.ds = .head i → label (.head i) = (c.heads i).pc

section Tags

variable {label : Ptr → Word} {code : Word → Word → Prop}
  {follows : Word → Handler → Word → Prop}

theorem Tagged.clear (h : Tagged label c) : Tagged label c.clear := by
  intro i hi
  obtain hi | hi := hi
  · exact absurd rfl hi
  · exact h i (.inr hi)

/-- A state that is entered leaves the array alone. -/
theorem Tagged.follow (h : Tagged label c) (n : Nat) : Tagged label { c with ds := .node n } := by
  intro i hi
  obtain hi | hi := hi
  · exact h i (.inl hi)
  · cases hi

theorem Tagged.grow (h : Tagged label c) {d : DecodeState} (hg : Grown d c c') :
    Tagged label c' := by
  intro i hi
  rw [hg.heads]
  obtain hi | hi := hi
  · by_cases hd : .head i = c.ds
    · exact h i (.inr hd.symm)
    · refine h i (.inl ?_)
      have hn := hg.nextOf (q := .head i) hd (by simp)
      simp only [nextOf_head] at hn
      rw [← hn]
      exact hi
  · rw [hg.ds] at hi
    cases hi

/-- Behind a state, the array is not relabelled. -/
theorem Tagged.rest (h : Tagged label c) {n : Nat} (hds : c.ds = .node n) (l : Word) :
    Tagged (Function.update label c.ds l) c := by
  intro i hi
  rw [hds, Function.update_of_ne (by simp)]
  exact h i hi

/-- `decode_cache_fetch` keeps a chain only if its entry is tagged with `pc`, and then it was
    begun there. -/
theorem Traced.arrive (h : Traced code follows label top c) (ht : Tagged label c) (pc : Word) :
    ∃ c', c.fetch pc = some c' ∧ Traced code follows (Function.update label c'.ds pc) True c' ∧
      Tagged (Function.update label c'.ds pc) c' := by
  obtain ⟨c', hf, htr, hfet⟩ := h.fetch pc
  have hkept : ∀ i, (c'.heads i).next ≠ none → label (.head i) = (c'.heads i).pc := by
    intro i hi
    obtain hold | hnew := hfet.heads i
    · rw [hold] at hi ⊢
      exact ht i (.inl hi)
    · exact absurd hnew hi
  refine ⟨c', hf, htr.settle (fun hn => ?_) ?_, fun i hi => ?_⟩
  · rw [hfet.ds] at hn ⊢
    exact (hkept _ hn).trans hfet.pc
  · intro p n d w _ _ hn _ _
    rw [hfet.ds] at hn
    cases hn
  · by_cases hi' : c'.ds = .head i
    · rw [hi', Function.update_self]
      rw [hfet.ds] at hi'
      cases hi'
      exact hfet.pc.symm
    · rw [Function.update_of_ne (Ne.symm hi')]
      exact hkept i (hi.resolve_right hi')

end Tags

end NemuMips32
