/-
  The chains of the decode cache. Each entry of the array `decode_cache` heads a chain of
  malloc'd decode states, one for each instruction executed since the entry point, and `ds`
  walks along one of them; `clear_decode_cache` may have cut off the chain that `ds` is on.

  `Chained` is the memory safety of this: `decode_cache_fetch` never frees a state that is
  still pointed to, and never meets one that was freed (`fetch_chained`).
-/
import NemuMips32.Lib.Chain
import NemuMips32.CpuExec

namespace NemuMips32

open Chain

/-- `p->next`. -/
def DecodeCache.nextOf (c : DecodeCache) (p : Ptr) : Option Nat :=
  (c.deref p).bind DecodeState.next

/-- The state was allocated and not freed. -/
def DecodeCache.Live (c : DecodeCache) (n : Nat) : Prop := (c.heap n).isSome = true

/-- The states form disjoint chains. -/
def DecodeCache.Chained (c : DecodeCache) : Prop := Linked Ptr.node c.nextOf c.Live c.brk

/-- `ds` points to an array entry, or to a state that was not freed. -/
def DecodeCache.DsLive (c : DecodeCache) : Prop := ∀ n, c.ds = .node n → c.Live n

variable {c : DecodeCache}

@[simp] theorem nextOf_head (c : DecodeCache) (i : BitVec 12) :
    c.nextOf (.head i) = (c.heads i).next := rfl

theorem nextOf_node {n : Nat} {d : DecodeState} (h : c.heap n = some d) :
    c.nextOf (.node n) = d.next := by
  simp [DecodeCache.nextOf, DecodeCache.deref, h]

theorem nextOf_freed {n : Nat} (h : c.heap n = none) : c.nextOf (.node n) = none := by
  simp [DecodeCache.nextOf, DecodeCache.deref, h]

theorem heap_of_live {n : Nat} (h : c.Live n) : ∃ d, c.heap n = some d :=
  Option.isSome_iff_exists.1 h

/-! ## Flushing -/

theorem nextOf_clear (c : DecodeCache) (p : Ptr) :
    c.clear.nextOf p = match p with
      | .head _ => none
      | .node _ => c.nextOf p := by
  cases p with
  | head i => rfl
  | node n => rfl

theorem chained_clear (h : c.Chained) : c.clear.Chained := by
  refine Linked.drop h fun p => ?_
  rw [nextOf_clear]
  cases p with
  | head i => exact .inl rfl
  | node n => exact .inr rfl

@[simp] theorem clear_clear (c : DecodeCache) : c.clear.clear = c.clear := rfl

/-! ## Freeing a chain -/

theorem freeChain_heads (f : BitVec 12 → DecodeState) (fuel : Nat) (start : Option Nat) :
    DecodeCache.freeChain { c with heads := f } fuel start =
      (c.freeChain fuel start).map fun c' => { c' with heads := f } := by
  induction fuel generalizing c start with
  | zero => cases start <;> rfl
  | succ fuel ih =>
    cases start with
    | none => rfl
    | some n =>
      unfold DecodeCache.freeChain
      cases c.heap n with
      | none => rfl
      | some d => exact ih (c := { c with heap := Function.update c.heap n none }) d.next

/-- What freeing leaves of the cache. -/
structure Freed (c c' : DecodeCache) : Prop where
  heads : c'.heads = c.heads
  brk : c'.brk = c.brk
  heap : ∀ n, c'.heap n = c.heap n ∨ c'.heap n = none

/-- An orphan chain can be freed to its end. -/
theorem freeChain_chained (h : c.Chained) (fuel : Nat) (start : Option Nat)
    (ho : ∀ n, start = some n → Orphan c.nextOf c.Live n ∧ c.brk ≤ n + fuel) :
    ∃ c', c.freeChain fuel start = some c' ∧ c'.Chained ∧ Freed c c' := by
  induction fuel generalizing c start with
  | zero =>
    cases start with
    | none => exact ⟨c, rfl, h, rfl, rfl, fun _ => .inl rfl⟩
    | some n =>
      obtain ⟨hn, hb⟩ := ho n rfl
      exact absurd (h.lt_brk hn.live) (by omega)
  | succ fuel ih =>
    cases start with
    | none => exact ⟨c, rfl, h, rfl, rfl, fun _ => .inl rfl⟩
    | some n =>
      obtain ⟨hn, hb⟩ := ho n rfl
      obtain ⟨d, hd⟩ := heap_of_live hn.live
      have hheap : ∀ m, m ≠ n → Function.update c.heap n none m = c.heap m := fun m hm =>
        Function.update_of_ne hm ..
      generalize hc' : ({ c with heap := Function.update c.heap n none } : DecodeCache) = c₁
      have hstep : c.freeChain (fuel + 1) (some n) = c₁.freeChain fuel d.next := by
        rw [DecodeCache.freeChain, hd, ← hc']
      have h0 : c₁.nextOf (.node n) = none := by
        rw [← hc']
        exact nextOf_freed (Function.update_self ..)
      have hq : ∀ q, q ≠ .node n → c₁.nextOf q = c.nextOf q := by
        intro q hq
        rw [← hc']
        cases q with
        | head i => rfl
        | node m =>
          have hm : m ≠ n := fun h => hq (congrArg Ptr.node h)
          simp only [DecodeCache.nextOf, DecodeCache.deref, hheap m hm]
      have hl : ∀ m, c₁.Live m ↔ c.Live m ∧ m ≠ n := by
        intro m
        rw [← hc']
        by_cases hm : m = n
        · simp [DecodeCache.Live, hm]
        · simp [DecodeCache.Live, hm]
      have hbrk : c₁.brk = c.brk := by rw [← hc']
      have h₁ : c₁.Chained := by
        unfold DecodeCache.Chained
        rw [hbrk]
        exact Linked.free h hn h0 hq hl
      obtain ⟨c', hf, hch, hfr⟩ := ih h₁ d.next fun m hm => by
        have hnm := (nextOf_node hd).trans hm
        exact ⟨Linked.orphan_free h hnm h0 hq hl, by
          have := h.lt_next hnm
          omega⟩
      refine ⟨c', hstep.trans hf, hch, ?_, hfr.brk.trans hbrk, fun m => ?_⟩
      · rw [hfr.heads, ← hc']
      · obtain h' | h' := hfr.heap m
        · by_cases hm : m = n
          · exact .inr (by rw [h', ← hc', hm]; exact Function.update_self ..)
          · exact .inl (by rw [h', ← hc']; exact hheap m hm)
        · exact .inr h'

/-! ## Fetching an entry point -/

/-- The array entry `i`, restarted for the entry point `pc`. -/
def DecodeCache.restart (c : DecodeCache) (i : BitVec 12) (pc : Word) : DecodeCache :=
  { c with
    heads := Function.update c.heads i
      { c.heads i with handler := none, next := none, pc := pc } }

/-- What `decode_cache_fetch` leaves of the cache: `ds` at the entry for `pc`, and no pointer
    that was not there before. -/
structure Fetched (pc : Word) (c c' : DecodeCache) : Prop where
  chained : c'.Chained
  ds : c'.ds = .head (decodeCacheIndex pc)
  brk : c'.brk = c.brk
  pc : (c'.heads (decodeCacheIndex pc)).pc = pc
  heads : ∀ i, c'.heads i = c.heads i ∨ (c'.heads i).next = none
  heap : ∀ n, c'.heap n = c.heap n ∨ c'.heap n = none

theorem restart_orphan (h : c.Chained) (i : BitVec 12) (pc : Word) {n : Nat}
    (hn : (c.heads i).next = some n) :
    Orphan (c.restart i pc).nextOf (c.restart i pc).Live n := by
  refine Linked.orphan h (p := .head i) hn ?_ fun q hq => ?_
  · simp [DecodeCache.restart]
  · cases q with
    | head j =>
      have hj : j ≠ i := fun h => hq (congrArg Ptr.head h)
      simp [DecodeCache.restart, hj]
    | node m => rfl

theorem restart_chained (h : c.Chained) (i : BitVec 12) (pc : Word) :
    (c.restart i pc).Chained := by
  refine Linked.drop h fun q => ?_
  cases q with
  | head j =>
    by_cases hj : j = i
    · exact .inl (by simp [DecodeCache.restart, hj])
    · exact .inr (by simp [DecodeCache.restart, hj])
  | node m => exact .inr rfl

/-- `decode_cache_fetch` is safe. -/
theorem fetch_chained (h : c.Chained) (pc : Word) :
    ∃ c', c.fetch pc = some c' ∧ Fetched pc c c' := by
  unfold DecodeCache.fetch
  by_cases hpc : (c.heads (decodeCacheIndex pc)).pc = pc
  · simp only [hpc, if_true]
    exact ⟨_, rfl, h, rfl, rfl, hpc, fun _ => .inl rfl, fun _ => .inl rfl⟩
  · simp only [hpc, if_false]
    generalize hi : decodeCacheIndex pc = i
    obtain ⟨c₁, hf, hch, hfr⟩ := freeChain_chained (restart_chained h i pc)
      (c.brk + 1) (c.heads i).next fun n hn =>
        ⟨restart_orphan h i pc hn, by
          have : (c.restart i pc).brk = c.brk := rfl
          omega⟩
    -- freeing touches the heap only, so the entry may as well be restarted first
    have hcomm : (c.freeChain (c.brk + 1) (c.heads i).next).map (fun c' =>
        { c' with heads := (c.restart i pc).heads }) = some c₁ :=
      (freeChain_heads _ _ _).symm.trans hf
    have hself : c.freeChain (c.brk + 1) (c.heads i).next =
        (c.freeChain (c.brk + 1) (c.heads i).next).map fun c' => { c' with heads := c.heads } :=
      freeChain_heads (c := c) c.heads _ _
    cases hc : c.freeChain (c.brk + 1) (c.heads i).next with
    | none => rw [hc] at hcomm; cases hcomm
    | some c₀ =>
      rw [hc] at hcomm hself
      have hheads : c₀.heads = c.heads := by
        rw [Option.map_some, Option.some.injEq] at hself
        rw [hself]
      obtain rfl := Option.some.inj hcomm
      refine ⟨_, rfl, ?_⟩
      simp only [hheads]
      refine ⟨hch, by rw [hi], hfr.brk, ?_, fun j => ?_, hfr.heap⟩
      · simp [hi]
      · by_cases hj : j = i
        · exact .inr (by simp [hj])
        · exact .inl (by simp [hj])

end NemuMips32
