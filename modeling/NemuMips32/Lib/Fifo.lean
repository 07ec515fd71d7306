/-
  A bounded queue in a ring of `cap` cells: the position of the oldest element and the number
  of elements. A push into a full queue is dropped; a pop of an empty queue gives the stale
  cell at the head and changes nothing. `toList` is the queue as its user sees it, oldest
  element first, and `push` and `pop` act on it as on a list.
-/
import Mathlib.Logic.Function.Basic
import Mathlib.Data.List.Basic

structure Fifo (α : Type) (cap : Nat) where
  head : Fin cap
  size : Nat
  e : Fin cap → α
  size_le : size ≤ cap

namespace Fifo

variable {α : Type} {cap : Nat}

/-! ## Operations -/

/-- The cell `i` places behind the head. -/
def slot (q : Fifo α cap) (i : Nat) : Fin cap :=
  ⟨(q.head.val + i) % cap, Nat.mod_lt _ (Fin.pos q.head)⟩

def push (q : Fifo α cap) (x : α) : Fifo α cap :=
  if h : q.size < cap then
    { q with e := Function.update q.e (q.slot q.size) x, size := q.size + 1, size_le := h }
  else q

def pop (q : Fifo α cap) : α × Fifo α cap :=
  (q.e q.head,
    if 0 < q.size then
      { q with head := q.slot 1, size := q.size - 1,
               size_le := Nat.le_trans (Nat.sub_le _ _) q.size_le }
    else q)

def top (q : Fifo α cap) : α := q.e q.head

def reset (q : Fifo α cap) : Fifo α cap :=
  { q with head := ⟨0, Fin.pos q.head⟩, size := 0, size_le := Nat.zero_le _ }

def isEmpty (q : Fifo α cap) : Bool := q.size == 0

def isFull (q : Fifo α cap) : Bool := q.size == cap

/-- A queue in memory filled with `x`. -/
def filled (h : 0 < cap) (x : α) : Fifo α cap := ⟨⟨0, h⟩, 0, fun _ => x, Nat.zero_le _⟩

/-! ## As a list -/

def toList (q : Fifo α cap) : List α := (List.range q.size).map fun i => q.e (q.slot i)

variable {q : Fifo α cap}

@[simp] theorem length_toList : q.toList.length = q.size := by simp [toList]

theorem toList_eq_nil : q.toList = [] ↔ q.size = 0 := by
  rw [← List.length_eq_zero_iff, length_toList]

theorem isEmpty_iff : q.isEmpty = true ↔ q.toList = [] := by
  rw [toList_eq_nil]
  exact beq_iff_eq

theorem isFull_iff : q.isFull = true ↔ q.toList.length = cap := by
  rw [length_toList]
  exact beq_iff_eq

@[simp] theorem toList_reset : q.reset.toList = [] := toList_eq_nil.2 rfl

@[simp] theorem toList_filled (h : 0 < cap) (x : α) : (filled h x).toList = [] :=
  toList_eq_nil.2 rfl

/-- Two places less than a turn apart are two cells. -/
theorem slot_ne {i j : Nat} (hij : i < j) (hj : j < cap) : q.slot i ≠ q.slot j := by
  intro h
  have h' : (q.head.val + j) % cap = (q.head.val + i) % cap := congrArg Fin.val h.symm
  have hd : (j - i) % cap = 0 := by
    rw [← Nat.sub_mod_eq_zero_of_mod_eq h', Nat.add_sub_add_left]
  rw [Nat.mod_eq_of_lt (by omega)] at hd
  omega

theorem toList_push (h : q.toList.length < cap) (x : α) :
    (q.push x).toList = q.toList ++ [x] := by
  rw [length_toList] at h
  have hold (i : Nat) (hi : i ∈ List.range q.size) :
      Function.update q.e (q.slot q.size) x (q.slot i) = q.e (q.slot i) :=
    Function.update_of_ne (slot_ne (List.mem_range.1 hi) h) _ _
  simp only [toList, push, h, dite_true, List.range_succ, List.map_append, List.map_cons,
    List.map_nil]
  rw [← List.map_congr_left hold]
  simp only [slot, Function.update_self]

theorem push_of_full (h : q.toList.length = cap) (x : α) : q.push x = q := by
  rw [length_toList] at h
  simp [push, h]

theorem toList_push_ne (hc : 0 < cap) (q : Fifo α cap) (x : α) : (q.push x).toList ≠ [] := by
  by_cases h : q.toList.length < cap
  · simp [toList_push h]
  · have hle := q.size_le
    rw [← length_toList] at hle
    have heq : q.toList.length = cap := by omega
    rw [push_of_full heq]
    intro h0
    rw [h0, List.length_nil] at heq
    omega

theorem slot_zero : q.slot 0 = q.head := by
  apply Fin.ext
  simp [slot, Nat.mod_eq_of_lt q.head.isLt]

/-- What a queue with an oldest element pops. -/
theorem pop_cons {x : α} {l : List α} (h : q.toList = x :: l) :
    q.pop.1 = x ∧ q.pop.2.toList = l := by
  have hs : q.size = l.length + 1 := by rw [← length_toList, h, List.length_cons]
  have hcons : q.toList = q.e q.head :: (List.range l.length).map fun i => q.e (q.slot (i + 1)) := by
    simp only [toList, hs, List.range_succ_eq_map, List.map_cons, List.map_map, slot_zero]
    rfl
  rw [h] at hcons
  obtain ⟨rfl, hl⟩ := List.cons.inj hcons
  refine ⟨rfl, ?_⟩
  have hslot (i : Nat) : q.pop.2.slot i = q.slot (i + 1) := by
    have hpos : 0 < q.size := by omega
    simp only [pop, hpos, if_true, slot, Nat.mod_add_mod, Nat.add_assoc, Nat.add_comm 1]
  have hsize : q.pop.2.size = l.length := by simp [pop, hs]
  have he : q.pop.2.e = q.e := by
    simp only [pop]
    split <;> rfl
  rw [hl, toList, hsize]
  simp only [hslot, he]

theorem pop_of_empty (h : q.toList = []) : q.pop.2 = q := by
  simp [pop, toList_eq_nil.1 h]

theorem pop_eq_self : q.pop.2 = q ↔ q.toList = [] := by
  constructor
  · intro h
    have hs : q.pop.2.size = q.size := congrArg size h
    rw [toList_eq_nil]
    simp only [pop] at hs
    split at hs
    · have hs' : q.size - 1 = q.size := hs
      omega
    · omega
  · exact pop_of_empty

end Fifo
