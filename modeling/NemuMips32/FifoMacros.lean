/-
  The queue macros of `utils/fifo.h`. `fifo_type` declares a struct of two `unsigned` counters
  and an array, and the macros work on any such struct. The counters have 32 bits, so the sum
  `q.head + q.size` can wrap once there are more than 2^31 cells: up to there every run of the
  macros is a run of the bounded queue of `Lib.Fifo` (`Mirrors`), and beyond it some run writes
  a new element over an old one (`not_bounded_long`). `bounded_iff` is the exact capacity.
-/
import NemuMips32.Lib.Fifo
import NemuMips32.Reg

namespace NemuMips32

/-- `fifo_type(type, n)`: the array is the first `n` cells of `e`. -/
structure FifoType (α : Type) where
  head : Word
  size : Word
  e : Nat → α

inductive FifoOp (α : Type) where
  | push (ch : α)
  | pop
  | reset

namespace FifoType

variable {α : Type}

/-! ## The macros -/

/-- `fifo_reset`. -/
def reset (q : FifoType α) : FifoType α := { q with head := 0, size := 0 }

/-- `fifo_push`; the sum is taken in `unsigned`, the remainder in `size_t`. -/
def push (n : Nat) (q : FifoType α) (ch : α) : FifoType α :=
  let next := (q.head + q.size).toNat % n
  if q.size.toNat < n then
    { q with e := Function.update q.e next ch, size := q.size + 1 }
  else q

/-- `fifo_pop`. -/
def pop (n : Nat) (q : FifoType α) : α × FifoType α :=
  let oldH := q.head.toNat
  (q.e oldH,
    if 0 < q.size.toNat then
      { q with head := BitVec.ofNat 32 ((q.head + 1).toNat % n), size := q.size - 1 }
    else q)

/-- `fifo_top`. -/
def top (q : FifoType α) : α := q.e q.head.toNat

/-- `fifo_is_full`. -/
def isFull (n : Nat) (q : FifoType α) : Bool := q.size.toNat == n

/-- `fifo_is_empty`. -/
def isEmpty (q : FifoType α) : Bool := q.size == 0

/-- The elements that `fifo_foreach` visits from index `i` on, the pointer being at cell
    `ptr`. -/
def visitFrom (n : Nat) (q : FifoType α) (i : Word) (ptr : Nat) : List α :=
  if i < q.size then
    q.e ptr :: visitFrom n q (i + 1) ((q.head + (i + 1)).toNat % n)
  else []
termination_by q.size.toNat - i.toNat
decreasing_by
  have hlt : i.toNat < q.size.toNat := by assumption
  have hnext : (i + 1).toNat = i.toNat + 1 := by
    rw [BitVec.toNat_add]
    exact Nat.mod_eq_of_lt (by simp; omega)
  omega

/-- `fifo_foreach`: the elements its body sees, in order. -/
def foreach (n : Nat) (q : FifoType α) : List α := visitFrom n q 0 q.head.toNat

def step (n : Nat) (q : FifoType α) : FifoOp α → FifoType α
  | .push ch => q.push n ch
  | .pop => (q.pop n).2
  | .reset => q.reset

/-- A queue in static memory. -/
def zeroed (zero : α) : FifoType α := { head := 0, size := 0, e := fun _ => zero }

def run (n : Nat) (zero : α) (ops : List (FifoOp α)) : FifoType α :=
  ops.foldl (step n) (zeroed zero)

/-! ## The queue they are meant to be -/

/-- Oldest element first. -/
def toList (n : Nat) (q : FifoType α) : List α :=
  (List.range q.size.toNat).map fun i => q.e ((q.head.toNat + i) % n)

/-- The macros act on `q` as on a queue of at most `n` elements. -/
structure Bounded (n : Nat) (q : FifoType α) : Prop where
  head_lt : q.head.toNat < n
  size_le : q.size.toNat ≤ n
  push : ∀ x, (q.toList n).length < n → (q.push n x).toList n = q.toList n ++ [x]
  push_full : ∀ x, ¬(q.toList n).length < n → q.push n x = q
  pop : ∀ x l, q.toList n = x :: l → (q.pop n).1 = x ∧ (q.pop n).2.toList n = l
  pop_empty : q.toList n = [] → (q.pop n).2 = q
  reset : q.reset.toList n = []
  top : ∀ x l, q.toList n = x :: l → q.top = x
  isEmpty : q.isEmpty = true ↔ (q.toList n).length = 0
  isFull : q.isFull n = true ↔ (q.toList n).length = n
  foreach : q.foreach n = q.toList n

/-- `q` and the ring `p` hold the same cells. -/
structure Mirrors {n : Nat} (q : FifoType α) (p : Fifo α n) : Prop where
  head : q.head.toNat = p.head.val
  size : q.size.toNat = p.size
  e : ∀ i : Fin n, q.e i = p.e i

variable {n : Nat} {q : FifoType α} {p : Fifo α n}

@[simp] theorem length_toList : (q.toList n).length = q.size.toNat := by simp [toList]

/-- Up to 2^31 cells the sum of the counters does not wrap. -/
theorem toNat_head_add (hn : n ≤ 2 ^ 31) (hh : q.head.toNat < n) {i : Word} (hi : i.toNat < n) :
    (q.head + i).toNat = q.head.toNat + i.toNat := by
  rw [BitVec.toNat_add]
  exact Nat.mod_eq_of_lt (by omega)

namespace Mirrors

theorem toList (h : Mirrors q p) : q.toList n = p.toList := by
  simp only [FifoType.toList, Fifo.toList, h.size]
  apply List.map_congr_left
  intro i _
  rw [h.head]
  exact h.e (p.slot i)

theorem reset (h : Mirrors q p) : Mirrors q.reset p.reset := ⟨rfl, rfl, h.e⟩

theorem push (hn : n ≤ 2 ^ 31) (h : Mirrors q p) (x : α) : Mirrors (q.push n x) (p.push x) := by
  have hhead : q.head.toNat < n := h.head ▸ p.head.isLt
  by_cases hlt : p.size < n
  · have hlt' : q.size.toNat < n := h.size ▸ hlt
    have hnext : (q.head + q.size).toNat % n = (p.slot p.size).val := by
      rw [toNat_head_add hn hhead hlt', h.head, h.size, Fifo.slot]
    simp only [FifoType.push, Fifo.push, hlt, hlt', if_true, dite_true, hnext]
    refine ⟨h.head, ?_, fun i => ?_⟩
    · show (q.size + 1).toNat = p.size + 1
      rw [BitVec.toNat_add, ← h.size]
      exact Nat.mod_eq_of_lt (by simp; omega)
    · show Function.update q.e (p.slot p.size).val x i = Function.update p.e (p.slot p.size) x i
      by_cases hi : i = p.slot p.size
      · rw [hi, Function.update_self, Function.update_self]
      · rw [Function.update_of_ne hi, Function.update_of_ne (fun hv => hi (Fin.ext hv)), h.e]
  · have hlt' : ¬q.size.toNat < n := h.size ▸ hlt
    simp only [FifoType.push, Fifo.push, hlt, hlt', if_false, dite_false]
    exact h

theorem pop (hn : n ≤ 2 ^ 31) (h : Mirrors q p) :
    (q.pop n).1 = p.pop.1 ∧ Mirrors (q.pop n).2 p.pop.2 := by
  have hhead : q.head.toNat < n := h.head ▸ p.head.isLt
  have hone : (q.head + 1).toNat = q.head.toNat + 1 := by
    rw [BitVec.toNat_add]
    exact Nat.mod_eq_of_lt (by simp; omega)
  refine ⟨?_, ?_⟩
  · simp only [FifoType.pop, Fifo.pop, h.head]
    exact h.e p.head
  · by_cases hpos : 0 < p.size
    · have hpos' : 0 < q.size.toNat := h.size ▸ hpos
      simp only [FifoType.pop, Fifo.pop, hpos, hpos', if_true]
      refine ⟨?_, ?_, h.e⟩
      · have hmod : (q.head.toNat + 1) % n < n := Nat.mod_lt _ (by omega)
        rw [hone, BitVec.toNat_ofNat, Nat.mod_eq_of_lt (show _ < 2 ^ 32 by omega), h.head]
        rfl
      · show (q.size - 1).toNat = p.size - 1
        have hle : (1 : Word) ≤ q.size := by
          rw [BitVec.le_def]
          exact hpos'
        rw [BitVec.toNat_sub_of_le hle, h.size]
        rfl
    · have hpos' : ¬0 < q.size.toNat := h.size ▸ hpos
      simp only [FifoType.pop, Fifo.pop, hpos, hpos', if_false]
      exact h

end Mirrors

/-- Every run of the macros is a run of the bounded queue. -/
theorem mirrors_run (hn : n ≤ 2 ^ 31) (h : 0 < n) (zero : α) (ops : List (FifoOp α)) :
    ∃ p : Fifo α n, Mirrors (run n zero ops) p := by
  have hgen : ∀ (ops : List (FifoOp α)) (q : FifoType α) (p : Fifo α n), Mirrors q p →
      ∃ p' : Fifo α n, Mirrors (ops.foldl (step n) q) p' := by
    intro ops
    induction ops with
    | nil => exact fun q p hq => ⟨p, hq⟩
    | cons op ops ih =>
      intro q p hq
      cases op with
      | push ch => exact ih _ _ (hq.push hn ch)
      | pop => exact ih _ _ (hq.pop hn).2
      | reset => exact ih _ _ hq.reset
  exact hgen ops (zeroed zero) (.filled h zero) ⟨rfl, rfl, fun _ => rfl⟩

/-- The iteration at index `i` has its pointer at the `i`-th cell of the queue. -/
theorem visitFrom_eq (hn : n ≤ 2 ^ 31) (hh : q.head.toNat < n) (hs : q.size.toNat ≤ n) (k : Nat) :
    ∀ (i : Word) (ptr : Nat), i.toNat + k = q.size.toNat →
      (0 < k → ptr = (q.head.toNat + i.toNat) % n) →
      visitFrom n q i ptr = (q.toList n).drop i.toNat := by
  induction k with
  | zero =>
    intro i ptr hi _
    have hstop : ¬i < q.size := by
      rw [BitVec.lt_def]
      omega
    rw [visitFrom, if_neg hstop, List.drop_eq_nil_of_le (by rw [length_toList]; omega)]
  | succ k ih =>
    intro i ptr hi hptr
    have hgo : i < q.size := by
      rw [BitVec.lt_def]
      omega
    have hnext : (i + 1).toNat = i.toNat + 1 := by
      rw [BitVec.toNat_add]
      exact Nat.mod_eq_of_lt (by simp; omega)
    have hlt : i.toNat < (q.toList n).length := by
      rw [length_toList]
      omega
    have hrest := ih (i + 1) ((q.head + (i + 1)).toNat % n) (by omega) (by
      intro hk
      rw [toNat_head_add hn hh (by omega)])
    have hcell : (q.toList n)[i.toNat] = q.e ptr := by
      rw [hptr (by omega)]
      simp [toList]
    rw [visitFrom, if_pos hgo, hrest, hnext, List.drop_eq_getElem_cons hlt, hcell]

/-- What the ring it mirrors says about `q`. -/
theorem Mirrors.bounded (hn : n ≤ 2 ^ 31) (h : Mirrors q p) : Bounded n q := by
  have hhead : q.head.toNat < n := h.head ▸ p.head.isLt
  have hsize : q.size.toNat ≤ n := h.size ▸ p.size_le
  have hstep : ∀ x, (q.push n x).toList n = (p.push x).toList := fun x => (h.push hn x).toList
  have hpop : ∀ x l, q.toList n = x :: l → (q.pop n).1 = x ∧ (q.pop n).2.toList n = l := by
    intro x l hl
    rw [h.toList] at hl
    rw [(h.pop hn).1, (h.pop hn).2.toList]
    exact Fifo.pop_cons hl
  refine ⟨hhead, hsize, fun x hx => ?_, fun x hx => ?_, hpop, fun h0 => ?_, ?_, ?_, ?_, ?_, ?_⟩
  · rw [hstep, h.toList]
    rw [h.toList] at hx
    exact Fifo.toList_push hx x
  · rw [length_toList] at hx
    simp [FifoType.push, hx]
  · have h0' : ¬0 < q.size.toNat := by
      rw [← length_toList (q := q) (n := n), h0]
      simp
    simp only [FifoType.pop, if_neg h0']
  · rw [h.reset.toList, Fifo.toList_reset]
  · exact fun x l hl => (hpop x l hl).1
  · rw [length_toList, isEmpty, beq_iff_eq]
    exact ⟨fun h0 => by rw [h0]; rfl, fun h0 => BitVec.eq_of_toNat_eq h0⟩
  · rw [length_toList, isFull, beq_iff_eq]
  · exact visitFrom_eq hn hhead hsize q.size.toNat 0 q.head.toNat (by simp)
      (fun _ => (Nat.mod_eq_of_lt hhead).symm)

/-! ## Above 2^31 cells -/

section Long

theorem ofNat_succ (k : Nat) : BitVec.ofNat 32 (k + 1) = BitVec.ofNat 32 k + 1 :=
  BitVec.ofNat_add k 1

/-- A queue of `false` from cell `h` on. -/
def blank (h size : Word) : FifoType Bool := { head := h, size := size, e := fun _ => false }

theorem push_blank {h size : Word} (hs : size.toNat < n) :
    (blank h size).push n false = blank h (size + 1) := by
  simp only [FifoType.push, blank, hs, if_true]
  rw [Function.update_eq_self_iff.2 rfl]

/-- `k` elements pushed behind one another. -/
theorem pushes_blank (h : Word) {k : Nat} (hk : k < 2 ^ 32) (hkn : k ≤ n) :
    (List.replicate k (FifoOp.push false)).foldl (step n) (blank h 0) =
      blank h (BitVec.ofNat 32 k) := by
  induction k with
  | zero => rfl
  | succ k ih =>
    have hlt : (BitVec.ofNat 32 k).toNat < n := by
      rw [BitVec.toNat_ofNat, Nat.mod_eq_of_lt (by omega)]
      omega
    rw [List.replicate_succ', List.foldl_append, ih (by omega) (by omega)]
    simp only [List.foldl_cons, List.foldl_nil, step, push_blank hlt, ofNat_succ]

/-- `k` elements pushed and popped one by one move the head to cell `k`. -/
theorem moves_blank {k : Nat} (hk : k < 2 ^ 32) (hkn : k < n) :
    (List.replicate k [FifoOp.push false, FifoOp.pop]).flatten.foldl (step n) (blank 0 0) =
      blank (BitVec.ofNat 32 k) 0 := by
  induction k with
  | zero => rfl
  | succ k ih =>
    have hhead : (BitVec.ofNat 32 k + 1).toNat % n = k + 1 := by
      rw [← ofNat_succ, BitVec.toNat_ofNat, Nat.mod_eq_of_lt hk, Nat.mod_eq_of_lt hkn]
    have hpop : ((blank (BitVec.ofNat 32 k) 1).pop n).2 = blank (BitVec.ofNat 32 (k + 1)) 0 := by
      have hone : 0 < (1 : Word).toNat := by decide
      simp only [FifoType.pop, blank, if_pos hone, hhead]
      rfl
    have hpush : (blank (BitVec.ofNat 32 k) 0).push n false = blank (BitVec.ofNat 32 k) 1 :=
      push_blank (by simp; omega)
    rw [List.replicate_succ', List.flatten_append, List.foldl_append, ih (by omega) (by omega)]
    simp only [List.flatten_cons, List.flatten_nil, List.append_nil, List.foldl_cons,
      List.foldl_nil, step, hpush]
    exact hpop

/-- A push whose index wraps does not reach the end of the queue. -/
theorem not_bounded_of_wrap {h size : Word} (hs : size.toNat < n) (hs' : size.toNat + 1 < 2 ^ 32)
    (hne : (h + size).toNat % n ≠ (h.toNat + size.toNat) % n) : ¬Bounded n (blank h size) := by
  intro hb
  have hlen : ((blank h size).toList n).length = size.toNat := length_toList
  have hlast := congrArg (fun l => l[size.toNat]?) (hb.push true (by rw [hlen]; exact hs))
  have hnext : (size + 1).toNat = size.toNat + 1 := by
    rw [BitVec.toNat_add]
    exact Nat.mod_eq_of_lt (by simpa using hs')
  have hnew : (((blank h size).push n true).toList n)[size.toNat]? = some false := by
    simp only [FifoType.push, blank, hs, if_true, toList, hnext, List.getElem?_map,
      List.getElem?_range (Nat.lt_succ_self _), Option.map_some]
    rw [Function.update_of_ne (Ne.symm hne)]
  have hold : ((blank h size).toList n ++ [true])[size.toNat]? = some true := by
    rw [List.getElem?_append_right (by rw [hlen]), hlen, Nat.sub_self]
    rfl
  simp only [hnew, hold] at hlast
  cases hlast

/-- A push that wraps the element count empties the queue. -/
theorem not_bounded_of_count {h size : Word} (hs : size.toNat < n) (hs' : size + 1 = 0) :
    ¬Bounded n (blank h size) := by
  intro hb
  have hpush := hb.push true (by rw [length_toList]; exact hs)
  have hlen := congrArg List.length hpush
  have hnew : ((blank h size).push n true).size = 0 := by
    simp only [FifoType.push, blank, hs, if_true]
    exact hs'
  rw [length_toList, hnew, List.length_append] at hlen
  simp at hlen

/-- The head moved to cell `k`, then `m` elements pushed. -/
def moveAndFill (k m : Nat) : List (FifoOp Bool) :=
  (List.replicate k [FifoOp.push false, FifoOp.pop]).flatten ++ List.replicate m (FifoOp.push false)

theorem run_moveAndFill {k m : Nat} (hk : k < 2 ^ 32) (hkn : k < n) (hm : m < 2 ^ 32)
    (hmn : m ≤ n) :
    run n false (moveAndFill k m) = blank (BitVec.ofNat 32 k) (BitVec.ofNat 32 m) := by
  rw [run, moveAndFill, List.foldl_append]
  show (List.replicate m (FifoOp.push false)).foldl (step n)
    ((List.replicate k [FifoOp.push false, FifoOp.pop]).flatten.foldl (step n) (blank 0 0)) = _
  rw [moves_blank hk hkn, pushes_blank _ hm hmn]

theorem not_bounded_long (hn : 2 ^ 31 < n) (h : 2 ^ 32 % n ≠ 0) :
    ¬Bounded n (run n false (moveAndFill (2 ^ 31) (2 ^ 31))) := by
  rw [run_moveAndFill (by omega) hn (by omega) (by omega)]
  have hword : (BitVec.ofNat 32 (2 ^ 31)).toNat = 2 ^ 31 := by decide
  have hsum : BitVec.ofNat 32 (2 ^ 31) + BitVec.ofNat 32 (2 ^ 31) = 0 := by decide
  refine not_bounded_of_wrap (by omega) (by omega) ?_
  rw [hsum, hword]
  exact fun h0 => h (h0 ▸ Nat.zero_mod n)

theorem not_bounded_word (hn : n = 2 ^ 32) :
    ¬Bounded n (run n false (moveAndFill 0 (2 ^ 32 - 1))) := by
  rw [run_moveAndFill (by omega) (by omega) (by omega) (by omega)]
  have hword : (BitVec.ofNat 32 (2 ^ 32 - 1)).toNat = 2 ^ 32 - 1 := by decide
  exact not_bounded_of_count (by omega) (by decide)

end Long

/-- The macros are a bounded queue in every run, for every element type, exactly when there
    are at most 2^31 cells. -/
theorem bounded_iff (n : Nat) (h : 0 < n) :
    (∀ (α : Type) (zero : α) (ops : List (FifoOp α)), Bounded n (run n zero ops)) ↔ n ≤ 2 ^ 31 := by
  constructor
  · intro hall
    by_contra hlong
    by_cases hdvd : 2 ^ 32 % n = 0
    · have hword : n = 2 ^ 32 := by
        obtain ⟨k, hk⟩ := Nat.dvd_of_mod_eq_zero hdvd
        have hk1 : k = 1 := by
          have hlt : k < 2 := by
            by_contra hk2
            have := Nat.mul_le_mul_left n (show 2 ≤ k by omega)
            omega
          have hpos : k ≠ 0 := by
            rintro rfl
            simp at hk
          omega
        rw [hk1] at hk
        omega
      exact not_bounded_word hword (hall Bool false _)
    · exact not_bounded_long (by omega) hdvd (hall Bool false _)
  · intro hn α zero ops
    obtain ⟨p, hp⟩ := mirrors_run hn h zero ops
    exact hp.bounded hn

/-- The queue of the UART. -/
theorem bounded_iff_ulite :
    0 < 1024 ∧ ((∀ (α : Type) (zero : α) (ops : List (FifoOp α)),
      Bounded 1024 (run 1024 zero ops)) ↔ 1024 ≤ 2 ^ 31) :=
  ⟨by decide, bounded_iff 1024 (by decide)⟩

/-- With one cell more, the run fills a queue whose head is in the last cell, and the next push
    overwrites its second element. -/
theorem not_bounded_first :
    ¬Bounded (2 ^ 31 + 1) (run (2 ^ 31 + 1) false (moveAndFill (2 ^ 31) (2 ^ 31))) :=
  not_bounded_long (by decide) (by decide)

end FifoType

end NemuMips32
