/-
  Hash tables with chaining. A table has `m` buckets, each the head of a singly linked chain of
  elements; elements are numbered in the order of their allocation. A push puts an element at
  the head of the chain of its key's bucket, a deletion unlinks the first element with the key.
  To its user a table is one stack of values for each key (`stack`), whatever the hash function
  does with the other keys.

  A table carries the facts that make the walks along its chains end and stay in their bucket:
  numbers go down along a chain, and all keys of a chain have the same hash.
-/
import Mathlib.Logic.Function.Basic
import Mathlib.Data.List.FinRange

namespace HashChain

structure Elem (K V : Type) where
  key : K
  value : V
  next : Option Nat

/-- `elem n` is the element with number `n`; the numbers from `brk` on are free. -/
structure Table {K : Type} {m : Nat} (hash : K → Fin m) (V : Type) where
  pool : Fin m → Option Nat
  elem : Nat → Elem K V
  brk : Nat
  pool_lt : ∀ {i n}, pool i = some n → n < brk
  pool_hash : ∀ {i n}, pool i = some n → hash (elem n).key = i
  next_lt : ∀ {n k}, (elem n).next = some k → k < n
  next_hash : ∀ {n k}, (elem n).next = some k → hash (elem k).key = hash (elem n).key
  free : ∀ {n}, brk ≤ n → (elem n).next = none

namespace Table

variable {K V : Type} {m : Nat} {hash : K → Fin m}

/-! ## Operations -/

def empty [Inhabited K] [Inhabited V] : Table hash V where
  pool _ := none
  elem _ := ⟨default, default, none⟩
  brk := 0
  pool_lt h := by cases h
  pool_hash h := by cases h
  next_lt h := by cases h
  next_hash h := by cases h
  free _ := rfl

/-- Forget all elements. -/
def clear (t : Table hash V) : Table hash V where
  pool _ := none
  elem := t.elem
  brk := t.brk
  pool_lt h := by cases h
  pool_hash h := by cases h
  next_lt := t.next_lt
  next_hash := t.next_hash
  free := t.free

theorem elem_of_lt {t : Table hash V} {n : Nat} (h : n < t.brk) (e : Elem K V) :
    Function.update t.elem t.brk e n = t.elem n :=
  Function.update_of_ne (Nat.ne_of_lt h) _ _

/-- What an element points to is allocated, and so is the element. -/
theorem lt_brk_of_next {t : Table hash V} {n k : Nat} (h : (t.elem n).next = some k) :
    n < t.brk := by
  by_contra hn
  rw [t.free (Nat.le_of_not_lt hn)] at h
  cases h

def push (t : Table hash V) (k : K) (v : V) : Table hash V where
  pool := Function.update t.pool (hash k) (some t.brk)
  elem := Function.update t.elem t.brk ⟨k, v, t.pool (hash k)⟩
  brk := t.brk + 1
  pool_lt {i n} h := by
    by_cases hi : i = hash k
    · rw [hi, Function.update_self] at h
      cases h
      exact Nat.lt_succ_self _
    · rw [Function.update_of_ne hi] at h
      exact Nat.lt_succ_of_lt (t.pool_lt h)
  pool_hash {i n} h := by
    by_cases hi : i = hash k
    · rw [hi, Function.update_self] at h
      cases h
      rw [Function.update_self, hi]
    · rw [Function.update_of_ne hi] at h
      rw [elem_of_lt (t.pool_lt h)]
      exact t.pool_hash h
  next_lt {n j} h := by
    by_cases hn : n = t.brk
    · rw [hn, Function.update_self] at h
      exact hn ▸ t.pool_lt h
    · rw [Function.update_of_ne hn] at h
      exact t.next_lt h
  next_hash {n j} h := by
    by_cases hn : n = t.brk
    · rw [hn, Function.update_self] at h
      rw [hn, Function.update_self, elem_of_lt (t.pool_lt h)]
      exact t.pool_hash h
    · rw [Function.update_of_ne hn] at h
      have hj := Nat.lt_trans (t.next_lt h) (lt_brk_of_next h)
      rw [Function.update_of_ne hn, elem_of_lt hj]
      exact t.next_hash h
  free {n} h := by
    rw [Function.update_of_ne (by omega)]
    exact t.free (by omega)

/-- Put `e` at number `q`, with the same key and a pointer that keeps to the chain. -/
def replace (t : Table hash V) (q : Nat) (e : Elem K V) (hkey : e.key = (t.elem q).key)
    (hnext : ∀ {k}, e.next = some k → q < t.brk ∧ k < q ∧ hash (t.elem k).key = hash e.key) :
    Table hash V :=
  have hkeys : ∀ x, (Function.update t.elem q e x).key = (t.elem x).key := by
    intro x
    by_cases hx : x = q
    · rw [hx, Function.update_self, hkey]
    · rw [Function.update_of_ne hx]
  { pool := t.pool
    elem := Function.update t.elem q e
    brk := t.brk
    pool_lt := t.pool_lt
    pool_hash := fun {i n} h => by
      rw [hkeys]
      exact t.pool_hash h
    next_lt := fun {n k} h => by
      by_cases hn : n = q
      · rw [hn, Function.update_self] at h
        exact hn ▸ (hnext h).2.1
      · rw [Function.update_of_ne hn] at h
        exact t.next_lt h
    next_hash := fun {n k} h => by
      rw [hkeys, hkeys]
      by_cases hn : n = q
      · rw [hn, Function.update_self] at h
        rw [(hnext h).2.2, hn, hkey]
      · rw [Function.update_of_ne hn] at h
        exact t.next_hash h
    free := fun {n} hn => by
      by_cases hq : n = q
      · rw [hq, Function.update_self]
        cases h : e.next with
        | none => rfl
        | some k => exact absurd (hnext h).1 (Nat.not_lt.2 (hq ▸ hn))
      · rw [Function.update_of_ne hq]
        exact t.free hn }

/-- Overwrite the value of an element. -/
def setValue (t : Table hash V) (n : Nat) (v : V) : Table hash V :=
  t.replace n { t.elem n with value := v } rfl
    fun h => ⟨lt_brk_of_next h, t.next_lt h, t.next_hash h⟩

/-- What the pointer behind `phe` points to, or the head of bucket `i` if there is no `phe`. -/
def link (t : Table hash V) (i : Fin m) : Option Nat → Option Nat
  | none => t.pool i
  | some q => (t.elem q).next

/-- Point the head of bucket `i` behind its first element. -/
def dropHead (t : Table hash V) (i : Fin m) (n : Nat) (h : t.pool i = some n) : Table hash V :=
  { t with
    pool := Function.update t.pool i (t.elem n).next
    pool_lt := fun {j k} hk => by
      by_cases hj : j = i
      · rw [hj, Function.update_self] at hk
        exact Nat.lt_trans (t.next_lt hk) (t.pool_lt h)
      · rw [Function.update_of_ne hj] at hk
        exact t.pool_lt hk
    pool_hash := fun {j k} hk => by
      by_cases hj : j = i
      · rw [hj, Function.update_self] at hk
        rw [t.next_hash hk, hj]
        exact t.pool_hash h
      · rw [Function.update_of_ne hj] at hk
        exact t.pool_hash hk }

/-- Point element `q` behind its successor. -/
def dropNext (t : Table hash V) (q n : Nat) (h : (t.elem q).next = some n) : Table hash V :=
  t.replace q { t.elem q with next := (t.elem n).next } rfl fun hk =>
    ⟨lt_brk_of_next h, Nat.lt_trans (t.next_lt hk) (t.next_lt h),
      (t.next_hash hk).trans (t.next_hash h)⟩

/-- Take element `n` out of the chain of bucket `i`: the pointer to it becomes its successor. -/
def unlink (t : Table hash V) (i : Fin m) (n : Nat) :
    (phe : Option Nat) → t.link i phe = some n → Table hash V
  | none, h => t.dropHead i n h
  | some q, h => t.dropNext q n h

/-- The measure of the walks. -/
theorem next_rank (t : Table hash V) (n : Nat) :
    (t.elem n).next.elim 0 (· + 1) < n + 1 := by
  cases h : (t.elem n).next with
  | none => exact Nat.succ_pos n
  | some k => exact Nat.succ_lt_succ (t.next_lt h)

/-- The numbers of the elements from a pointer on. -/
def chain (t : Table hash V) : Option Nat → List Nat
  | none => []
  | some n => n :: t.chain (t.elem n).next
termination_by p => p.elim 0 (· + 1)
decreasing_by exact t.next_rank n

/-- The elements with the given numbers, as pairs of key and value. -/
def pairs (t : Table hash V) (l : List Nat) : List (K × V) :=
  l.map fun n => ((t.elem n).key, (t.elem n).value)

def bindings (t : Table hash V) (p : Option Nat) : List (K × V) := t.pairs (t.chain p)

/-- All elements, bucket by bucket. -/
def elems (t : Table hash V) : List Nat := (List.finRange m).flatMap fun i => t.chain (t.pool i)

def entries (t : Table hash V) : List (K × V) :=
  (List.finRange m).flatMap fun i => t.bindings (t.pool i)

/-! ## Chains -/

section Chains

variable {t t' : Table hash V}

@[simp] theorem chain_none : t.chain none = [] := by rw [chain]

theorem chain_some (n : Nat) : t.chain (some n) = n :: t.chain (t.elem n).next := by rw [chain]

/-- Numbers go down along a chain. -/
theorem lt_of_mem_next {n x : Nat} (h : x ∈ t.chain (t.elem n).next) : x < n := by
  induction hp : (t.elem n).next using chain.induct t generalizing n with
  | case1 =>
    rw [hp, chain_none] at h
    cases h
  | case2 k ih =>
    have hk := t.next_lt hp
    rw [hp, chain_some] at h
    obtain rfl | h := List.mem_cons.1 h
    · exact hk
    · exact Nat.lt_trans (ih h rfl) hk

theorem chain_pairwise (p : Option Nat) : (t.chain p).Pairwise fun a b => b < a := by
  induction p using chain.induct t with
  | case1 => simp
  | case2 n ih =>
    rw [chain_some, List.pairwise_cons]
    exact ⟨fun x hx => lt_of_mem_next hx, ih⟩

theorem lt_brk_of_mem {i : Fin m} {x : Nat} (h : x ∈ t.chain (t.pool i)) : x < t.brk := by
  cases hp : t.pool i with
  | none =>
    rw [hp, chain_none] at h
    cases h
  | some n =>
    rw [hp, chain_some] at h
    obtain rfl | h := List.mem_cons.1 h
    · exact t.pool_lt hp
    · exact Nat.lt_trans (lt_of_mem_next h) (t.pool_lt hp)

/-- All keys of a chain have the hash of the first. -/
theorem hash_of_mem_next {n x : Nat} (h : x ∈ t.chain (t.elem n).next) :
    hash (t.elem x).key = hash (t.elem n).key := by
  induction hp : (t.elem n).next using chain.induct t generalizing n with
  | case1 =>
    rw [hp, chain_none] at h
    cases h
  | case2 k ih =>
    have hk := t.next_hash hp
    rw [hp, chain_some] at h
    obtain rfl | h := List.mem_cons.1 h
    · exact hk
    · exact (ih h rfl).trans hk

theorem hash_of_mem {i : Fin m} {x : Nat} (h : x ∈ t.chain (t.pool i)) :
    hash (t.elem x).key = i := by
  cases hp : t.pool i with
  | none =>
    rw [hp, chain_none] at h
    cases h
  | some n =>
    rw [hp, chain_some] at h
    obtain rfl | h := List.mem_cons.1 h
    · exact t.pool_hash hp
    · exact (hash_of_mem_next h).trans (t.pool_hash hp)

/-- A walk reads the pointers of the elements it passes. -/
theorem chain_congr (p : Option Nat)
    (h : ∀ x ∈ t.chain p, (t'.elem x).next = (t.elem x).next) : t'.chain p = t.chain p := by
  induction p using chain.induct t with
  | case1 => rw [chain_none, chain_none]
  | case2 n ih =>
    rw [chain_some] at h
    have hrest := ih fun x hx => h x (List.mem_cons_of_mem _ hx)
    rw [chain_some, chain_some, h n List.mem_cons_self, hrest]

theorem pairs_append (l₁ l₂ : List Nat) : t.pairs (l₁ ++ l₂) = t.pairs l₁ ++ t.pairs l₂ :=
  List.map_append

theorem pairs_congr {l : List Nat} (h : ∀ x ∈ l, t'.elem x = t.elem x) : t'.pairs l = t.pairs l :=
  List.map_congr_left fun x hx => by rw [h x hx]

theorem bindings_congr (p : Option Nat) (h : ∀ x ∈ t.chain p, t'.elem x = t.elem x) :
    t'.bindings p = t.bindings p := by
  have hchain : t'.chain p = t.chain p := chain_congr p fun x hx => by rw [h x hx]
  rw [bindings, bindings, hchain, pairs_congr h]

/-- What follows an element of a chain is the chain of its successor. -/
theorem chain_after {l r : List Nat} {n : Nat} (p : Option Nat) (h : t.chain p = l ++ n :: r) :
    r = t.chain (t.elem n).next := by
  induction l generalizing p with
  | nil =>
    cases p with
    | none =>
      rw [chain_none] at h
      cases h
    | some a =>
      rw [chain_some] at h
      cases h
      rfl
  | cons b l ih =>
    cases p with
    | none =>
      rw [chain_none] at h
      cases h
    | some a =>
      rw [chain_some] at h
      exact ih _ (List.cons.inj h).2

/-- A chain up to an element is kept as long as the pointers before it are. -/
theorem chain_before {l r : List Nat} {n : Nat} (p : Option Nat) (h : t.chain p = l ++ n :: r)
    (hl : ∀ x ∈ l, (t'.elem x).next = (t.elem x).next) :
    t'.chain p = l ++ n :: t'.chain (t'.elem n).next := by
  induction l generalizing p with
  | nil =>
    cases p with
    | none =>
      rw [chain_none] at h
      cases h
    | some a =>
      rw [chain_some] at h
      cases h
      rw [chain_some, List.nil_append]
  | cons b l ih =>
    cases p with
    | none =>
      rw [chain_none] at h
      cases h
    | some a =>
      rw [chain_some] at h
      obtain ⟨rfl, hrest⟩ := List.cons.inj h
      have hkept := ih _ hrest fun x hx => hl x (List.mem_cons_of_mem _ hx)
      rw [chain_some, hl a List.mem_cons_self, hkept]
      rfl

theorem entries_eq : t.entries = t.pairs t.elems := by
  simp only [entries, elems, bindings, pairs, List.map_flatMap]

/-- No element is in two places. -/
theorem nodup_elems : t.elems.Nodup := by
  rw [elems, List.nodup_flatMap]
  refine ⟨fun i _ => ?_, (List.nodup_finRange m).imp ?_⟩
  · exact (chain_pairwise _).imp fun hlt => Nat.ne_of_gt hlt
  · intro i j hij x hi hj
    exact hij ((hash_of_mem hi).symm.trans (hash_of_mem hj))

/-! ### Taking an element out -/

theorem pairs_unlink {i : Fin m} {q : Option Nat} {n : Nat} (h : t.link i q = some n)
    (l : List Nat) : (t.unlink i n q h).pairs l = t.pairs l := by
  cases q with
  | none => rfl
  | some a =>
    refine List.map_congr_left fun x _ => ?_
    by_cases hx : x = a
    · simp only [hx, unlink, dropNext, replace, Function.update_self]
    · simp only [unlink, dropNext, replace, Function.update_of_ne hx]

/-- The chain closes over the element that is taken out, at its head, in the middle or at its
    end. -/
theorem chain_unlink {i : Fin m} {q : Option Nat} {n : Nat} (h : t.link i q = some n)
    {l r : List Nat} (hchain : t.chain (t.pool i) = l ++ n :: r) (hq : q = l.getLast?) :
    (t.unlink i n q h).chain ((t.unlink i n q h).pool i) = l ++ r := by
  have hr := chain_after _ hchain
  cases q with
  | none =>
    have hl : l = [] := List.getLast?_eq_none_iff.1 hq.symm
    have hpool : (t.unlink i n none h).pool i = (t.elem n).next := Function.update_self ..
    rw [hpool, hl, List.nil_append, hr]
    exact chain_congr _ fun _ _ => rfl
  | some a =>
    obtain ⟨l', rfl⟩ := List.getLast?_eq_some_iff.1 hq.symm
    have hpair := chain_pairwise (t := t) (t.pool i)
    rw [hchain, List.append_assoc, List.pairwise_append] at hpair
    have hkept : ∀ x, x ≠ a → ((t.unlink i n (some a) h).elem x).next = (t.elem x).next := by
      intro x hx
      simp only [unlink, dropNext, replace, Function.update_of_ne hx]
    have hnext : ((t.unlink i n (some a) h).elem a).next = (t.elem n).next := by
      simp only [unlink, dropNext, replace, Function.update_self]
    have hlt : n < a := t.next_lt h
    have hsplit : t.chain (t.pool i) = l' ++ a :: (n :: r) := by
      rw [hchain, List.append_assoc]
      rfl
    have hbefore : (t.unlink i n (some a) h).chain (t.pool i) =
        l' ++ a :: (t.unlink i n (some a) h).chain ((t.unlink i n (some a) h).elem a).next :=
      chain_before _ hsplit fun x hx =>
        hkept x (Nat.ne_of_gt (hpair.2.2 x hx a List.mem_cons_self))
    have hrest : (t.unlink i n (some a) h).chain (t.elem n).next = r := by
      rw [hr]
      exact chain_congr _ fun x hx => hkept x (by have := lt_of_mem_next hx; omega)
    show (t.unlink i n (some a) h).chain (t.pool i) = l' ++ [a] ++ r
    rw [hbefore, hnext, hrest, List.append_assoc]
    rfl

theorem chain_unlink_ne {i j : Fin m} {q : Option Nat} {n : Nat} (h : t.link i q = some n)
    {l r : List Nat} (hchain : t.chain (t.pool i) = l ++ n :: r) (hq : q = l.getLast?)
    (hj : j ≠ i) :
    (t.unlink i n q h).chain ((t.unlink i n q h).pool j) = t.chain (t.pool j) := by
  cases q with
  | none =>
    have hpool : (t.unlink i n none h).pool j = t.pool j := Function.update_of_ne hj ..
    rw [hpool]
    exact chain_congr _ fun _ _ => rfl
  | some a =>
    obtain ⟨l', rfl⟩ := List.getLast?_eq_some_iff.1 hq.symm
    have ha : a ∈ t.chain (t.pool i) := by
      rw [hchain]
      simp
    refine chain_congr _ fun x hx => ?_
    have hx' : x ≠ a := by
      rintro rfl
      exact hj ((hash_of_mem hx).symm.trans (hash_of_mem ha))
    simp only [unlink, dropNext, replace, Function.update_of_ne hx']

end Chains

/-! ## Finding a key -/

variable [DecidableEq K]

/-- The first element with the key. -/
def findFrom (t : Table hash V) (k : K) : Option Nat → Option Nat
  | none => none
  | some n => if (t.elem n).key = k then some n else t.findFrom k (t.elem n).next
termination_by p => p.elim 0 (· + 1)
decreasing_by exact t.next_rank n

def get (t : Table hash V) (k : K) : Option Nat := t.findFrom k (t.pool (hash k))

/-- The first element with the key, and the one before it. -/
def seek (t : Table hash V) (k : K) (phe : Option Nat) : Option Nat → Option (Option Nat × Nat)
  | none => none
  | some n => if (t.elem n).key = k then some (phe, n) else t.seek k (some n) (t.elem n).next
termination_by p => p.elim 0 (· + 1)
decreasing_by exact t.next_rank n

/-- `seek` ends behind a pointer to the element it found. -/
theorem link_of_seek {t : Table hash V} {k : K} {i : Fin m} {q : Option Nat} {n : Nat}
    (p phe : Option Nat) (hp : t.link i phe = p) (h : t.seek k phe p = some (q, n)) :
    t.link i q = some n := by
  induction p using chain.induct t generalizing phe with
  | case1 =>
    rw [seek] at h
    cases h
  | case2 n' ih =>
    rw [seek] at h
    split at h
    · cases h
      exact hp
    · exact ih (some n') rfl h

/-- Unlink the first element with the key. -/
def delete (t : Table hash V) (k : K) : Table hash V :=
  match h : t.seek k none (t.pool (hash k)) with
  | none => t
  | some (phe, n) => t.unlink (hash k) n phe (link_of_seek _ none rfl h)

/-! ## One stack for each key -/

/-- The values bound to a key, in order. -/
def valuesOf (k : K) (l : List (K × V)) : List V :=
  (l.filter fun b => b.1 = k).map Prod.snd

/-- The values that the table holds for a key, the last one pushed first. -/
def stack (t : Table hash V) (k : K) : List V := valuesOf k (t.bindings (t.pool (hash k)))

@[simp] theorem valuesOf_nil (k : K) : valuesOf k ([] : List (K × V)) = [] := rfl

theorem valuesOf_append (k : K) (l₁ l₂ : List (K × V)) :
    valuesOf k (l₁ ++ l₂) = valuesOf k l₁ ++ valuesOf k l₂ := by
  simp [valuesOf]

theorem valuesOf_cons (k k' : K) (v : V) (l : List (K × V)) :
    valuesOf k ((k', v) :: l) = if k' = k then v :: valuesOf k l else valuesOf k l := by
  by_cases h : k' = k <;> simp [valuesOf, h]

theorem valuesOf_eq_nil {k : K} {l : List (K × V)} (h : ∀ b ∈ l, b.1 ≠ k) : valuesOf k l = [] := by
  have hfilter : (l.filter fun b => b.1 = k) = [] := by
    rw [List.filter_eq_nil_iff]
    intro b hb
    simpa using h b hb
  rw [valuesOf, hfilter, List.map_nil]

section Stacks

variable {t : Table hash V} {k : K}

@[simp] theorem stack_empty [Inhabited K] [Inhabited V] (k : K) :
    (empty : Table hash V).stack k = [] := by
  simp [stack, empty, bindings, pairs]

@[simp] theorem stack_clear (k : K) : t.clear.stack k = [] := by
  simp [stack, clear, bindings, pairs]

/-- A push reaches the stack of its own key alone. -/
theorem stack_push (k : K) (v : V) (k' : K) :
    (t.push k v).stack k' = if k = k' then v :: t.stack k' else t.stack k' := by
  have hold : ∀ i, (t.push k v).bindings (t.pool i) = t.bindings (t.pool i) := by
    intro i
    exact bindings_congr _ fun x hx => elem_of_lt (lt_brk_of_mem hx) _
  by_cases hb : hash k' = hash k
  · have hpool : (t.push k v).pool (hash k') = some t.brk := by
      simp only [push, hb, Function.update_self]
    have hnew : (t.push k v).elem t.brk = ⟨k, v, t.pool (hash k)⟩ := by
      simp only [push, Function.update_self]
    have hb' : (t.push k v).bindings (some t.brk) = (k, v) :: t.bindings (t.pool (hash k)) := by
      rw [← hold, bindings, chain_some, pairs, List.map_cons, hnew]
      rfl
    rw [stack, hpool, hb', valuesOf_cons, stack, hb]
  · have hpool : (t.push k v).pool (hash k') = t.pool (hash k') := by
      simp only [push, Function.update_of_ne hb]
    have hne : k ≠ k' := fun h => hb (congrArg hash h).symm
    rw [stack, hpool, hold, if_neg hne, stack]

/-- `findFrom` stops at the first element with the key. -/
theorem findFrom_eq_some {p : Option Nat} {n : Nat} (h : t.findFrom k p = some n) :
    ∃ l r, t.chain p = l ++ n :: r ∧ (∀ x ∈ l, (t.elem x).key ≠ k) ∧ (t.elem n).key = k := by
  induction p using chain.induct t with
  | case1 =>
    rw [findFrom] at h
    cases h
  | case2 n' ih =>
    rw [findFrom] at h
    split at h
    next hk =>
      cases h
      exact ⟨[], t.chain (t.elem n).next, chain_some n, fun x hx => (by cases hx), hk⟩
    next hk =>
      obtain ⟨l, r, hl, hne, hkey⟩ := ih h
      refine ⟨n' :: l, r, by rw [chain_some, hl]; rfl, fun x hx => ?_, hkey⟩
      obtain rfl | hx := List.mem_cons.1 hx
      · exact hk
      · exact hne x hx

theorem findFrom_eq_none {p : Option Nat} (h : t.findFrom k p = none) :
    ∀ x ∈ t.chain p, (t.elem x).key ≠ k := by
  induction p using chain.induct t with
  | case1 => simp
  | case2 n ih =>
    rw [findFrom] at h
    split at h
    · cases h
    next hk =>
      intro x hx
      rw [chain_some] at hx
      obtain rfl | hx := List.mem_cons.1 hx
      · exact hk
      · exact ih h x hx

theorem valuesOf_pairs_nil {l : List Nat} (h : ∀ x ∈ l, (t.elem x).key ≠ k) :
    valuesOf k (t.pairs l) = [] := by
  apply valuesOf_eq_nil
  intro b hb
  obtain ⟨x, hx, rfl⟩ := List.mem_map.1 hb
  exact h x hx

theorem valuesOf_pairs_cons (n : Nat) (r : List Nat) :
    valuesOf k (t.pairs (n :: r)) =
      if (t.elem n).key = k then (t.elem n).value :: valuesOf k (t.pairs r)
      else valuesOf k (t.pairs r) :=
  valuesOf_cons k _ _ _

/-- The first element with the key is the top of its stack. -/
theorem valuesOf_top {l r : List Nat} {n : Nat} (hl : ∀ x ∈ l, (t.elem x).key ≠ k)
    (hn : (t.elem n).key = k) :
    valuesOf k (t.pairs (l ++ n :: r)) = (t.elem n).value :: valuesOf k (t.pairs r) := by
  rw [pairs_append, valuesOf_append, valuesOf_pairs_nil hl, valuesOf_pairs_cons, if_pos hn,
    List.nil_append]

/-- An element with another key is in no way of the stack. -/
theorem valuesOf_other {l r : List Nat} {n : Nat} (hn : (t.elem n).key ≠ k) :
    valuesOf k (t.pairs (l ++ n :: r)) = valuesOf k (t.pairs (l ++ r)) := by
  rw [pairs_append, pairs_append, valuesOf_append, valuesOf_append, valuesOf_pairs_cons,
    if_neg hn]

/-- `get` finds the top of the stack. -/
theorem get_value (k : K) : (t.get k).map (fun n => (t.elem n).value) = (t.stack k).head? := by
  cases h : t.get k with
  | none =>
    have hnone : t.stack k = [] := valuesOf_pairs_nil (findFrom_eq_none h)
    rw [hnone]
    rfl
  | some n =>
    obtain ⟨l, r, hchain, hl, hn⟩ := findFrom_eq_some h
    rw [stack, bindings, hchain, valuesOf_top hl hn]
    rfl

theorem get_key {n : Nat} (h : t.get k = some n) : (t.elem n).key = k := by
  obtain ⟨l, r, -, -, hn⟩ := findFrom_eq_some h
  exact hn

/-- Overwriting the value that `get` found replaces the top of that stack. -/
theorem stack_setValue {n : Nat} (h : t.get k = some n) (v : V) (k' : K) :
    (t.setValue n v).stack k' = if k = k' then v :: (t.stack k').tail else t.stack k' := by
  obtain ⟨l, r, hchain, hl, hn⟩ := findFrom_eq_some h
  have hkeys : ∀ x, ((t.setValue n v).elem x).key = (t.elem x).key := by
    intro x
    by_cases hx : x = n
    · simp only [hx, setValue, replace, Function.update_self]
    · simp only [setValue, replace, Function.update_of_ne hx]
  have hkept : ∀ x, x ≠ n → (t.setValue n v).elem x = t.elem x := fun x hx =>
    Function.update_of_ne hx _ _
  have hsame : ∀ p, (t.setValue n v).chain p = t.chain p := by
    intro p
    refine chain_congr p fun x _ => ?_
    by_cases hx : x = n
    · simp only [hx, setValue, replace, Function.update_self]
    · rw [hkept x hx]
  by_cases hb : hash k' = hash k
  · have hpair := chain_pairwise (t := t) (t.pool (hash k))
    rw [hchain, List.pairwise_append, List.pairwise_cons] at hpair
    obtain ⟨-, ⟨hafter, -⟩, hbefore⟩ := hpair
    have hr : (t.setValue n v).pairs r = t.pairs r :=
      pairs_congr fun x hx => hkept x (Nat.ne_of_lt (hafter x hx))
    have hl' : (t.setValue n v).pairs l = t.pairs l :=
      pairs_congr fun x hx => hkept x (Nat.ne_of_gt (hbefore x hx n List.mem_cons_self))
    have hnew : (t.setValue n v).stack k' = valuesOf k' ((t.setValue n v).pairs (l ++ n :: r)) := by
      rw [stack, bindings, hsame, hb]
      exact congrArg (fun c => valuesOf k' ((t.setValue n v).pairs c)) hchain
    have hold : t.stack k' = valuesOf k' (t.pairs (l ++ n :: r)) := by
      rw [stack, bindings, hb, hchain]
    by_cases hk : k = k'
    · subst hk
      rw [hnew, hold, valuesOf_top (fun x hx => hkeys x ▸ hl x hx) (hkeys n ▸ hn),
        valuesOf_top hl hn, hr, if_pos rfl, List.tail_cons]
      simp only [setValue, replace, Function.update_self]
    · have hne : (t.elem n).key ≠ k' := hn ▸ hk
      rw [hnew, hold, valuesOf_other (hkeys n ▸ hne), valuesOf_other hne, pairs_append,
        pairs_append, hr, hl', if_neg hk]
  · have hne : k ≠ k' := fun hk => hb (congrArg hash hk).symm
    rw [if_neg hne]
    refine congrArg (valuesOf k') (bindings_congr _ fun x hx => hkept x ?_)
    rintro rfl
    exact hb ((hash_of_mem hx).symm.trans (congrArg hash hn))

/-! ## Deletion -/

theorem seek_eq_some {p phe q : Option Nat} {n : Nat} (h : t.seek k phe p = some (q, n)) :
    ∃ l r, t.chain p = l ++ n :: r ∧ (∀ x ∈ l, (t.elem x).key ≠ k) ∧ (t.elem n).key = k ∧
      q = l.getLast?.or phe := by
  induction p using chain.induct t generalizing phe with
  | case1 =>
    rw [seek] at h
    cases h
  | case2 n' ih =>
    rw [seek] at h
    split at h
    next hk =>
      cases h
      exact ⟨[], t.chain (t.elem n).next, chain_some n, fun x hx => (by cases hx), hk, rfl⟩
    next hk =>
      obtain ⟨l, r, hl, hne, hkey, hq⟩ := ih h
      refine ⟨n' :: l, r, by rw [chain_some, hl]; rfl, fun x hx => ?_, hkey, ?_⟩
      · obtain rfl | hx := List.mem_cons.1 hx
        · exact hk
        · exact hne x hx
      · rw [hq, List.getLast?_cons]
        cases l.getLast? <;> rfl

theorem seek_eq_none {p phe : Option Nat} (h : t.seek k phe p = none) :
    ∀ x ∈ t.chain p, (t.elem x).key ≠ k := by
  induction p using chain.induct t generalizing phe with
  | case1 => simp
  | case2 n ih =>
    rw [seek] at h
    split at h
    · cases h
    next hk =>
      intro x hx
      rw [chain_some] at hx
      obtain rfl | hx := List.mem_cons.1 hx
      · exact hk
      · exact ih h x hx

/-- A deletion pops the stack of its own key alone. -/
theorem stack_delete (k k' : K) :
    (t.delete k).stack k' = if k = k' then (t.stack k').tail else t.stack k' := by
  rw [delete]
  split
  next h =>
    have hnone := seek_eq_none h
    by_cases hk : k = k'
    · subst hk
      have hempty : t.stack k = [] := valuesOf_pairs_nil hnone
      rw [if_pos rfl, hempty]
      rfl
    · rw [if_neg hk]
  next q n h =>
    obtain ⟨l, r, hchain, hl, hn, hq⟩ := seek_eq_some h
    rw [Option.or_none] at hq
    by_cases hb : hash k' = hash k
    · have hnew := chain_unlink (link_of_seek _ none rfl h) hchain hq
      rw [stack, bindings, pairs_unlink, hb, hnew, stack, bindings, hb, hchain]
      by_cases hk : k = k'
      · subst hk
        rw [valuesOf_top hl hn, if_pos rfl, List.tail_cons, pairs_append, valuesOf_append,
          valuesOf_pairs_nil hl, List.nil_append]
      · rw [if_neg hk, valuesOf_other (hn ▸ hk)]
    · have hne : k ≠ k' := fun hk => hb (congrArg hash hk).symm
      rw [stack, bindings, pairs_unlink, chain_unlink_ne _ hchain hq hb, if_neg hne, stack,
        bindings]

/-! ## All entries -/

/-- Lists that bind the same values to every key bind the same pairs. -/
theorem perm_of_valuesOf [DecidableEq V] {l₁ l₂ : List (K × V)}
    (h : ∀ k, valuesOf k l₁ = valuesOf k l₂) : l₁.Perm l₂ := by
  have hcount : ∀ (l : List (K × V)) (k : K) (v : V), l.count (k, v) = (valuesOf k l).count v := by
    intro l k v
    induction l with
    | nil => rfl
    | cons b l ih =>
      rw [List.count_cons, ih, valuesOf_cons]
      by_cases hk : b.1 = k
      · rw [if_pos hk, List.count_cons]
        simp [Prod.ext_iff, hk]
      · rw [if_neg hk]
        simp [Prod.ext_iff, hk]
  rw [List.perm_iff_count]
  rintro ⟨k, v⟩
  rw [hcount, hcount, h]

theorem valuesOf_map {ks : List K} (hks : ks.Nodup) (v : K → V) (k : K) :
    valuesOf k (ks.map fun k => (k, v k)) = if k ∈ ks then [v k] else [] := by
  induction ks with
  | nil => rfl
  | cons k' ks ih =>
    have hnot := (List.nodup_cons.1 hks).1
    rw [List.map_cons, valuesOf_cons, ih (List.nodup_cons.1 hks).2]
    by_cases hk : k' = k
    · subst hk
      rw [if_pos rfl, if_neg hnot, if_pos List.mem_cons_self]
    · rw [if_neg hk]
      simp only [List.mem_cons, Ne.symm hk, false_or]

/-- The entries hold the stack of each key, and nothing else. -/
theorem valuesOf_entries (k : K) : valuesOf k t.entries = t.stack k := by
  have hgen : ∀ l : List (Fin m), l.Nodup → valuesOf k (l.flatMap fun i => t.bindings (t.pool i)) =
      if hash k ∈ l then t.stack k else [] := by
    intro l
    induction l with
    | nil => simp
    | cons i l ih =>
      intro hl
      have hrest := ih (List.nodup_cons.1 hl).2
      rw [List.flatMap_cons, valuesOf_append, hrest]
      by_cases hi : i = hash k
      · subst hi
        rw [if_neg (List.nodup_cons.1 hl).1, if_pos List.mem_cons_self, List.append_nil, stack]
      · have hnone : valuesOf k (t.bindings (t.pool i)) = [] :=
          valuesOf_pairs_nil fun x hx hk => hi ((hash_of_mem hx).symm.trans (congrArg hash hk))
        simp only [hnone, List.nil_append, List.mem_cons, Ne.symm hi, false_or]
  rw [entries, hgen _ (List.nodup_finRange m), if_pos (List.mem_finRange _)]

/-- The entries of a table with one value for each of the keys `ks`. -/
theorem entries_perm [DecidableEq V] {ks : List K} (hks : ks.Nodup) (v : K → V)
    (h : ∀ k, t.stack k = if k ∈ ks then [v k] else []) :
    t.entries.Perm (ks.map fun k => (k, v k)) := by
  apply perm_of_valuesOf
  intro k
  rw [valuesOf_entries, h, valuesOf_map hks]

end Stacks

end Table

end HashChain
