/-
  The hash table of `utils/hash.c`: `HASH_SIZE` buckets over byte strings. Keys and values are
  copied into the table, so an element holds the bytes it was pushed with; `hash_get` gives
  the element itself, and the profilers write its value in place.

  `hash_spec`: whatever was pushed and deleted before, under keys of whatever hash, the table
  is one stack of values for each key.
-/
import NemuMips32.Lib.HashChain
import NemuMips32.Reg

namespace NemuMips32

open HashChain

/-- `hash_kv_t`: a buffer and its size. -/
abbrev Bytes := List (BitVec 8)

def HASH_SIZE : Nat := 4 * 1024

/-- `bkdr_hash`, of a key that its `int i` can index. -/
def bkdrHash (key : Bytes) : Fin HASH_SIZE :=
  let h : Word := key.foldl (fun h b => h * 131 + b.setWidth 32) 0
  ⟨(h &&& 0x7FFFFFFF).toNat % HASH_SIZE, Nat.mod_lt _ (by decide)⟩

abbrev HashTable := Table bkdrHash Bytes

/-- `hash_init`. -/
def hashInit : HashTable := .empty

/-- `hash_push`. -/
def hashPush (ht : HashTable) (key value : Bytes) : HashTable := ht.push key value

/-- `hash_get`: the element, or none for NULL. -/
def hashGet (ht : HashTable) (key : Bytes) : Option Nat := ht.get key

/-- `hash_delete`. -/
def hashDelete (ht : HashTable) (key : Bytes) : HashTable := ht.delete key

/-- `hash_free`. -/
def hashFree (ht : HashTable) : HashTable := ht.clear

/-- `hash_foreach`: the elements in the order of the visit. -/
def hashForeach (ht : HashTable) : List Nat := ht.elems

/-! ## Runs -/

inductive HashOp where
  | push (key value : Bytes)
  | delete (key : Bytes)

def hashStep (ht : HashTable) : HashOp → HashTable
  | .push key value => hashPush ht key value
  | .delete key => hashDelete ht key

def hashRun (ops : List HashOp) : HashTable := ops.foldl hashStep hashInit

/-- The values of `k` that were pushed and not yet deleted, the last one first. -/
def remaining (k : Bytes) (ops : List HashOp) : List Bytes :=
  ops.foldl (fun vs op =>
    match op with
    | .push key value => if key = k then value :: vs else vs
    | .delete key => if key = k then vs.tail else vs) []

theorem stack_hashRun (ops : List HashOp) (k : Bytes) :
    (hashRun ops).stack k = remaining k ops := by
  induction ops using List.reverseRecOn with
  | nil => exact Table.stack_empty k
  | append_singleton ops op ih =>
    rw [hashRun, remaining, List.foldl_append, List.foldl_append]
    rw [hashRun, remaining] at ih
    cases op with
    | push key value =>
      simp only [List.foldl_cons, List.foldl_nil, hashStep, hashPush, Table.stack_push, ih]
    | delete key =>
      simp only [List.foldl_cons, List.foldl_nil, hashStep, hashDelete, Table.stack_delete, ih]

/-- The table is a stack of values for each key: `hash_get` finds the last value pushed and not
    yet deleted, and `hash_foreach` visits each remaining binding once. -/
theorem hash_spec (ops : List HashOp) (k : Bytes) :
    (hashGet (hashRun ops) k).map (fun n => ((hashRun ops).elem n).value) =
        (remaining k ops).head? ∧
      (∀ n, hashGet (hashRun ops) k = some n → ((hashRun ops).elem n).key = k) ∧
      Table.valuesOf k ((hashRun ops).pairs (hashForeach (hashRun ops))) = remaining k ops ∧
      (hashForeach (hashRun ops)).Nodup ∧ (bkdrHash k).val < HASH_SIZE := by
  refine ⟨?_, fun n hn => Table.get_key hn, ?_, Table.nodup_elems, (bkdrHash k).isLt⟩
  · rw [← stack_hashRun]
    exact Table.get_value k
  · rw [← stack_hashRun, ← Table.valuesOf_entries, Table.entries_eq]
    rfl

end NemuMips32
