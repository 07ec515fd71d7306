/-
  The instruction profile of `instr-perf.c`: a hash table from the label of an instruction to
  an `int`. The first record of a label pushes the counter 0 and only a later one adds 1, so
  every counter is one short (`stack_instrperfRun`) and the report counts each label once too
  few (`instrperf_total`). The profile is exact for the empty run alone (`profileExact_iff`).
-/
import Mathlib.Algebra.BigOperators.Group.List.Lemmas
import NemuMips32.Hash
import NemuMips32.Lib.Words

namespace NemuMips32

open HashChain Words

/-! ## Program -/

/-- `*(int *)he->value.buf`. -/
def intAt (ht : HashTable) (he : Nat) : Word := BitVec.ofNat 32 (leNat (ht.elem he).value)

/-- `instrperf_start`. -/
def instrperfStart : HashTable := hashInit

/-- `instrperf_record`; the label is the `size` bytes at `instr`. -/
def instrperfRecord (ht : HashTable) (instr : Bytes) : HashTable :=
  match hashGet ht instr with
  | some he => ht.setValue he (leBytes 4 (intAt ht he + 1).toNat)
  | none => hashPush ht instr (leBytes 4 0)

/-- The first loop of `instrperf_report`. -/
def instrperfTotal (ht : HashTable) : BitVec 64 :=
  (hashForeach ht).foldl (fun total he => total + (intAt ht he).signExtend 64) 0

/-- `instrperf_report`: the counter and the label of each line, and the total they are shares
    of. -/
def instrperfReport (ht : HashTable) : List (Word × Bytes) × BitVec 64 × HashTable :=
  ((hashForeach ht).map fun he => (intAt ht he, (ht.elem he).key), instrperfTotal ht, hashFree ht)

def instrperfRun (labels : List Bytes) : HashTable := labels.foldl instrperfRecord instrperfStart

/-! ## What a run counts -/

/-- What a record does to the stack of its label. -/
def bump : List Bytes → List Bytes
  | [] => [leBytes 4 0]
  | v :: vs => leBytes 4 (BitVec.ofNat 32 (leNat v) + 1 : Word).toNat :: vs

theorem stack_instrperfRecord (ht : HashTable) (instr k : Bytes) :
    (instrperfRecord ht instr).stack k =
      if instr = k then bump (ht.stack k) else ht.stack k := by
  have hget := Table.get_value (t := ht) instr
  rw [instrperfRecord]
  split
  next he h =>
    rw [Table.stack_setValue h]
    by_cases hk : instr = k
    · subst hk
      rw [show ht.get instr = some he from h] at hget
      cases hs : ht.stack instr with
      | nil =>
        rw [hs] at hget
        cases hget
      | cons v vs =>
        rw [hs, Option.map_some, List.head?_cons, Option.some.injEq] at hget
        rw [if_pos rfl, if_pos rfl, bump, intAt, hget]
        rfl
    · rw [if_neg hk, if_neg hk]
  next h =>
    rw [hashPush, Table.stack_push]
    by_cases hk : instr = k
    · subst hk
      rw [show ht.get instr = none from h] at hget
      have hempty : ht.stack instr = [] := List.head?_eq_none_iff.1 hget.symm
      rw [if_pos rfl, if_pos rfl, hempty, bump]
    · rw [if_neg hk, if_neg hk]

/-- A label that was recorded `c` times has one entry, and its counter is `c - 1`. -/
theorem stack_instrperfRun (labels : List Bytes) (k : Bytes) :
    (instrperfRun labels).stack k =
      if k ∈ labels then [leBytes 4 ((labels.count k - 1) % 2 ^ 32)] else [] := by
  induction labels using List.reverseRecOn with
  | nil => exact Table.stack_empty k
  | append_singleton labels instr ih =>
    have hrun : instrperfRun (labels ++ [instr]) = instrperfRecord (instrperfRun labels) instr := by
      rw [instrperfRun, List.foldl_append]
      rfl
    rw [hrun, stack_instrperfRecord, ih]
    by_cases hk : instr = k
    · subst hk
      have hself : instr ∈ labels ++ [instr] := by simp
      rw [if_pos rfl, if_pos hself, List.count_append, List.count_singleton_self]
      by_cases hmem : instr ∈ labels
      · have hpos := List.count_pos_iff.2 hmem
        have hnext : (BitVec.ofNat 32 ((labels.count instr - 1) % 2 ^ 32) + 1 : Word).toNat =
            (labels.count instr + 1 - 1) % 2 ^ 32 := by
          rw [BitVec.toNat_add, BitVec.toNat_ofNat]
          show ((labels.count instr - 1) % 2 ^ 32 % 2 ^ 32 + 1) % 2 ^ 32 = _
          omega
        have h256 : 256 ^ 4 = 2 ^ 32 := by decide
        rw [if_pos hmem, bump, leNat_leBytes, h256, Nat.mod_mod, hnext]
      · rw [if_neg hmem, bump, List.count_eq_zero_of_not_mem hmem]
        rfl
    · rw [if_neg hk, List.count_append, List.count_singleton, beq_false_of_ne hk]
      simp [Ne.symm hk]

/-- The element of a recorded label and its counter. -/
theorem hashGet_instrperfRun {labels : List Bytes} {k : Bytes} (h : k ∈ labels) :
    ∃ he, hashGet (instrperfRun labels) k = some he ∧
      intAt (instrperfRun labels) he = BitVec.ofNat 32 (labels.count k - 1) := by
  have hget := Table.get_value (t := instrperfRun labels) k
  rw [stack_instrperfRun, if_pos h] at hget
  cases hhe : hashGet (instrperfRun labels) k with
  | none =>
    rw [show (instrperfRun labels).get k = none from hhe] at hget
    cases hget
  | some he =>
    rw [show (instrperfRun labels).get k = some he from hhe, Option.map_some, List.head?_cons,
      Option.some.injEq] at hget
    refine ⟨he, rfl, ?_⟩
    rw [intAt, hget, leNat_leBytes]
    apply BitVec.eq_of_toNat_eq
    simp only [BitVec.toNat_ofNat]
    omega

/-- The entries of the profile: one for each label, in some order. -/
theorem entries_instrperfRun (labels : List Bytes) :
    (instrperfRun labels).entries.Perm
      (labels.dedup.map fun k => (k, leBytes 4 ((labels.count k - 1) % 2 ^ 32))) := by
  refine Table.entries_perm labels.nodup_dedup _ fun k => ?_
  rw [stack_instrperfRun]
  simp only [List.mem_dedup]

/-- A sum over the elements is a sum over the entries, in any order. -/
theorem instrperfTotal_eq (ht : HashTable) {l : List (Bytes × Bytes)} (h : ht.entries.Perm l) :
    instrperfTotal ht =
      l.foldl (fun total b => total + (BitVec.ofNat 32 (leNat b.2)).signExtend 64) 0 := by
  have hcomm : RightCommutative fun (total : BitVec 64) (b : Bytes × Bytes) =>
      total + (BitVec.ofNat 32 (leNat b.2)).signExtend 64 :=
    ⟨fun a b c => by
      rw [BitVec.add_assoc, BitVec.add_assoc]
      exact congrArg (a + ·) (BitVec.add_comm _ _)⟩
  rw [← h.foldl_eq, Table.entries_eq, Table.pairs, List.foldl_map]
  rfl

theorem foldl_ofNat (l : List Bytes) (f : Bytes → Nat) (a : Nat) :
    l.foldl (fun total k => total + BitVec.ofNat 64 (f k)) (BitVec.ofNat 64 a) =
      BitVec.ofNat 64 (a + (l.map f).sum) := by
  induction l generalizing a with
  | nil => rfl
  | cons k l ih =>
    rw [List.foldl_cons, ← BitVec.ofNat_add, ih, List.map_cons, List.sum_cons, Nat.add_assoc]

theorem sum_count_sub_one (labels : List Bytes) :
    (labels.dedup.map fun k => labels.count k - 1).sum = labels.length - labels.dedup.length := by
  have hgen : ∀ l : List Bytes, (∀ k ∈ l, 0 < labels.count k) →
      (l.map fun k => labels.count k - 1).sum + l.length = (l.map fun k => labels.count k).sum := by
    intro l
    induction l with
    | nil => simp
    | cons k l ih =>
      intro hpos
      have hk := hpos k List.mem_cons_self
      have hl := ih fun x hx => hpos x (List.mem_cons_of_mem _ hx)
      simp only [List.map_cons, List.sum_cons, List.length_cons]
      omega
  have hsum := hgen labels.dedup fun k hk => List.count_pos_iff.2 (List.mem_dedup.1 hk)
  have hlen : (labels.dedup.map fun k => labels.count k).sum = labels.length := by
    convert List.sum_map_count_dedup_eq_length labels
    rfl
  omega

/-- As long as no counter overflows, the total is the number of records less the number of
    labels. -/
theorem instrperf_total {labels : List Bytes} (h : ∀ k, labels.count k ≤ 2 ^ 31) :
    instrperfTotal (instrperfRun labels) =
      BitVec.ofNat 64 (labels.length - labels.dedup.length) := by
  have hvalue : ∀ k,
      (BitVec.ofNat 32 (leNat (leBytes 4 ((labels.count k - 1) % 2 ^ 32)))).signExtend 64 =
        BitVec.ofNat 64 (labels.count k - 1) := by
    intro k
    have hk := h k
    have hlow : leNat (leBytes 4 ((labels.count k - 1) % 2 ^ 32)) = labels.count k - 1 := by
      rw [leNat_leBytes]
      omega
    have hmsb : (BitVec.ofNat 32 (labels.count k - 1)).msb = false := by
      rw [BitVec.msb_eq_false_iff_two_mul_lt, BitVec.toNat_ofNat]
      omega
    rw [hlow, BitVec.signExtend_eq_setWidth_of_msb_false hmsb]
    apply BitVec.eq_of_toNat_eq
    simp only [BitVec.toNat_setWidth, BitVec.toNat_ofNat]
    omega
  rw [instrperfTotal_eq _ (entries_instrperfRun labels), List.foldl_map]
  simp only [hvalue]
  have hfold := foldl_ofNat labels.dedup (fun k => labels.count k - 1) 0
  rw [sum_count_sub_one, Nat.zero_add] at hfold
  exact hfold

/-! ## An exact profile -/

/-- Each counter is the number of records of its label, each label has one entry, and the total
    is the number of records. -/
structure ProfileExact (labels : List Bytes) : Prop where
  counter : ∀ k ∈ labels, ∃ he, hashGet (instrperfRun labels) k = some he ∧
    (intAt (instrperfRun labels) he).toInt = labels.count k
  entry : ∀ k ∈ labels, (Table.valuesOf k
    ((instrperfRun labels).pairs (hashForeach (instrperfRun labels)))).length = 1
  total : (instrperfTotal (instrperfRun labels)).toInt = labels.length

/-- A counter that is one short, and counts modulo 2^32, is never right. -/
theorem not_counted {c : Nat} (h : 0 < c) : (BitVec.ofNat 32 (c - 1)).toInt ≠ c := by
  intro heq
  have hrange := toInt_range (BitVec.ofNat 32 (c - 1))
  have hlt : c < 2 ^ 31 := by omega
  rw [BitVec.toInt_eq_toNat_of_lt (by simp only [BitVec.toNat_ofNat]; omega),
    BitVec.toNat_ofNat] at heq
  omega

theorem not_profileExact {labels : List Bytes} {k : Bytes} (h : k ∈ labels) :
    ¬ProfileExact labels := by
  intro hp
  obtain ⟨he, hhe, hc⟩ := hp.counter k h
  obtain ⟨he', hhe', hc'⟩ := hashGet_instrperfRun h
  rw [hhe, Option.some.injEq] at hhe'
  subst hhe'
  rw [hc'] at hc
  exact not_counted (List.count_pos_iff.2 h) hc

/-- No run with a record is counted exactly. -/
theorem profileExact_iff (labels : List Bytes) : ProfileExact labels ↔ labels = [] := by
  constructor
  · intro hp
    by_contra hne
    obtain ⟨k, hk⟩ := List.exists_mem_of_ne_nil labels hne
    exact not_profileExact hk hp
  · rintro rfl
    refine ⟨fun k hk => (by cases hk), fun k hk => (by cases hk), ?_⟩
    rw [instrperf_total (by simp)]
    rfl

/-- One record of `addu`. -/
theorem not_profileExact_addu : ¬ProfileExact [[0x61, 0x64, 0x64, 0x75, 0]] :=
  not_profileExact (List.mem_singleton.2 rfl)

end NemuMips32
