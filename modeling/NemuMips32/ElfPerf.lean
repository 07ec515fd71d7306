/-
  The time profile of `elfperf.c` (CONFIG_ELF_PERF_TIME): each call looks up the function of the
  program counter, and when it differs from the last one, the time since `last_sym_st` goes to
  the counter of the last one. At the first such call for a function the counter is pushed as 0
  and `last_sym_st` stays, so that time goes to whichever function is charged next.

  A run is read as its ended blocks (`blocks`), the code as a tally of them (`Tally`), which
  `profile_tally` connects to the table. `attributed_iff` says when the tally is right.
-/
import Mathlib.Algebra.BigOperators.Group.List.Lemmas
import Mathlib.Algebra.Order.BigOperators.Group.List
import NemuMips32.Elfsym
import NemuMips32.Hash
import NemuMips32.Lib.Words

namespace NemuMips32

open HashChain Words

/-! ## Program -/

/-- The static variables; a `last_sym` of none is NULL. -/
structure Profile where
  lastSym : Option SymName
  lastSymSt : BitVec 64
  perfHt : HashTable

structure ElfPerf where
  elfsym : Elfsym
  profile : Profile

/-- The key of a function: its name with the terminator. -/
def nameKey (text : SymName → Bytes) (sym : SymName) : Bytes := text sym ++ [0]

/-- `elfperf_record` behind the lookup. -/
def Profile.update (text : SymName → Bytes) (p : Profile) (sym : Option SymName) (ms : BitVec 64) :
    Except Halt Profile :=
  if sym = p.lastSym then .ok p
  else
    match p.lastSym with
    | none => .ok { p with lastSym := sym, lastSymSt := ms }
    | some updsym =>
      let key := nameKey text updsym
      match hashGet p.perfHt key with
      | none => .ok { p with lastSym := sym, perfHt := hashPush p.perfHt key (leBytes 8 0) }
      | some he =>
        let value := (p.perfHt.elem he).value
        if value.length ≠ 8 then .error .assert
        else
          let counter : BitVec 64 := BitVec.ofNat 64 (leNat value) + (ms - p.lastSymSt)
          .ok {
            lastSym := sym
            lastSymSt := ms
            perfHt := p.perfHt.setValue he (leBytes 8 counter.toNat) }

/-- `elfperf_record`; `ms` is what `get_current_time` returns. -/
def elfperfRecord (s : ElfPerf) (pc : Word) (ms : BitVec 64) : Except Halt ElfPerf := do
  let (sym, es) ← s.elfsym.find pc
  let p ← s.profile.update es.text sym ms
  .ok ⟨es, p⟩

/-- `elfperf_start`, the static variables being zero. -/
def elfperfStart (es : Elfsym) : ElfPerf := ⟨es.optimize, ⟨none, 0, hashInit⟩⟩

def elfperfRun (s : ElfPerf) : List (Word × BitVec 64) → Except Halt ElfPerf
  | [] => .ok s
  | (pc, ms) :: rest => do
    let s' ← elfperfRecord s pc ms
    elfperfRun s' rest

/-! ## What it should count -/

/-- The function and the time of a call. -/
structure Sample where
  sym : SymName
  time : BitVec 64

/-- A maximal block of calls with one function: the time of its first call, and of the first
    call behind it. -/
structure Block where
  sym : SymName
  first : BitVec 64
  next : BitVec 64

/-- The ended blocks, the calls before having left the block of `sym` open. -/
def blocksFrom (sym : SymName) (first : BitVec 64) : List Sample → List Block
  | [] => []
  | c :: rest =>
    if c.sym = sym then blocksFrom sym first rest
    else ⟨sym, first, c.time⟩ :: blocksFrom c.sym c.time rest

def blocks : List Sample → List Block
  | [] => []
  | c :: rest => blocksFrom c.sym c.time rest

/-- A block as the name of its function and its length. -/
def Block.event (text : SymName → Bytes) (b : Block) : Bytes × Nat :=
  (nameKey text b.sym, b.next.toNat - b.first.toNat)

def events (text : SymName → Bytes) (samples : List Sample) : List (Bytes × Nat) :=
  (blocks samples).map (Block.event text)

/-- The time spent in a function. -/
def charge (k : Bytes) (es : List (Bytes × Nat)) : Nat :=
  ((es.filter fun e => e.1 = k).map Prod.snd).sum

/-- The counter of a function, 0 without an entry. -/
def counterOf (ht : HashTable) (k : Bytes) : Nat :=
  (hashGet ht k).elim 0 fun he => leNat (ht.elem he).value

/-- The time from the first call to the last one at which the function changed. -/
def elapsed (samples : List Sample) : Nat :=
  match samples.head?, (blocks samples).getLast? with
  | some c, some b => b.next.toNat - c.time.toNat
  | _, _ => 0

/-- Each function's counter is the time spent in it, and together they are the time elapsed. -/
structure Attributed (text : SymName → Bytes) (samples : List Sample) (ht : HashTable) : Prop where
  counter : ∀ k, counterOf ht k = charge k (events text samples)
  total : ((hashForeach ht).map fun he => leNat (ht.elem he).value).sum = elapsed samples

/-- The next event that is not the first of its function. -/
def nextRepeat (seen : List Bytes) : List (Bytes × Nat) → Option Bytes
  | [] => none
  | e :: rest => if e.1 ∈ seen then some e.1 else nextRepeat (e.1 :: seen) rest

/-- The first event of each function takes no time, or the next event that is not the first of
    its function is one of the same function. -/
def FairFrom (seen : List Bytes) : List (Bytes × Nat) → Prop
  | [] => True
  | e :: rest =>
    if e.1 ∈ seen then FairFrom seen rest
    else (e.2 = 0 ∨ nextRepeat (e.1 :: seen) rest = some e.1) ∧ FairFrom (e.1 :: seen) rest

/-! ## The tally -/

/-- What the table holds: the functions with an entry, their counters, and the time since
    `last_sym_st` up to the start of the current block. -/
structure Tally where
  seen : List Bytes
  count : Bytes → Nat
  pend : Nat

namespace Tally

def empty : Tally := ⟨[], fun _ => 0, 0⟩

def step (t : Tally) (e : Bytes × Nat) : Tally :=
  if e.1 ∈ t.seen then
    { t with count := Function.update t.count e.1 (t.count e.1 + (t.pend + e.2)), pend := 0 }
  else { t with seen := e.1 :: t.seen, pend := t.pend + e.2 }

def run (t : Tally) (es : List (Bytes × Nat)) : Tally := es.foldl step t

variable {t : Tally} {k : Bytes}

@[simp] theorem charge_nil (k : Bytes) : charge k [] = 0 := rfl

theorem charge_cons (k : Bytes) (e : Bytes × Nat) (es : List (Bytes × Nat)) :
    charge k (e :: es) = (if e.1 = k then e.2 else 0) + charge k es := by
  by_cases h : e.1 = k <;> simp [charge, h]

theorem step_of_mem {e : Bytes × Nat} (h : e.1 ∈ t.seen) :
    t.step e =
      { t with count := Function.update t.count e.1 (t.count e.1 + (t.pend + e.2)), pend := 0 } :=
  if_pos h

theorem step_of_not_mem {e : Bytes × Nat} (h : e.1 ∉ t.seen) :
    t.step e = { t with seen := e.1 :: t.seen, pend := t.pend + e.2 } :=
  if_neg h

/-- A function with an entry is charged for its own blocks at least. -/
theorem charge_le_run (es : List (Bytes × Nat)) (h : k ∈ t.seen) :
    t.count k + charge k es ≤ (t.run es).count k := by
  induction es generalizing t with
  | nil => exact Nat.le_refl _
  | cons e es ih =>
    show _ ≤ ((t.step e).run es).count k
    by_cases he : e.1 ∈ t.seen
    · have hrest := ih (t := t.step e) (by rw [step_of_mem he]; exact h)
      rw [step_of_mem he] at hrest ⊢
      rw [charge_cons]
      by_cases hk : e.1 = k
      · subst hk
        simp only [Function.update_self, if_true] at hrest ⊢
        omega
      · simp only [Function.update_of_ne (Ne.symm hk), if_neg hk] at hrest ⊢
        omega
    · have hne : e.1 ≠ k := fun hk => he (hk ▸ h)
      have hrest := ih (t := t.step e) (by rw [step_of_not_mem he]; exact List.mem_cons_of_mem _ h)
      rw [step_of_not_mem he] at hrest ⊢
      rw [charge_cons, if_neg hne]
      simp only at hrest ⊢
      omega

theorem sum_of_only {l : List Bytes} {f : Bytes → Nat} (hl : l.Nodup) (hk : k ∈ l)
    (h : ∀ j ∈ l, j ≠ k → f j = 0) : (l.map f).sum = f k := by
  obtain ⟨l₁, l₂, rfl⟩ := List.append_of_mem hk
  rw [List.nodup_append, List.nodup_cons] at hl
  have hleft : (l₁.map f).sum = 0 := by
    rw [List.sum_eq_zero]
    intro x hx
    obtain ⟨j, hj, rfl⟩ := List.mem_map.1 hx
    exact h j (by simp [hj]) (hl.2.2 j hj k List.mem_cons_self)
  have hright : (l₂.map f).sum = 0 := by
    rw [List.sum_eq_zero]
    intro x hx
    obtain ⟨j, hj, rfl⟩ := List.mem_map.1 hx
    exact h j (by simp [hj]) fun hjk => hl.2.1.1 (hjk ▸ hj)
  rw [List.map_append, List.map_cons, List.sum_append, List.sum_cons, hleft, hright]
  omega

theorem add_le_sum {l : List Bytes} (f : Bytes → Nat) {j : Bytes} (hk : k ∈ l) (hj : j ∈ l)
    (hne : j ≠ k) : f k + f j ≤ (l.map f).sum := by
  obtain ⟨l₁, l₂, rfl⟩ := List.append_of_mem hk
  have hrest : f j ≤ ((l₁ ++ l₂).map f).sum :=
    List.single_le_sum (fun _ _ => Nat.zero_le _) _
      (List.mem_map_of_mem (by simpa [hne] using hj))
  rw [List.map_append, List.sum_append] at hrest
  rw [List.map_append, List.map_cons, List.sum_append, List.sum_cons]
  omega

/-- The counters lag behind the times `spent` by what is `owed`, which is the time of first
    events since the last charge. -/
structure Owes (t : Tally) (spent owed : Bytes → Nat) : Prop where
  spent : ∀ k, spent k = t.count k + owed k
  pend : t.pend = (t.seen.map owed).sum
  unseen : ∀ k, k ∉ t.seen → owed k = 0
  nodup : t.seen.Nodup

variable {spent owed : Bytes → Nat}

/-- The first event of a function: its time is owed to it. -/
theorem Owes.first (h : t.Owes spent owed) {e : Bytes × Nat} (he : e.1 ∉ t.seen) :
    (t.step e).Owes (Function.update spent e.1 (spent e.1 + e.2))
      (Function.update owed e.1 e.2) := by
  have h0 := h.unseen e.1 he
  rw [step_of_not_mem he]
  refine ⟨fun k => ?_, ?_, fun k hk => ?_, List.nodup_cons.2 ⟨he, h.nodup⟩⟩
  · show Function.update spent e.1 (spent e.1 + e.2) k = t.count k + Function.update owed e.1 e.2 k
    have hk := h.spent k
    by_cases hke : k = e.1
    · subst hke
      rw [Function.update_self, Function.update_self]
      omega
    · rw [Function.update_of_ne hke, Function.update_of_ne hke, hk]
  · have hkeep : t.seen.map (Function.update owed e.1 e.2) = t.seen.map owed := by
      refine List.map_congr_left fun k hk => Function.update_of_ne ?_ _ _
      rintro rfl
      exact he hk
    rw [List.map_cons, List.sum_cons, hkeep, Function.update_self, ← h.pend, Nat.add_comm]
  · rw [List.mem_cons, not_or] at hk
    rw [Function.update_of_ne hk.1]
    exact h.unseen k hk.2

/-- A charge to the only function that is owed something settles the counters. -/
theorem Owes.settle (h : t.Owes spent owed) {e : Bytes × Nat} (he : e.1 ∈ t.seen)
    (honly : ∀ k, 0 < owed k → k = e.1) :
    (t.step e).Owes (Function.update spent e.1 (spent e.1 + e.2)) fun _ => 0 := by
  have hzero : ∀ k, k ≠ e.1 → owed k = 0 := fun k hk => by
    by_contra hne
    exact hk (honly k (Nat.pos_of_ne_zero hne))
  have hpend : t.pend = owed e.1 := by
    rw [h.pend]
    exact sum_of_only h.nodup he fun k _ hk => hzero k hk
  rw [step_of_mem he]
  refine ⟨fun k => ?_, by simp, fun _ _ => rfl, h.nodup⟩
  show Function.update spent e.1 (spent e.1 + e.2) k =
    Function.update t.count e.1 (t.count e.1 + (t.pend + e.2)) k + 0
  have hk := h.spent k
  by_cases hke : k = e.1
  · subst hke
    rw [Function.update_self, Function.update_self]
    omega
  · rw [Function.update_of_ne hke, Function.update_of_ne hke, hk, hzero k hke]

/-- A charge to a function while another is owed something is too much. -/
theorem Owes.overcharge (h : t.Owes spent owed) {e : Bytes × Nat} (he : e.1 ∈ t.seen) {k : Bytes}
    (hk : 0 < owed k) (hne : k ≠ e.1) : spent e.1 + e.2 < (t.step e).count e.1 := by
  have hmem : k ∈ t.seen := by
    by_contra hnot
    rw [h.unseen k hnot] at hk
    exact Nat.lt_irrefl _ hk
  have hpend := add_le_sum owed he hmem hne
  rw [← h.pend] at hpend
  have hspent := h.spent e.1
  rw [step_of_mem he]
  simp only [Function.update_self]
  omega

/-- The final counters are the times spent exactly if what is owed is paid to its function, and
    the rest of the run is fair. -/
theorem Owes.run_iff (h : t.Owes spent owed) (es : List (Bytes × Nat)) :
    (∀ k, (t.run es).count k = spent k + charge k es) ↔
      (∀ k, 0 < owed k → nextRepeat t.seen es = some k) ∧ FairFrom t.seen es := by
  induction es generalizing t spent owed with
  | nil =>
    simp only [run, List.foldl_nil, charge_nil, Nat.add_zero, nextRepeat, FairFrom, and_true]
    constructor
    · intro hall k hk
      have hspent := h.spent k
      have := hall k
      omega
    · intro hall k
      have hspent := h.spent k
      by_contra hne
      have hpos : 0 < owed k := by omega
      cases hall k hpos
  | cons e es ih =>
    have hshift : ∀ k, spent k + charge k (e :: es) =
        Function.update spent e.1 (spent e.1 + e.2) k + charge k es := by
      intro k
      rw [charge_cons]
      by_cases hk : k = e.1
      · subst hk
        rw [if_pos rfl, Function.update_self]
        omega
      · rw [if_neg (Ne.symm hk), Function.update_of_ne hk]
        omega
    have hrun : t.run (e :: es) = (t.step e).run es := rfl
    simp only [hrun, hshift]
    by_cases he : e.1 ∈ t.seen
    · have hseen : (t.step e).seen = t.seen := by rw [step_of_mem he]
      simp only [nextRepeat, FairFrom, if_pos he, Option.some.injEq]
      by_cases honly : ∀ k, 0 < owed k → k = e.1
      · have hrest := ih (h.settle he honly)
        simp only [Nat.lt_irrefl, false_imp_iff, implies_true, true_and, hseen] at hrest
        rw [hrest]
        exact ⟨fun hf => ⟨fun k hk => (honly k hk).symm, hf⟩, fun hf => hf.2⟩
      · obtain ⟨k, hk⟩ := not_forall.1 honly
        obtain ⟨hk, hne⟩ := Classical.not_imp.1 hk
        constructor
        · intro hall
          have hle := charge_le_run (t := t.step e) (k := e.1) es (hseen ▸ he)
          have hover := h.overcharge he hk hne
          have heq := hall e.1
          rw [Function.update_self] at heq
          omega
        · intro hf
          exact absurd (hf.1 k hk).symm hne
    · have hseen : (t.step e).seen = e.1 :: t.seen := by rw [step_of_not_mem he]
      have h0 := h.unseen e.1 he
      have hrest := ih (h.first he)
      rw [hseen] at hrest
      rw [hrest]
      simp only [nextRepeat, FairFrom, if_neg he]
      constructor
      · rintro ⟨howed, hfair⟩
        refine ⟨fun k hk => howed k ?_, ?_, hfair⟩
        · have hne : k ≠ e.1 := by
            rintro rfl
            omega
          rwa [Function.update_of_ne hne]
        · by_cases hd : e.2 = 0
          · exact .inl hd
          · refine .inr (howed e.1 ?_)
            rw [Function.update_self]
            omega
      · rintro ⟨howed, hfirst, hfair⟩
        refine ⟨fun k hk => ?_, hfair⟩
        by_cases hke : k = e.1
        · subst hke
          rw [Function.update_self] at hk
          exact hfirst.resolve_left (by omega)
        · rw [Function.update_of_ne hke] at hk
          exact howed k hk

/-- The tally of a whole run is right exactly if the run is fair. -/
theorem run_empty_iff (es : List (Bytes × Nat)) :
    (∀ k, (empty.run es).count k = charge k es) ↔ FairFrom [] es := by
  have howes : empty.Owes (fun _ => 0) fun _ => 0 :=
    ⟨fun _ => rfl, rfl, fun _ _ => rfl, List.nodup_nil⟩
  have hiff := howes.run_iff es
  simp only [Nat.zero_add, Nat.lt_irrefl, false_imp_iff, implies_true, true_and] at hiff
  exact hiff

end Tally

/-! ## The table is the tally -/

/-- The variables in the block of `sym` that began at `first`, the first call being at `start`. -/
structure Tallies (p : Profile) (t : Tally) (sym : SymName) (start first : BitVec 64) : Prop where
  sym : p.lastSym = some sym
  since : p.lastSymSt.toNat + t.pend = first.toNat
  stack : ∀ k, p.perfHt.stack k = if k ∈ t.seen then [leBytes 8 (t.count k)] else []
  unseen : ∀ k, k ∉ t.seen → t.count k = 0
  nodup : t.seen.Nodup
  bound : ∀ k, start.toNat + (t.count k + t.pend) ≤ first.toNat

variable {text : SymName → Bytes} {p : Profile} {t : Tally} {sym : SymName}
  {start first : BitVec 64}

/-- A call in another function, the last one having an entry. -/
theorem update_charge (hsym : p.lastSym = some sym) {sym' : SymName} (hne : sym' ≠ sym) {he : Nat}
    (hhe : hashGet p.perfHt (nameKey text sym) = some he)
    (hlen : (p.perfHt.elem he).value.length = 8) (ms : BitVec 64) :
    p.update text (some sym') ms = .ok {
      lastSym := some sym'
      lastSymSt := ms
      perfHt := p.perfHt.setValue he (leBytes 8 (BitVec.ofNat 64
        (leNat (p.perfHt.elem he).value) + (ms - p.lastSymSt)).toNat) } := by
  have hne' : some sym' ≠ some sym := fun h => hne (Option.some.inj h)
  have hlen' : ¬(p.perfHt.elem he).value.length ≠ 8 := fun h => h hlen
  simp only [Profile.update, hsym, if_neg hne', hhe, if_neg hlen']

/-- A call in another function, the last one having no entry yet. -/
theorem update_first (hsym : p.lastSym = some sym) {sym' : SymName} (hne : sym' ≠ sym)
    (hhe : hashGet p.perfHt (nameKey text sym) = none) (ms : BitVec 64) :
    p.update text (some sym') ms = .ok {
      p with
      lastSym := some sym'
      perfHt := hashPush p.perfHt (nameKey text sym) (leBytes 8 0) } := by
  have hne' : some sym' ≠ some sym := fun h => hne (Option.some.inj h)
  simp only [Profile.update, hsym, if_neg hne', hhe]

theorem Tallies.charge (h : Tallies p t sym start first) (hseen : nameKey text sym ∈ t.seen)
    {c : Sample} (hc : c.sym ≠ sym) (htime : first.toNat ≤ c.time.toNat) :
    ∃ p', p.update text (some c.sym) c.time = .ok p' ∧
      Tallies p' (t.step (nameKey text sym, c.time.toNat - first.toNat)) c.sym start c.time := by
  have hlt := c.time.isLt
  have hsince := h.since
  have hget := Table.get_value (t := p.perfHt) (nameKey text sym)
  rw [h.stack, if_pos hseen] at hget
  obtain ⟨he, hhe, hvalue⟩ := Option.map_eq_some_iff.1 hget
  have hbound := h.bound (nameKey text sym)
  have hcounter : (BitVec.ofNat 64 (leNat (p.perfHt.elem he).value) +
      (c.time - p.lastSymSt)).toNat =
        t.count (nameKey text sym) + (t.pend + (c.time.toNat - first.toNat)) := by
    have hst : p.lastSymSt ≤ c.time := by
      rw [BitVec.le_def]
      omega
    rw [hvalue, leNat_leBytes, BitVec.toNat_add, BitVec.toNat_ofNat, BitVec.toNat_sub_of_le hst]
    omega
  have hlen : (p.perfHt.elem he).value.length = 8 := by
    rw [hvalue, length_leBytes]
  refine ⟨_, update_charge h.sym hc hhe hlen c.time, ?_⟩
  rw [Tally.step_of_mem hseen]
  refine ⟨rfl, rfl, fun k => ?_, fun k hk => ?_, h.nodup, fun k => ?_⟩
  · rw [hcounter, Table.stack_setValue hhe, h.stack]
    show _ = if k ∈ t.seen then [leBytes 8 (Function.update t.count (nameKey text sym) _ k)] else []
    by_cases hk : nameKey text sym = k
    · subst hk
      rw [if_pos rfl, if_pos hseen, if_pos hseen, Function.update_self]
      rfl
    · rw [if_neg hk, Function.update_of_ne (Ne.symm hk)]
  · have hk' : k ≠ nameKey text sym := by
      rintro rfl
      exact hk hseen
    show Function.update t.count _ _ k = 0
    rw [Function.update_of_ne hk']
    exact h.unseen k hk
  · show start.toNat + (Function.update t.count (nameKey text sym) (t.count (nameKey text sym) +
      (t.pend + (c.time.toNat - first.toNat))) k + 0) ≤ c.time.toNat
    have hbk := h.bound k
    by_cases hk : k = nameKey text sym
    · subst hk
      rw [Function.update_self]
      omega
    · rw [Function.update_of_ne hk]
      omega

theorem Tallies.enter (h : Tallies p t sym start first) (hseen : nameKey text sym ∉ t.seen)
    {c : Sample} (hc : c.sym ≠ sym) (htime : first.toNat ≤ c.time.toNat) :
    ∃ p', p.update text (some c.sym) c.time = .ok p' ∧
      Tallies p' (t.step (nameKey text sym, c.time.toNat - first.toNat)) c.sym start c.time := by
  have hsince := h.since
  have hget := Table.get_value (t := p.perfHt) (nameKey text sym)
  rw [h.stack, if_neg hseen] at hget
  refine ⟨_, update_first h.sym hc (Option.map_eq_none_iff.1 hget) c.time, ?_⟩
  rw [Tally.step_of_not_mem hseen]
  refine ⟨rfl, ?_, fun k => ?_, fun k hk => ?_, List.nodup_cons.2 ⟨hseen, h.nodup⟩, fun k => ?_⟩
  · show p.lastSymSt.toNat + (t.pend + (c.time.toNat - first.toNat)) = c.time.toNat
    omega
  · rw [hashPush, Table.stack_push, h.stack]
    by_cases hk : nameKey text sym = k
    · subst hk
      rw [if_pos rfl, if_neg hseen, if_pos List.mem_cons_self, h.unseen _ hseen]
    · rw [if_neg hk]
      simp only [List.mem_cons, Ne.symm hk, false_or]
  · rw [List.mem_cons, not_or] at hk
    exact h.unseen k hk.2
  · show start.toNat + (t.count k + (t.pend + (c.time.toNat - first.toNat))) ≤ c.time.toNat
    have hbk := h.bound k
    omega

/-- The calls of a run, the lookups done. -/
def Profile.run (text : SymName → Bytes) (p : Profile) : List Sample → Except Halt Profile
  | [] => .ok p
  | c :: rest => do
    let p' ← p.update text (some c.sym) c.time
    Profile.run text p' rest

theorem Tallies.run (h : Tallies p t sym start first) (rest : List Sample)
    (hfirst : ∀ c ∈ rest, first ≤ c.time) (hle : rest.Pairwise fun a b => a.time ≤ b.time) :
    ∃ p' sym' first', Profile.run text p rest = .ok p' ∧
      Tallies p' (t.run ((blocksFrom sym first rest).map (Block.event text))) sym' start
        first' := by
  induction rest generalizing p t sym first with
  | nil => exact ⟨p, sym, first, rfl, h⟩
  | cons c rest ih =>
    obtain ⟨hc, hrest⟩ := List.pairwise_cons.1 hle
    rw [blocksFrom]
    by_cases hs : c.sym = sym
    · have hskip : p.update text (some c.sym) c.time = .ok p := by
        rw [Profile.update, if_pos (by rw [hs, h.sym])]
      obtain ⟨p', sym', first', hrun, ht⟩ :=
        ih h (fun x hx => hfirst x (List.mem_cons_of_mem _ hx)) hrest
      rw [if_pos hs]
      refine ⟨p', sym', first', ?_, ht⟩
      rw [Profile.run, hskip]
      exact hrun
    · have hc' : first.toNat ≤ c.time.toNat := hfirst c List.mem_cons_self
      obtain ⟨p₁, hup, ht⟩ : ∃ p₁, p.update text (some c.sym) c.time = .ok p₁ ∧
          Tallies p₁ (t.step (nameKey text sym, c.time.toNat - first.toNat)) c.sym start c.time :=
        if hseen : nameKey text sym ∈ t.seen then h.charge hseen hs hc' else h.enter hseen hs hc'
      obtain ⟨p', sym', first', hrun, ht'⟩ := ih ht hc hrest
      rw [if_neg hs]
      refine ⟨p', sym', first', ?_, ht'⟩
      rw [Profile.run, hup]
      exact hrun

/-- A run with times in order ends with the tally of its blocks in the table. -/
theorem profile_tally (samples : List Sample) (hle : samples.Pairwise fun a b => a.time ≤ b.time) :
    ∃ p, Profile.run text ⟨none, 0, hashInit⟩ samples = .ok p ∧
      (∀ k, p.perfHt.stack k = if k ∈ (Tally.empty.run (events text samples)).seen then
        [leBytes 8 ((Tally.empty.run (events text samples)).count k)] else []) ∧
      (Tally.empty.run (events text samples)).seen.Nodup ∧
      ∀ k, (Tally.empty.run (events text samples)).count k < 2 ^ 64 ∧
        (k ∉ (Tally.empty.run (events text samples)).seen →
          (Tally.empty.run (events text samples)).count k = 0) := by
  cases samples with
  | nil =>
    exact ⟨_, rfl, fun k => Table.stack_empty k, List.nodup_nil, fun k => ⟨Nat.two_pow_pos 64,
      fun _ => rfl⟩⟩
  | cons c rest =>
    obtain ⟨hc, hrest⟩ := List.pairwise_cons.1 hle
    have hstart : Tallies ⟨some c.sym, c.time, hashInit⟩ Tally.empty c.sym c.time c.time :=
      ⟨rfl, rfl, fun k => Table.stack_empty k, fun _ _ => rfl, List.nodup_nil,
        fun _ => Nat.le_refl _⟩
    obtain ⟨p, sym', first', hrun, ht⟩ : ∃ p sym' first',
        Profile.run text ⟨some c.sym, c.time, hashInit⟩ rest = .ok p ∧
          Tallies p (Tally.empty.run (events text (c :: rest))) sym' c.time first' :=
      hstart.run rest hc hrest
    refine ⟨p, ?_, ht.stack, ht.nodup, fun k => ⟨?_, ht.unseen k⟩⟩
    · rw [Profile.run, Profile.update, if_neg (by simp)]
      exact hrun
    · have hbound := ht.bound k
      have hlt := first'.isLt
      omega

/-! ## Counters and times -/

theorem counterOf_eq (ht : HashTable) (k : Bytes) :
    counterOf ht k = (ht.stack k).head?.elim 0 leNat := by
  rw [← Table.get_value, counterOf, hashGet]
  cases ht.get k <;> rfl

theorem Tally.seen_run (t : Tally) (es : List (Bytes × Nat)) :
    (∀ k ∈ t.seen, k ∈ (t.run es).seen) ∧ ∀ e ∈ es, e.1 ∈ (t.run es).seen := by
  induction es generalizing t with
  | nil => exact ⟨fun k hk => hk, fun e he => (by cases he)⟩
  | cons e es ih =>
    have hstep : ∀ k, k ∈ (t.step e).seen ↔ k = e.1 ∨ k ∈ t.seen := by
      intro k
      by_cases he : e.1 ∈ t.seen
      · rw [Tally.step_of_mem he]
        refine ⟨.inr, ?_⟩
        rintro (rfl | hk)
        · exact he
        · exact hk
      · rw [Tally.step_of_not_mem he]
        exact List.mem_cons
    obtain ⟨hkeep, hnew⟩ := ih (t.step e)
    refine ⟨fun k hk => hkeep k ((hstep k).2 (.inr hk)), fun e' he' => ?_⟩
    obtain rfl | he' := List.mem_cons.1 he'
    · exact hkeep _ ((hstep _).2 (.inl rfl))
    · exact hnew e' he'

/-- The charges of all functions are the time of all events. -/
theorem sum_charge {l : List Bytes} (hl : l.Nodup) {es : List (Bytes × Nat)}
    (h : ∀ e ∈ es, e.1 ∈ l) : (l.map fun k => charge k es).sum = (es.map Prod.snd).sum := by
  induction es with
  | nil => simp
  | cons e es ih =>
    rw [List.forall_mem_cons] at h
    simp only [Tally.charge_cons]
    rw [List.sum_map_add, ih h.2, List.map_cons, List.sum_cons]
    have hself := Tally.sum_of_only (f := fun k => if e.1 = k then e.2 else 0) hl h.1
      fun j _ hj => if_neg (Ne.symm hj)
    rw [hself, if_pos rfl]

theorem first_le_next {sym : SymName} {first : BitVec 64} {rest : List Sample}
    (hfirst : ∀ c ∈ rest, first ≤ c.time) : ∀ b ∈ blocksFrom sym first rest, first ≤ b.next := by
  have hgen : ∀ (rest : List Sample) (sym : SymName) (first' : BitVec 64),
      (∀ c ∈ rest, first ≤ c.time) → ∀ b ∈ blocksFrom sym first' rest, first ≤ b.next := by
    intro rest
    induction rest with
    | nil =>
      intro sym first' _ b hb
      cases hb
    | cons c rest ih =>
      intro sym first' h b hb
      rw [List.forall_mem_cons] at h
      rw [blocksFrom] at hb
      split at hb
      · exact ih _ _ h.2 b hb
      · obtain rfl | hb := List.mem_cons.1 hb
        · exact h.1
        · exact ih _ _ h.2 b hb
  exact hgen rest sym first hfirst

/-- The blocks of a run follow one another without a gap. -/
theorem sum_blocksFrom (text : SymName → Bytes) {sym : SymName} {first : BitVec 64}
    {rest : List Sample} (hfirst : ∀ c ∈ rest, first ≤ c.time)
    (hle : rest.Pairwise fun a b => a.time ≤ b.time) :
    (((blocksFrom sym first rest).map (Block.event text)).map Prod.snd).sum =
      (blocksFrom sym first rest).getLast?.elim 0 fun b => b.next.toNat - first.toNat := by
  induction rest generalizing sym first with
  | nil => rfl
  | cons c rest ih =>
    obtain ⟨hc, hrest⟩ := List.pairwise_cons.1 hle
    rw [blocksFrom]
    split
    · exact ih (fun x hx => hfirst x (List.mem_cons_of_mem _ hx)) hrest
    · have hnext := @ih c.sym c.time hc hrest
      have hc' : first.toNat ≤ c.time.toNat := hfirst c List.mem_cons_self
      rw [List.map_cons, List.map_cons, List.sum_cons, hnext, List.getLast?_cons]
      cases hl : (blocksFrom c.sym c.time rest).getLast? with
      | none => rfl
      | some b =>
        have hb : c.time.toNat ≤ b.next.toNat :=
          first_le_next hc b (List.mem_of_getLast? hl)
        show (c.time.toNat - first.toNat) + (b.next.toNat - c.time.toNat) =
          b.next.toNat - first.toNat
        omega

theorem sum_events (text : SymName → Bytes) {samples : List Sample}
    (hle : samples.Pairwise fun a b => a.time ≤ b.time) :
    ((events text samples).map Prod.snd).sum = elapsed samples := by
  cases samples with
  | nil => rfl
  | cons c rest =>
    obtain ⟨hc, hrest⟩ := List.pairwise_cons.1 hle
    rw [events, blocks, sum_blocksFrom text hc hrest, elapsed, List.head?_cons, blocks]
    cases (blocksFrom c.sym c.time rest).getLast? <;> rfl

/-- The profile of a run with times in order is right exactly if its blocks are fair. -/
theorem profile_iff (text : SymName → Bytes) {samples : List Sample}
    (hle : samples.Pairwise fun a b => a.time ≤ b.time) :
    ∃ p, Profile.run text ⟨none, 0, hashInit⟩ samples = .ok p ∧
      (Attributed text samples p.perfHt ↔ FairFrom [] (events text samples)) := by
  obtain ⟨p, hrun, hstack, hnodup, hcount⟩ := @profile_tally text samples hle
  refine ⟨p, hrun, ?_⟩
  have hread : ∀ k, leNat (leBytes 8 ((Tally.empty.run (events text samples)).count k)) =
      (Tally.empty.run (events text samples)).count k := by
    intro k
    rw [leNat_leBytes]
    exact Nat.mod_eq_of_lt (hcount k).1
  have hcounter : ∀ k, counterOf p.perfHt k = (Tally.empty.run (events text samples)).count k := by
    intro k
    rw [counterOf_eq, hstack]
    split
    · exact hread k
    next hk => exact ((hcount k).2 hk).symm
  rw [← Tally.run_empty_iff]
  constructor
  · intro ha k
    rw [← hcounter, ha.counter]
  · intro hall
    refine ⟨fun k => (hcounter k).trans (hall k), ?_⟩
    have hone := Table.entries_perm hnodup
      (fun k => leBytes 8 ((Tally.empty.run (events text samples)).count k)) fun k => by
        rw [hstack]
        by_cases hk : k ∈ (Tally.empty.run (events text samples)).seen
        · rw [if_pos hk, if_pos hk]
        · rw [if_neg hk, if_neg hk]
    have hperm := hone.map fun b => leNat b.2
    have hforeach : ((hashForeach p.perfHt).map fun he => leNat (p.perfHt.elem he).value) =
        p.perfHt.entries.map fun b => leNat b.2 := by
      rw [Table.entries_eq, Table.pairs, List.map_map]
      rfl
    rw [hforeach, hperm.sum_eq, List.map_map]
    simp only [Function.comp_def, hread]
    simp only [hall]
    rw [sum_charge hnodup (Tally.seen_run _ _).2, sum_events text hle]

/-! ## Runs of `elfperf_record` -/

/-- What the lookups of a run return. -/
def Elfsym.lookups (es : Elfsym) : List Word → Except Halt (List (Option SymName))
  | [] => .ok []
  | pc :: rest => do
    let (sym, es') ← es.find pc
    let tail ← es'.lookups rest
    .ok (sym :: tail)

def samplesOf (syms : List SymName) (calls : List (Word × BitVec 64)) : List Sample :=
  List.zipWith (fun sym c => ⟨sym, c.2⟩) syms calls

theorem text_find {es es' : Elfsym} {pc : Word} {sym : Option SymName}
    (h : es.find pc = .ok (sym, es')) : es'.text = es.text := by
  have htext : ∀ o, ({ es with addr2symCache := o } : Elfsym).text = es.text := by
    intro o
    funext x
    cases x <;> rfl
  cases hc : es.addr2symCache with
  | none =>
    simp only [Elfsym.find, hc] at h
    cases hs : es.search pc with
    | error e =>
      rw [hs] at h
      cases h
    | ok x =>
      rw [hs] at h
      cases h
      rfl
  | some c =>
    simp only [Elfsym.find, hc] at h
    split at h
    · cases h
      rfl
    · cases hs : es.search pc with
      | error e =>
        rw [hs] at h
        cases h
      | ok x =>
        rw [hs] at h
        cases h
        exact htext _

/-- The calls of a run update the profile with the functions that the lookups return. -/
theorem elfperfRun_eq {es : Elfsym} (p : Profile) {calls : List (Word × BitVec 64)}
    {syms : List SymName} (h : es.lookups (calls.map Prod.fst) = .ok (syms.map some)) :
    ∃ es', elfperfRun ⟨es, p⟩ calls =
      (Profile.run es.text p (samplesOf syms calls)).map fun p' => ⟨es', p'⟩ := by
  induction calls generalizing es p syms with
  | nil => exact ⟨es, by cases syms <;> rfl⟩
  | cons c rest ih =>
    rw [List.map_cons, Elfsym.lookups] at h
    cases hf : es.find c.1 with
    | error e =>
      rw [hf] at h
      cases h
    | ok r =>
      rw [hf] at h
      cases hl : r.2.lookups (rest.map Prod.fst) with
      | error e =>
        simp only [Except.bind, bind, hl] at h
        cases h
      | ok tail =>
        simp only [Except.bind, bind, hl, Except.ok.injEq] at h
        cases syms with
        | nil => cases h
        | cons sym syms =>
          obtain ⟨hsym, htail⟩ := List.cons.inj h
          have htext := text_find (show es.find c.1 = .ok (r.1, r.2) from hf)
          rw [samplesOf, List.zipWith_cons_cons, Profile.run, elfperfRun, elfperfRecord]
          simp only [hf, Except.bind, bind, hsym, htext]
          cases hu : p.update es.text (some sym) c.2 with
          | error e => exact ⟨es, rfl⟩
          | ok p₁ =>
            obtain ⟨es', hrun⟩ := ih p₁ (htail ▸ hl)
            exact ⟨es', by rw [← htext]; exact hrun⟩

theorem samplesOf_pairwise (syms : List SymName) {calls : List (Word × BitVec 64)}
    (h : calls.Pairwise fun a b => a.2 ≤ b.2) :
    (samplesOf syms calls).Pairwise fun a b => a.time ≤ b.time := by
  induction calls generalizing syms with
  | nil => cases syms <;> exact List.Pairwise.nil
  | cons c rest ih =>
    obtain ⟨hc, hrest⟩ := List.pairwise_cons.1 h
    cases syms with
    | nil => exact List.Pairwise.nil
    | cons sym syms =>
      refine List.pairwise_cons.2 ⟨fun x hx => ?_, ih syms hrest⟩
      obtain ⟨i, hi, rfl⟩ := List.mem_iff_getElem.1 hx
      rw [List.getElem_zipWith]
      exact hc _ (List.getElem_mem _)

/-- For calls whose lookups return the functions `syms`, with times in order, the profile is
    right exactly if the blocks are fair. -/
theorem attributed_iff (es : Elfsym) (calls : List (Word × BitVec 64)) (syms : List SymName)
    (hsyms : es.optimize.lookups (calls.map Prod.fst) = .ok (syms.map some))
    (htime : calls.Pairwise fun a b => a.2 ≤ b.2) :
    (∃ s, elfperfRun (elfperfStart es) calls = .ok s ∧
        Attributed es.text (samplesOf syms calls) s.profile.perfHt) ↔
      FairFrom [] (events es.text (samplesOf syms calls)) := by
  have htext : es.optimize.text = es.text := by
    funext x
    cases x <;> rfl
  obtain ⟨es', hrun⟩ := elfperfRun_eq ⟨none, 0, hashInit⟩ hsyms
  obtain ⟨p, hp, hiff⟩ := profile_iff es.text (samplesOf_pairwise syms htime)
  rw [htext, hp] at hrun
  rw [← hiff, elfperfStart, hrun]
  constructor
  · rintro ⟨s, hs, ha⟩
    cases hs
    exact ha
  · exact fun ha => ⟨⟨es', p⟩, rfl, ha⟩

/-- `f`, elsewhere and `f` again at time 0, and elsewhere from time 4 on. -/
theorem attributed_iff_again :
    ∃ s, elfperfRun (elfperfStart Elfsym.oneFunction)
        [(0x80000000, 0), (0x90000000, 0), (0x80000000, 0), (0x90000000, 4)] = .ok s ∧
      Attributed Elfsym.oneFunction.text (samplesOf [.strtab 1, .notfound, .strtab 1, .notfound]
        [(0x80000000, 0), (0x90000000, 0), (0x80000000, 0), (0x90000000, 4)])
        s.profile.perfHt := by
  have hevents : events Elfsym.oneFunction.text
      (samplesOf [.strtab 1, .notfound, .strtab 1, .notfound]
        [(0x80000000, 0), (0x90000000, 0), (0x80000000, 0), (0x90000000, 4)]) =
      [([0x66, 0], 0), ([0x3f, 0], 0), ([0x66, 0], 4)] := by decide
  refine (attributed_iff Elfsym.oneFunction _ _ rfl (by decide)).2 ?_
  rw [hevents]
  simp [FairFrom]

/-- `f` from time 0 on and elsewhere from time 5 on: the first five units are charged to
    nobody. -/
theorem not_attributed_first :
    ¬∃ s, elfperfRun (elfperfStart Elfsym.oneFunction) [(0x80000000, 0), (0x90000000, 5)] = .ok s ∧
      Attributed Elfsym.oneFunction.text (samplesOf [.strtab 1, .notfound]
        [(0x80000000, 0), (0x90000000, 5)]) s.profile.perfHt := by
  rintro ⟨s, hs, ha⟩
  have hlookups : Elfsym.oneFunction.optimize.lookups
      ([((0x80000000 : Word), (0 : BitVec 64)), (0x90000000, 5)].map Prod.fst) =
        .ok ([.strtab 1, .notfound].map some) := rfl
  have htext : Elfsym.oneFunction.optimize.text = Elfsym.oneFunction.text := by
    funext x
    cases x <;> rfl
  obtain ⟨es', hrun⟩ := elfperfRun_eq ⟨none, 0, hashInit⟩ hlookups
  have htime : (samplesOf [.strtab 1, .notfound] [((0x80000000 : Word), (0 : BitVec 64)),
      (0x90000000, 5)]).Pairwise fun a b => a.time ≤ b.time := by decide
  obtain ⟨p, hp, hiff⟩ := profile_iff Elfsym.oneFunction.text htime
  rw [htext, hp] at hrun
  rw [elfperfStart, hrun] at hs
  cases hs
  have hevents : events Elfsym.oneFunction.text (samplesOf [.strtab 1, .notfound]
      [(0x80000000, 0), (0x90000000, 5)]) = [([0x66, 0], 5)] := by decide
  have hfair := hiff.1 ha
  rw [hevents] at hfair
  simp [FairFrom, nextRepeat] at hfair

end NemuMips32
