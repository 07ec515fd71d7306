/-
  Read-modify-write sequences of several threads on shared locations, with nothing that makes
  them atomic. A thread loads a location into a register of its own and later stores there
  what it computed from the register. A history lists these events, newest first.

  `AtomicAt l` is what a link would enforce: no other thread stores to `l` between the load
  and the store of a thread. There the updates take effect one after the other
  (`mem_of_atomicAt`); elsewhere updates are lost, and of `n` equal updates fewer than `n`
  show (`mem_iterate`).
-/
import Mathlib.Logic.Function.Iterate

namespace ReadModifyWrite

/-- `g` is what the thread computes from the value it loaded. -/
inductive Event (T L V : Type) where
  | load (t : T) (l : L)
  | store (t : T) (l : L) (g : V → V)

structure State (T L V : Type) where
  mem : L → V
  reg : T → V

variable {T L V : Type} [DecidableEq T] [DecidableEq L]

def State.step (s : State T L V) : Event T L V → State T L V
  | .load t l => { s with reg := Function.update s.reg t (s.mem l) }
  | .store t l g => { s with mem := Function.update s.mem l (g (s.reg t)) }

/-- The state after a history. -/
def State.run (s : State T L V) : List (Event T L V) → State T L V
  | [] => s
  | e :: es => (s.run es).step e

section Run

variable (s : State T L V) (es : List (Event T L V)) (t : T) (l : L) (g : V → V)

@[simp] theorem mem_load : (s.run (.load t l :: es)).mem = (s.run es).mem := rfl

@[simp] theorem reg_load : (s.run (.load t l :: es)).reg =
    Function.update (s.run es).reg t ((s.run es).mem l) := rfl

@[simp] theorem mem_store : (s.run (.store t l g :: es)).mem =
    Function.update (s.run es).mem l (g ((s.run es).reg t)) := rfl

@[simp] theorem reg_store : (s.run (.store t l g :: es)).reg = (s.run es).reg := rfl

end Run

/-! ## Histories -/

/-- The last thing `t` did was to load `l`. -/
def Linked (t : T) (l : L) : List (Event T L V) → Prop
  | [] => False
  | .load t' l' :: es => if t' = t then l' = l else Linked t l es
  | .store t' _ _ :: es => t' ≠ t ∧ Linked t l es

/-- No other thread has stored to `l` since `t` loaded. -/
def Fresh (t : T) (l : L) : List (Event T L V) → Prop
  | [] => True
  | .load t' _ :: es => t' = t ∨ Fresh t l es
  | .store t' l' _ :: es => (l' = l → t' = t) ∧ Fresh t l es

/-- Every store completes a sequence. -/
def Sequenced : List (Event T L V) → Prop
  | [] => True
  | .load _ _ :: es => Sequenced es
  | .store t l _ :: es => Linked t l es ∧ Sequenced es

/-- Every store to `l` finds there what its thread loaded. -/
def AtomicAt (l : L) : List (Event T L V) → Prop
  | [] => True
  | .load _ _ :: es => AtomicAt l es
  | .store t l' _ :: es => (l' = l → Fresh t l es) ∧ AtomicAt l es

/-- What the stores to `l` compute, newest first. -/
def stores (l : L) : List (Event T L V) → List (V → V)
  | [] => []
  | .load _ _ :: es => stores l es
  | .store _ l' g :: es => if l' = l then g :: stores l es else stores l es

/-! ## Atomic updates -/

variable {s : State T L V} {t : T} {l : L}

theorem reg_of_fresh {es : List (Event T L V)} (hl : Linked t l es) (hf : Fresh t l es) :
    (s.run es).reg t = (s.run es).mem l := by
  induction es with
  | nil => cases hl
  | cons e es ih =>
    cases e with
    | load t' l' =>
      by_cases ht : t' = t
      · subst ht
        obtain rfl : l' = l := by simpa only [Linked, if_true] using hl
        rw [reg_load, mem_load, Function.update_self]
      · have hl' : Linked t l es := by simpa only [Linked, if_neg ht] using hl
        have hf' : Fresh t l es := hf.resolve_left ht
        rw [reg_load, mem_load, Function.update_of_ne (Ne.symm ht), ih hl' hf']
    | store t' l' g =>
      -- a store of another thread, and so to another location
      have hne : l' ≠ l := fun h => hl.1 (hf.1 h)
      rw [reg_store, mem_store, Function.update_of_ne (Ne.symm hne), ih hl.2 hf.2]

/-- Atomic updates take effect one after the other. -/
theorem mem_of_atomicAt {es : List (Event T L V)} (hs : Sequenced es) (ha : AtomicAt l es) :
    (s.run es).mem l = (stores l es).foldr (fun g v => g v) (s.mem l) := by
  induction es with
  | nil => rfl
  | cons e es ih =>
    cases e with
    | load t' l' => exact ih hs ha
    | store t' l' g =>
      by_cases h : l' = l
      · subst h
        have hreg := reg_of_fresh (s := s) hs.1 (ha.1 rfl)
        rw [mem_store, Function.update_self, hreg, ih hs.2 ha.2, stores, if_pos rfl,
          List.foldr_cons]
      · rw [mem_store, Function.update_of_ne (Ne.symm h), ih hs.2 ha.2, stores, if_neg h]

/-! ## Lost updates -/

/-- Of `n` updates `f` of `l` some `c` show in the value `x`, and all of them if and only if
    `p`. -/
def Shows (f : V → V) (v x : V) (n : Nat) (p : Prop) : Prop :=
  ∃ c, c ≤ n ∧ x = f^[c] v ∧ (c = n ↔ p)

/-- What `l` holds, and what every thread that has loaded it still holds. -/
structure Counted (s : State T L V) (f : V → V) (l : L) (es : List (Event T L V)) : Prop where
  mem : Shows f (s.mem l) ((s.run es).mem l) (stores l es).length (AtomicAt l es)
  reg : ∀ t, Linked t l es →
    Shows f (s.mem l) ((s.run es).reg t) (stores l es).length (Fresh t l es ∧ AtomicAt l es)

theorem Shows.congr {f : V → V} {v x y : V} {n : Nat} {p q : Prop} (h : Shows f v x n p)
    (hy : y = x) (hpq : q ↔ p) : Shows f v y n q := by
  obtain ⟨c, hc, hx, hp⟩ := h
  exact ⟨c, hc, hy.trans hx, hp.trans hpq.symm⟩

/-- One more update of the value. -/
theorem Shows.succ {f : V → V} {v x : V} {n : Nat} {p : Prop} (h : Shows f v x n p) :
    Shows f v (f x) (n + 1) p := by
  obtain ⟨c, hc, rfl, hp⟩ := h
  refine ⟨c + 1, Nat.succ_le_succ hc, (Function.iterate_succ_apply' f c v).symm, ?_⟩
  rw [Nat.add_right_cancel_iff]
  exact hp

/-- An update that the value has missed. -/
theorem Shows.missed {f : V → V} {v x : V} {n : Nat} {p q : Prop} (h : Shows f v x n p)
    (hq : ¬ q) : Shows f v x (n + 1) q := by
  obtain ⟨c, hc, hx, -⟩ := h
  exact ⟨c, Nat.le_succ_of_le hc, hx, ⟨fun he => absurd he (by omega), fun h => absurd h hq⟩⟩

theorem Counted.load {f : V → V} {es : List (Event T L V)} (h : Counted s f l es) (t' : T)
    (l' : L) : Counted s f l (.load t' l' :: es) where
  mem := h.mem
  reg t ht := by
    by_cases he : t' = t
    · subst he
      obtain rfl : l' = l := by simpa only [Linked, if_true] using ht
      exact h.mem.congr (Function.update_self ..) ⟨And.right, fun ha => ⟨.inl rfl, ha⟩⟩
    · have ht' : Linked t l es := by simpa only [Linked, if_neg he] using ht
      have hf : Fresh t l (.load t' l' :: es) ↔ Fresh t l es := or_iff_right he
      exact (h.reg t ht').congr (Function.update_of_ne (Ne.symm he) _ _) (and_congr_left' hf)

theorem Counted.store {f : V → V} {es : List (Event T L V)} (h : Counted s f l es) {t' : T}
    {l' : L} {g : V → V} (hl : Linked t' l' es) (hg : l' = l → g = f) :
    Counted s f l (.store t' l' g :: es) := by
  by_cases he : l' = l
  · subst he
    obtain rfl := hg rfl
    have hlen : (stores l' (.store t' l' g :: es)).length = (stores l' es).length + 1 := by
      rw [stores, if_pos rfl, List.length_cons]
    refine ⟨?_, fun t ht => ?_⟩
    · rw [hlen]
      exact (h.reg t' hl).succ.congr (Function.update_self ..)
        (and_congr_left' (forall_prop_of_true rfl))
    · -- this thread has missed the store of `t'`
      rw [hlen]
      exact (h.reg t ht.2).missed fun hf => ht.1 (hf.1.1 rfl)
  · have hlen : stores l (.store t' l' g :: es) = stores l es := by rw [stores, if_neg he]
    have hat : AtomicAt l (.store t' l' g :: es) ↔ AtomicAt l es :=
      and_iff_right fun h => absurd h he
    refine ⟨?_, fun t ht => ?_⟩
    · rw [hlen]
      exact h.mem.congr (Function.update_of_ne (Ne.symm he) _ _) hat
    · have hf : Fresh t l (.store t' l' g :: es) ↔ Fresh t l es :=
        and_iff_right fun h => absurd h he
      rw [hlen]
      exact (h.reg t ht.2).congr rfl (and_congr hf hat)

theorem counted {f : V → V} {es : List (Event T L V)} (hs : Sequenced es)
    (hg : ∀ g ∈ stores l es, g = f) : Counted s f l es := by
  induction es with
  | nil => exact ⟨⟨0, Nat.le_refl 0, rfl, iff_of_true rfl trivial⟩, fun t ht => ht.elim⟩
  | cons e es ih =>
    cases e with
    | load t' l' => exact (ih hs hg).load t' l'
    | store t' l' g =>
      refine (ih hs.2 fun g' h => hg g' ?_).store hs.1 fun he => hg g ?_
      · rw [stores]
        split
        · exact List.mem_cons_of_mem _ h
        · exact h
      · rw [stores, if_pos he]
        exact List.mem_cons_self

/-- Of equal updates of `l` all show if and only if they were atomic. -/
theorem mem_iterate {f : V → V} {es : List (Event T L V)} (hs : Sequenced es)
    (hg : ∀ g ∈ stores l es, g = f) :
    ∃ c, c ≤ (stores l es).length ∧ (s.run es).mem l = f^[c] (s.mem l) ∧
      (c = (stores l es).length ↔ AtomicAt l es) :=
  (counted hs hg).mem

end ReadModifyWrite
