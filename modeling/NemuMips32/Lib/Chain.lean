/-
  Chains of linked cells. Pointers of type `π` (roots, and a pointer `cell n` to each
  numbered cell) may have a successor, which is a cell. `Linked` says that the successors form
  disjoint chains of live cells: no pointer dangles, no cell has two predecessors, and numbers
  grow along a chain. Dropping pointers, linking a fresh cell at the end of a chain, and
  freeing a cell that nothing points to keep it. `Reach` is what can be reached from a set of
  roots.
-/
import Mathlib.Logic.Function.Basic

namespace Chain

variable {π : Type} {cell : Nat → π} {next next' : π → Option Nat} {live live' : Nat → Prop}
  {brk : Nat}

/-- Disjoint chains of live cells below `brk`. -/
structure Linked (cell : Nat → π) (next : π → Option Nat) (live : Nat → Prop) (brk : Nat) :
    Prop where
  live_of_next : ∀ {p m}, next p = some m → live m
  unique : ∀ {p q m}, next p = some m → next q = some m → p = q
  lt_brk : ∀ {n}, live n → n < brk
  lt_next : ∀ {n m}, next (cell n) = some m → n < m

/-- A live cell that nothing points to. -/
structure Orphan (next : π → Option Nat) (live : Nat → Prop) (n : Nat) : Prop where
  live : live n
  none : ∀ p, next p ≠ some n

/-- Dropping some of the pointers. -/
theorem Linked.drop (h : Linked cell next live brk) (hn : ∀ p, next' p = none ∨ next' p = next p) :
    Linked cell next' live brk := by
  have hsub : ∀ {p m}, next' p = some m → next p = some m := by
    intro p m hp
    obtain h0 | h1 := hn p
    · rw [h0] at hp
      cases hp
    · rw [← h1, hp]
  exact ⟨fun hp => h.live_of_next (hsub hp), fun hp hq => h.unique (hsub hp) (hsub hq), h.lt_brk,
    fun hp => h.lt_next (hsub hp)⟩

/-- What the only pointer to a cell pointed to is an orphan once that pointer is dropped. -/
theorem Linked.orphan (h : Linked cell next live brk) {p : π} {m : Nat} (hp : next p = some m)
    (h0 : next' p = none) (hn : ∀ q, q ≠ p → next' q = next q) : Orphan next' live m := by
  refine ⟨h.live_of_next hp, fun q hq => ?_⟩
  by_cases hqp : q = p
  · rw [hqp, h0] at hq
    cases hq
  · rw [hn q hqp] at hq
    exact hqp (h.unique hq hp)

/-- Linking the fresh cell `brk` behind the end of a chain. -/
theorem Linked.grow (h : Linked cell next live brk) {p : π} (hp : ∀ n, p = cell n → live n)
    (h1 : next' p = some brk) (h0 : next' (cell brk) = none)
    (hn : ∀ q, q ≠ p → q ≠ cell brk → next' q = next q)
    (hl : ∀ n, live' n ↔ live n ∨ n = brk) : Linked cell next' live' (brk + 1) := by
  have hcases : ∀ {q m}, next' q = some m → (q = p ∧ m = brk) ∨ (q ≠ p ∧ next q = some m) := by
    intro q m hq
    by_cases hqp : q = p
    · rw [hqp, h1] at hq
      exact .inl ⟨hqp, (Option.some.inj hq).symm⟩
    · by_cases hqb : q = cell brk
      · rw [hqb, h0] at hq
        cases hq
      · rw [hn q hqp hqb] at hq
        exact .inr ⟨hqp, hq⟩
  refine ⟨?_, ?_, ?_, ?_⟩
  · intro q m hq
    obtain ⟨-, rfl⟩ | ⟨-, hq⟩ := hcases hq
    · exact (hl m).2 (.inr rfl)
    · exact (hl m).2 (.inl (h.live_of_next hq))
  · intro q q' m hq hq'
    obtain ⟨rfl, rfl⟩ | ⟨-, hq⟩ := hcases hq
    · obtain ⟨rfl, -⟩ | ⟨-, hq'⟩ := hcases hq'
      · rfl
      · exact absurd (h.lt_brk (h.live_of_next hq')) (Nat.lt_irrefl _)
    · obtain ⟨-, rfl⟩ | ⟨-, hq'⟩ := hcases hq'
      · exact absurd (h.lt_brk (h.live_of_next hq)) (Nat.lt_irrefl _)
      · exact h.unique hq hq'
  · intro n hn
    obtain hn | rfl := (hl n).1 hn
    · exact Nat.lt_succ_of_lt (h.lt_brk hn)
    · exact Nat.lt_succ_self _
  · intro n m hq
    obtain ⟨hpn, rfl⟩ | ⟨-, hq⟩ := hcases hq
    · exact h.lt_brk (hp n hpn.symm)
    · exact h.lt_next hq

/-- Freeing an orphan. -/
theorem Linked.free (h : Linked cell next live brk) {n : Nat} (ho : Orphan next live n)
    (h0 : next' (cell n) = none) (hn : ∀ q, q ≠ cell n → next' q = next q)
    (hl : ∀ m, live' m ↔ live m ∧ m ≠ n) : Linked cell next' live' brk := by
  have hd : Linked cell next' live brk := by
    refine h.drop fun q => ?_
    by_cases hq : q = cell n
    · exact .inl (hq ▸ h0)
    · exact .inr (hn q hq)
  refine ⟨fun {p m} hp => ?_, hd.unique, fun hm => h.lt_brk ((hl _).1 hm).1, hd.lt_next⟩
  refine (hl m).2 ⟨hd.live_of_next hp, fun hmn => ?_⟩
  by_cases hq : p = cell n
  · rw [hq, h0] at hp
    cases hp
  · rw [hn p hq, hmn] at hp
    exact ho.none p hp

/-- The successor of a freed cell is the next orphan. -/
theorem Linked.orphan_free (h : Linked cell next live brk) {n m : Nat}
    (hm : next (cell n) = some m) (h0 : next' (cell n) = none)
    (hn : ∀ q, q ≠ cell n → next' q = next q) (hl : ∀ m, live' m ↔ live m ∧ m ≠ n) :
    Orphan next' live' m := by
  have ho := h.orphan hm h0 hn
  refine ⟨(hl m).2 ⟨ho.live, ?_⟩, ho.none⟩
  exact Nat.ne_of_gt (h.lt_next hm)

/-! ## Reachable pointers -/

/-- What can be reached from the roots. -/
inductive Reach (cell : Nat → π) (next : π → Option Nat) (root : π → Prop) : π → Prop where
  | root {p} (h : root p) : Reach cell next root p
  | next {p n} (h : Reach cell next root p) (hn : next p = some n) : Reach cell next root (cell n)

variable {root root' : π → Prop}

/-- With fewer pointers, less can be reached. -/
theorem Reach.mono {p : π} (h : Reach cell next' root' p)
    (hr : ∀ q, root' q → Reach cell next root q) (hn : ∀ q n, next' q = some n → next q = some n) :
    Reach cell next root p := by
  induction h with
  | root h => exact hr _ h
  | next _ hp ih => exact .next ih (hn _ _ hp)

/-- Linking a fresh cell makes that cell reachable, and nothing else. -/
theorem Reach.grow {p q : π} (h : Reach cell next' root' q) {brk : Nat}
    (hr : ∀ q, root' q → Reach cell next root q ∨ q = cell brk) (h1 : next' p = some brk)
    (h0 : next' (cell brk) = none) (hn : ∀ q, q ≠ p → q ≠ cell brk → next' q = next q) :
    Reach cell next root q ∨ q = cell brk := by
  induction h with
  | root h => exact hr _ h
  | @next q n _ hq ih =>
    by_cases hqp : q = p
    · rw [hqp, h1] at hq
      exact .inr (congrArg cell (Option.some.inj hq).symm)
    · obtain ih | rfl := ih
      · by_cases hqb : q = cell brk
        · rw [hqb, h0] at hq
          cases hq
        · rw [hn q hqp hqb] at hq
          exact .inl (.next ih hq)
      · rw [h0] at hq
        cases hq

end Chain
