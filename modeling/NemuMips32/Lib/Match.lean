/-
  The occurrences of a word in a stream, counted without overlap, and a matcher that follows
  them with one pointer into the word. The pointer is right while it is at the longest prefix of
  the word with which the stream ends (`Longest`). A letter that continues this prefix keeps the
  pointer right. At any other letter the matcher starts anew, which is right exactly when no
  shorter prefix ends there (`Border`).
-/
import Mathlib.Data.List.Basic

namespace Match

variable {α : Type} [DecidableEq α]

/-- For each letter of a stream, whether an occurrence of `p` ends there; `since` is what was
    read after the last one. -/
def occurrences (p since : List α) : List α → List Bool
  | [] => []
  | b :: bs =>
    if p <:+ since ++ [b] then true :: occurrences p [] bs
    else false :: occurrences p (since ++ [b]) bs

/-- A prefix of `p` no longer than `k` ends the first `k` letters followed by `b`. -/
def Border (p : List α) (k : Nat) (b : α) : Prop :=
  ∃ j, 0 < j ∧ j ≤ k ∧ p.take j <:+ p.take k ++ [b]

/-- The first `k` letters are the longest prefix of `p` that ends `since`, and not all of `p`. -/
structure Longest (p : List α) (k : Nat) (since : List α) : Prop where
  lt : k < p.length
  ends : p.take k <:+ since
  max : ∀ j ≤ p.length, p.take j <:+ since → j ≤ k

variable {p since : List α} {k : Nat} {b : α}

omit [DecidableEq α]

theorem take_succ_suffix {j : Nat} (hj : j < p.length) :
    p.take (j + 1) <:+ since ++ [b] ↔ p.take j <:+ since ∧ p[j]? = some b := by
  rw [List.take_succ_eq_append_getElem hj, List.getElem?_eq_getElem hj, Option.some.injEq]
  constructor
  · intro h
    rcases List.suffix_concat_iff.1 h with h | ⟨t, ht, hsuf⟩
    · exact absurd h (List.append_ne_nil_of_right_ne_nil _ (List.cons_ne_nil _ _))
    · obtain ⟨hinit, hlast⟩ := List.append_inj' ht rfl
      rw [hinit]
      exact ⟨hsuf, List.head_eq_of_cons_eq hlast⟩
  · rintro ⟨h, rfl⟩
    exact List.suffix_append_self_iff.2 h

/-- Nothing read. -/
theorem longest_nil (hp : p ≠ []) : Longest p 0 [] where
  lt := List.length_pos_iff.2 hp
  ends := List.suffix_refl _
  max j hj h := by
    have hlen := h.length_le
    rw [List.length_take_of_le hj] at hlen
    exact hlen

namespace Longest

theorem not_occurs (h : Longest p k since) : ¬p <:+ since := by
  intro hs
  have := h.max p.length (Nat.le_refl _) (by rwa [List.take_length])
  have := h.lt
  omega

/-- A prefix that ends one letter later is at most one letter longer. -/
theorem max_succ (h : Longest p k since) {j : Nat} (hj : j ≤ p.length)
    (hs : p.take j <:+ since ++ [b]) : j ≤ k + 1 := by
  cases j with
  | zero => omega
  | succ j =>
    have := h.max j (by omega) ((take_succ_suffix (by omega)).1 hs).1
    omega

/-- The letter completes the word. -/
theorem occurs (h : Longest p k since) (hb : p[k]? = some b) (hk : k + 1 = p.length) :
    p <:+ since ++ [b] := by
  have hs := (take_succ_suffix h.lt).2 ⟨h.ends, hb⟩
  rwa [hk, List.take_length] at hs

/-- The letter continues the prefix. -/
theorem continued (h : Longest p k since) (hb : p[k]? = some b) (hk : k + 1 < p.length) :
    Longest p (k + 1) (since ++ [b]) where
  lt := hk
  ends := (take_succ_suffix h.lt).2 ⟨h.ends, hb⟩
  max _ hj hs := h.max_succ hj hs

/-- At another letter the matcher may start anew if no shorter prefix ends there, and only
    then. -/
theorem reset_iff (h : Longest p k since) (hb : p[k]? ≠ some b) :
    Longest p 0 (since ++ [b]) ↔ ¬Border p k b := by
  have hk := h.lt
  constructor
  · rintro h0 ⟨j, hpos, hjk, hs⟩
    have := h0.max j (by omega) (hs.trans (List.suffix_append_self_iff.2 h.ends))
    omega
  · refine fun hno => ⟨by omega, List.nil_suffix, fun j hj hs => ?_⟩
    by_contra hpos
    obtain ⟨i, rfl⟩ : ∃ i, j = i + 1 := ⟨j - 1, by omega⟩
    obtain ⟨hi, hib⟩ := (take_succ_suffix (by omega)).1 hs
    have hik : i ≤ k := h.max i (by omega) hi
    have hne : i ≠ k := by
      rintro rfl
      exact hb hib
    refine hno ⟨i + 1, by omega, by omega, (take_succ_suffix (by omega)).2 ⟨?_, hib⟩⟩
    refine List.suffix_of_suffix_length_le hi h.ends ?_
    rw [List.length_take_of_le (by omega), List.length_take_of_le (by omega)]
    exact hik

end Longest

end Match
