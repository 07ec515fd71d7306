/-
  Programs over a state that may stop early (`EStateM`): what a run leaves behind, frame
  rules for one program, simulation rules for two, and the same for runs of many steps.
  Nothing here knows about a particular machine.

  * `Keeps R m`: the state in which `m` stops, whether it returned or threw, is `R`-related
    to the one it started in. `R` is usually reflexive and transitive, and then the rules
    follow the shape of the program (`keeps_bind`, `keeps_ite`).
  * `Preserves I m`: if `m` starts in `I` and returns, it returns in `I`.
  * `Relates S R m n`: from `R`-related states `m` and `n` both return the same value or
    both throw `S`-related errors, and the states they stop in are again `R`-related.
  * `trace step s is`: the states a run passes through while `step` succeeds, and
    `ending step stop s is`: how it ends; `trace_forall₂` and `ending_optRel` carry a
    simulation from steps to whole runs.
-/
import Mathlib.Data.List.Forall2
import Mathlib.Logic.Function.Basic

namespace StateExcept

variable {ε σ τ υ α β ι : Type}

/-! ## Evaluation -/

/-- The state a run stops in. -/
def final : EStateM.Result ε σ α → σ
  | .ok _ s => s
  | .error _ s => s

@[simp] theorem final_ok (a : α) (s : σ) : final (.ok a s : EStateM.Result ε σ α) = s := rfl
@[simp] theorem final_error (e : ε) (s : σ) :
    final (.error e s : EStateM.Result ε σ α) = s := rfl

@[simp] theorem pure_apply (a : α) (s : σ) : (pure a : EStateM ε σ α) s = .ok a s := rfl
@[simp] theorem get_apply (s : σ) : (get : EStateM ε σ σ) s = .ok s s := rfl
@[simp] theorem set_apply (s t : σ) : (set t : EStateM ε σ PUnit) s = .ok ⟨⟩ t := rfl
@[simp] theorem modify_apply (f : σ → σ) (s : σ) :
    (modify f : EStateM ε σ PUnit) s = .ok ⟨⟩ (f s) := rfl
@[simp] theorem throw_apply (e : ε) (s : σ) : (throw e : EStateM ε σ α) s = .error e s := rfl

theorem bind_apply (m : EStateM ε σ α) (f : α → EStateM ε σ β) (s : σ) :
    (m >>= f) s = match m s with
      | .ok a s' => f a s'
      | .error e s' => .error e s' := rfl

theorem map_apply (f : α → β) (m : EStateM ε σ α) (s : σ) :
    (f <$> m) s = match m s with
      | .ok a s' => .ok (f a) s'
      | .error e s' => .error e s' := rfl

@[simp] theorem throw_bind_apply (e : ε) (f : α → EStateM ε σ β) (s : σ) :
    ((throw e : EStateM ε σ α) >>= f) s = .error e s := rfl

theorem bind_of_ok {m : EStateM ε σ α} {s s' : σ} {a : α} (h : m s = .ok a s')
    (f : α → EStateM ε σ β) : (m >>= f) s = f a s' := by
  rw [bind_apply, h]

theorem bind_of_error {m : EStateM ε σ α} {s s' : σ} {e : ε} (h : m s = .error e s')
    (f : α → EStateM ε σ β) : (m >>= f) s = .error e s' := by
  rw [bind_apply, h]

@[simp] theorem ite_run (c : Prop) [Decidable c] (m n : EStateM ε σ α) (s : σ) :
    (if c then m else n) s = if c then m s else n s := by
  split <;> rfl

/-- A bind that returned went through both parts. -/
theorem bind_eq_ok {m : EStateM ε σ α} {f : α → EStateM ε σ β} {s s' : σ} {b : β}
    (h : (m >>= f) s = .ok b s') : ∃ a t, m s = .ok a t ∧ f a t = .ok b s' := by
  rw [bind_apply] at h
  cases hm : m s with
  | ok a t => exact ⟨a, t, rfl, by simpa [hm] using h⟩
  | error e t => simp [hm] at h

/-- The run returned. -/
def isOk : EStateM.Result ε σ α → Bool
  | .ok _ _ => true
  | .error _ _ => false

theorem eq_ok_of_isOk {r : EStateM.Result ε σ Unit} (h : isOk r = true) :
    r = .ok () (final r) := by
  cases r with
  | ok a s => rfl
  | error e s => cases h

/-- The value the run returned, if it did. -/
def returned : EStateM.Result ε σ α → Option α
  | .ok a _ => some a
  | .error _ _ => none

/-- What a program threw. -/
def thrown : EStateM.Result ε σ α → Option ε
  | .ok _ _ => none
  | .error e _ => some e

theorem eq_ok_of_returned {r : EStateM.Result ε σ α} {a : α} (h : returned r = some a) :
    r = .ok a (final r) := by
  cases r with
  | ok a s => cases h; rfl
  | error e s => cases h

/-- The run returned, with a value and in a state that pass `f`. -/
def okAnd (r : EStateM.Result ε σ α) (f : α → σ → Bool) : Bool :=
  match r with
  | .ok a s => f a s
  | .error _ _ => false

/-- A result seen through a map of states. -/
def mapFinal (f : σ → τ) : EStateM.Result ε σ α → EStateM.Result ε τ α
  | .ok a s => .ok a (f s)
  | .error e s => .error e (f s)

/-! ## Frame rules -/

section Keeps

variable {R : σ → σ → Prop}

/-- Whatever `m` does, it stops in a state `R`-related to the one it started in. -/
def Keeps (R : σ → σ → Prop) (m : EStateM ε σ α) : Prop := ∀ s, R s (final (m s))

theorem keeps_pure (hr : ∀ s, R s s) (a : α) : Keeps R (pure a : EStateM ε σ α) := hr

theorem keeps_throw (hr : ∀ s, R s s) (e : ε) : Keeps R (throw e : EStateM ε σ α) := hr

theorem keeps_get (hr : ∀ s, R s s) : Keeps R (get : EStateM ε σ σ) := hr

theorem keeps_modify {f : σ → σ} (h : ∀ s, R s (f s)) :
    Keeps R (modify f : EStateM ε σ PUnit) := h

theorem keeps_bind (ht : ∀ s t u, R s t → R t u → R s u) {m : EStateM ε σ α}
    {f : α → EStateM ε σ β} (hm : Keeps R m) (hf : ∀ a, Keeps R (f a)) :
    Keeps R (m >>= f) := by
  intro s
  have h := hm s
  rw [bind_apply]
  cases hr : m s with
  | ok a t => rw [hr] at h; exact ht _ _ _ h (hf a t)
  | error e t => rw [hr] at h; exact h

theorem keeps_ite {c : Prop} [Decidable c] {m n : EStateM ε σ α} (hm : Keeps R m)
    (hn : Keeps R n) : Keeps R (if c then m else n) := by
  split
  · exact hm
  · exact hn

end Keeps

/-! ## Invariants of a program -/

section Preserves

variable {I : σ → Prop}

/-- From a state in `I`, whenever `m` returns it does so in a state in `I`. -/
def Preserves (I : σ → Prop) (m : EStateM ε σ α) : Prop :=
  ∀ s a t, I s → m s = .ok a t → I t

theorem preserves_modify {f : σ → σ} (h : ∀ s, I s → I (f s)) :
    Preserves I (modify f : EStateM ε σ PUnit) := by
  intro s a t hs ht
  cases ht
  exact h s hs

theorem preserves_pure (a : α) : Preserves I (pure a : EStateM ε σ α) := by
  intro s _ t hs ht
  cases ht
  exact hs

theorem preserves_bind {m : EStateM ε σ α} {f : α → EStateM ε σ β} (hm : Preserves I m)
    (hf : ∀ a, Preserves I (f a)) : Preserves I (m >>= f) := by
  intro s b u hs hu
  obtain ⟨a, t, ht, hu⟩ := bind_eq_ok hu
  exact hf a t b u (hm s a t hs ht) hu

theorem preserves_ite {c : Prop} [Decidable c] {m n : EStateM ε σ α} (hm : c → Preserves I m)
    (hn : ¬ c → Preserves I n) : Preserves I (if c then m else n) := by
  split
  · exact hm ‹_›
  · exact hn ‹_›

end Preserves

/-! ## Programs that cannot fail -/

section Succeeds

variable {I : σ → Prop}

/-- From a state in `I`, `m` returns, and does so in a state in `I`. -/
def Succeeds (I : σ → Prop) (m : EStateM ε σ α) : Prop :=
  ∀ s, I s → ∃ a t, m s = .ok a t ∧ I t

theorem succeeds_pure (a : α) : Succeeds I (pure a : EStateM ε σ α) :=
  fun s hs => ⟨a, s, rfl, hs⟩

theorem succeeds_modify {f : σ → σ} (h : ∀ s, I s → I (f s)) :
    Succeeds I (modify f : EStateM ε σ PUnit) := fun s hs => ⟨(), f s, rfl, h s hs⟩

theorem succeeds_bind {m : EStateM ε σ α} {f : α → EStateM ε σ β} (hm : Succeeds I m)
    (hf : ∀ a, Succeeds I (f a)) : Succeeds I (m >>= f) := by
  intro s hs
  obtain ⟨a, t, ht, hi⟩ := hm s hs
  rw [bind_of_ok ht]
  exact hf a t hi

theorem succeeds_ite {c : Prop} [Decidable c] {m n : EStateM ε σ α} (hm : Succeeds I m)
    (hn : Succeeds I n) : Succeeds I (if c then m else n) := by
  split
  · exact hm
  · exact hn

end Succeeds

/-! ## Simulation rules -/

section Relates

variable {S : ε → ε → Prop} {R : σ → τ → Prop}

/-- Two results agree: the same value, or `S`-related errors, in `R`-related states. -/
def ResRel (S : ε → ε → Prop) (R : σ → τ → Prop) :
    EStateM.Result ε σ α → EStateM.Result ε τ α → Prop
  | .ok a s, .ok b t => a = b ∧ R s t
  | .error e s, .error f t => S e f ∧ R s t
  | _, _ => False

/-- From `R`-related states, `m` and `n` stop in agreeing results. -/
def Relates (S : ε → ε → Prop) (R : σ → τ → Prop) (m : EStateM ε σ α)
    (n : EStateM ε τ α) : Prop :=
  ∀ s t, R s t → ResRel S R (m s) (n t)

theorem relates_pure (a : α) : Relates S R (pure a) (pure a) := fun _ _ h => ⟨rfl, h⟩

theorem relates_throw (hs : ∀ e, S e e) (e : ε) :
    Relates S R (throw e : EStateM ε σ α) (throw e : EStateM ε τ α) :=
  fun _ _ h => ⟨hs e, h⟩

/-- The second parts only have to agree from where the first ones returned. -/
theorem resRel_bindAt {m : EStateM ε σ α} {n : EStateM ε τ α} {f : α → EStateM ε σ β}
    {g : α → EStateM ε τ β} {s : σ} {t : τ} (hm : ResRel S R (m s) (n t))
    (hf : ∀ a s' t', m s = .ok a s' → R s' t' → ResRel S R (f a s') (g a t')) :
    ResRel S R ((m >>= f) s) ((n >>= g) t) := by
  rw [bind_apply, bind_apply]
  cases hms : m s with
  | ok a s' =>
    cases hnt : n t with
    | ok b t' =>
      rw [hms, hnt] at hm
      obtain ⟨rfl, hr⟩ := hm
      exact hf a s' t' hms hr
    | error e t' => rw [hms, hnt] at hm; exact hm.elim
  | error e s' =>
    cases hnt : n t with
    | ok b t' => rw [hms, hnt] at hm; exact hm.elim
    | error e' t' => rw [hms, hnt] at hm; exact hm

theorem resRel_bind {m : EStateM ε σ α} {n : EStateM ε τ α} {f : α → EStateM ε σ β}
    {g : α → EStateM ε τ β} {s : σ} {t : τ} (hm : ResRel S R (m s) (n t))
    (hf : ∀ a, Relates S R (f a) (g a)) : ResRel S R ((m >>= f) s) ((n >>= g) t) :=
  resRel_bindAt hm fun a s' t' _ hr => hf a s' t' hr

theorem relates_bind {m : EStateM ε σ α} {n : EStateM ε τ α} {f : α → EStateM ε σ β}
    {g : α → EStateM ε τ β} (hm : Relates S R m n) (hf : ∀ a, Relates S R (f a) (g a)) :
    Relates S R (m >>= f) (n >>= g) := fun s t hst => resRel_bind (hm s t hst) hf

theorem relates_ite {c : Prop} [Decidable c] {m m' : EStateM ε σ α} {n n' : EStateM ε τ α}
    (h : Relates S R m n) (h' : Relates S R m' n') :
    Relates S R (if c then m else m') (if c then n else n') := by
  split
  · exact h
  · exact h'

end Relates

/-! ## Runs -/

/-- The states a run passes through, one for each input, while `step` succeeds. -/
def trace (step : σ → ι → Option σ) : σ → List ι → List σ
  | _, [] => []
  | s, i :: is =>
    match step s i with
    | none => []
    | some s' => s' :: trace step s' is

/-- What every step keeps holds in every state of a run. -/
theorem trace_keeps {I : σ → Prop} {step : σ → ι → Option σ}
    (h : ∀ {s s' i}, I s → step s i = some s' → I s') {s : σ} (hs : I s) (is : List ι) :
    ∀ t ∈ trace step s is, I t := by
  induction is generalizing s with
  | nil => intro t ht; cases ht
  | cons i is ih =>
    intro t ht
    unfold trace at ht
    cases hi : step s i with
    | none => rw [hi] at ht; cases ht
    | some s' =>
      rw [hi] at ht
      rcases List.mem_cons.1 ht with rfl | ht
      · exact h hs hi
      · exact ih (h hs hi) t ht

/-- Two steps agree: both get stuck, or both succeed in `R`-related states. -/
def OptRel (R : σ → τ → Prop) : Option σ → Option τ → Prop
  | none, none => True
  | some s, some t => R s t
  | _, _ => False

theorem eq_of_optRel {R : σ → σ → Prop} (hR : ∀ s t, R s t → s = t) {a b : Option σ}
    (h : OptRel R a b) : a = b := by
  cases a with
  | none =>
    cases b with
    | none => rfl
    | some t => exact h.elim
  | some s =>
    cases b with
    | none => exact h.elim
    | some t => exact congrArg some (hR s t h)

theorem OptRel.symm {R : σ → τ → Prop} {S : τ → σ → Prop} (hRS : ∀ s t, R s t → S t s)
    {a : Option σ} {b : Option τ} (h : OptRel R a b) : OptRel S b a := by
  cases a with
  | none =>
    cases b with
    | none => trivial
    | some t => exact h.elim
  | some s =>
    cases b with
    | none => exact h.elim
    | some t => exact hRS s t h

/-- The state of a run that returned. -/
def okState : EStateM.Result ε σ α → Option σ
  | .ok _ s => some s
  | .error _ _ => none

theorem eq_ok_of_okState {r : EStateM.Result ε σ Unit} {s : σ} (h : okState r = some s) :
    r = .ok () s := by
  cases r with
  | ok a t => cases h; rfl
  | error e t => cases h

/-- Two results agree in how they end: `R`-related states where both returned, `S`-related
    errors where both threw. -/
def EndRel (S : ε → ε → Prop) (R : σ → τ → Prop) :
    EStateM.Result ε σ α → EStateM.Result ε τ β → Prop
  | .ok _ s, .ok _ t => R s t
  | .error e _, .error f _ => S e f
  | _, _ => False

theorem ResRel.endRel {S : ε → ε → Prop} {R : σ → τ → Prop} {r : EStateM.Result ε σ α}
    {r' : EStateM.Result ε τ α} (h : ResRel S R r r') : EndRel S R r r' := by
  cases r with
  | ok a s =>
    cases r' with
    | ok b t => exact h.2
    | error e t => exact h.elim
  | error e s =>
    cases r' with
    | ok b t => exact h.elim
    | error e' t => exact h.1

/-- Two steps agree: `R`-related states where both succeed, `S`-related ends where neither
    does. -/
structure StepRel (S : ε → ε → Prop) (R : σ → τ → Prop) (s' : Option σ) (e : Option ε)
    (t' : Option τ) (f : Option ε) : Prop where
  state : OptRel R s' t'
  stop : OptRel S e f

theorem EndRel.step {S : ε → ε → Prop} {R : σ → τ → Prop} {r : EStateM.Result ε σ α}
    {r' : EStateM.Result ε τ β} (h : EndRel S R r r') :
    StepRel S R (okState r) (thrown r) (okState r') (thrown r') := by
  cases r with
  | ok a s =>
    cases r' with
    | ok b t => exact ⟨h, trivial⟩
    | error e t => exact h.elim
  | error e s =>
    cases r' with
    | ok b t => exact h.elim
    | error e' t => exact ⟨trivial, h⟩

/-- Two results that agree with a third agree. -/
theorem EndRel.join {S S' T : ε → ε → Prop} {R : σ → υ → Prop} {R' : τ → υ → Prop}
    {r : EStateM.Result ε σ α} {r' : EStateM.Result ε τ α} {r'' : EStateM.Result ε υ α}
    (h : EndRel S R r r'') (h' : EndRel S' R' r' r'')
    (hT : ∀ e f g, S e g → S' f g → T e f) :
    EndRel T (fun x y => ∃ z, R x z ∧ R' y z) r r' := by
  cases r'' with
  | ok c z =>
    cases r with
    | error e s => exact h.elim
    | ok a s =>
      cases r' with
      | error f t => exact h'.elim
      | ok b t => exact ⟨z, h, h'⟩
  | error g z =>
    cases r with
    | ok a s => exact h.elim
    | error e s =>
      cases r' with
      | ok b t => exact h'.elim
      | error f t => exact hT e f g h h'

/-- How the run from `s` ends, if one of the inputs ends it. -/
def ending (step : σ → ι → Option σ) (stop : σ → ι → Option ε) : σ → List ι → Option ε
  | _, [] => none
  | s, i :: is =>
    match step s i with
    | none => stop s i
    | some s' => ending step stop s' is

/-- Every input of the run from `s` comes in a state that admits it. -/
def Along (step : σ → ι → Option σ) (ok : σ → ι → Prop) : σ → List ι → Prop
  | _, [] => True
  | s, i :: is => ok s i ∧ ∀ s', step s i = some s' → Along step ok s' is

def Along.decidable {step : σ → ι → Option σ} {ok : σ → ι → Prop}
    (hok : ∀ s i, Decidable (ok s i)) : (s : σ) → (is : List ι) → Decidable (Along step ok s is)
  | _, [] => inferInstanceAs (Decidable True)
  | s, i :: is =>
    match h : step s i with
    | none => decidable_of_iff (ok s i) (by simp [Along, h])
    | some s' =>
      have : Decidable (Along step ok s' is) := Along.decidable hok s' is
      decidable_of_iff (ok s i ∧ Along step ok s' is) (by simp [Along, h])

instance {step : σ → ι → Option σ} {ok : σ → ι → Prop} [∀ s i, Decidable (ok s i)] (s : σ)
    (is : List ι) : Decidable (Along step ok s is) :=
  Along.decidable inferInstance s is

theorem Along.imp {step : σ → ι → Option σ} {ok ok' : σ → ι → Prop}
    (h : ∀ s i, ok s i → ok' s i) {s : σ} {is : List ι} (ha : Along step ok s is) :
    Along step ok' s is := by
  induction is generalizing s with
  | nil => trivial
  | cons i is ih => exact ⟨h s i ha.1, fun s' hs => ih (ha.2 s' hs)⟩

/-- A simulation on steps is a simulation on runs: the two traces have the same length and
    are related state by state. -/
theorem trace_forall₂ {R : σ → τ → Prop} {step : σ → ι → Option σ} {step' : τ → ι → Option τ}
    {ok : σ → ι → Prop} (h : ∀ s t i, R s t → ok s i → OptRel R (step s i) (step' t i)) {s : σ}
    {t : τ} (hst : R s t) (is : List ι) (ha : Along step ok s is) :
    List.Forall₂ R (trace step s is) (trace step' t is) := by
  induction is generalizing s t with
  | nil => exact .nil
  | cons i is ih =>
    obtain ⟨hok, hrest⟩ := ha
    have hi := h s t i hst hok
    simp only [trace]
    cases hs : step s i with
    | none =>
      cases ht : step' t i with
      | none => exact .nil
      | some t' => rw [hs, ht] at hi; exact hi.elim
    | some s' =>
      cases ht : step' t i with
      | none => rw [hs, ht] at hi; exact hi.elim
      | some t' =>
        rw [hs, ht] at hi
        exact .cons hi (ih hi (hrest s' hs))

/-- It also relates the ends of the runs. -/
theorem ending_optRel {S : ε → ε → Prop} {R : σ → τ → Prop} {step : σ → ι → Option σ}
    {stop : σ → ι → Option ε} {step' : τ → ι → Option τ} {stop' : τ → ι → Option ε}
    {ok : σ → ι → Prop}
    (h : ∀ s t i, R s t → ok s i → StepRel S R (step s i) (stop s i) (step' t i) (stop' t i))
    {s : σ} {t : τ} (hst : R s t) (is : List ι) (ha : Along step ok s is) :
    OptRel S (ending step stop s is) (ending step' stop' t is) := by
  induction is generalizing s t with
  | nil => trivial
  | cons i is ih =>
    obtain ⟨hok, hrest⟩ := ha
    obtain ⟨hi, hstop⟩ := h s t i hst hok
    simp only [ending]
    cases hs : step s i with
    | none =>
      cases ht : step' t i with
      | none => exact hstop
      | some t' => rw [hs, ht] at hi; exact hi.elim
    | some s' =>
      cases ht : step' t i with
      | none => rw [hs, ht] at hi; exact hi.elim
      | some t' =>
        rw [hs, ht] at hi
        exact ih hi (hrest s' hs)

/-- A simulation carries what is known of each step over to the other run. -/
theorem Along.transfer {R : σ → τ → Prop} {step : σ → ι → Option σ} {step' : τ → ι → Option τ}
    {ok : σ → ι → Prop} {ok' : τ → ι → Prop}
    (h : ∀ s t i, R s t → ok s i → OptRel R (step s i) (step' t i))
    (hok : ∀ s t i, R s t → ok s i → ok' t i) {s : σ} {t : τ} (hst : R s t) {is : List ι}
    (ha : Along step ok s is) : Along step' ok' t is := by
  induction is generalizing s t with
  | nil => trivial
  | cons i is ih =>
    refine ⟨hok s t i hst ha.1, fun t' ht => ?_⟩
    have hi := h s t i hst ha.1
    rw [ht] at hi
    cases hs : step s i with
    | none => rw [hs] at hi; exact hi.elim
    | some s' =>
      rw [hs] at hi
      exact ih hi (ha.2 s' hs)

theorem map_eq_of_forall₂ {R : σ → τ → Prop} {f : σ → α} {g : τ → α}
    (hfg : ∀ s t, R s t → f s = g t) {l : List σ} {l' : List τ} (h : List.Forall₂ R l l') :
    l.map f = l'.map g := by
  induction h with
  | nil => rfl
  | cons hst _ ih => rw [List.map_cons, List.map_cons, hfg _ _ hst, ih]

theorem exists_of_forall₂ {R : σ → τ → Prop} {l : List σ} {l' : List τ}
    (h : List.Forall₂ R l l') {s : σ} (hs : s ∈ l) : ∃ t, R s t := by
  induction h with
  | nil => cases hs
  | cons hst _ ih =>
    obtain rfl | hs := List.mem_cons.1 hs
    · exact ⟨_, hst⟩
    · exact ih hs

end StateExcept
