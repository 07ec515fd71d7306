/-
  The ring of calls and returns of `frame.c`, and the backtrace printed from it. The ring holds
  the last 400 events; the backtrace replays them on a stack of 100 entries, and an assertion
  stops the emulator when the stack fills up. `reconstructs_iff`: the backtrace is the list of
  the calls that no return in the window matches, exactly as long as no more than 99 calls are
  open at any point of the window.

  The names are a parameter there. `named_findName` and `answers_printed` put in the lookup of
  `elfsym.c`, with its cache and without it.

  The times that `kdbg_print_frames` prints beside the events are left out.
-/
import NemuMips32.Elfsym

namespace NemuMips32

/-! ## Program -/

inductive FrameProperty where
  | none
  | call
  | ret
  deriving DecidableEq

/-- `struct frame_t`. -/
structure FrameT where
  property : FrameProperty
  pc : Word
  target : Word

def NR_FRAMES : Nat := 400

/-- `pc_ptr` and `frames`. -/
structure Frames where
  pcPtr : Fin NR_FRAMES
  frames : Fin NR_FRAMES → FrameT

instance : NeZero NR_FRAMES := ⟨by decide⟩

namespace Frames

/-- Static memory is zero. -/
def init : Frames := ⟨0, fun _ => ⟨.none, 0, 0⟩⟩

/-- The sum in `Fin NR_FRAMES` is `(pc_ptr + 1) % NR_FRAMES`. -/
def enqueue (s : Frames) (f : FrameT) : Frames where
  pcPtr := s.pcPtr + 1
  frames := Function.update s.frames s.pcPtr f

/-- `frames_enqueue_call`. -/
def enqueueCall (s : Frames) (pc target : Word) : Frames := s.enqueue ⟨.call, pc, target⟩

/-- `frames_enqueue_ret`. -/
def enqueueRet (s : Frames) (pc target : Word) : Frames := s.enqueue ⟨.ret, pc, target⟩

def NR_BACKTRACE : Nat := 100

/-- `backtraces` and `top`. -/
structure Stack where
  backtraces : Nat → Word
  top : Nat

/-- The body of the first loop of `kdbg_print_backtraces`. -/
def visit (s : Frames) (st : Stack) (i : Fin NR_FRAMES) : Except Halt Stack :=
  match (s.frames i).property with
  | .call =>
    let st' : Stack :=
      { backtraces := Function.update st.backtraces st.top (BitVec.ofNat 32 i), top := st.top + 1 }
    if st'.top < NR_BACKTRACE then .ok st' else .error .assert
  | .ret => .ok (if 0 < st.top then { st with top := st.top - 1 } else st)
  | .none => .ok st

/-- One slot further, one step less to `p`. -/
theorem distance_eq {p i : Fin NR_FRAMES} (h : i + 1 ≠ p) :
    (p - (i + 1)).val = (p - (i + 1 + 1)).val + 1 := by
  have hne : (p - (i + 1)).val ≠ 0 := by
    intro h0
    exact h (sub_eq_zero.1 (Fin.ext h0)).symm
  have hsub : p - (i + 1 + 1) = p - (i + 1) - 1 := by
    rw [sub_add_eq_sub_sub]
  rw [hsub, Fin.val_sub_one_of_ne_zero fun h0 => hne (by rw [h0]; rfl)]
  omega

/-- The `do` loop over the ring, from `i` on until it is back at `pc_ptr`. -/
def loopFrom {σ : Type} (s : Frames) (body : σ → Fin NR_FRAMES → Except Halt σ)
    (i : Fin NR_FRAMES) (st : σ) : Except Halt σ := do
  let st' ← body st i
  if _h : i + 1 = s.pcPtr then .ok st' else s.loopFrom body (i + 1) st'
termination_by (s.pcPtr - (i + 1)).val
decreasing_by
  rw [distance_eq _h]
  exact Nat.lt_succ_self _

/-- The names of a printed line are what `elfsym_find_symbol` finds, unless it fails. -/
structure FrameLine where
  frame : FrameT
  pcName : List (BitVec 8)
  targetName : List (BitVec 8)

variable (name : Word → Except Halt (List (BitVec 8)))

def FrameT.line (f : FrameT) : Except Halt FrameLine := do
  return ⟨f, ← name f.pc, ← name f.target⟩

/-- `kdbg_print_frames`. -/
def printFrames (s : Frames) : Except Halt (List FrameLine) :=
  s.loopFrom (fun lines i => do
    if (s.frames i).property = .none then .ok lines
    else return lines ++ [← FrameT.line name (s.frames i)]) s.pcPtr []

/-- The second loop, over the given entries of `backtraces`. -/
def printEntries (s : Frames) (st : Stack) : List Nat → Except Halt (List FrameLine)
  | [] => .ok []
  | i :: rest =>
    let idx := (st.backtraces i).toInt
    if idx < 0 then s.printEntries st rest
    else if h : idx.toNat < NR_FRAMES then do
      let line ← FrameT.line name (s.frames ⟨idx.toNat, h⟩)
      return line :: (← s.printEntries st rest)
    else .error .assert

/-- `kdbg_print_backtraces`. -/
def printBacktraces (s : Frames) : Except Halt (List FrameLine) := do
  let st ← s.loopFrom s.visit s.pcPtr ⟨fun _ => BitVec.allOnes 32, 0⟩
  s.printEntries name st (List.range st.top)

end Frames

/-! ## What it should print -/

inductive FrameEvent where
  | call (pc target : Word)
  | ret (pc target : Word)

namespace FrameEvent

def frame : FrameEvent → FrameT
  | call pc target => ⟨.call, pc, target⟩
  | ret pc target => ⟨.ret, pc, target⟩

/-- The returns of a list of events that no call in it opens. -/
def openRets : List FrameEvent → Nat
  | [] => 0
  | call _ _ :: rest => openRets rest - 1
  | ret _ _ :: rest => openRets rest + 1

/-- The calls that no later return matches: those behind which every return has its call. -/
def unmatched : List FrameEvent → List FrameEvent
  | [] => []
  | call pc target :: rest =>
    if openRets rest = 0 then call pc target :: unmatched rest else unmatched rest
  | ret _ _ :: rest => unmatched rest

end FrameEvent

namespace Frames

def run (events : List FrameEvent) : Frames :=
  events.foldl (fun s e =>
    match e with
    | .call pc target => s.enqueueCall pc target
    | .ret pc target => s.enqueueRet pc target) init

/-- The last 400 events. -/
def window (events : List FrameEvent) : List FrameEvent := events.drop (events.length - NR_FRAMES)

/-- The backtrace is the unmatched calls of the window, oldest first. -/
def Reconstructs (name : Word → Except Halt (List (BitVec 8))) (events : List FrameEvent) : Prop :=
  ∃ lines, (run events).printBacktraces name = .ok lines ∧
    lines.map FrameLine.frame = (FrameEvent.unmatched (window events)).map FrameEvent.frame

/-- The names of all its addresses are found. -/
def Named (name : Word → Except Halt (List (BitVec 8))) (events : List FrameEvent) : Prop :=
  ∀ e ∈ FrameEvent.unmatched (window events),
    (name e.frame.pc).isOk ∧ (name e.frame.target).isOk

/-- At no point of the window are 100 calls open. -/
def Shallow (events : List FrameEvent) : Prop :=
  ∀ w, w <+: window events → (FrameEvent.unmatched w).length < NR_BACKTRACE

/-! ## The slots in the order of the loop -/

theorem val_add_one (i : Fin NR_FRAMES) : (i + 1).val = (i.val + 1) % 400 := rfl

theorem val_add_ofNat (i : Fin NR_FRAMES) (n : Nat) :
    (i + Fin.ofNat NR_FRAMES n).val = (i.val + n) % 400 := by
  rw [Fin.val_add, Fin.val_ofNat, Nat.add_mod_mod]
  rfl

/-- `n` slots of the ring from `i` on. -/
def slots (i : Fin NR_FRAMES) : Nat → List (Fin NR_FRAMES)
  | 0 => []
  | n + 1 => i :: slots (i + 1) n

theorem length_slots (i : Fin NR_FRAMES) (n : Nat) : (slots i n).length = n := by
  induction n generalizing i with
  | zero => rfl
  | succ n ih => rw [slots, List.length_cons, ih]

theorem slots_succ_last (i : Fin NR_FRAMES) (n : Nat) :
    slots i (n + 1) = slots i n ++ [i + Fin.ofNat NR_FRAMES n] := by
  induction n generalizing i with
  | zero => simp [slots]
  | succ n ih =>
    have hn : i + 1 + Fin.ofNat NR_FRAMES n = i + Fin.ofNat NR_FRAMES (n + 1) := by
      apply Fin.ext
      rw [val_add_ofNat, val_add_one, val_add_ofNat]
      omega
    rw [slots, ih (i + 1), slots, hn, List.cons_append]

theorem mem_slots {i j : Fin NR_FRAMES} {n : Nat} :
    j ∈ slots i n → ∃ k < n, j.val = (i.val + k) % NR_FRAMES := by
  induction n generalizing i with
  | zero => simp [slots]
  | succ n ih =>
    intro hj
    rcases List.mem_cons.1 hj with rfl | hj
    · exact ⟨0, by omega, (Nat.mod_eq_of_lt j.isLt).symm⟩
    · obtain ⟨k, hk, hjk⟩ := ih hj
      refine ⟨k + 1, by omega, ?_⟩
      rw [hjk, val_add_one]
      change ((i.val + 1) % 400 + k) % 400 = (i.val + (k + 1)) % 400
      omega

/-- The contents of the ring, oldest first. -/
def history (s : Frames) : List FrameT := (slots s.pcPtr NR_FRAMES).map s.frames

/-- An event pushes the oldest slot out. -/
theorem history_enqueue (s : Frames) (f : FrameT) :
    (s.enqueue f).history = s.history.tail ++ [f] := by
  have hlast : s.pcPtr + 1 + Fin.ofNat NR_FRAMES 399 = s.pcPtr := by
    apply Fin.ext
    have hlt : s.pcPtr.val < 400 := s.pcPtr.isLt
    rw [val_add_ofNat, val_add_one]
    omega
  have hnot : s.pcPtr ∉ slots (s.pcPtr + 1) 399 := by
    intro hmem
    obtain ⟨k, hk, heq⟩ := mem_slots hmem
    have hlt : s.pcPtr.val < 400 := s.pcPtr.isLt
    rw [val_add_one] at heq
    change s.pcPtr.val = ((s.pcPtr.val + 1) % 400 + k) % 400 at heq
    omega
  have hkeep : (slots (s.pcPtr + 1) 399).map (s.enqueue f).frames =
      (slots (s.pcPtr + 1) 399).map s.frames := by
    refine List.map_congr_left fun i hi => ?_
    have hne : i ≠ s.pcPtr := by
      rintro rfl
      exact hnot hi
    exact Function.update_of_ne hne _ _
  have hold : s.history.tail = (slots (s.pcPtr + 1) 399).map s.frames := rfl
  have hnew : (s.enqueue f).history =
      (slots (s.pcPtr + 1) (399 + 1)).map (s.enqueue f).frames := rfl
  rw [hnew, slots_succ_last, List.map_append, hkeep, hlast, hold]
  simp [enqueue]

/-- The loop is a fold over the slots. -/
theorem loopFrom_eq {σ : Type} (s : Frames) (body : σ → Fin NR_FRAMES → Except Halt σ)
    (i : Fin NR_FRAMES) (st : σ) :
    s.loopFrom body i st = (slots i ((s.pcPtr - (i + 1)).val + 1)).foldlM body st := by
  fun_induction loopFrom s body i st with
  | case1 i st ih =>
    rw [slots, List.foldlM_cons]
    congr 1
    funext st'
    split_ifs with hi
    · have h0 : (s.pcPtr - (i + 1)).val = 0 := by
        rw [hi, sub_self]
        rfl
      rw [h0]
      rfl
    · rw [ih st' hi, distance_eq hi]

theorem loopFrom_pcPtr {σ : Type} (s : Frames) (body : σ → Fin NR_FRAMES → Except Halt σ)
    (st : σ) : s.loopFrom body s.pcPtr st = (slots s.pcPtr NR_FRAMES).foldlM body st := by
  have h : (s.pcPtr - (s.pcPtr + 1)).val = 399 := by
    rw [sub_add_cancel_left]
    rfl
  rw [loopFrom_eq, h]
  rfl

/-! ## The stack of open calls -/

/-- What one event does to the list of open calls. -/
def openStep (l : List FrameT) (f : FrameT) : List FrameT :=
  match f.property with
  | .call => l ++ [f]
  | .ret => l.dropLast
  | .none => l

/-- Fewer than 100 calls are open after each event. -/
def Within (l : List FrameT) : List FrameT → Prop
  | [] => True
  | f :: fs => (openStep l f).length < NR_BACKTRACE ∧ Within (openStep l f) fs

/-- `backtraces` and `top` hold the slots `l`. -/
structure Stacked (st : Stack) (l : List (Fin NR_FRAMES)) : Prop where
  top : st.top = l.length
  entry : ∀ (j : Nat) (i : Fin NR_FRAMES), l[j]? = some i → st.backtraces j = BitVec.ofNat 32 i

theorem stacked_push {st : Stack} {l : List (Fin NR_FRAMES)} (h : Stacked st l)
    (i : Fin NR_FRAMES) :
    Stacked ⟨Function.update st.backtraces st.top (BitVec.ofNat 32 i), st.top + 1⟩
      (l ++ [i]) where
  top := by simp [h.top]
  entry j k hjk := by
    by_cases hj : j = st.top
    · subst hj
      rw [h.top, List.getElem?_concat_length, Option.some.injEq] at hjk
      simp [hjk]
    · have hlt : j < l.length := by
        have hle := (List.getElem?_eq_some_iff.1 hjk).1
        rw [List.length_append, List.length_singleton] at hle
        have := h.top
        omega
      rw [List.getElem?_append_left hlt] at hjk
      exact (Function.update_of_ne hj _ _).trans (h.entry j k hjk)

theorem stacked_pop {st : Stack} {l : List (Fin NR_FRAMES)} (h : Stacked st l) :
    Stacked (if 0 < st.top then { st with top := st.top - 1 } else st) l.dropLast where
  top := by
    have := h.top
    rw [List.length_dropLast]
    split_ifs with h0
    · exact congrArg (· - 1) this
    · omega
  entry j k hjk := by
    have hold : l[j]? = some k := by
      rw [List.getElem?_dropLast] at hjk
      split_ifs at hjk
      exact hjk
    have := h.entry j k hold
    split_ifs <;> exact this

/-- One pass of the loop does what the event does to the open calls, or the assertion fails. -/
theorem visit_spec (s : Frames) {st : Stack} {l : List (Fin NR_FRAMES)} (h : Stacked st l)
    (hlt : l.length < NR_BACKTRACE) (i : Fin NR_FRAMES) :
    (NR_BACKTRACE ≤ (openStep (l.map s.frames) (s.frames i)).length ∧
      s.visit st i = .error .assert) ∨
    ∃ st' l', s.visit st i = .ok st' ∧ Stacked st' l' ∧ l'.length < NR_BACKTRACE ∧
      l'.map s.frames = openStep (l.map s.frames) (s.frames i) := by
  cases hp : (s.frames i).property with
  | call =>
    by_cases htop : st.top + 1 < NR_BACKTRACE
    · refine .inr ⟨_, l ++ [i], ?_, stacked_push h i, ?_, ?_⟩
      · simp only [visit, hp, if_pos htop]
      · simpa [← h.top] using htop
      · simp [openStep, hp]
    · refine .inl ⟨?_, ?_⟩
      · simpa [openStep, hp, ← h.top] using htop
      · simp only [visit, hp, if_neg htop]
  | ret =>
    refine .inr ⟨_, l.dropLast, by simp only [visit, hp], stacked_pop h, ?_, ?_⟩
    · rw [List.length_dropLast]
      omega
    · simp [openStep, hp, List.map_dropLast]
  | none =>
    exact .inr ⟨st, l, by simp only [visit, hp], h, hlt, by simp [openStep, hp]⟩

/-- The whole loop. -/
theorem foldlM_visit (s : Frames) (is : List (Fin NR_FRAMES)) {st : Stack}
    {l : List (Fin NR_FRAMES)} (h : Stacked st l) (hlt : l.length < NR_BACKTRACE) :
    (¬ Within (l.map s.frames) (is.map s.frames) ∧ is.foldlM s.visit st = .error .assert) ∨
    (Within (l.map s.frames) (is.map s.frames) ∧
      ∃ st' l', is.foldlM s.visit st = .ok st' ∧ Stacked st' l' ∧
        l'.map s.frames = (is.map s.frames).foldl openStep (l.map s.frames)) := by
  induction is generalizing st l with
  | nil => exact .inr ⟨trivial, st, l, rfl, h, rfl⟩
  | cons i is ih =>
    rcases visit_spec s h hlt i with ⟨hfull, herr⟩ | ⟨st₁, l₁, hok, h₁, hlt₁, hl₁⟩
    · refine .inl ⟨fun hw => ?_, ?_⟩
      · exact absurd hw.1 (Nat.not_lt.2 hfull)
      · rw [List.foldlM_cons, herr]
        rfl
    · have hfold : (i :: is).foldlM s.visit st = is.foldlM s.visit st₁ := by
        rw [List.foldlM_cons, hok]
        rfl
      have hwithin : Within (l.map s.frames) ((i :: is).map s.frames) ↔
          Within (l₁.map s.frames) (is.map s.frames) := by
        rw [hl₁]
        refine and_iff_right ?_
        rw [← hl₁, List.length_map]
        exact hlt₁
      rw [hfold, hwithin, List.map_cons, List.foldl_cons, ← hl₁]
      exact ih h₁ hlt₁

/-- The second loop prints the frames of the stacked slots. -/
theorem printEntries_eq (name : Word → Except Halt (List (BitVec 8))) (s : Frames) (st : Stack)
    (js : List Nat) (l : List (Fin NR_FRAMES))
    (h : List.Forall₂ (fun j i => st.backtraces j = BitVec.ofNat 32 (Fin.val i)) js l) :
    s.printEntries name st js = (l.map s.frames).mapM (FrameT.line name) := by
  induction h with
  | nil => rfl
  | @cons j i js l hji _ ih =>
    have hi : i.val < 400 := i.isLt
    have hint : (st.backtraces j).toInt = i.val := by
      rw [hji, BitVec.toInt_eq_toNat_of_lt, BitVec.toNat_ofNat, Nat.mod_eq_of_lt]
      · omega
      · rw [BitVec.toNat_ofNat]
        omega
    have hnat : (st.backtraces j).toInt.toNat = i.val := by rw [hint, Int.toNat_natCast]
    have hslot : (st.backtraces j).toInt.toNat < NR_FRAMES := by
      rw [hnat]
      exact hi
    have hidx : (⟨(st.backtraces j).toInt.toNat, hslot⟩ : Fin NR_FRAMES) = i := Fin.ext hnat
    rw [printEntries, if_neg (by omega), dif_pos hslot, ih, hidx, List.map_cons, List.mapM_cons]

theorem printEntries_stacked (name : Word → Except Halt (List (BitVec 8))) (s : Frames)
    {st : Stack} {l : List (Fin NR_FRAMES)} (h : Stacked st l) :
    s.printEntries name st (List.range st.top) = (l.map s.frames).mapM (FrameT.line name) := by
  refine printEntries_eq name s st _ l ?_
  rw [h.top, List.forall₂_iff_get]
  refine ⟨List.length_range, fun j _ hj => ?_⟩
  rw [List.get_eq_getElem, List.getElem_range]
  exact h.entry j _ (List.getElem?_eq_getElem hj)

/-- The backtrace is the calls left open by the history, as long as the assertion holds. -/
theorem printBacktraces_spec (name : Word → Except Halt (List (BitVec 8))) (s : Frames) :
    (¬ Within [] s.history ∧ s.printBacktraces name = .error .assert) ∨
    (Within [] s.history ∧
      s.printBacktraces name = (s.history.foldl openStep []).mapM (FrameT.line name)) := by
  have hempty : Stacked ⟨fun _ => BitVec.allOnes 32, 0⟩ [] := by
    refine ⟨rfl, fun j i hji => ?_⟩
    simp at hji
  rcases foldlM_visit s (slots s.pcPtr NR_FRAMES) hempty (by decide) with
    ⟨hw, herr⟩ | ⟨hw, st, l, hok, hst, hl⟩
  · refine .inl ⟨hw, ?_⟩
    rw [printBacktraces, loopFrom_pcPtr, herr]
    rfl
  · refine .inr ⟨hw, ?_⟩
    rw [printBacktraces, loopFrom_pcPtr, hok]
    change s.printEntries name st (List.range st.top) = _
    rw [printEntries_stacked name s hst, hl]
    rfl

/-- A line needs both names. -/
theorem line_cases (name : Word → Except Halt (List (BitVec 8))) (f : FrameT) :
    ((name f.pc).isOk ∧ (name f.target).isOk ∧
      ∃ line : FrameLine, FrameT.line name f = .ok line ∧ line.frame = f) ∨
    (¬((name f.pc).isOk ∧ (name f.target).isOk) ∧ ∃ e, FrameT.line name f = .error e) := by
  unfold FrameT.line
  cases hpc : name f.pc with
  | error e => exact .inr ⟨fun h => (by cases h.1), e, rfl⟩
  | ok pcName =>
    cases htarget : name f.target with
    | error e => exact .inr ⟨fun h => (by cases h.2), e, rfl⟩
    | ok targetName => exact .inl ⟨rfl, rfl, ⟨f, pcName, targetName⟩, rfl, rfl⟩

/-- The lines of some frames are printed, in order, if all names are found. -/
theorem mapM_line (name : Word → Except Halt (List (BitVec 8))) (fs : List FrameT) :
    (∃ lines, fs.mapM (FrameT.line name) = .ok lines ∧ lines.map FrameLine.frame = fs) ↔
      ∀ f ∈ fs, (name f.pc).isOk ∧ (name f.target).isOk := by
  induction fs with
  | nil => exact ⟨fun _ f hf => (by cases hf), fun _ => ⟨[], rfl, rfl⟩⟩
  | cons f fs ih =>
    rw [List.forall_mem_cons, ← ih, List.mapM_cons]
    rcases line_cases name f with ⟨hpc, htarget, line, hline, hframe⟩ | ⟨hno, e, hline⟩
    · rw [hline]
      constructor
      · rintro ⟨lines, hlines, hmap⟩
        cases hrest : fs.mapM (FrameT.line name) with
        | error e =>
          rw [hrest] at hlines
          cases hlines
        | ok rest =>
          rw [hrest] at hlines
          cases hlines
          exact ⟨⟨hpc, htarget⟩, rest, rfl, (List.cons.inj hmap).2⟩
      · rintro ⟨_, lines, hlines, hmap⟩
        rw [hlines]
        exact ⟨line :: lines, rfl, by rw [List.map_cons, hframe, hmap]⟩
    · rw [hline]
      constructor
      · rintro ⟨lines, hlines, _⟩
        cases hlines
      · rintro ⟨hok, _⟩
        exact absurd hok hno

/-! ## Runs -/

theorem history_foldl (events : List FrameEvent) (s : Frames) :
    (events.foldl (fun s e =>
      match e with
      | .call pc target => s.enqueueCall pc target
      | .ret pc target => s.enqueueRet pc target) s).history =
      (s.history ++ events.map FrameEvent.frame).drop events.length := by
  induction events generalizing s with
  | nil => simp
  | cons e events ih =>
    have hstep : (match e with
        | .call pc target => s.enqueueCall pc target
        | .ret pc target => s.enqueueRet pc target) = s.enqueue e.frame := by
      cases e <;> rfl
    obtain ⟨f, fs, hs⟩ : ∃ f fs, s.history = f :: fs := ⟨_, _, rfl⟩
    rw [List.foldl_cons, hstep, ih, history_enqueue, hs]
    simp

/-- The ring after a run: the window, behind slots that were never written. -/
theorem history_run (events : List FrameEvent) :
    (run events).history = List.replicate (NR_FRAMES - events.length) ⟨.none, 0, 0⟩ ++
      (window events).map FrameEvent.frame := by
  have hinit : init.history = List.replicate NR_FRAMES ⟨.none, 0, 0⟩ := by
    have hlen : init.history.length = NR_FRAMES := by rw [history, List.length_map, length_slots]
    refine List.eq_replicate_iff.2 ⟨hlen, fun f hf => ?_⟩
    obtain ⟨_, _, rfl⟩ := List.mem_map.1 hf
    rfl
  rw [run, history_foldl, hinit, List.drop_append, List.drop_replicate, List.length_replicate,
    window, List.map_drop]

/-- The calls a list of events leaves open above `l`. -/
theorem foldl_openStep (w : List FrameEvent) (l : List FrameT) :
    (w.map FrameEvent.frame).foldl openStep l =
      l.take (l.length - FrameEvent.openRets w) ++
        (FrameEvent.unmatched w).map FrameEvent.frame := by
  induction w generalizing l with
  | nil => simp [FrameEvent.openRets, FrameEvent.unmatched]
  | cons e w ih =>
    rw [List.map_cons, List.foldl_cons, ih]
    cases e with
    | call pc target =>
      have hpush : openStep l (FrameEvent.call pc target).frame =
          l ++ [(FrameEvent.call pc target).frame] := rfl
      rw [hpush, FrameEvent.openRets, FrameEvent.unmatched, List.length_append,
        List.length_singleton]
      split_ifs with hr
      · rw [hr, List.take_of_length_le (by simp)]
        simp
      · rw [List.take_append_of_le_length (by omega)]
        congr 2
        omega
    | ret pc target =>
      have hpop : openStep l (FrameEvent.ret pc target).frame = l.dropLast := rfl
      rw [hpop, FrameEvent.openRets, FrameEvent.unmatched, List.length_dropLast,
        List.dropLast_eq_take, List.take_take]
      congr 2
      omega

/-- Every prefix leaves fewer than 100 calls open. -/
theorem within_map (w : List FrameEvent) {l : List FrameT} (hl : l.length < NR_BACKTRACE) :
    Within l (w.map FrameEvent.frame) ↔
      ∀ v, v <+: w → ((v.map FrameEvent.frame).foldl openStep l).length < NR_BACKTRACE := by
  induction w generalizing l with
  | nil => simpa [Within] using hl
  | cons e w ih =>
    constructor
    · rintro ⟨hlt, hw⟩ v hv
      rcases List.prefix_cons_iff.1 hv with rfl | ⟨u, rfl, hu⟩
      · exact hl
      · exact (ih hlt).1 hw u hu
    · intro h
      have hlt : (openStep l e.frame).length < NR_BACKTRACE := h [e] (by simp)
      refine ⟨hlt, (ih hlt).2 fun u hu => ?_⟩
      exact h (e :: u) ((List.prefix_cons_inj e).2 hu)

theorem openStep_none (l : List FrameT) : openStep l ⟨.none, 0, 0⟩ = l := rfl

theorem foldl_openStep_none (k : Nat) (l : List FrameT) :
    (List.replicate k ⟨.none, 0, 0⟩).foldl openStep l = l := by
  induction k with
  | zero => rfl
  | succ k ih => rw [List.replicate_succ, List.foldl_cons, openStep_none, ih]

theorem within_none (k : Nat) {l : List FrameT} (hl : l.length < NR_BACKTRACE)
    (fs : List FrameT) : Within l (List.replicate k ⟨.none, 0, 0⟩ ++ fs) ↔ Within l fs := by
  induction k with
  | zero => rfl
  | succ k ih =>
    rw [List.replicate_succ, List.cons_append, Within, openStep_none, ih, and_iff_right hl]

/-- The open calls of a run are the unmatched ones of its window. -/
theorem open_run (events : List FrameEvent) :
    (run events).history.foldl openStep [] =
      (FrameEvent.unmatched (window events)).map FrameEvent.frame := by
  rw [history_run, List.foldl_append, foldl_openStep_none, foldl_openStep, List.take_nil,
    List.nil_append]

theorem within_run (events : List FrameEvent) :
    Within [] (run events).history ↔ Shallow events := by
  have hlen : ([] : List FrameT).length < NR_BACKTRACE := by decide
  rw [history_run, within_none _ hlen, within_map _ hlen]
  refine forall₂_congr fun v _ => ?_
  rw [foldl_openStep]
  simp

theorem shallow_of_reconstructs {name : Word → Except Halt (List (BitVec 8))}
    {events : List FrameEvent} (h : Reconstructs name events) : Shallow events := by
  obtain ⟨lines, hlines, _⟩ := h
  rcases printBacktraces_spec name (run events) with ⟨_, herr⟩ | ⟨hw, _⟩
  · rw [herr] at hlines
    cases hlines
  · exact (within_run events).1 hw

/-- The backtrace is right exactly for the windows in which no 100 calls are open at once, as far
    as its names are found. -/
theorem reconstructs_iff (name : Word → Except Halt (List (BitVec 8)))
    (events : List FrameEvent) : Reconstructs name events ↔ Shallow events ∧ Named name events := by
  have hnamed : Named name events ↔ ∀ f ∈ (FrameEvent.unmatched (window events)).map
      FrameEvent.frame, (name f.pc).isOk ∧ (name f.target).isOk := by
    rw [List.forall_mem_map, Named]
  rw [hnamed, ← mapM_line]
  rcases printBacktraces_spec name (run events) with ⟨hw, _⟩ | ⟨hw, hok⟩
  · have hdeep : ¬Shallow events := fun h => hw ((within_run events).2 h)
    exact ⟨fun h => absurd (shallow_of_reconstructs h) hdeep, fun h => absurd h.1 hdeep⟩
  · rw [and_iff_right ((within_run events).1 hw), Reconstructs, hok, open_run]

/-! ## The names of a symbol table -/

/-- What `elfsym_find_symbol` finds by its search. -/
def findName (es : Elfsym) (addr : Word) : Except Halt (List (BitVec 8)) :=
  (es.search addr).map es.text

/-- The function that the search stops at has its name in the string table. -/
def NameInTable (es : Elfsym) (addr : Word) : Prop :=
  ∀ s, es.nearest addr = some s → 0 ≤ s.name.toInt ∧ s.name.toInt < es.strtabSize

theorem findName_isOk (es : Elfsym) (addr : Word) :
    (findName es addr).isOk ↔ NameInTable es addr := by
  rw [findName, NameInTable, Elfsym.search_eq]
  cases es.nearest addr with
  | none => exact iff_of_true rfl nofun
  | some s =>
    rw [Option.elim_some, Elfsym.nameAt]
    simp only [Option.some.injEq, forall_eq']
    split_ifs with hlt hneg
    · exact iff_of_false Bool.false_ne_true fun h => Int.not_le.2 hneg h.1
    · exact iff_of_true rfl ⟨Int.not_lt.1 hneg, hlt⟩
    · exact iff_of_false Bool.false_ne_true fun h => hlt h.2

/-- The condition of `reconstructs_iff` on the names, for the names of a symbol table. -/
theorem named_findName (es : Elfsym) (events : List FrameEvent) :
    Named (findName es) events ↔ ∀ e ∈ FrameEvent.unmatched (window events),
      NameInTable es e.frame.pc ∧ NameInTable es e.frame.target :=
  forall₂_congr fun _ _ => and_congr (findName_isOk es _) (findName_isOk es _)

namespace FrameLine

/-- The lookups behind a line. -/
def addresses (l : FrameLine) : List Word := [l.frame.pc, l.frame.target]

def names (l : FrameLine) : List (Option (List (BitVec 8))) := [some l.pcName, some l.targetName]

end FrameLine

/-- A run of lookups that all find a name. -/
def Finds (es : Elfsym) (addrs : List Word) (names : List (Option (List (BitVec 8)))) : Prop :=
  List.Forall₂ (fun a n => ∃ sym, es.search a = .ok sym ∧ n = some (es.text sym)) addrs names

theorem finds_line {es : Elfsym} {f : FrameT} {l : FrameLine}
    (h : FrameT.line (findName es) f = .ok l) : Finds es l.addresses l.names := by
  unfold FrameT.line findName at h
  cases hpc : es.search f.pc with
  | error e =>
    rw [hpc] at h
    cases h
  | ok pcSym =>
    cases htarget : es.search f.target with
    | error e =>
      rw [hpc, htarget] at h
      cases h
    | ok targetSym =>
      rw [hpc, htarget] at h
      cases h
      exact .cons ⟨pcSym, hpc, rfl⟩ (.cons ⟨targetSym, htarget, rfl⟩ .nil)

theorem finds_lines {es : Elfsym} {fs : List FrameT} {lines : List FrameLine}
    (h : fs.mapM (FrameT.line (findName es)) = .ok lines) :
    Finds es (lines.flatMap FrameLine.addresses) (lines.flatMap FrameLine.names) := by
  induction fs generalizing lines with
  | nil =>
    cases h
    exact .nil
  | cons f fs ih =>
    rw [List.mapM_cons] at h
    cases hline : FrameT.line (findName es) f with
    | error e =>
      rw [hline] at h
      cases h
    | ok l =>
      cases hrest : fs.mapM (FrameT.line (findName es)) with
      | error e =>
        rw [hline, hrest] at h
        cases h
      | ok rest =>
        rw [hline, hrest] at h
        cases h
        exact List.rel_append (finds_line hline) (ih hrest)

/-- The names that a search finds, as a function of the address. -/
theorem Finds.exists_names {es : Elfsym} {addrs : List Word}
    {names : List (Option (List (BitVec 8)))} (h : Finds es addrs names) :
    ∃ n : Word → List (BitVec 8), (∀ a ∈ addrs, ∃ sym, es.search a = .ok sym ∧ es.text sym = n a) ∧
      names = addrs.map fun a => some (n a) := by
  refine ⟨fun a => ((es.search a).map es.text).toOption.getD [], ?_⟩
  induction h with
  | nil => exact ⟨nofun, rfl⟩
  | @cons a n addrs names hn _ ih =>
    obtain ⟨sym, hsym, rfl⟩ := hn
    refine ⟨?_, ?_⟩
    · rw [List.forall_mem_cons]
      exact ⟨⟨sym, hsym, by simp only [hsym]; rfl⟩, ih.1⟩
    · rw [List.map_cons, ← ih.2]
      simp only [hsym]
      rfl

/-- The names in a backtrace are what `elfsym_find_symbol` answers, one lookup after the other:
    without the cache, and with any cache that earlier lookups have left, if slot 0 is filled
    before address 0 is looked up. -/
theorem answers_printed (es : Elfsym) {s : Frames} {lines : List FrameLine}
    (h : s.printBacktraces (findName es) = .ok lines) :
    es.uncached.answers (lines.flatMap FrameLine.addresses) =
        .ok (lines.flatMap FrameLine.names) ∧
      ∀ c, es.CacheOk c →
        Elfsym.ZeroOk (c 0 ≠ ⟨none, 0⟩) (lines.flatMap FrameLine.addresses) →
        ({ es with addr2symCache := some c } : Elfsym).answers
          (lines.flatMap FrameLine.addresses) = .ok (lines.flatMap FrameLine.names) := by
  obtain ⟨-, herr⟩ | ⟨-, hok⟩ := printBacktraces_spec (findName es) s
  · rw [herr] at h
    cases h
  · rw [hok] at h
    obtain ⟨n, hn, hnames⟩ := (finds_lines h).exists_names
    rw [hnames]
    exact ⟨Elfsym.answers_uncached n hn, fun c hc hz =>
      (Elfsym.answers_cached n _ hc).2 ⟨hn, hz⟩⟩

theorem unmatched_calls (n : Nat) (pc target : Word) :
    FrameEvent.unmatched (List.replicate n (.call pc target)) =
      List.replicate n (.call pc target) := by
  have hopen : ∀ n, FrameEvent.openRets (List.replicate n (.call pc target)) = 0 := by
    intro n
    induction n with
    | zero => rfl
    | succ n ih => rw [List.replicate_succ, FrameEvent.openRets, ih]
  induction n with
  | zero => rfl
  | succ n ih => rw [List.replicate_succ, FrameEvent.unmatched, if_pos (hopen n), ih]

/-- A recursion 100 calls deep. -/
theorem not_reconstructs_deep :
    ¬Reconstructs (fun _ => .ok []) (List.replicate 100 (.call 0 0)) := by
  intro h
  have hlt := shallow_of_reconstructs h (List.replicate 100 (.call 0 0))
    (by simp [window, NR_FRAMES])
  rw [unmatched_calls, List.length_replicate] at hlt
  exact absurd hlt (by decide)

end Frames

end NemuMips32
