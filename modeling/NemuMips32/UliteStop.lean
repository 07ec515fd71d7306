/-
  The stop string of the UART (`xlnx-ulite.c`). `stop_cpu_when_ulite_send` registers a string,
  and `stop_cpu_check` follows the characters that the guest sends with one pointer into it. At
  a character that does not continue the match the pointer goes back to the start without a look
  at the character, so an occurrence that begins inside the failed match is lost; after a full
  match the pointer stays on the terminator, where the next character is lost and a zero
  character leads out of the string. `detects`: where this does not happen, the emulator stops
  at the occurrences of the string, counted without overlap.
-/
import NemuMips32.Backtrace
import NemuMips32.Lib.Match
import NemuMips32.Ulite
import Mathlib.Tactic.IntervalCases

namespace NemuMips32

/-! ## Program -/

/-- A string of C: the characters before its terminator. -/
structure CString where
  chars : List (BitVec 8)
  nonzero : ∀ b ∈ chars, b ≠ 0

/-- What a pointer to offset `i` points at. -/
def CString.deref (p : CString) (i : Nat) : Except Halt (BitVec 8) :=
  if h : i < p.chars.length then .ok p.chars[i]
  else if i = p.chars.length then .ok 0
  else .error .undefined

/-- `xlnx_ulite_stop_string`, and `xlnx_ulite_stop_string_ptr` as an offset in it. -/
structure StopString where
  string : CString
  ptr : Nat

/-- `stop_cpu_when_ulite_send`. -/
def stopCpuWhenUliteSend (string : CString) : StopString := ⟨string, 0⟩

/-- A guest write to `Tx`: its operands, and what the emulator has at that time. -/
structure TxWrite where
  frames : Frames
  name : Word → Except Halt (List (BitVec 8))
  nemuState : NemuState
  len : Nat
  len_le : len ≤ 4
  data : Word

def TxWrite.ch (w : TxWrite) : BitVec 8 := w.data.setWidth 8

/-- `stop_cpu_check`; before any registration both pointers are NULL. -/
def stopCpuCheck (w : TxWrite) (x : DevCtx Ulite) :
    Option StopString → Except Halt (Option StopString × DevCtx Ulite)
  | none => .ok (none, x)
  | some s => do
    if (← s.string.deref s.ptr) = w.ch then
      let s := { s with ptr := s.ptr + 1 }
      if (← s.string.deref s.ptr) = 0 then
        let _ ← w.frames.printFrames w.name
        let _ ← w.frames.printBacktraces w.name
        return (some s, { x with nemuState := .stop })
      else return (some s, x)
    else return (some { s with ptr := 0 }, x)

/-- `xlnx_ulite_write` to `Tx`. -/
def sendTx (w : TxWrite) (x : DevCtx Ulite) (s : Option StopString) :
    Except Halt (Option StopString × DevCtx Ulite) := do
  let x ← Ulite.write UliteReg.Tx w.len w.data { x with nemuState := w.nemuState }
  stopCpuCheck w x s

/-- The pointers and the state after each write. -/
def sends (x : DevCtx Ulite) (s : Option StopString) :
    List TxWrite → Except Halt (List (Option StopString × DevCtx Ulite))
  | [] => .ok []
  | w :: ws => do
    let (s, x) ← sendTx w x s
    return (s, x) :: (← sends x s ws)

/-! ## What it should do -/

/-- `nemu_state` becomes NEMU_STOP at the writes with which an occurrence of `p` ends, and the
    pointer stays in `p` or on its terminator. -/
def Detects (p : CString) (x : DevCtx Ulite) (ws : List TxWrite) : Prop :=
  ∃ out, sends x (some (stopCpuWhenUliteSend p)) ws = .ok out ∧
    out.map (fun o => o.2.nemuState) =
      List.zipWith (fun hit w => if hit then NemuState.stop else w.nemuState)
        (Match.occurrences p.chars [] (ws.map TxWrite.ch)) ws ∧
    ∀ o ∈ out, ∃ k ≤ p.chars.length, o.1 = some ⟨p, k⟩

/-- The frames can be printed. -/
def TxWrite.Prints (w : TxWrite) : Prop :=
  (∃ lines, w.frames.printFrames w.name = .ok lines) ∧
    ∃ lines, w.frames.printBacktraces w.name = .ok lines

/-- The character is one that the single pointer copes with. -/
structure StopString.Meets (s : StopString) (w : TxWrite) : Prop where
  /-- If it completes the string, the frames can be printed. -/
  prints : s.ptr + 1 = s.string.chars.length → s.string.chars[s.ptr]? = some w.ch → w.Prints
  /-- If it does not continue the match, no prefix of the string ends with it. -/
  mismatch : s.ptr < s.string.chars.length → s.string.chars[s.ptr]? ≠ some w.ch →
    ¬Match.Border s.string.chars s.ptr w.ch
  /-- After a full match, it is neither zero nor the first of the string. -/
  restart : s.ptr = s.string.chars.length → w.ch ≠ 0 ∧ s.string.chars[0]? ≠ some w.ch

/-- Every step of the run meets the condition. -/
def AllMeet (x : DevCtx Ulite) (s : StopString) : List TxWrite → Prop
  | [] => True
  | w :: ws => s.Meets w ∧
    ∀ s' x', sendTx w x (some s) = .ok (some s', x') → AllMeet x' s' ws

/-! ## One character -/

/-- The pointer is on the terminator just after an occurrence, and else at the longest prefix
    that the characters since the last occurrence end with. -/
def StopString.Tracks (s : StopString) (since : List (BitVec 8)) : Prop :=
  (s.ptr = s.string.chars.length ∧ since = []) ∨ Match.Longest s.string.chars s.ptr since

theorem StopString.Tracks.ptr_le {s : StopString} {since : List (BitVec 8)}
    (h : s.Tracks since) : s.ptr ≤ s.string.chars.length := by
  rcases h with ⟨hptr, _⟩ | h
  · omega
  · exact h.lt.le

namespace CString

variable {p : CString} {i : Nat} {b : BitVec 8}

theorem deref_terminator : p.deref p.chars.length = .ok 0 := by
  rw [deref, dif_neg (by omega), if_pos rfl]

/-- Inside the string it is the character there, and not zero. -/
theorem deref_lt (h : i < p.chars.length) :
    ∃ c, p.deref i = .ok c ∧ p.chars[i]? = some c ∧ c ≠ 0 := by
  refine ⟨p.chars[i], by rw [deref, dif_pos h], List.getElem?_eq_getElem h, ?_⟩
  exact p.nonzero _ (List.getElem_mem h)

end CString

variable {s : StopString} {w : TxWrite} {x : DevCtx Ulite}

/-- The character that is not the one at the pointer. -/
theorem stopCpuCheck_reset {c : BitVec 8} (hc : s.string.deref s.ptr = .ok c) (hne : c ≠ w.ch) :
    stopCpuCheck w x (some s) = .ok (some { s with ptr := 0 }, x) := by
  simp only [stopCpuCheck, hc]
  exact if_neg hne

theorem stopCpuCheck_continue {c : BitVec 8} (h : s.string.deref s.ptr = .ok w.ch)
    (hc : s.string.deref (s.ptr + 1) = .ok c) (hne : c ≠ 0) :
    stopCpuCheck w x (some s) = .ok (some { s with ptr := s.ptr + 1 }, x) := by
  simp only [stopCpuCheck, h, hc, bind, Except.bind, if_true, if_neg hne]
  rfl

theorem stopCpuCheck_stop (h : s.string.deref s.ptr = .ok w.ch)
    (hc : s.string.deref (s.ptr + 1) = .ok 0) (hp : w.Prints) :
    stopCpuCheck w x (some s) =
      .ok (some { s with ptr := s.ptr + 1 }, { x with nemuState := .stop }) := by
  obtain ⟨⟨frames, hframes⟩, backtraces, hbacktraces⟩ := hp
  simp only [stopCpuCheck, h, hc, hframes, hbacktraces, bind, Except.bind, if_true]
  rfl

/-- One character that meets the condition. -/
theorem stopCpuCheck_spec {since : List (BitVec 8)} (hne : s.string.chars ≠ [])
    (ht : s.Tracks since) (hm : s.Meets w) :
    ∃ k, stopCpuCheck w x (some s) = .ok (some { s with ptr := k },
        if s.string.chars <:+ since ++ [w.ch] then { x with nemuState := .stop } else x) ∧
      StopString.Tracks { s with ptr := k }
        (if s.string.chars <:+ since ++ [w.ch] then [] else since ++ [w.ch]) := by
  rcases ht with ⟨hptr, rfl⟩ | ht
  · -- after a full match
    obtain ⟨hzero, hfirst⟩ := hm.restart hptr
    have hlong : Match.Longest s.string.chars 0 ([] ++ [w.ch]) := by
      refine ((Match.longest_nil hne).reset_iff hfirst).2 ?_
      rintro ⟨j, hpos, hle, _⟩
      omega
    rw [if_neg hlong.not_occurs, if_neg hlong.not_occurs]
    refine ⟨0, stopCpuCheck_reset ?_ (Ne.symm hzero), .inr hlong⟩
    rw [hptr]
    exact CString.deref_terminator
  · obtain ⟨c, hderef, hat, _⟩ := CString.deref_lt ht.lt
    by_cases hb : s.string.chars[s.ptr]? = some w.ch
    · have hch : s.string.deref s.ptr = .ok w.ch := by
        rw [hderef, Except.ok.injEq]
        exact Option.some.inj (hat.symm.trans hb)
      by_cases hlast : s.ptr + 1 = s.string.chars.length
      · have hocc := ht.occurs hb hlast
        rw [if_pos hocc, if_pos hocc]
        refine ⟨s.ptr + 1, stopCpuCheck_stop hch ?_ (hm.prints hlast hb), .inl ⟨hlast, rfl⟩⟩
        rw [hlast]
        exact CString.deref_terminator
      · have hlt : s.ptr + 1 < s.string.chars.length := by
          have := ht.lt
          omega
        have hlong := ht.continued hb hlt
        obtain ⟨c', hnext, _, hnonzero⟩ := CString.deref_lt hlt
        rw [if_neg hlong.not_occurs, if_neg hlong.not_occurs]
        exact ⟨s.ptr + 1, stopCpuCheck_continue hch hnext hnonzero, .inr hlong⟩
    · have hlong := (ht.reset_iff hb).2 (hm.mismatch ht.lt hb)
      rw [if_neg hlong.not_occurs, if_neg hlong.not_occurs]
      refine ⟨0, stopCpuCheck_reset hderef ?_, .inr hlong⟩
      rintro rfl
      exact hb hat

/-! ## Runs -/

/-- The registers of the UART do not stand in the way of a write to `Tx`. -/
theorem write_tx (w : TxWrite) (x : DevCtx Ulite) :
    ∃ x', Ulite.write UliteReg.Tx w.len w.data x = .ok x' ∧ x'.nemuState = x.nemuState := by
  have hcheck : checkIoaddr UliteReg.Tx w.len XLNX_ULITE_SIZE = true := by
    have := w.len_le
    obtain ⟨len, hlen⟩ : ∃ len, len = w.len := ⟨_, rfl⟩
    rw [← hlen] at this ⊢
    interval_cases len <;> decide
  rw [Ulite.write, hcheck]
  refine ⟨_, rfl, ?_⟩
  split_ifs <;> rfl

theorem sends_spec (p : CString) (hne : p.chars ≠ []) (ws : List TxWrite) (x : DevCtx Ulite)
    (k : Nat) (since : List (BitVec 8)) (ht : StopString.Tracks ⟨p, k⟩ since)
    (hm : AllMeet x ⟨p, k⟩ ws) :
    ∃ out, sends x (some ⟨p, k⟩) ws = .ok out ∧
      out.map (fun o => o.2.nemuState) =
        List.zipWith (fun hit w => if hit then NemuState.stop else w.nemuState)
          (Match.occurrences p.chars since (ws.map TxWrite.ch)) ws ∧
      ∀ o ∈ out, ∃ k ≤ p.chars.length, o.1 = some ⟨p, k⟩ := by
  induction ws generalizing x k since with
  | nil => exact ⟨[], rfl, rfl, fun o ho => (by cases ho)⟩
  | cons w ws ih =>
    obtain ⟨hw, hrest⟩ := hm
    obtain ⟨x₁, hx₁, hstate⟩ := write_tx w { x with nemuState := w.nemuState }
    obtain ⟨k', hcheck, htrack⟩ := @stopCpuCheck_spec _ w x₁ _ hne ht hw
    obtain ⟨x', hx'⟩ : ∃ x', x' =
        if p.chars <:+ since ++ [w.ch] then { x₁ with nemuState := .stop } else x₁ := ⟨_, rfl⟩
    have hsend : sendTx w x (some ⟨p, k⟩) = .ok (some ⟨p, k'⟩, x') := by
      rw [sendTx, hx₁, hx']
      exact hcheck
    obtain ⟨out, hout, hstates, hptrs⟩ := ih x' k' _ htrack (hrest _ _ hsend)
    refine ⟨(some ⟨p, k'⟩, x') :: out, ?_, ?_,
      List.forall_mem_cons.2 ⟨⟨k', htrack.ptr_le, rfl⟩, hptrs⟩⟩
    · rw [sends, hsend]
      simp only [bind, Except.bind, hout]
      rfl
    · rw [List.map_cons, List.map_cons, hstates, Match.occurrences, hx']
      split_ifs
      · rfl
      · rw [List.zipWith_cons_cons, hstate]
        rfl

/-- Where every character meets the condition, the emulator stops at the occurrences. -/
theorem detects (p : CString) (hne : p.chars ≠ []) (x : DevCtx Ulite) (ws : List TxWrite)
    (hm : AllMeet x (stopCpuWhenUliteSend p) ws) : Detects p x ws :=
  sends_spec p hne ws x 0 [] (.inr (Match.longest_nil hne)) hm

/-- Without any call there is nothing to print. -/
theorem prints_init (data : Word) :
    TxWrite.Prints ⟨.init, fun _ => .ok [], .running, 1, by decide, data⟩ := by
  constructor
  · refine ⟨[], ?_⟩
    have hskip : ∀ is : List (Fin NR_FRAMES), is.foldlM (fun (lines : List Frames.FrameLine) i => do
        if (Frames.init.frames i).property = FrameProperty.none then Except.ok lines
        else return lines ++ [← Frames.FrameT.line (fun _ => .ok []) (Frames.init.frames i)]) [] =
          .ok [] := by
      intro is
      induction is with
      | nil => rfl
      | cons i is ih => exact ih
    rw [Frames.printFrames, Frames.loopFrom_pcPtr]
    exact hskip _
  · have hshallow : Frames.Shallow [] := by
      intro v hv
      have hnil : Frames.window [] = [] := List.drop_nil
      rw [hnil, List.prefix_nil] at hv
      rw [hv]
      decide
    rcases Frames.printBacktraces_spec (fun _ => .ok []) (Frames.run []) with ⟨hw, _⟩ | ⟨_, hok⟩
    · exact absurd ((Frames.within_run []).2 hshallow) hw
    · rw [Frames.open_run] at hok
      exact ⟨_, hok⟩

/-- "ab". -/
def stopStringAb : CString := ⟨[0x61, 0x62], by decide⟩

def sendByte (data : Word) : TxWrite := ⟨.init, fun _ => .ok [], .running, 1, by decide, data⟩

/-- The guest sends "ab". -/
theorem detects_ab : Detects stopStringAb ⟨.init, 0, .running⟩ [sendByte 0x61, sendByte 0x62] := by
  refine detects stopStringAb (by decide) _ _ ⟨?_, ?_⟩
  · exact ⟨fun h => absurd h (by decide), fun _ h => absurd rfl h, fun h => absurd h (by decide)⟩
  · intro s' x' hsend
    have hfirst : sendTx (sendByte 0x61) ⟨.init, 0, .running⟩
        (some (stopCpuWhenUliteSend stopStringAb)) =
          .ok (some ⟨stopStringAb, 1⟩, ⟨.init, 0, .running⟩) := rfl
    rw [hfirst] at hsend
    cases hsend
    refine ⟨⟨fun _ _ => prints_init _, fun _ h => absurd rfl h, fun h => absurd h (by decide)⟩, ?_⟩
    exact fun _ _ _ => trivial

/-- The guest sends "aab": the second character ends the match of the first. -/
theorem not_detects_aab :
    ¬Detects stopStringAb ⟨.init, 0, .running⟩ [sendByte 0x61, sendByte 0x61, sendByte 0x62] := by
  rintro ⟨out, hout, hstates, _⟩
  have hsends : sends ⟨.init, 0, .running⟩ (some (stopCpuWhenUliteSend stopStringAb))
      [sendByte 0x61, sendByte 0x61, sendByte 0x62] =
        .ok [(some ⟨stopStringAb, 1⟩, ⟨.init, 0, .running⟩),
          (some ⟨stopStringAb, 0⟩, ⟨.init, 0, .running⟩),
          (some ⟨stopStringAb, 0⟩, ⟨.init, 0, .running⟩)] := rfl
  rw [hsends] at hout
  cases hout
  revert hstates
  decide

end NemuMips32
