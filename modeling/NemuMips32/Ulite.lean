/-
  The UART (`xlnx-ulite.c`): one queue of received characters and interrupt line 4.

  The line is driven at events, not as a level: input raises it if the guest has enabled the
  interrupt, a read of the receive register lowers it, and so does disabling the interrupt.
  A read of one of several queued characters therefore lowers the line over a queue that is
  not empty, and enabling the interrupt over a queue that is not empty does not raise it.
  `ulite_level` says exactly which accesses keep the line at the level of the queue.

  The `stop_string` of `stop_cpu_when_ulite_send`, which nothing sets, is added in `UliteStop`.
-/
import NemuMips32.Lib.Fifo
import NemuMips32.Machine

namespace NemuMips32

/-! ## Registers -/

namespace UliteReg

def Rx : Word := 0x0
def Tx : Word := 0x4
def STAT : Word := 0x8
def CTRL : Word := 0xC

end UliteReg

def XLNX_ULITE_SIZE : Word := 0x10
def XLNX_ULITE_IRQ_NO : Nat := 4

def SR_CTRL_INTR_BIT : Word := 1 <<< 4
def SR_TX_FIFO_EMPTY : Word := 1 <<< 2
def SR_RX_FIFO_VALID_DATA : Word := 1 <<< 0

structure Ulite where
  q : Fifo Word 1024
  intrEnabled : Word
  txFifoEmpty : Word

namespace Ulite

/-- Static memory is zero. -/
def init : Ulite := { q := .filled fifoLen_pos 0, intrEnabled := 0, txFifoEmpty := 0 }

/-- `xlnx_ulite_enqueue`. -/
def enqueue (u : Ulite) (ch : Word) : Ulite := { u with q := u.q.push ch }

/-- `xlnx_ulite_set_irq`. -/
def raiseIrq (x : DevCtx Ulite) : DevCtx Ulite :=
  if x.dev.intrEnabled ≠ 0 then { x with ip := setIrq XLNX_ULITE_IRQ_NO true x.ip } else x

/-! ## Guest accesses -/

/-- `xlnx_ulite_peek`. -/
def peek (addr : Word) (u : Ulite) : Except Halt Word :=
  if addr = UliteReg.Rx then .ok u.q.top
  else if addr = UliteReg.STAT then
    .ok ((if !u.q.isEmpty then SR_RX_FIFO_VALID_DATA else 0) |||
      (if u.intrEnabled ≠ 0 then SR_CTRL_INTR_BIT else 0) |||
      (if u.txFifoEmpty ≠ 0 then SR_TX_FIFO_EMPTY else 0))
  else if addr = UliteReg.CTRL then .ok 0
  else .error .cpuAssert

/-- `xlnx_ulite_read`. -/
def read (addr : Word) (len : Nat) (x : DevCtx Ulite) : Except Halt (Word × DevCtx Ulite) :=
  if !checkIoaddr addr len XLNX_ULITE_SIZE then .error .cpuAssert
  else if addr = UliteReg.Rx then
    .ok (x.dev.q.pop.1, { x with
      dev := { x.dev with q := x.dev.q.pop.2 }
      ip := setIrq XLNX_ULITE_IRQ_NO false x.ip })
  else (x.dev.peek addr).map fun v => (v, x)

/-- The `CTRL` case of `xlnx_ulite_write`. -/
def writeCtrl (data : Word) (x : DevCtx Ulite) : DevCtx Ulite :=
  let x := { x with dev := { x.dev with intrEnabled := data &&& SR_CTRL_INTR_BIT } }
  if x.dev.intrEnabled = 0 then
    { x with
      dev := { x.dev with txFifoEmpty := 0 }
      ip := setIrq XLNX_ULITE_IRQ_NO false x.ip }
  else x

/-- `xlnx_ulite_write`; the character that `Tx` prints is not part of the state. -/
def write (addr : Word) (len : Nat) (data : Word) (x : DevCtx Ulite) :
    Except Halt (DevCtx Ulite) :=
  if !checkIoaddr addr len XLNX_ULITE_SIZE then .error .cpuAssert
  else if addr = UliteReg.Tx then
    .ok (if data.setWidth 8 = 0x0A#8 then
      { x with dev := { x.dev with txFifoEmpty := x.dev.txFifoEmpty ||| SR_TX_FIFO_EMPTY } }
    else x)
  else if addr = UliteReg.CTRL then .ok (writeCtrl data x)
  else .error .cpuAssert

/-! ## Host events -/

/-- `check_ctrl_x_commands`; `answer` is what `getchar` returns if it is called. -/
def checkCtrlXCommands (ch answer : BitVec 8) : Except Halt Unit :=
  if ch = 0x18 ∧ answer = 0x71 then .error .exit else .ok ()

/-- The loop of `xlnx_ulite_update_irq` over the characters, each with the answer to its
    command. A `char` is signed. -/
def receive : List (BitVec 8 × BitVec 8) → Ulite → Except Halt Ulite
  | [], u => .ok u
  | c :: cs, u => do
    checkCtrlXCommands c.1 c.2
    receive cs (u.enqueue (c.1.signExtend 32))

/-- `xlnx_ulite_update_irq`. -/
def updateIrq (chars : List (BitVec 8 × BitVec 8)) (x : DevCtx Ulite) :
    Except Halt (DevCtx Ulite) :=
  if chars = [] then .ok x
  else do
    let u ← receive chars x.dev
    return raiseIrq { x with dev := u }

/-- `xlnx_ulite_set_fifo_data`. -/
def setFifoData (data : List (BitVec 8)) (u : Ulite) : Ulite :=
  data.foldl (fun u b => u.enqueue (b.signExtend 32)) u

/-- `ulite_ctrl_code_handler` for SIGINT (`'\x03'`) and SIGTSTP (`'\x1a'`). -/
def ctrlCodeHandler (ch : Word) (x : DevCtx Ulite) : DevCtx Ulite :=
  raiseIrq { x with dev := x.dev.enqueue ch }

end Ulite

/-- Everything that happens to the UART. -/
inductive UliteEvent where
  | input (chars : List (BitVec 8 × BitVec 8))
  | sigint
  | sigtstp
  | preload (data : List (BitVec 8))
  | read (addr : Word) (len : Nat)
  | write (addr : Word) (len : Nat) (data : Word)

def UliteEvent.step (x : DevCtx Ulite) : UliteEvent → Except Halt (DevCtx Ulite)
  | .input chars => Ulite.updateIrq chars x
  | .sigint => .ok (Ulite.ctrlCodeHandler 0x03 x)
  | .sigtstp => .ok (Ulite.ctrlCodeHandler 0x1a x)
  | .preload data => .ok { x with dev := x.dev.setFifoData data }
  | .read addr len => (Ulite.read addr len x).map (·.2)
  | .write addr len data => Ulite.write addr len data x

namespace Ulite

def run (x : DevCtx Ulite) (es : List UliteEvent) : Except Halt (DevCtx Ulite) :=
  es.foldlM UliteEvent.step x

/-! ## The interrupt line -/

def enabled (x : DevCtx Ulite) : Prop := x.dev.intrEnabled ≠ 0

instance (x : DevCtx Ulite) : Decidable (enabled x) :=
  inferInstanceAs (Decidable (x.dev.intrEnabled ≠ 0))

def line (x : DevCtx Ulite) : Bool := x.ip.getLsbD XLNX_ULITE_IRQ_NO

/-- The line is up for every queued character of an enabled interrupt, and down while it is
    disabled. -/
structure Level (x : DevCtx Ulite) : Prop where
  up : enabled x → x.dev.q.toList ≠ [] → line x = true
  down : ¬enabled x → line x = false

/-- A step keeps the level right: a read takes the last character, the interrupt is enabled
    over an empty queue, and nothing is preloaded into the empty queue of an enabled one. -/
def Careful (x : DevCtx Ulite) : UliteEvent → Prop
  | .read addr _ => addr = UliteReg.Rx → enabled x → x.dev.q.toList.length ≤ 1
  | .write addr _ data =>
    addr = UliteReg.CTRL → data &&& SR_CTRL_INTR_BIT ≠ 0 → ¬enabled x → x.dev.q.toList = []
  | .preload data => enabled x → data ≠ [] → x.dev.q.toList ≠ []
  | _ => True

/-- The line is never up over an empty queue. -/
def NotSpurious (x : DevCtx Ulite) : Prop := line x = true → x.dev.q.toList ≠ []

theorem line_setIrq (b : Bool) (x : DevCtx Ulite) :
    line { x with ip := setIrq XLNX_ULITE_IRQ_NO b x.ip } = b := by
  cases b <;> simp [line, setIrq, XLNX_ULITE_IRQ_NO]

theorem toList_enqueue_ne (u : Ulite) (ch : Word) : (u.enqueue ch).q.toList ≠ [] :=
  Fifo.toList_push_ne (by decide) u.q ch

theorem receive_spec (cs : List (BitVec 8 × BitVec 8)) {u v : Ulite} (h : receive cs u = .ok v) :
    v.intrEnabled = u.intrEnabled ∧ (cs ≠ [] ∨ u.q.toList ≠ [] → v.q.toList ≠ []) := by
  induction cs generalizing u with
  | nil =>
    cases h
    exact ⟨rfl, fun h0 => h0.resolve_left fun h1 => h1 rfl⟩
  | cons c cs ih =>
    simp only [receive, checkCtrlXCommands] at h
    split at h
    · cases h
    · obtain ⟨h1, h2⟩ := ih h
      exact ⟨h1, fun _ => h2 (.inr (toList_enqueue_ne u _))⟩

theorem setFifoData_spec (data : List (BitVec 8)) (u : Ulite) :
    (u.setFifoData data).intrEnabled = u.intrEnabled ∧
      (data ≠ [] ∨ u.q.toList ≠ [] → (u.setFifoData data).q.toList ≠ []) := by
  induction data generalizing u with
  | nil => exact ⟨rfl, fun h0 => h0.resolve_left fun h1 => h1 rfl⟩
  | cons b data ih =>
    obtain ⟨h1, h2⟩ := ih (u.enqueue (b.signExtend 32))
    exact ⟨h1, fun _ => h2 (.inr (toList_enqueue_ne u _))⟩

/-- An event that queues a character and then drives the line leaves both right. -/
theorem level_raiseIrq {x : DevCtx Ulite} (hd : ¬enabled x → line x = false)
    (hq : x.dev.q.toList ≠ []) : Level (raiseIrq x) ∧ NotSpurious (raiseIrq x) := by
  by_cases he : enabled x
  · have hr : raiseIrq x = { x with ip := setIrq XLNX_ULITE_IRQ_NO true x.ip } := if_pos he
    rw [hr]
    exact ⟨⟨fun _ _ => line_setIrq true x, fun h0 => absurd he h0⟩, fun _ => hq⟩
  · have hr : raiseIrq x = x := if_neg he
    rw [hr]
    refine ⟨⟨fun h0 => absurd h0 he, fun _ => hd he⟩, fun h0 => ?_⟩
    rw [hd he] at h0
    cases h0

section Step

variable {x y : DevCtx Ulite} (h : Level x) (hns : NotSpurious x)
include h hns

theorem level_input {chars : List (BitVec 8 × BitVec 8)} (hs : updateIrq chars x = .ok y) :
    Level y ∧ NotSpurious y := by
  unfold updateIrq at hs
  split at hs
  · cases hs
    exact ⟨h, hns⟩
  · rename_i hne
    cases hr : receive chars x.dev with
    | error e => rw [hr] at hs; cases hs
    | ok v =>
      rw [hr] at hs
      cases hs
      obtain ⟨h1, h2⟩ := receive_spec chars hr
      refine level_raiseIrq (fun hn => h.down ?_) (h2 (.inl hne))
      rw [enabled, ← h1]
      exact hn

omit hns in
theorem level_signal (ch : Word) :
    Level (ctrlCodeHandler ch x) ∧ NotSpurious (ctrlCodeHandler ch x) :=
  level_raiseIrq h.down (toList_enqueue_ne x.dev ch)

theorem level_preload (data : List (BitVec 8)) :
    (Level { x with dev := x.dev.setFifoData data } ↔ Careful x (.preload data)) ∧
      NotSpurious { x with dev := x.dev.setFifoData data } := by
  obtain ⟨h1, h2⟩ := setFifoData_spec data x.dev
  have hen : enabled { x with dev := x.dev.setFifoData data } ↔ enabled x := by
    show (x.dev.setFifoData data).intrEnabled ≠ 0 ↔ _
    rw [h1]
    rfl
  refine ⟨⟨fun hl he hd hq => ?_, fun hc => ⟨fun he _ => ?_, fun hn => ?_⟩⟩,
    fun hl => h2 (.inr (hns hl))⟩
  · exact hns (hl.up (hen.2 he) (h2 (.inl hd))) hq
  · by_cases hd : data = []
    · subst hd
      exact h.up (hen.1 he) (by assumption)
    · exact h.up (hen.1 he) (hc (hen.1 he) hd)
  · exact h.down fun h0 => hn (hen.2 h0)

theorem level_read {addr : Word} {len : Nat} {v : Word} (hs : read addr len x = .ok (v, y)) :
    (Level y ↔ Careful x (.read addr len)) ∧ NotSpurious y := by
  unfold read at hs
  split at hs
  · cases hs
  split at hs
  · rename_i ha
    cases hs
    have hl := line_setIrq false { x with dev := { x.dev with q := x.dev.q.pop.2 } }
    have hpop : (x.dev.q.pop.2.toList = []) ↔ x.dev.q.toList.length ≤ 1 := by
      cases hq : x.dev.q.toList with
      | nil => rw [Fifo.pop_of_empty hq, hq]; simp
      | cons a l => rw [(Fifo.pop_cons hq).2]; cases l <;> simp
    refine ⟨⟨fun hlev _ he => ?_, fun hc => ⟨fun he hne => ?_, fun _ => hl⟩⟩, fun h0 => ?_⟩
    · refine hpop.1 (Classical.byContradiction fun hne => ?_)
      have := hlev.up he hne
      rw [hl] at this
      cases this
    · exact absurd (hpop.2 (hc ha he)) hne
    · rw [hl] at h0
      cases h0
  · rename_i ha
    cases hp : x.dev.peek addr with
    | error e => rw [hp] at hs; cases hs
    | ok w =>
      rw [hp] at hs
      cases hs
      exact ⟨⟨fun _ h0 => absurd h0 ha, fun _ => h⟩, hns⟩

theorem level_write {addr : Word} {len : Nat} {data : Word} (hs : write addr len data x = .ok y) :
    (Level y ↔ Careful x (.write addr len data)) ∧ NotSpurious y := by
  unfold write at hs
  split at hs
  · cases hs
  split at hs
  · rename_i ha
    have hne : ¬addr = UliteReg.CTRL := by
      rw [ha]
      decide
    cases hs
    split
    · exact ⟨⟨fun _ h0 => absurd h0 hne, fun _ => ⟨h.up, h.down⟩⟩, hns⟩
    · exact ⟨⟨fun _ h0 => absurd h0 hne, fun _ => h⟩, hns⟩
  split at hs
  · rename_i ha
    cases hs
    by_cases hd : data &&& SR_CTRL_INTR_BIT = 0
    · have hw : writeCtrl data x =
          { x with
            dev := { x.dev with intrEnabled := data &&& SR_CTRL_INTR_BIT, txFifoEmpty := 0 }
            ip := setIrq XLNX_ULITE_IRQ_NO false x.ip } := if_pos hd
      have hl : line (writeCtrl data x) = false := by
        rw [hw]
        exact line_setIrq false { x with
          dev := { x.dev with intrEnabled := data &&& SR_CTRL_INTR_BIT, txFifoEmpty := 0 } }
      have hen : ¬enabled (writeCtrl data x) := by
        rw [hw]
        exact fun h0 => h0 hd
      refine ⟨⟨fun _ _ h0 => absurd hd h0, fun _ => ⟨fun h0 => absurd h0 hen, fun _ => hl⟩⟩,
        fun h0 => ?_⟩
      rw [hl] at h0
      cases h0
    · have hw : writeCtrl data x =
          { x with dev := { x.dev with intrEnabled := data &&& SR_CTRL_INTR_BIT } } := if_neg hd
      rw [hw]
      refine ⟨⟨fun hlev _ _ hn => ?_, fun hc => ⟨fun _ hq => ?_, fun h0 => absurd hd h0⟩⟩, hns⟩
      · refine Classical.byContradiction fun hq => ?_
        have hup : line x = true := hlev.up hd hq
        rw [h.down hn] at hup
        cases hup
      · by_cases he : enabled x
        · exact h.up he hq
        · exact absurd (hc ha hd he) hq
  · cases hs

/-- A step keeps the level right exactly if it is careful. -/
theorem level_step {e : UliteEvent} (hs : e.step x = .ok y) :
    (Level y ↔ Careful x e) ∧ NotSpurious y := by
  cases e with
  | input chars =>
    obtain ⟨hl, hn⟩ := level_input h hns hs
    exact ⟨iff_of_true hl trivial, hn⟩
  | sigint =>
    cases hs
    obtain ⟨hl, hn⟩ := level_signal h 0x03
    exact ⟨iff_of_true hl trivial, hn⟩
  | sigtstp =>
    cases hs
    obtain ⟨hl, hn⟩ := level_signal h 0x1a
    exact ⟨iff_of_true hl trivial, hn⟩
  | preload data =>
    cases hs
    exact level_preload h hns data
  | read addr len =>
    obtain ⟨⟨v, z⟩, hr, rfl⟩ : ∃ r, read addr len x = .ok r ∧ r.2 = y := by
      simp only [UliteEvent.step] at hs
      cases hr : read addr len x with
      | error e => rw [hr] at hs; cases hs
      | ok r => rw [hr] at hs; exact ⟨r, rfl, Except.ok.inj hs⟩
    exact level_read h hns hr
  | write addr len data => exact level_write h hns hs

end Step

/-- Every step of the run is careful. -/
def Meets : DevCtx Ulite → List UliteEvent → Prop
  | _, [] => True
  | x, e :: es => ∀ y, e.step x = .ok y → Careful x e ∧ Meets y es

theorem run_cons {x y : DevCtx Ulite} {e : UliteEvent} (hs : e.step x = .ok y)
    (es : List UliteEvent) : run x (e :: es) = run y es := by
  rw [run, List.foldlM_cons, hs]
  rfl

theorem level_run {es : List UliteEvent} {x : DevCtx Ulite} (h : Level x) (hns : NotSpurious x) :
    (∀ fs, fs <+: es → ∀ y, run x fs = .ok y → Level y) ↔ Meets x es := by
  induction es generalizing x with
  | nil =>
    refine iff_of_true (fun fs hfs y hy => ?_) trivial
    rw [List.prefix_nil.1 hfs] at hy
    cases hy
    exact h
  | cons e es ih =>
    constructor
    · intro hall y hs
      have hy : Level y := by
        refine hall [e] ⟨es, rfl⟩ y ?_
        rw [run_cons hs]
        rfl
      obtain ⟨hiff, hn⟩ := level_step h hns hs
      refine ⟨hiff.1 hy, (ih hy hn).1 fun fs hfs z hz => ?_⟩
      refine hall (e :: fs) (List.cons_prefix_cons.2 ⟨rfl, hfs⟩) z ?_
      rw [run_cons hs]
      exact hz
    · intro hm fs hfs z hz
      cases fs with
      | nil =>
        cases hz
        exact h
      | cons f fs =>
        obtain ⟨rfl, hfs'⟩ := List.cons_prefix_cons.1 hfs
        cases hs : f.step x with
        | error err =>
          rw [run, List.foldlM_cons, hs] at hz
          cases hz
        | ok y =>
          obtain ⟨hc, hm'⟩ := hm y hs
          obtain ⟨hiff, hn⟩ := level_step h hns hs
          rw [run_cons hs] at hz
          exact (ih (hiff.2 hc) hn).2 hm' fs hfs' z hz

end Ulite

/-- In every state of a run the line is at the level of the queue, exactly if every step of
    the run is careful. -/
theorem ulite_level (ip : BitVec 8) (st : NemuState) (hip : ip.getLsbD XLNX_ULITE_IRQ_NO = false)
    (es : List UliteEvent) :
    (∀ fs, fs <+: es → ∀ y, Ulite.run ⟨.init, ip, st⟩ fs = .ok y → Ulite.Level y) ↔
      Ulite.Meets ⟨.init, ip, st⟩ es := by
  refine Ulite.level_run ⟨fun h0 => absurd rfl h0, fun _ => hip⟩ fun h0 => ?_
  have h0' : ip.getLsbD XLNX_ULITE_IRQ_NO = true := h0
  rw [hip] at h0'
  cases h0'

/-- The guest enables the interrupt, and a character arrives and is read. -/
def readOne : List UliteEvent := [.write 0xC 4 0x10, .input [(0x61, 0)], .read 0 4]

theorem ulite_level_readOne :
    ∃ y, Ulite.run ⟨.init, 0, .running⟩ readOne = .ok y ∧ Ulite.Level y := by
  have hm : Ulite.Meets ⟨.init, 0, .running⟩ readOne := by
    intro x hx
    refine ⟨fun _ _ _ => rfl, ?_⟩
    cases hx
    intro y hy
    refine ⟨trivial, ?_⟩
    cases hy
    intro z hz
    exact ⟨fun _ _ => by decide, trivial⟩
  exact ⟨_, rfl, (ulite_level 0 .running rfl readOne).2 hm readOne (List.prefix_refl _) _ rfl⟩

/-- Two characters arrive, and one is read. -/
def readOneOfTwo : List UliteEvent := [.write 0xC 4 0x10, .input [(0x61, 0), (0x62, 0)], .read 0 4]

theorem ulite_level_lost :
    ¬ ∀ (es : List UliteEvent) (y : DevCtx Ulite),
      Ulite.run ⟨.init, 0, .running⟩ es = .ok y → Ulite.Level y := by
  intro h
  have hl := h readOneOfTwo _ rfl
  exact absurd (hl.up (by decide) (by decide)) (by decide)

end NemuMips32
