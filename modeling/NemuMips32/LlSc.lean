/-
  `ll` and `sc` of threads that share one processor. The emulator keeps no link: `sc` stores
  and reports success whatever happened since the `ll`, and neither exception entry nor
  `eret` can make it fail. Threads that a kernel interrupts and resumes therefore run the
  non-atomic machine of `ReadModifyWrite` (`refines`), where updates can be lost.

  Every step is a step of the machine: an iteration of a thread or of the kernel, with any
  exceptions in it, or something from outside. Threads and kernel are guest software; what is
  asked of them is that only `sc` stores to the shared words, and that a thread that is
  resumed finds its registers as they were.
-/
import NemuMips32.Lib.ReadModifyWrite
import NemuMips32.Alignment
import NemuMips32.HostPage
import NemuMips32.Boot
import NemuMips32.Board

namespace NemuMips32

open StateExcept

variable {D : Type}

/-! ## Words of RAM -/

/-- An aligned word of a RAM array. -/
@[ext]
structure RamWord where
  ram : Ram
  addr : Word
  aligned : addr.toNat % 4 = 0
  deriving DecidableEq

def Memory.word (m : Memory) (w : RamWord) : Word := loadBytes (m w.ram) w.addr 4

theorem word_store (m : Memory) (w : RamWord) (v : Word) :
    (m.store w.ram w.addr 4 v).word = Function.update m.word w v := by
  funext w'
  by_cases h : w' = w
  · subst h
    rw [Function.update_self]
    exact loadBytes_store_self m _ _ v
  · rw [Function.update_of_ne h]
    have hw := w.aligned
    have hw' := w'.aligned
    have := w.addr.isLt
    have := w'.addr.isLt
    unfold Memory.word
    by_cases hr : w'.ram = w.ram
    · have hne : w'.addr.toNat ≠ w.addr.toNat := fun he =>
        h (RamWord.ext hr (BitVec.eq_of_toNat_eq he))
      rw [hr]
      exact loadBytes_store_of_off m _ v (by omega) (by omega) (by omega)
    · rw [Memory.store, Function.update_of_ne hr]

namespace LlSc

open ReadModifyWrite

/-! ## Handlers -/

/-- The access of `o` is to the word `w`. -/
structure Addresses (P : Platform D) (rw : Access) (o : Ops) (e : Machine D) (w : RamWord) :
    Prop where
  aligned : misaligned 4 (effAddr o e.cpu) = false
  place : e.place P rw (effAddr o e.cpu) = some (w.ram, w.addr)
  inRam : w.addr.toNat < w.ram.size.toNat

theorem Addresses.inWord {P : Platform D} {rw : Access} {o : Ops} {e : Machine D} {w : RamWord}
    (ha : Addresses P rw o e w) : InWordOf (effAddr o e.cpu) 4 := by
  have h := misaligned_iff 2 (by decide) (effAddr o e.cpu)
  have h4 : 2 ^ 2 ∣ (effAddr o e.cpu).toNat := by
    by_contra hn
    exact absurd (ha.aligned.symm.trans (h.2 hn)) (by decide)
  unfold InWordOf
  omega

theorem Addresses.bytes {P : Platform D} {rw : Access} {o : Ops} {e : Machine D} {w : RamWord}
    (ha : Addresses P rw o e w) :
    ∀ j < 4, e.InRam P rw (effAddr o e.cpu + BitVec.ofNat 32 j) := by
  intro j hj
  refine ⟨_, _, place_add ha.inWord hj ha.place, ?_⟩
  have hs := (size_ram_aligned w.ram).1
  have hw := w.aligned
  have hin := ha.inRam
  have := w.addr.isLt
  rw [BitVec.toNat_add, BitVec.toNat_ofNat]
  omega

section Handlers

variable {P : Platform D} (hx : P.cfg.exception = true) {bases : List (DevName × Word)}
  (hb : P.board.Realizes bases) {e : Machine D} (hp : e.Paged)
  (he : e.cpu.hasException = false) {o : Ops} {w : RamWord}
include hx hb hp he

theorem exec_ll (ha : Addresses P .load o e w) :
    ∃ mc, exec P o .ll e = .ok ()
      ({ e with mmuCache := mc }.setRegs (e.cpu.setGpr o.rt (e.ram.word w))) := by
  obtain ⟨r, x, mc, hpl, hr, -, -⟩ := vaddrRead_place hb hp he (by decide) ha.inWord ha.bytes
  obtain ⟨rfl, rfl⟩ := Prod.mk.inj (Option.some.inj (hpl.symm.trans ha.place))
  refine ⟨mc, ?_⟩
  change ll P o e = _
  unfold ll
  rw [bind_of_ok (getCpu_apply e)]
  have hc : checkAlignedAddr P .AdEL 4 (effAddr o e.cpu) e = .ok () e := by
    rw [checkAlignedAddr_apply hx e (by decide), ha.aligned]
    rfl
  rw [bind_of_ok hc, bind_of_ok hr]
  rfl

omit hb hp he in
theorem writeOp_of_write (op : AccessOp) (data : CpuState → Word) (put : CpuState → Regs)
    {t : Machine D} (hm : op.misaligned e.cpu = false)
    (hw : vaddrWrite P (op.addr e.cpu) (op.len e.cpu) (data e.cpu) e = .ok () t)
    (ht : t.cpu.hasException = false) :
    writeOp P op data put e = .ok () (t.setRegs (put t.cpu)) := by
  have hc : op.check P .AdES e.cpu e = .ok () e := by
    rw [check_apply hx e (by decide), hm]
    rfl
  unfold writeOp
  rw [bind_of_ok (getCpu_apply e), bind_of_ok hc, bind_of_ok hw, bind_of_ok (getCpu_apply t), ht]
  rfl

/-- Nothing is asked about what happened since the `ll`. -/
theorem exec_sc (ha : Addresses P .store o e w) :
    ∃ mc, exec P o .sc e = .ok ()
      ({ e with
          ram := e.ram.store w.ram w.addr 4 (e.cpu.gpr o.rt)
          mmuCache := mc }.setRegs (e.cpu.setGpr o.rt 1)) := by
  obtain ⟨r, x, mc, hpl, hw, -, -⟩ := vaddrWrite_place hb hp he (by decide) ha.inWord ha.bytes
    (e.cpu.gpr o.rt)
  obtain ⟨rfl, rfl⟩ := Prod.mk.inj (Option.some.inj (hpl.symm.trans ha.place))
  exact ⟨mc, writeOp_of_write hx (alignedOp 4 o) (fun c => c.gpr o.rt)
    (fun c => c.setGpr o.rt 1) ha.aligned hw he⟩

end Handlers

/-! ## Iterations -/

theorem settle_keeps (P : Platform D) (s : Machine D) :
    (s.settle P).cpu.toRegs = s.cpu.toRegs ∧ (s.settle P).ram = s.ram := by
  have ht : (s.tick P).cpu.toRegs = s.cpu.toRegs ∧ (s.tick P).ram = s.ram := by
    unfold Machine.tick
    split <;> exact ⟨rfl, rfl⟩
  unfold Machine.settle
  split
  · exact ⟨rfl, rfl⟩
  · split
    · exact ht
    · exact ht

section Iterations

variable {P : Platform D} (hx : P.cfg.exception = true) {s s' e d : Machine D} {h : Handler}
  {o : Ops}

include hx in
/-- After its handler an instruction writes no register and no RAM. -/
theorem iteration_of_exec (he : Entered P s h o e) (hr : exec P o h e = .ok () d)
    (hi : iteration P s = .ok () s') : s'.cpu.toRegs = d.cpu.toRegs ∧ s'.ram = d.ram := by
  rw [iteration_apply hx, execInst_of_entered he] at hi
  unfold dispatch at hi
  simp only [hr] at hi
  obtain ⟨c, hc⟩ | ⟨t, ht, -⟩ := instEnd_cases hx h d
  · rw [hc] at hi
    cases hi
    obtain ⟨hregs, hram⟩ := settle_keeps P (d.instEnd.withDc c)
    exact ⟨hregs.trans (toRegs_instEnd d), hram⟩
  · rw [ht] at hi
    cases hi

theorem entered_gpr (he : Entered P s h o e) {r : BitVec 5} (hr : r ≠ 0) :
    e.cpu.gpr r = s.cpu.gpr r := by
  obtain ⟨x, mc, c, rfl⟩ := he.access
  exact Function.update_of_ne hr _ _

theorem entered_ram (he : Entered P s h o e) : e.ram = s.ram := by
  obtain ⟨x, mc, c, rfl⟩ := he.access
  rfl

variable {bases : List (DevName × Word)} (hb : P.board.Realizes bases) (hp : s.Paged)

include hb hp in
theorem entered_paged (he : Entered P s h o e) : e.Paged := by
  have hk := keepsPaged_makeEntry hb s hp
  rw [he.entry] at hk
  exact hk

variable (hs : s.cpu.hasException = false) {w : RamWord}

include hx

theorem iteration_eret (he : Entered P s .eret o e) (hi : iteration P s = .ok () s') :
    (∀ r, r ≠ 0 → s'.cpu.gpr r = s.cpu.gpr r) ∧ s'.ram = s.ram := by
  have hr : exec P o .eret e = .ok () e.eret := rfl
  obtain ⟨hregs, hram⟩ := iteration_of_exec hx he hr hi
  have hcpu : e.eret.cpu.toRegs = e.cpu.toRegs := by
    change e.cpu.eret.toRegs = _
    unfold CpuState.eret
    split <;> rfl
  have hentry : e.ram = s.ram := entered_ram he
  refine ⟨fun r h0 => ?_, hram.trans hentry⟩
  rw [hregs, hcpu, entered_gpr he h0]

include hb hp hs

theorem iteration_ll (he : Entered P s .ll o e) (ha : Addresses P .load o e w)
    (hi : iteration P s = .ok () s') :
    s'.cpu.gpr o.rt = s.ram.word w ∧ s'.ram = s.ram := by
  obtain ⟨mc, hr⟩ := exec_ll hx hb (entered_paged hb hp he) (he.hasException.trans hs) ha
  obtain ⟨hregs, hram⟩ := iteration_of_exec hx he hr hi
  have hentry : e.ram = s.ram := entered_ram he
  refine ⟨?_, hram.trans hentry⟩
  rw [hregs, ← hentry]
  exact Function.update_self ..

theorem iteration_sc (h0 : o.rt ≠ 0) (he : Entered P s .sc o e) (ha : Addresses P .store o e w)
    (hi : iteration P s = .ok () s') :
    s'.cpu.gpr o.rt = 1 ∧ s'.ram.word = Function.update s.ram.word w (s.cpu.gpr o.rt) := by
  obtain ⟨mc, hr⟩ := exec_sc hx hb (entered_paged hb hp he) (he.hasException.trans hs) ha
  obtain ⟨hregs, hram⟩ := iteration_of_exec hx he hr hi
  refine ⟨?_, ?_⟩
  · rw [hregs]
    exact Function.update_self ..
  · rw [hram, ← entered_ram he, ← entered_gpr he h0]
    exact word_store _ w _

end Iterations

/-! ## Threads -/

/-- Between its `ll` and its `sc` a thread holds in `rt` what it computed with `g` from the
    word it loaded. -/
structure Pending where
  rt : BitVec 5
  word : RamWord
  g : Word → Word

/-- The machine, and where its threads are; none of them runs while the kernel does. -/
structure Threads (D : Type) where
  machine : Machine D
  running : Option Nat
  saved : Nat → Regs
  pending : Nat → Option Pending

namespace Threads

def regs (T : Threads D) (t : Nat) : Regs :=
  if T.running = some t then T.machine.cpu.toRegs else T.saved t

/-- An iteration of the running thread `t`; an exception enters the kernel. -/
def advance (T : Threads D) (t : Nat) (s' : Machine D) : Threads D :=
  if newRaised T.machine s' = [] then { T with machine := s' }
  else { T with
    machine := s'
    running := none
    saved := Function.update T.saved t s'.cpu.toRegs }

def setPending (T : Threads D) (t : Nat) (p : Option Pending) : Threads D :=
  { T with pending := Function.update T.pending t p }

end Threads

/-- The registers that are a thread's own, those but `zero`, `k0` and `k1`. -/
def Preserved (r : BitVec 5) : Prop := r ≠ 0 ∧ r ≠ 26 ∧ r ≠ 27

/-- The shared words are what they were. -/
def KeepsWords (W : Set RamWord) (s s' : Machine D) : Prop :=
  ∀ w ∈ W, s'.ram.word w = s.ram.word w

/-- `sc` with what its thread computed and the `rt` it left. -/
inductive Label where
  | ll (t : Nat) (w : RamWord)
  | sc (t : Nat) (w : RamWord) (g : Word → Word) (rt : Word)

inductive Step (P : Platform D) (W : Set RamWord) (T : Threads D) :
    Option Label → Threads D → Prop where
  | ll {t o e s' w} (hr : T.running = some t) (he : Entered P T.machine .ll o e)
    (hi : iteration P T.machine = .ok () s') (ha : Addresses P .load o e w) (hw : w ∈ W)
    (hrt : Preserved o.rt) :
    Step P W T (some (.ll t w)) ((T.advance t s').setPending t (some ⟨o.rt, w, id⟩))
  | sc {t o e s' p} (hr : T.running = some t) (hp : T.pending t = some p)
    (he : Entered P T.machine .sc o e) (hi : iteration P T.machine = .ok () s')
    (ha : Addresses P .store o e p.word) (hrt : o.rt = p.rt) :
    Step P W T (some (.sc t p.word p.g (s'.cpu.gpr o.rt)))
      ((T.advance t s').setPending t none)
  | work {t s'} (hr : T.running = some t) (hp : T.pending t = none)
    (hi : iteration P T.machine = .ok () s') (hk : KeepsWords W T.machine s') :
    Step P W T none (T.advance t s')
  | compute {t s' p} (hr : T.running = some t) (hp : T.pending t = some p)
    (hi : iteration P T.machine = .ok () s') (hk : KeepsWords W T.machine s')
    (g : Word → Word) (hg : s'.cpu.gpr p.rt = g (T.machine.cpu.gpr p.rt)) :
    Step P W T none ((T.advance t s').setPending t (some { p with g := g ∘ p.g }))
  | kernel {s'} (hr : T.running = none) (hi : iteration P T.machine = .ok () s')
    (hk : KeepsWords W T.machine s') : Step P W T none { T with machine := s' }
  | resume {t o e s'} (hr : T.running = none) (he : Entered P T.machine .eret o e)
    (hi : iteration P T.machine = .ok () s')
    (hs : ∀ r, Preserved r → T.machine.cpu.gpr r = (T.saved t).gpr r) :
    Step P W T none { T with machine := s', running := some t }
  | outside {i s'} (hi : step P T.machine i = some s') (hn : i ≠ .iterate) :
    Step P W T none { T with machine := s' }

/-- A run and what happened in it, newest first. -/
inductive Run (P : Platform D) (W : Set RamWord) (T₀ : Threads D) :
    List Label → Threads D → Prop where
  | start : Run P W T₀ [] T₀
  | step {ls T l T'} (h : Run P W T₀ ls T) (hs : Step P W T l T') :
    Run P W T₀ (l.toList ++ ls) T'

/-- No thread has loaded yet. -/
structure Start (T : Threads D) : Prop where
  paged : T.machine.Paged
  hasException : T.machine.cpu.hasException = false
  pending : ∀ t, T.pending t = none

/-- An `sc` is a store if it reports success. -/
def Label.event : Label → Option (Event Nat RamWord Word)
  | .ll t w => some (.load t w)
  | .sc t w g rt => if rt = 1 then some (.store t w g) else none

def history (ls : List Label) : List (Event Nat RamWord Word) := ls.filterMap Label.event

def increment (v : Word) : Word := v + 1

/-! ## The machine without links -/

theorem Threads.regs_advance_self {T : Threads D} {t : Nat} (hr : T.running = some t)
    (s' : Machine D) : (T.advance t s').regs t = s'.cpu.toRegs := by
  unfold advance
  split
  · exact if_pos hr
  · exact Function.update_self ..

theorem Threads.regs_advance_other {T : Threads D} {t u : Nat} (hr : T.running = some t)
    (hu : u ≠ t) (s' : Machine D) : (T.advance t s').regs u = T.regs u := by
  have hru : T.running ≠ some u := fun h => hu (Option.some.inj (h.symm.trans hr))
  have hsaved : T.regs u = T.saved u := if_neg hru
  rw [hsaved]
  unfold advance
  split
  · exact if_neg hru
  · exact Function.update_of_ne hu _ _

@[simp] theorem Threads.machine_advance (T : Threads D) (t : Nat) (s' : Machine D) :
    (T.advance t s').machine = s' := by
  unfold advance
  split <;> rfl

@[simp] theorem Threads.pending_advance (T : Threads D) (t : Nat) (s' : Machine D) :
    (T.advance t s').pending = T.pending := by
  unfold advance
  split <;> rfl

/-- What a pending thread holds. -/
structure Holds (W : Set RamWord) (x : State Nat RamWord Word)
    (es : List (Event Nat RamWord Word)) (r : Regs) (t : Nat) (p : Pending) : Prop where
  preserved : Preserved p.rt
  shared : p.word ∈ W
  linked : Linked t p.word es
  value : r.gpr p.rt = p.g ((x.run es).reg t)

/-- The shared words and the pending threads are those of the machine without links. -/
structure Refines (W : Set RamWord) (x : State Nat RamWord Word) (ls : List Label)
    (T : Threads D) : Prop where
  paged : T.machine.Paged
  hasException : T.machine.cpu.hasException = false
  success : ∀ t w g rt, Label.sc t w g rt ∈ ls → rt = 1
  sequenced : Sequenced (history ls)
  mem : ∀ w ∈ W, T.machine.ram.word w = (x.run (history ls)).mem w
  holds : ∀ t p, T.pending t = some p → Holds W x (history ls) (T.regs t) t p

/-- The words before the run; no thread has loaded anything. -/
def Threads.state (T : Threads D) : State Nat RamWord Word := ⟨T.machine.ram.word, fun _ => 0⟩

section Steps

variable {P : Platform D} {W : Set RamWord} {x : State Nat RamWord Word} {ls : List Label}
  {T T' : Threads D}

theorem refines_start (h : Start T) : Refines W T.state [] T where
  paged := h.paged
  hasException := h.hasException
  success := fun _ _ _ _ h => absurd h List.not_mem_nil
  sequenced := trivial
  mem := fun _ _ => rfl
  holds t p hp := absurd ((h.pending t).symm.trans hp) (Option.some_ne_none p).symm

theorem step_outside {s s' : Machine D} {i : Input D} (h : step P s i = some s')
    (hn : i ≠ .iterate) : s'.ram = s.ram ∧ s'.cpu.toRegs = s.cpu.toRegs ∧
      s'.cpu.hasException = s.cpu.hasException := by
  cases i with
  | iterate => exact absurd rfl hn
  | host f =>
    cases h
    exact ⟨rfl, rfl, rfl⟩
  | enter =>
    obtain ⟨c, rfl⟩ := enterLoop_shape (eq_ok_of_okState h)
    exact ⟨rfl, rfl, rfl⟩

/-- An event of another thread. -/
theorem Holds.other {es : List (Event Nat RamWord Word)} {r : Regs} {t u : Nat} {p : Pending}
    (h : Holds W x es r u p) (hu : u ≠ t) (e : Event Nat RamWord Word)
    (he : (∃ w, e = .load t w) ∨ ∃ w g, e = .store t w g) : Holds W x (e :: es) r u p where
  preserved := h.preserved
  shared := h.shared
  linked := by
    obtain ⟨w, rfl⟩ | ⟨w, g, rfl⟩ := he
    · rw [Linked, if_neg (Ne.symm hu)]
      exact h.linked
    · exact ⟨Ne.symm hu, h.linked⟩
  value := by
    obtain ⟨w, rfl⟩ | ⟨w, g, rfl⟩ := he
    · rw [reg_load, Function.update_of_ne hu]
      exact h.value
    · exact h.value

variable (hx : P.cfg.exception = true) {bases : List (DevName × Word)}
  (hb : P.board.Realizes bases)
include hx hb

/-- An iteration of the thread `t`: what it does to the words and to what `t` holds. -/
theorem Refines.advance (h : Refines W x ls T) {t : Nat} (hr : T.running = some t)
    {s' : Machine D} (hi : iteration P T.machine = .ok () s') {ls' : List Label}
    (hsuccess : ∀ t w g rt, Label.sc t w g rt ∈ ls' → rt = 1)
    (hseq : Sequenced (history ls'))
    (hmem : ∀ w ∈ W, s'.ram.word w = (x.run (history ls')).mem w) {p' : Option Pending}
    (hown : ∀ p, p' = some p → Holds W x (history ls') s'.cpu.toRegs t p)
    (hother : ∀ u p, u ≠ t → T.pending u = some p → Holds W x (history ls') (T.regs u) u p) :
    Refines W x ls' ((T.advance t s').setPending t p') := by
  have hpaged := keepsPaged_iteration hb T.machine h.paged
  rw [hi] at hpaged
  have hmachine : ((T.advance t s').setPending t p').machine = s' := T.machine_advance t s'
  refine ⟨?_, ?_, hsuccess, hseq, ?_, ?_⟩
  · rw [hmachine]
    exact hpaged
  · rw [hmachine]
    exact hasException_iteration hx hi
  · rw [hmachine]
    exact hmem
  · intro u p hu
    change Function.update (T.advance t s').pending t p' u = some p at hu
    rw [Threads.pending_advance] at hu
    change Holds W x _ ((T.advance t s').regs u) u p
    by_cases hut : u = t
    · subst hut
      rw [Function.update_self] at hu
      rw [Threads.regs_advance_self hr]
      exact hown p hu
    · rw [Function.update_of_ne hut] at hu
      rw [Threads.regs_advance_other hr hut]
      exact hother u p hut hu

theorem refines_ll (h : Refines W x ls T) {t : Nat} {o : Ops} {e s' : Machine D} {w : RamWord}
    (hr : T.running = some t) (he : Entered P T.machine .ll o e)
    (hi : iteration P T.machine = .ok () s') (ha : Addresses P .load o e w) (hw : w ∈ W)
    (hrt : Preserved o.rt) :
    Refines W x (.ll t w :: ls) ((T.advance t s').setPending t (some ⟨o.rt, w, id⟩)) := by
  obtain ⟨hv, hram⟩ := iteration_ll hx hb h.paged h.hasException he ha hi
  have hseq : Sequenced (history (.ll t w :: ls)) := h.sequenced
  refine h.advance hx hb hr hi ?_ hseq ?_ ?_ ?_
  · intro t' w' g rt hm
    obtain hm | hm := List.mem_cons.1 hm
    · cases hm
    · exact h.success t' w' g rt hm
  · intro w' hw'
    rw [hram]
    exact h.mem w' hw'
  · intro p hp
    cases hp
    refine ⟨hrt, hw, ?_, ?_⟩
    · change Linked t w (.load t w :: history ls)
      rw [Linked, if_pos rfl]
    · -- what it has loaded is what the word holds
      change s'.cpu.gpr o.rt = (x.run (.load t w :: history ls)).reg t
      rw [hv, h.mem w hw, reg_load, Function.update_self]
  · intro u p hu hp
    exact (h.holds u p hp).other hu _ (.inl ⟨w, rfl⟩)

theorem refines_sc (h : Refines W x ls T) {t : Nat} {o : Ops} {e s' : Machine D} {p : Pending}
    (hr : T.running = some t) (hp : T.pending t = some p) (he : Entered P T.machine .sc o e)
    (hi : iteration P T.machine = .ok () s') (ha : Addresses P .store o e p.word)
    (hrt : o.rt = p.rt) :
    Refines W x (.sc t p.word p.g (s'.cpu.gpr o.rt) :: ls)
      ((T.advance t s').setPending t none) := by
  have hh := h.holds t p hp
  have h0 : o.rt ≠ 0 := hrt ▸ hh.preserved.1
  obtain ⟨hone, hram⟩ := iteration_sc hx hb h.paged h.hasException h0 he ha hi
  have hregs : T.regs t = T.machine.cpu.toRegs := if_pos hr
  have hstored : T.machine.cpu.gpr o.rt = p.g ((x.run (history ls)).reg t) := by
    rw [hrt, ← hregs]
    exact hh.value
  have hhist : history (.sc t p.word p.g (s'.cpu.gpr o.rt) :: ls) =
      .store t p.word p.g :: history ls := by
    have hev : Label.event (.sc t p.word p.g (s'.cpu.gpr o.rt)) = some (.store t p.word p.g) :=
      if_pos hone
    exact List.filterMap_cons_some hev
  refine h.advance hx hb hr hi ?_ ?_ ?_ (fun q hq => by cases hq) ?_
  · intro t' w' g rt hm
    obtain hm | hm := List.mem_cons.1 hm
    · cases hm
      exact hone
    · exact h.success t' w' g rt hm
  · rw [hhist]
    exact ⟨hh.linked, h.sequenced⟩
  · intro w' hw'
    rw [hhist, hram, hstored, mem_store]
    by_cases hww : w' = p.word
    · rw [hww, Function.update_self, Function.update_self]
    · rw [Function.update_of_ne hww, Function.update_of_ne hww, h.mem w' hw']
  · intro u q hu hq
    rw [hhist]
    exact (h.holds u q hq).other hu _ (.inr ⟨p.word, p.g, rfl⟩)

/-- An iteration that does nothing to the shared words. -/
theorem refines_compute (h : Refines W x ls T) {t : Nat} {s' : Machine D}
    (hr : T.running = some t) (hi : iteration P T.machine = .ok () s')
    (hk : KeepsWords W T.machine s') {p' : Option Pending}
    (hown : ∀ p, p' = some p → Holds W x (history ls) s'.cpu.toRegs t p) :
    Refines W x ls ((T.advance t s').setPending t p') :=
  h.advance hx hb hr hi h.success h.sequenced (fun w hw => (hk w hw).trans (h.mem w hw)) hown
    fun u p _ hp => h.holds u p hp

theorem refines_step {l : Option Label} (h : Refines W x ls T) (hs : Step P W T l T') :
    Refines W x (l.toList ++ ls) T' := by
  have hiter : ∀ s', iteration P T.machine = .ok () s' →
      s'.Paged ∧ s'.cpu.hasException = false := by
    intro s' hi
    have hk := keepsPaged_iteration hb T.machine h.paged
    rw [hi] at hk
    exact ⟨hk, hasException_iteration hx hi⟩
  cases hs with
  | ll hr he hi ha hw hrt => exact refines_ll hx hb h hr he hi ha hw hrt
  | sc hr hp he hi ha hrt => exact refines_sc hx hb h hr hp he hi ha hrt
  | @work t s' hr hp hi hk =>
    have hself : (T.advance t s').setPending t none = T.advance t s' := by
      unfold Threads.setPending
      rw [Threads.pending_advance, Function.update_eq_self_iff.2 hp.symm, ← T.pending_advance t s']
    rw [← hself]
    exact refines_compute hx hb h hr hi hk fun p hp => by cases hp
  | @compute t s' p hr hp hi hk g hg =>
    refine refines_compute hx hb h hr hi hk fun q hq => ?_
    cases hq
    have hh := h.holds t p hp
    have hregs : T.regs t = T.machine.cpu.toRegs := if_pos hr
    refine ⟨hh.preserved, hh.shared, hh.linked, ?_⟩
    rw [hg, ← hregs]
    exact congrArg g hh.value
  | @kernel s' hr hi hk =>
    obtain ⟨hpaged, hexc⟩ := hiter s' hi
    refine ⟨hpaged, hexc, h.success, h.sequenced, ?_, ?_⟩
    · exact fun w hw => (hk w hw).trans (h.mem w hw)
    · -- nobody runs
      intro t p hp
      have hregs : T.regs t = T.saved t := if_neg (by simp [hr])
      have hh := h.holds t p hp
      rw [hregs] at hh
      have hregs' : Threads.regs { T with machine := s' } t = T.saved t :=
        if_neg (by simp [hr])
      rw [hregs']
      exact hh
  | @resume t o e s' hr he hi hs =>
    obtain ⟨hpaged, hexc⟩ := hiter s' hi
    obtain ⟨hgpr, hram⟩ := iteration_eret hx he hi
    refine ⟨hpaged, hexc, h.success, h.sequenced, ?_, ?_⟩
    · intro w hw
      rw [hram]
      exact h.mem w hw
    · intro u p hp
      have hh := h.holds u p hp
      have hregs : T.regs u = T.saved u := if_neg (by simp [hr])
      rw [hregs] at hh
      by_cases hu : u = t
      · subst hu
        refine ⟨hh.preserved, hh.shared, hh.linked, ?_⟩
        have hregs' : Threads.regs { T with machine := s', running := some u } u =
            s'.cpu.toRegs := if_pos rfl
        rw [hregs', hgpr _ hh.preserved.1, hs _ hh.preserved]
        exact hh.value
      · have hregs' : Threads.regs { T with machine := s', running := some t } u = T.saved u :=
          if_neg fun he => hu (Option.some.inj he).symm
        rw [hregs']
        exact hh
  | @outside i s' hi hn =>
    obtain ⟨hram, hregs, hexc⟩ := step_outside hi hn
    have hr : ∀ t, Threads.regs { T with machine := s' } t = T.regs t := by
      intro t
      unfold Threads.regs
      rw [hregs]
    refine ⟨paged_step hb h.paged hi, hexc.trans h.hasException, h.success, h.sequenced, ?_, ?_⟩
    · intro w hw
      rw [hram]
      exact h.mem w hw
    · intro t p hp
      rw [hr]
      exact h.holds t p hp

/-- In every run the shared words are those of the machine without links. -/
theorem refines_run {T₀ : Threads D} (h0 : Start T₀) (h : Run P W T₀ ls T) :
    Refines W T₀.state ls T := by
  induction h with
  | start => exact refines_start h0
  | step _ hs ih => exact refines_step hx hb ih hs

end Steps

/-! ## A race -/

section Race

variable {T₀ T : Threads Unit} {ls : List Label}

/-- The instruction at `pc`, for evaluation. -/
def Executes (s : Machine Unit) (h : Handler) (o : Ops) : Prop :=
  s.cpu.pc &&& 3 = 0 ∧ returned (makeEntry mips32r1 s) = some (h, o) ∧
    (final (makeEntry mips32r1 s)).raised.length = s.raised.length ∧
    isOk (iteration mips32r1 s) = true

instance (s : Machine Unit) (h : Handler) (o : Ops) : Decidable (Executes s h o) :=
  inferInstanceAs (Decidable (_ ∧ _ ∧ _ ∧ _))

instance (r : BitVec 5) : Decidable (Preserved r) := inferInstanceAs (Decidable (_ ∧ _ ∧ _))

theorem Executes.entered {s : Machine Unit} {h : Handler} {o : Ops} (he : Executes s h o) :
    Entered mips32r1 s h o (final (makeEntry mips32r1 s)) :=
  entered_of_returned he.1 he.2.1 he.2.2.1

theorem Executes.iteration {s : Machine Unit} {h : Handler} {o : Ops} (he : Executes s h o) :
    iteration mips32r1 s = .ok () (final (iteration mips32r1 s)) :=
  eq_ok_of_isOk he.2.2.2

theorem keepsWords_singleton {w : RamWord} {s s' : Machine D}
    (h : s'.ram.word w = s.ram.word w) : KeepsWords {w} s s' := by
  intro w' hw
  obtain rfl := hw
  exact h

def entry (T : Threads Unit) : Machine Unit := final (makeEntry mips32r1 T.machine)
def next (T : Threads Unit) : Machine Unit := final (iteration mips32r1 T.machine)

/-! One step of a run, with facts about it that evaluate. -/

theorem Run.ll {W : Set RamWord} {t : Nat} {o : Ops} {w : RamWord}
    (h : Run mips32r1 W T₀ ls T) (hr : T.running = some t) (he : Executes T.machine .ll o)
    (ha : Addresses mips32r1 .load o (entry T) w) (hw : w ∈ W) (hrt : Preserved o.rt) :
    Run mips32r1 W T₀ (.ll t w :: ls)
      ((T.advance t (next T)).setPending t (some ⟨o.rt, w, id⟩)) :=
  h.step (.ll hr he.entered he.iteration ha hw hrt)

theorem Run.sc {W : Set RamWord} {t : Nat} {o : Ops} {p : Pending}
    (h : Run mips32r1 W T₀ ls T) (hr : T.running = some t) (hp : T.pending t = some p)
    (he : Executes T.machine .sc o) (ha : Addresses mips32r1 .store o (entry T) p.word)
    (hrt : o.rt = p.rt) (hone : (next T).cpu.gpr o.rt = 1) :
    Run mips32r1 W T₀ (.sc t p.word p.g 1 :: ls)
      ((T.advance t (next T)).setPending t none) :=
  hone ▸ h.step (.sc hr hp he.entered he.iteration ha hrt)

theorem Run.compute {w : RamWord} {t : Nat} {h' : Handler} {o : Ops} {p : Pending}
    (h : Run mips32r1 {w} T₀ ls T) (hr : T.running = some t) (hp : T.pending t = some p)
    (he : Executes T.machine h' o) (hk : (next T).ram.word w = T.machine.ram.word w)
    (g : Word → Word) (hg : (next T).cpu.gpr p.rt = g (T.machine.cpu.gpr p.rt)) :
    Run mips32r1 {w} T₀ ls
      ((T.advance t (next T)).setPending t (some { p with g := g ∘ p.g })) :=
  h.step (.compute hr hp he.iteration (keepsWords_singleton hk) g hg)

/-- `n` iterations of the kernel. -/
theorem Run.kernel {w : RamWord} (h : Run mips32r1 {w} T₀ ls T) (hr : T.running = none) (n : Nat)
    (hi : ∀ i < n, isOk (iteration mips32r1 (after mips32r1 i T.machine)) = true ∧
      (after mips32r1 (i + 1) T.machine).ram.word w =
        (after mips32r1 i T.machine).ram.word w) :
    Run mips32r1 {w} T₀ ls { T with machine := after mips32r1 n T.machine } := by
  induction n with
  | zero => exact h
  | succ n ih =>
    have hn := hi n (Nat.lt_succ_self n)
    exact (ih fun i hlt => hi i (Nat.lt_succ_of_lt hlt)).step
      (.kernel hr (eq_ok_of_isOk hn.1) (keepsWords_singleton hn.2))

/-- Six instructions of the kernel and its `eret`. -/
def switch (T : Threads Unit) (t : Nat) : Threads Unit :=
  { T with machine := after mips32r1 7 T.machine, running := some t }

theorem Run.switch {w : RamWord} {t : Nat} (h : Run mips32r1 {w} T₀ ls T)
    (hr : T.running = none)
    (hi : ∀ i < 6, isOk (iteration mips32r1 (after mips32r1 i T.machine)) = true ∧
      (after mips32r1 (i + 1) T.machine).ram.word w =
        (after mips32r1 i T.machine).ram.word w)
    (he : Executes (after mips32r1 6 T.machine) .eret (Inst.ops 0x42000018))
    (hs : ∀ r, Preserved r → (after mips32r1 6 T.machine).cpu.gpr r = (T.saved t).gpr r) :
    Run mips32r1 {w} T₀ ls (switch T t) :=
  (h.kernel hr 6 hi).step (.resume hr he.entered he.iteration hs)

def setLines (T : Threads Unit) (ip : BitVec 8) : Threads Unit :=
  { T with machine := { T.machine with
      toArch := T.machine.putDev { T.machine.devCtx with ip := ip } } }

theorem Run.setLines {W : Set RamWord} (h : Run mips32r1 W T₀ ls T) (ip : BitVec 8) :
    Run mips32r1 W T₀ ls (setLines T ip) :=
  h.step (.outside (i := .host fun x => { x with ip := ip }) rfl (by simp))

/-- The word that two threads increment. -/
def counter : RamWord := ⟨.ddr, 0x2000, by decide⟩

/-- `ll`, `addiu`, `sc` for both threads, and a kernel that exchanges `t0` with `k0` and EPC
    with `k1`. -/
def raceImage : Memory :=
  ddrOf [(0x1000, 0xC0880000), (0x1004, 0x25080001), (0x1008, 0xE0880000),
    (0x180, 0x01000011), (0x184, 0x40087000), (0x188, 0x409B7000), (0x18C, 0x0100D821),
    (0x190, 0x03404021), (0x194, 0x0000D010), (0x198, 0x42000018)]

def raceMachine : Machine Unit :=
  let s := Machine.boot raceImage ()
  { s with cpu := { s.cpu with
      pc := 0x80001000
      toRegs := (s.cpu.setGpr 4 0x80002000).setGpr 27 0x80001000
      cp0 := { s.cpu.cp0 with
        status := { s.cpu.cp0.status with IE := true, IM := 4 }
        cause := { s.cpu.cp0.cause with IP := 4 } } } }

def raceStart : Threads Unit where
  machine := raceMachine
  running := some 0
  saved _ := raceMachine.cpu.toRegs
  pending _ := none

@[simp] theorem pending_setPending (T : Threads D) (t : Nat) (p : Option Pending) :
    (T.setPending t p).pending = Function.update T.pending t p := rfl

@[simp] theorem pending_setLines (ip : BitVec 8) : (setLines T ip).pending = T.pending := rfl

@[simp] theorem pending_switch (t : Nat) : (switch T t).pending = T.pending := rfl

/-! Thread 0 is interrupted after its `ll`; thread 1 completes an increment and is interrupted
    after its `sc`; thread 0 goes on. -/

def linked : Pending := ⟨8, counter, id⟩
def computed : Pending := { linked with g := increment ∘ linked.g }

def race1 : Threads Unit := (raceStart.advance 0 (next raceStart)).setPending 0 (some linked)
def race2 : Threads Unit := switch (setLines race1 0) 1
def race3 : Threads Unit := (race2.advance 1 (next race2)).setPending 1 (some linked)
def race4 : Threads Unit := (race3.advance 1 (next race3)).setPending 1 (some computed)
def race5 : Threads Unit := setLines race4 4
def race6 : Threads Unit := (race5.advance 1 (next race5)).setPending 1 none
def race7 : Threads Unit := switch (setLines race6 0) 0
def race8 : Threads Unit := (race7.advance 0 (next race7)).setPending 0 (some computed)
def race9 : Threads Unit := (race8.advance 0 (next race8)).setPending 0 none

def raceLabels : List Label :=
  [.sc 1 counter (increment ∘ id) 1, .ll 1 counter, .ll 0 counter]

theorem start_race : Start raceStart where
  paged := by
    intro i r b h
    cases h
  hasException := rfl
  pending _ := rfl

/-- Thread 1 has incremented the counter. -/
theorem run_race6 : Run mips32r1 {counter} raceStart raceLabels race6 := by
  have h1 : Run mips32r1 {counter} raceStart [.ll 0 counter] race1 := by
    have he : Executes raceStart.machine .ll (Inst.ops 0xC0880000) := by decide +kernel
    exact Run.start.ll rfl he ⟨by decide +kernel, by decide +kernel, by decide +kernel⟩
      (Set.mem_singleton _) (by decide)
  have h2 : Run mips32r1 {counter} raceStart [.ll 0 counter] race2 :=
    (h1.setLines 0).switch (by decide +kernel) (by decide +kernel) (by decide +kernel)
      (by decide +kernel)
  have h3 : Run mips32r1 {counter} raceStart [.ll 1 counter, .ll 0 counter] race3 := by
    have he : Executes race2.machine .ll (Inst.ops 0xC0880000) := by decide +kernel
    exact h2.ll rfl he ⟨by decide +kernel, by decide +kernel, by decide +kernel⟩
      (Set.mem_singleton _) (by decide)
  have h4 : Run mips32r1 {counter} raceStart [.ll 1 counter, .ll 0 counter] race4 := by
    have he : Executes race3.machine .addiu (Inst.ops 0x25080001) := by decide +kernel
    have hp : race3.pending 1 = some linked := by simp [race3]
    exact h3.compute (by decide +kernel) hp he (by decide +kernel) increment (by decide +kernel)
  have he : Executes race5.machine .sc (Inst.ops 0xE0880000) := by decide +kernel
  have hp : race5.pending 1 = some computed := by simp [race5, race4]
  exact (h4.setLines 4).sc (by decide +kernel) hp he
    ⟨by decide +kernel, by decide +kernel, by decide +kernel⟩ rfl (by decide +kernel)

/-- Thread 0 increments it too, from the value it had before. -/
theorem run_race9 : Run mips32r1 {counter} raceStart
    (.sc 0 counter (increment ∘ id) 1 :: raceLabels) race9 := by
  have h7 : Run mips32r1 {counter} raceStart raceLabels race7 :=
    (run_race6.setLines 0).switch (by decide +kernel) (by decide +kernel) (by decide +kernel)
      (by decide +kernel)
  have h8 : Run mips32r1 {counter} raceStart raceLabels race8 := by
    have he : Executes race7.machine .addiu (Inst.ops 0x25080001) := by decide +kernel
    have hp : race7.pending 0 = some linked := by
      simp [race7, race6, race5, race4, race3, race2, race1]
    exact h7.compute rfl hp he (by decide +kernel) increment (by decide +kernel)
  have he : Executes race8.machine .sc (Inst.ops 0xE0880000) := by decide +kernel
  have hp : race8.pending 0 = some computed := by simp [race8]
  exact h8.sc (by decide +kernel) hp he
    ⟨by decide +kernel, by decide +kernel, by decide +kernel⟩ rfl (by decide +kernel)

end Race

/-! ## Atomicity -/

theorem add_ofNat_inj {m n : Nat} (v : Word) (hn : n < 2 ^ 32) (hm : m ≤ n)
    (h : v + BitVec.ofNat 32 m = v + BitVec.ofNat 32 n) : m = n := by
  have h' := congrArg BitVec.toNat (BitVec.add_right_inj v |>.1 h)
  rw [BitVec.toNat_ofNat, BitVec.toNat_ofNat, Nat.mod_eq_of_lt hn,
    Nat.mod_eq_of_lt (Nat.lt_of_le_of_lt hm hn)] at h'
  exact h'

theorem iterate_increment (v : Word) (n : Nat) :
    increment^[n] v = v + BitVec.ofNat 32 n := by
  induction n with
  | zero => exact (BitVec.add_zero v).symm
  | succ n ih =>
    rw [Function.iterate_succ_apply', ih, increment, BitVec.add_assoc]
    exact congrArg (v + ·) (BitVec.ofNat_add n 1).symm

/-- Every `sc` reports success. Where no other thread stores to a word between an `ll` and its
    `sc`, the updates of the word take effect one after the other; of increments all show if
    and only if this is so. -/
theorem llSc_spec {P : Platform D} (hi : P.cfg.intr = true) {bases : List (DevName × Word)}
    (hb : P.board.Realizes bases) {W : Set RamWord} {T₀ T : Threads D} {ls : List Label}
    (h0 : Start T₀) (h : Run P W T₀ ls T) :
    (∀ t w g rt, Label.sc t w g rt ∈ ls → rt = 1) ∧
    ∀ w ∈ W,
      (AtomicAt w (history ls) → T.machine.ram.word w =
        (stores w (history ls)).foldr (fun g v => g v) (T₀.machine.ram.word w)) ∧
      ((∀ g ∈ stores w (history ls), g = increment) →
        (AtomicAt w (history ls) → T.machine.ram.word w =
          T₀.machine.ram.word w + BitVec.ofNat 32 (stores w (history ls)).length) ∧
        ((stores w (history ls)).length < 2 ^ 32 → T.machine.ram.word w =
          T₀.machine.ram.word w + BitVec.ofNat 32 (stores w (history ls)).length →
          AtomicAt w (history ls))) := by
  have hx : P.cfg.exception = true := by
    unfold Config.intr at hi
    unfold Config.exception
    rw [eq_of_beq hi]
    rfl
  have hr := refines_run hx hb h0 h
  refine ⟨hr.success, fun w hw => ⟨fun ha => ?_, fun hg => ?_⟩⟩
  · rw [hr.mem w hw]
    exact mem_of_atomicAt hr.sequenced ha
  · obtain ⟨c, hc, hv, hat⟩ := mem_iterate (s := T₀.state) hr.sequenced hg
    rw [← hr.mem w hw, iterate_increment] at hv
    refine ⟨fun ha => ?_, fun hn he => hat.1 ?_⟩
    · rw [← hat.2 ha]
      exact hv
    · exact add_ofNat_inj _ hn hc (hv.symm.trans he)

/-- Thread 1 increments the counter while thread 0 is between its `ll` and its `sc`. -/
theorem llSc_spec_race :
    race6.machine.ram.word counter = raceStart.machine.ram.word counter + BitVec.ofNat 32 1 := by
  have h := llSc_spec rfl ramBoard_realizes start_race run_race6
  have hat : AtomicAt counter (history raceLabels) :=
    ⟨fun _ => .inl rfl, trivial⟩
  exact ((h.2 counter (Set.mem_singleton _)).2 fun g hg => List.mem_singleton.1 hg).1 hat

/-- No thread overwrites what another has stored since its `ll`. -/
def Atomic (P : Platform D) (W : Set RamWord) (T₀ : Threads D) : Prop :=
  ∀ ls T, Run P W T₀ ls T → ∀ w ∈ W, AtomicAt w (history ls)

/-- `n` increments raise a word by `n`. -/
def Exact (P : Platform D) (W : Set RamWord) (T₀ : Threads D) : Prop :=
  ∀ ls T, Run P W T₀ ls T → ∀ w ∈ W, (∀ g ∈ stores w (history ls), g = increment) →
    T.machine.ram.word w =
      T₀.machine.ram.word w + BitVec.ofNat 32 (stores w (history ls)).length

/-- Both threads have incremented the counter and both `sc` reported success, but thread 1
    stored between the `ll` and the `sc` of thread 0, and its increment is lost. -/
theorem not_atomic_race : Start raceStart ∧ ¬ Atomic mips32r1 {counter} raceStart ∧
    ¬ Exact mips32r1 {counter} raceStart := by
  refine ⟨start_race, fun h => ?_, fun h => ?_⟩
  · have hat := h _ _ run_race9 counter (Set.mem_singleton _)
    exact absurd ((hat.1 rfl).1 rfl) (by decide)
  · have hinc : ∀ g ∈ [increment ∘ id, increment ∘ id], g = increment := by
      intro g hg
      obtain rfl | hg := List.mem_cons.1 hg
      · rfl
      · exact List.mem_singleton.1 hg
    have hlost : race9.machine.ram.word counter =
        raceStart.machine.ram.word counter + 1 := by decide +kernel
    have hsum := h _ _ run_race9 counter (Set.mem_singleton _) hinc
    exact absurd (hlost.symm.trans hsum) (by decide +kernel)

end LlSc

end NemuMips32
