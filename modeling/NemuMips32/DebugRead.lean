/-
  What a read by the debugger leaves behind. `dbg_vaddr_read` suppresses the exceptions of the
  translation, but then calls the `read` member of the device, not its `peek`: a read of the
  receive register of the UART takes the character and lowers its line, a read of the SPI
  controller takes a byte and settles the interrupt state, a read of the keyboard moves a key
  into the queue.

  `Harmless` says for every device which reads return and leave it alone, and `debug_read`
  that exactly those reads of the debugger leave the machine alone. What the debugger reads
  from RAM is what a load of the CPU reads unless the load goes through a page that the MMU
  cache has kept for too long.
-/
import NemuMips32.Gdb
import NemuMips32.HostPage
import NemuMips32.MmuTransparency
import NemuMips32.Spi
import NemuMips32.Ulite

namespace NemuMips32

open StateExcept

variable {D F : Type}

/-! ## The devices -/

def NEMU_KEYBOARD_CODE : Word := 0x0
def NEMU_KEYBOARD_STAT : Word := 0x4
def NEMU_KEYBOARD_SIZE : Word := 0x10

/-- The queue of the keyboard, and the key events that SDL still holds, as scancodes. -/
structure Keyboard where
  queue : Fifo Word 1024
  events : List Word

namespace Keyboard

/-- `nemu_keyboard_update_irq`. -/
def updateIrq (k : Keyboard) : Keyboard :=
  match k.events with
  | [] => k
  | scancode :: events => { queue := k.queue.push scancode, events }

/-- `nemu_keyboard_rp`. -/
def rp (addr : Word) (len : Nat) (pollData : Bool) (k : Keyboard) :
    Except Halt (Word × Keyboard) :=
  if !checkIoaddr addr len NEMU_KEYBOARD_SIZE then .error .cpuAssert
  else if addr = NEMU_KEYBOARD_STAT then
    .ok (if k.updateIrq.queue.isEmpty then 0 else 1, k.updateIrq)
  else if addr = NEMU_KEYBOARD_CODE then
    if pollData then
      .ok (k.updateIrq.queue.pop.1, { k.updateIrq with queue := k.updateIrq.queue.pop.2 })
    else .ok (k.updateIrq.queue.top, k.updateIrq)
  else .error .cpuAssert

/-- `nemu_keyboard_read`. -/
def read (addr : Word) (len : Nat) (k : Keyboard) : Except Halt (Word × Keyboard) :=
  k.rp addr len true

end Keyboard

/-- The SPI controller without the interrupt lines. -/
structure SpiDev (F : Type) where
  flash : F
  regs : SpiReg → Word
  tx : Fifo (BitVec 8) 1024
  rx : Fifo (BitVec 8) 1024

def SpiDev.onLines (d : SpiDev F) (ip : BitVec 8) : Spi F := ⟨d.flash, d.regs, d.tx, d.rx, ip⟩

def Spi.toDev (s : Spi F) : SpiDev F := ⟨s.flash, s.regs, s.tx, s.rx⟩

/-- The devices behind the memory map. `now` is what `get_current_time` returns, `pixels` the
    surface of SDL, `diskSize` the size of the disk's file, and `elite` the register file of
    the network card as an array of words. -/
structure Peripherals (F : Type) where
  keyboard : Keyboard
  now : BitVec 64
  pixels : Option (Word → BitVec 8)
  diskSize : Word
  ulite : Ulite
  spi : SpiDev F
  elite : Word → Word

def SCR_W : Word := 400
def SCR_H : Word := 300
def WINDOW_W : Word := SCR_W * 2
def WINDOW_H : Word := SCR_H * 2
def VMEM_SIZE : Word := WINDOW_H * WINDOW_W
def NEMUDISK_SIZE : Word := 256 * 1024 * 1024
def ND_LEN_SR : Word := 8

namespace Peripherals

/-- `nemu_clock_read`. -/
def nemuClockRead (addr : Word) (len : Nat) (d : Peripherals F) : Except Halt Word :=
  if checkIoaddr addr len DevName.nemuClock.size then .ok ((d.now / 1000).setWidth 32)
  else .error .cpuAssert

/-- `screen_read`. -/
def screenRead (addr : Word) (_len : Nat) (_d : Peripherals F) : Except Halt Word :=
  if addr = 0 then .ok ((SCR_W <<< 16) + SCR_H) else .error .assert

def getX (addr : Word) : Word := (addr / 4) % SCR_W

def getY (addr : Word) : Word := (addr / 4) / SCR_W

/-- `nemu_vga_read`. -/
def nemuVgaRead (addr : Word) (len : Nat) (d : Peripherals F) : Except Halt Word :=
  if !checkIoaddr addr len VMEM_SIZE then .error .cpuAssert
  else
    match d.pixels with
    | none => .error .assert
    | some ptr =>
      if getX addr < SCR_W ∧ getY addr < SCR_H then
        .ok (loadBytes ptr
          ((2 * getY addr * WINDOW_W + 2 * getX addr) * 4 + addr % 4) len)
      else .error .assert

/-- `nemudisk_read`. -/
def nemudiskRead (addr : Word) (len : Nat) (d : Peripherals F) : Except Halt Word :=
  if !checkIoaddr addr len NEMUDISK_SIZE then .error .cpuAssert
  else .ok (if addr = ND_LEN_SR then d.diskSize else 0)

/-- The cases of the `switch` of `xlnx_elite_read`. -/
def EliteReadable (addr : Word) : Prop :=
  addr = 0x7fc ∨ addr = 0xffc ∨ (0x1000 ≤ addr ∧ addr ≤ 0x17f8) ∨
    (0x1800 ≤ addr ∧ addr ≤ 0x1ff8) ∨ addr = 0x17fc ∨ addr = 0x1ffc ∨ addr = 0x7ec ∨
    addr = 0x7f0

instance (addr : Word) : Decidable (EliteReadable addr) := by
  unfold EliteReadable
  infer_instance

/-- `xlnx_elite_read`; the offset of a register in `struct emaclite_regs` is its address. -/
def xlnxEliteRead (addr : Word) (_len : Nat) (d : Peripherals F) : Except Halt Word :=
  if EliteReadable addr then .ok (d.elite (addr / 4)) else .error .cpuAssert

/-- A `read` member that changes nothing. -/
def looks (f : Word → Nat → Peripherals F → Except Halt Word) (addr : Word) (len : Nat)
    (x : DevCtx (Peripherals F)) : Except Halt (Word × DevCtx (Peripherals F)) :=
  (f addr len x.dev).map fun v => (v, x)

def keyboardRead (addr : Word) (len : Nat) (x : DevCtx (Peripherals F)) :
    Except Halt (Word × DevCtx (Peripherals F)) :=
  (x.dev.keyboard.read addr len).map fun r =>
    (r.1, { x with dev := { x.dev with keyboard := r.2 } })

def uliteRead (addr : Word) (len : Nat) (x : DevCtx (Peripherals F)) :
    Except Halt (Word × DevCtx (Peripherals F)) :=
  (Ulite.read addr len { dev := x.dev.ulite, ip := x.ip, nemuState := x.nemuState }).map fun r =>
    (r.1, { dev := { x.dev with ulite := r.2.dev }, ip := r.2.ip, nemuState := r.2.nemuState })

def spiRead (addr : Word) (_len : Nat) (x : DevCtx (Peripherals F)) :
    Except Halt (Word × DevCtx (Peripherals F)) :=
  let r := (x.dev.spi.onLines x.ip).read addr
  .ok (r.1, { x with dev := { x.dev with spi := r.2.toDev }, ip := r.2.ip })

/-- The `read` members of the devices. Those of the two RAMs and of the black hole are part of
    `Platform.devRead`; the trap and the PMU have none. -/
def read : DevName →
    Option (Word → Nat → DevCtx (Peripherals F) → Except Halt (Word × DevCtx (Peripherals F)))
  | .nemuKeyboard => some keyboardRead
  | .nemuClock => some (looks nemuClockRead)
  | .nemuVgaCtrl => some (looks screenRead)
  | .nemuVga => some (looks nemuVgaRead)
  | .nemuDisk => some (looks nemudiskRead)
  | .xlnxUlite => some uliteRead
  | .xlnxSpi => some spiRead
  | .xlnxElite => some (looks xlnxEliteRead)
  | .bram | .ddr | .blackhole | .nemuTrap | .nemuPmu => none

end Peripherals

/-! ## Harmless reads -/

/-- No key waits in SDL, and either STAT is read or there is no key to take. -/
def Keyboard.Harmless (addr : Word) (len : Nat) (k : Keyboard) : Prop :=
  checkIoaddr addr len NEMU_KEYBOARD_SIZE = true ∧ k.events = [] ∧
    (addr = NEMU_KEYBOARD_STAT ∨ addr = NEMU_KEYBOARD_CODE ∧ k.queue.toList = [])

/-- STAT or CTRL is read, or there is no character to take and no line to lower. -/
def Ulite.Harmless (addr : Word) (len : Nat) (x : DevCtx Ulite) : Prop :=
  checkIoaddr addr len XLNX_ULITE_SIZE = true ∧
    (addr = UliteReg.STAT ∨ addr = UliteReg.CTRL ∨
      addr = UliteReg.Rx ∧ x.dev.q.toList = [] ∧ Ulite.line x = false)

/-- `xlnx_spi_update_irq` has nothing to do. -/
structure Spi.Settled (s : Spi F) : Prop where
  ipisr : s.regs .IPISR ||| s.rxIrqs = s.regs .IPISR
  line : s.ip.getLsbD XLNX_SPI_IRQ_NO = s.pending

/-- There is no byte to take, or another register is read and its interrupts are settled. -/
def Spi.Harmless (addr : Word) (s : Spi F) : Prop :=
  if addr >>> 2 = 0x6C / 4 then s.rx.toList = [] else s.Settled

/-- The read of `len` bytes at offset `addr` of the device returns and leaves it alone. -/
def Harmless (d : DevName) (addr : Word) (len : Nat) (x : DevCtx (Peripherals F)) : Prop :=
  match d with
  | .bram => checkIoaddr addr len Ram.bram.size = true
  | .ddr => checkIoaddr addr len Ram.ddr.size = true
  | .blackhole | .nemuTrap | .nemuPmu => True
  | .nemuKeyboard => x.dev.keyboard.Harmless addr len
  | .nemuClock => checkIoaddr addr len DevName.nemuClock.size = true
  | .nemuVgaCtrl => addr = 0
  | .nemuVga =>
    checkIoaddr addr len VMEM_SIZE = true ∧ x.dev.pixels.isSome = true ∧
      Peripherals.getX addr < SCR_W ∧ Peripherals.getY addr < SCR_H
  | .nemuDisk => checkIoaddr addr len NEMUDISK_SIZE = true
  | .xlnxUlite =>
    Ulite.Harmless addr len { dev := x.dev.ulite, ip := x.ip, nemuState := x.nemuState }
  | .xlnxSpi => (x.dev.spi.onLines x.ip).Harmless addr
  | .xlnxElite => Peripherals.EliteReadable addr

section Devices

variable {addr : Word} {len : Nat}

theorem getLsbD_setIrq {irqno : Nat} (b : Bool) (ip : BitVec 8) {i : Nat} (hi : i < 8) :
    (setIrq irqno b ip).getLsbD i = if irqno = i then b else ip.getLsbD i := by
  have hone : (1#8 <<< irqno).getLsbD i = decide (irqno = i) := by
    rw [← BitVec.twoPow_eq, BitVec.getLsbD_twoPow]
    by_cases h : irqno = i
    · rw [h, decide_eq_true hi, Bool.true_and]
    · rw [decide_eq_false h, Bool.and_false]
  cases b with
  | false =>
    show (ip &&& ~~~(1#8 <<< irqno)).getLsbD i = _
    rw [BitVec.getLsbD_and, BitVec.getLsbD_not, hone, decide_eq_true hi]
    by_cases h : irqno = i <;> simp [h]
  | true =>
    show (ip ||| (1#8 <<< irqno)).getLsbD i = _
    rw [BitVec.getLsbD_or, hone]
    by_cases h : irqno = i <;> simp [h]

theorem setIrq_eq_self {irqno : Nat} (hi : irqno < 8) (b : Bool) (ip : BitVec 8) :
    setIrq irqno b ip = ip ↔ ip.getLsbD irqno = b := by
  constructor
  · intro h
    rw [← h, getLsbD_setIrq b ip hi, if_pos rfl]
  · intro h
    apply BitVec.eq_of_getLsbD_eq
    intro i hi'
    rw [getLsbD_setIrq b ip hi']
    split
    · rename_i he
      rw [← he, h]
    · rfl

theorem Keyboard.updateIrq_eq_self (k : Keyboard) : k.updateIrq = k ↔ k.events = [] := by
  unfold Keyboard.updateIrq
  cases he : k.events with
  | nil => simp
  | cons c es =>
    simp only [reduceCtorEq, iff_false]
    intro h
    have := congrArg Keyboard.events h
    rw [he] at this
    exact List.cons_ne_self c es this.symm

/-- Taking a key shows unless there is none: with one waiting in SDL, SDL has one less. -/
theorem Keyboard.take_eq_self (k : Keyboard) :
    ({ queue := k.updateIrq.queue.pop.2, events := k.updateIrq.events } : Keyboard) = k ↔
      k.events = [] ∧ k.queue.toList = [] := by
  constructor
  · intro h
    have he : k.updateIrq.events = k.events := congrArg (fun k' => k'.events) h
    have hu : k.events = [] := by
      unfold Keyboard.updateIrq at he
      cases hes : k.events with
      | nil => rfl
      | cons c es =>
        rw [hes] at he
        exact absurd he.symm (List.cons_ne_self c es)
    refine ⟨hu, ?_⟩
    rw [k.updateIrq_eq_self.2 hu] at h
    exact Fifo.pop_eq_self.1 (congrArg Keyboard.queue h)
  · intro ⟨hu, hq⟩
    rw [k.updateIrq_eq_self.2 hu, Fifo.pop_of_empty hq]

theorem keyboard_harmless (k : Keyboard) :
    (∃ v, k.read addr len = .ok (v, k)) ↔ k.Harmless addr len := by
  unfold Keyboard.read Keyboard.rp Keyboard.Harmless
  by_cases hc : checkIoaddr addr len NEMU_KEYBOARD_SIZE = true
  · simp only [hc, Bool.not_true, Bool.false_eq_true, if_false, if_true, true_and]
    by_cases hs : addr = NEMU_KEYBOARD_STAT
    · have hne : NEMU_KEYBOARD_STAT ≠ NEMU_KEYBOARD_CODE := by decide
      simp [hs, ← k.updateIrq_eq_self]
    · by_cases hd : addr = NEMU_KEYBOARD_CODE
      · have hne : NEMU_KEYBOARD_CODE ≠ NEMU_KEYBOARD_STAT := by decide
        simp [hd, hne, ← k.take_eq_self]
      · simp [hs, hd]
  · simp [hc]

theorem ulite_harmless (x : DevCtx Ulite) :
    (∃ v, Ulite.read addr len x = .ok (v, x)) ↔ Ulite.Harmless addr len x := by
  unfold Ulite.read Ulite.Harmless
  by_cases hc : checkIoaddr addr len XLNX_ULITE_SIZE = true
  · simp only [hc, Bool.not_true, Bool.false_eq_true, if_false, true_and]
    by_cases hr : addr = UliteReg.Rx
    · have hstat : UliteReg.Rx ≠ UliteReg.STAT := by decide
      have hctrl : UliteReg.Rx ≠ UliteReg.CTRL := by decide
      rw [← Fifo.pop_eq_self, Ulite.line, ← setIrq_eq_self (by decide)]
      simp only [hr, if_true, hstat, hctrl, false_or, true_and]
      constructor
      · rintro ⟨v, h⟩
        have hx := (Prod.mk.inj (Except.ok.inj h)).2
        exact ⟨congrArg (fun y => y.dev.q) hx, congrArg DevCtx.ip hx⟩
      · rintro ⟨hq, hip⟩
        rw [hq, hip]
        exact ⟨_, rfl⟩
    · rw [if_neg hr]
      simp only [Ulite.peek, hr, if_false, false_and, or_false]
      by_cases hs : addr = UliteReg.STAT
      · simp [hs, Except.map]
      · by_cases hl : addr = UliteReg.CTRL
        · rw [if_neg hs, if_pos hl]
          exact iff_of_true ⟨_, rfl⟩ (.inr hl)
        · simp [hs, hl, Except.map]
  · simp [hc]

theorem setIrq_setIrq {irqno : Nat} (b b' : Bool) (ip : BitVec 8) :
    setIrq irqno b (setIrq irqno b' ip) = setIrq irqno b ip := by
  apply BitVec.eq_of_getLsbD_eq
  intro i hi
  rw [getLsbD_setIrq b _ hi, getLsbD_setIrq b' ip hi, getLsbD_setIrq b ip hi]
  split <;> rfl

theorem updateIrq_ipisr (s : Spi F) :
    s.updateIrq.regs .IPISR = s.regs .IPISR ||| s.rxIrqs := by
  simp only [Spi.updateIrq]
  split <;> simp [Spi.raise, Spi.set, Spi.rxIrqs]

theorem updateIrq_of_ipisr {s : Spi F} (h : s.regs .IPISR ||| s.rxIrqs = s.regs .IPISR) :
    s.updateIrq = { s with ip := setIrq XLNX_SPI_IRQ_NO s.pending s.ip } := by
  have hraise (ip : BitVec 8) :
      ({ s with ip := ip } : Spi F).raise .IPISR s.rxIrqs = { s with ip := ip } := by
    simp only [Spi.raise, Spi.set, h, Function.update_eq_self]
  have hp : ({ s with ip := setIrq XLNX_SPI_IRQ_NO false s.ip } : Spi F).pending = s.pending := rfl
  have hirqs : ({ s with ip := setIrq XLNX_SPI_IRQ_NO false s.ip } : Spi F).rxIrqs = s.rxIrqs := rfl
  simp only [Spi.updateIrq, hirqs, hraise, hp]
  cases s.pending with
  | false => rfl
  | true => simp only [if_true, setIrq_setIrq]

theorem updateIrq_eq_self (s : Spi F) : s.updateIrq = s ↔ s.Settled := by
  constructor
  · intro h
    have hr : s.regs .IPISR ||| s.rxIrqs = s.regs .IPISR := by
      rw [← updateIrq_ipisr, h]
    rw [updateIrq_of_ipisr hr] at h
    exact ⟨hr, (setIrq_eq_self (by decide) _ _).1 (congrArg Spi.ip h)⟩
  · intro ⟨hr, hl⟩
    rw [updateIrq_of_ipisr hr, (setIrq_eq_self (by decide) _ _).2 hl]

theorem spi_harmless (s : Spi F) : (s.read addr).2 = s ↔ s.Harmless addr := by
  unfold Spi.read Spi.Harmless
  by_cases hd : addr >>> 2 = 0x6C / 4
  · rw [if_pos hd, if_pos hd]
    by_cases he : s.rx.isEmpty = true
    · rw [if_pos he]
      exact iff_of_true rfl (Fifo.isEmpty_iff.1 he)
    · rw [if_neg he]
      refine iff_of_false (fun h => ?_) (fun h => he (Fifo.isEmpty_iff.2 h))
      have hpop : s.takeRx.2.updateIrq.rx = s.rx := congrArg Spi.rx h
      rw [(Spi.sameStatus_updateIrq s.takeRx.2).rx] at hpop
      have hrx : s.takeRx.2.rx = s.rx.pop.2 := by
        simp only [Spi.takeRx]
        split <;> rfl
      rw [hrx, Fifo.pop_eq_self] at hpop
      exact he (Fifo.isEmpty_iff.2 hpop)
  · rw [if_neg hd, if_neg hd, ← updateIrq_eq_self]
    split <;> rfl

end Devices

/-! ## The debugger's read -/

/-- `dbg_vaddr_read` behind `find_device`. -/
def dbgReadDev (P : Platform D) (d : DevName) (off : Word) (len : Nat) : Exec D Word :=
  match P.devRead d with
  | none => pure 0
  | some read => read off len

/-- `dbg_vaddr_read` behind the translation. -/
def dbgReadPaddr (P : Platform D) (p : Word) (len : Nat) : Exec D Word :=
  match P.findDevice p with
  | none => pure 0
  | some dev => dbgReadDev P dev.name (p - dev.start) len

/-- With its exceptions suppressed, a translation that faults ends in the black hole. -/
theorem dbgVaddrRead_eq (P : Platform D) (a : Word) (len : Nat) (s : Machine D) :
    dbgVaddrRead P a len s =
      match P.translate s.toArch a .load with
      | .ok p _ => dbgReadPaddr P p len s
      | .fault _ => .ok 0 s
      | .abort why => .error (.halt why) s := by
  simp only [dbgVaddrRead, bind_apply, protAddrWithAttr_eq]
  cases P.translate s.toArch a .load with
  | ok p d => rfl
  | fault f =>
    show dbgReadPaddr P blackholeDev.start len s = .ok 0 s
    unfold dbgReadPaddr
    rw [findDevice_blackholeStart]
    rfl
  | abort why => rfl

/-- The read of the debugger returns and leaves everything alone: the translation meets no bad
    page mask, and the device it leads to, if any, is read without harm. -/
def HarmlessAt (P : Platform (Peripherals F)) (s : Machine (Peripherals F)) (a : Word)
    (len : Nat) : Prop :=
  match P.translate s.toArch a .load with
  | .ok p _ => ∀ dev, P.findDevice p = some dev → Harmless dev.name (p - dev.start) len s.devCtx
  | .fault _ => True
  | .abort _ => False

theorem putDev_eq_self (s : Machine D) (x : DevCtx D) :
    ({ s with toArch := s.putDev x } : Machine D) = s ↔ x = s.devCtx := by
  constructor
  · intro h
    have hx : ({ s with toArch := s.putDev x } : Machine D).devCtx = x := rfl
    rw [← hx, h]
  · intro h
    rw [h]
    rfl

theorem mmioRead_unchanged {f : Word → Nat → DevCtx D → Except Halt (Word × DevCtx D)}
    {off : Word} {len : Nat} {s : Machine D} :
    (∃ v, mmioRead f off len s = .ok v s) ↔ ∃ v, f off len s.devCtx = .ok (v, s.devCtx) := by
  unfold mmioRead
  cases h : f off len s.devCtx with
  | ok r =>
    constructor
    · intro ⟨v, hv⟩
      obtain ⟨-, hs⟩ := EStateM.Result.ok.inj hv
      rw [putDev_eq_self] at hs
      exact ⟨r.1, by rw [← hs]⟩
    · intro ⟨v, hv⟩
      obtain rfl := Except.ok.inj hv
      exact ⟨v, congrArg (EStateM.Result.ok v) ((putDev_eq_self s _).2 rfl)⟩
  | error e =>
    constructor
    · intro ⟨v, hv⟩
      cases hv
    · intro ⟨v, hv⟩
      cases hv

theorem ramRead_unchanged {r : Ram} {off : Word} {len : Nat} {s : Machine D} :
    (∃ v, ramRead r off len s = .ok v s) ↔ checkIoaddr off len r.size = true := by
  by_cases hc : checkIoaddr off len r.size = true
  · refine iff_of_true ⟨loadBytes (s.ram r) off len, ?_⟩ hc
    simp only [ramRead, hc]
    rfl
  · refine iff_of_false ?_ hc
    rintro ⟨v, h⟩
    simp only [ramRead, hc] at h
    cases h

theorem looks_unchanged {f : Word → Nat → Peripherals F → Except Halt Word} {off : Word}
    {len : Nat} {x : DevCtx (Peripherals F)} :
    (∃ v, Peripherals.looks f off len x = .ok (v, x)) ↔ ∃ v, f off len x.dev = .ok v := by
  unfold Peripherals.looks
  cases f off len x.dev <;> simp [Except.map]

theorem nemuClockRead_ok {off : Word} {len : Nat} {d : Peripherals F} :
    (∃ v, d.nemuClockRead off len = .ok v) ↔ checkIoaddr off len DevName.nemuClock.size = true := by
  unfold Peripherals.nemuClockRead
  split <;> simp [*]

theorem screenRead_ok {off : Word} {len : Nat} {d : Peripherals F} :
    (∃ v, d.screenRead off len = .ok v) ↔ off = 0 := by
  unfold Peripherals.screenRead
  by_cases h : off = 0
  · exact iff_of_true ⟨_, if_pos h⟩ h
  · rw [if_neg h]
    simp only [reduceCtorEq, exists_false, h]

theorem nemuVgaRead_ok {off : Word} {len : Nat} {d : Peripherals F} :
    (∃ v, d.nemuVgaRead off len = .ok v) ↔
      checkIoaddr off len VMEM_SIZE = true ∧ d.pixels.isSome = true ∧
        Peripherals.getX off < SCR_W ∧ Peripherals.getY off < SCR_H := by
  unfold Peripherals.nemuVgaRead
  by_cases hc : checkIoaddr off len VMEM_SIZE = true
  · cases d.pixels with
    | none => simp [hc]
    | some ptr =>
      by_cases h : Peripherals.getX off < SCR_W ∧ Peripherals.getY off < SCR_H
      · simp [hc, h]
      · simp only [hc, h]
        simp
  · simp [hc]

theorem nemudiskRead_ok {off : Word} {len : Nat} {d : Peripherals F} :
    (∃ v, d.nemudiskRead off len = .ok v) ↔ checkIoaddr off len NEMUDISK_SIZE = true := by
  unfold Peripherals.nemudiskRead
  by_cases hc : checkIoaddr off len NEMUDISK_SIZE = true <;> simp [hc]

theorem xlnxEliteRead_ok {off : Word} {len : Nat} {d : Peripherals F} :
    (∃ v, d.xlnxEliteRead off len = .ok v) ↔ Peripherals.EliteReadable off := by
  unfold Peripherals.xlnxEliteRead
  split <;> simp [*]

theorem keyboardRead_unchanged {off : Word} {len : Nat} {x : DevCtx (Peripherals F)} :
    (∃ v, Peripherals.keyboardRead off len x = .ok (v, x)) ↔
      x.dev.keyboard.Harmless off len := by
  rw [← keyboard_harmless]
  unfold Peripherals.keyboardRead
  cases h : x.dev.keyboard.read off len with
  | error e => simp [Except.map]
  | ok r =>
    constructor
    · intro ⟨v, hv⟩
      have hx := (Prod.mk.inj (Except.ok.inj hv)).2
      have hk : r.2 = x.dev.keyboard := congrArg (fun y => y.dev.keyboard) hx
      exact ⟨r.1, by rw [← hk]⟩
    · intro ⟨v, hv⟩
      obtain rfl := Except.ok.inj hv
      exact ⟨v, rfl⟩

theorem uliteRead_unchanged {off : Word} {len : Nat} {x : DevCtx (Peripherals F)} :
    (∃ v, Peripherals.uliteRead off len x = .ok (v, x)) ↔
      Ulite.Harmless off len { dev := x.dev.ulite, ip := x.ip, nemuState := x.nemuState } := by
  rw [← ulite_harmless]
  unfold Peripherals.uliteRead
  cases h : Ulite.read off len { dev := x.dev.ulite, ip := x.ip, nemuState := x.nemuState } with
  | error e => simp [Except.map]
  | ok r =>
    constructor
    · intro ⟨v, hv⟩
      have hx := (Prod.mk.inj (Except.ok.inj hv)).2
      have hr : r.2 = { dev := x.dev.ulite, ip := x.ip, nemuState := x.nemuState } := by
        rw [← hx]
      exact ⟨r.1, by rw [← hr]⟩
    · intro ⟨v, hv⟩
      obtain rfl := Except.ok.inj hv
      exact ⟨v, rfl⟩

theorem spiRead_unchanged {off : Word} {len : Nat} {x : DevCtx (Peripherals F)} :
    (∃ v, Peripherals.spiRead off len x = .ok (v, x)) ↔
      (x.dev.spi.onLines x.ip).Harmless off := by
  rw [← spi_harmless]
  constructor
  · intro ⟨v, hv⟩
    have hx := (Prod.mk.inj (Except.ok.inj hv)).2
    conv_rhs => rw [← hx]
    rfl
  · intro h
    refine ⟨((x.dev.spi.onLines x.ip).read off).1, ?_⟩
    simp only [Peripherals.spiRead, h]
    rfl

/-- The devices other than the two RAMs. -/
theorem dbgReadDev_of_not_ram {P : Platform D} {d : DevName} (hd : d.ram = none) (off : Word)
    (len : Nat) : dbgReadDev P d off len =
      if d = .blackhole then pure 0
      else (P.mmio.read d).elim (pure 0) fun f => mmioRead f off len := by
  unfold dbgReadDev Platform.devRead
  rw [hd]
  by_cases hb : d = .blackhole
  · simp only [hb, if_true]
  · simp only [hb, if_false]
    cases P.mmio.read d <;> rfl

section Unchanged

variable {P : Platform (Peripherals F)} (hP : P.mmio.read = Peripherals.read)
include hP

/-- A read behind `find_device`, device by device. -/
theorem dbgReadDev_unchanged (d : DevName) (off : Word) (len : Nat)
    (s : Machine (Peripherals F)) :
    (∃ v, dbgReadDev P d off len s = .ok v s) ↔ Harmless d off len s.devCtx := by
  have hmmio {f : Word → Nat → DevCtx (Peripherals F) →
      Except Halt (Word × DevCtx (Peripherals F))}
      (hr : d.ram = none) (hb : d ≠ .blackhole) (hf : Peripherals.read d = some f) :
      (∃ v, dbgReadDev P d off len s = .ok v s) ↔ ∃ v, f off len s.devCtx = .ok (v, s.devCtx) := by
    rw [dbgReadDev_of_not_ram hr, if_neg hb, hP, hf]
    exact mmioRead_unchanged
  have hnone (hr : d.ram = none) (hb : d ≠ .blackhole)
      (hf : Peripherals.read (F := F) d = none) : ∃ v, dbgReadDev P d off len s = .ok v s := by
    rw [dbgReadDev_of_not_ram hr, if_neg hb, hP, hf]
    exact ⟨0, rfl⟩
  cases d with
  | bram => exact ramRead_unchanged
  | ddr => exact ramRead_unchanged
  | blackhole => exact iff_of_true ⟨0, rfl⟩ trivial
  | nemuTrap => exact iff_of_true (hnone rfl (by decide) rfl) trivial
  | nemuPmu => exact iff_of_true (hnone rfl (by decide) rfl) trivial
  | nemuKeyboard => exact (hmmio rfl (by decide) rfl).trans keyboardRead_unchanged
  | nemuClock =>
    exact (hmmio rfl (by decide) rfl).trans (looks_unchanged.trans nemuClockRead_ok)
  | nemuVgaCtrl =>
    exact (hmmio rfl (by decide) rfl).trans (looks_unchanged.trans screenRead_ok)
  | nemuVga =>
    exact (hmmio rfl (by decide) rfl).trans (looks_unchanged.trans nemuVgaRead_ok)
  | nemuDisk =>
    exact (hmmio rfl (by decide) rfl).trans (looks_unchanged.trans nemudiskRead_ok)
  | xlnxUlite => exact (hmmio rfl (by decide) rfl).trans uliteRead_unchanged
  | xlnxSpi => exact (hmmio rfl (by decide) rfl).trans spiRead_unchanged
  | xlnxElite =>
    exact (hmmio rfl (by decide) rfl).trans (looks_unchanged.trans xlnxEliteRead_ok)

theorem dbgVaddrRead_unchanged (s : Machine (Peripherals F)) (a : Word) (len : Nat) :
    (∃ v, dbgVaddrRead P a len s = .ok v s) ↔ HarmlessAt P s a len := by
  rw [dbgVaddrRead_eq]
  unfold HarmlessAt
  cases P.translate s.toArch a .load with
  | ok p d =>
    simp only [dbgReadPaddr]
    cases P.findDevice p with
    | none => simp
    | some dev => simp [dbgReadDev_unchanged hP]
  | fault f => simp
  | abort why => simp

end Unchanged

/-! ## Loads from RAM -/

/-- The load of the CPU goes to RAM, raises no exception and gives `v`. -/
def Machine.LoadsRam (P : Platform D) (s : Machine D) (a : Word) (len : Nat) (v : Word) : Prop :=
  (s.hostPage P .load a).isSome = true ∧
    ∃ t, vaddrRead P a len s = .ok v t ∧ t.raised = s.raised

/-- What the CPU would load from RAM is what the debugger reads. -/
def ReadsLikeLoad (P : Platform D) (s : Machine D) (a : Word) (len : Nat) : Prop :=
  ∀ v, s.LoadsRam P a len v → dbgVaddrRead P a len s = .ok v s

/-- A cached page that the load can use is the page that the TLB gives. -/
def CurrentPage (P : Platform D) (s : Machine D) (a : Word) (len : Nat) : Prop :=
  s.cached P .load a →
    (∃ r base, (s.mmuCache (mmuCacheIndex a)).ptr = some (r, base) ∧
      hostInBounds r (base + (a &&& 0xFFF)) len = true) →
    SameByte P s .load a

theorem devRead_ram {P : Platform D} {d : DevName} {r : Ram} (h : d.ram = some r) :
    P.devRead d = some (ramRead r) := by
  unfold Platform.devRead
  rw [h]

theorem ramRead_ok {r : Ram} {off : Word} {len : Nat} (hc : checkIoaddr off len r.size = true)
    (s : Machine D) : ramRead r off len s = .ok (loadBytes (s.ram r) off len) s := by
  simp only [ramRead, hc]
  rfl

theorem ramRead_eq_ok {r : Ram} {off : Word} {len : Nat} {s t : Machine D} {v : Word}
    (h : ramRead r off len s = .ok v t) :
    checkIoaddr off len r.size = true ∧ v = loadBytes (s.ram r) off len := by
  by_cases hc : checkIoaddr off len r.size = true
  · rw [ramRead_ok hc] at h
    exact ⟨hc, (EStateM.Result.ok.inj h).1.symm⟩
  · simp only [ramRead, hc] at h
    cases h

section Loads

variable {P : Platform D} {s : Machine D} {a : Word} {len : Nat}

theorem dbgVaddrRead_ram {p : Word} {w : Bool} {dev : Device} {r : Ram}
    (ht : P.translate s.toArch a .load = .ok p w) (hd : P.findDevice p = some dev)
    (hr : dev.name.ram = some r) : dbgVaddrRead P a len s = ramRead r (p - dev.start) len s := by
  rw [dbgVaddrRead_eq, ht]
  simp only [dbgReadPaddr, hd, dbgReadDev, devRead_ram hr]

/-- An uncached load from RAM and the read of the debugger end in the same `ramRead`. -/
theorem readsLikeLoad_uncached (hc : ¬ s.cached P .load a) : ReadsLikeLoad P s a len := by
  intro v ⟨hp, t, hv, _⟩
  obtain ⟨⟨r, b⟩, hb⟩ := Option.isSome_iff_exists.1 hp
  obtain ⟨p, w, dev, ht, hd, hr, -⟩ := hostPage_uncached hc hb
  rw [vaddrRead_eq, if_neg hc, ht] at hv
  simp only [readPaddr, hd, devRead_ram hr] at hv
  rw [dbgVaddrRead_ram ht hd hr]
  obtain ⟨mc, hu⟩ | hu := updateMmuCache_cases a p dev w s
  · rw [bind_of_ok hu] at hv
    obtain ⟨hio, rfl⟩ := ramRead_eq_ok hv
    exact ramRead_ok hio s
  · rw [bind_of_error hu] at hv
    cases hv

theorem vaddrRead_cached (hc : s.cached P .load a) {r : Ram} {base : Word}
    (hp : (s.mmuCache (mmuCacheIndex a)).ptr = some (r, base))
    (hio : hostInBounds r (base + (a &&& 0xFFF)) len = true) :
    vaddrRead P a len s = .ok (loadBytes (s.ram r) (base + (a &&& 0xFFF)) len) s := by
  rw [vaddrRead_eq, if_pos hc, hp]
  simp only [hostRead, hio]
  rfl

/-- A load that hits the cache reads the cached page, in bounds. -/
theorem cached_inBounds (hc : s.cached P .load a) {v : Word} {t : Machine D}
    (hv : vaddrRead P a len s = .ok v t) :
    ∃ r base, (s.mmuCache (mmuCacheIndex a)).ptr = some (r, base) ∧
      hostInBounds r (base + (a &&& 0xFFF)) len = true := by
  rw [vaddrRead_eq, if_pos hc] at hv
  cases hp : (s.mmuCache (mmuCacheIndex a)).ptr with
  | none =>
    rw [hp] at hv
    cases hv
  | some x =>
    refine ⟨x.1, x.2, rfl, ?_⟩
    by_contra hio
    rw [hp] at hv
    simp only [hostRead, hio] at hv
    cases hv

theorem raised_fault_ne (f : TlbFault) : s.fault P f a ≠ s := by
  intro h
  have hr : s.raised ++ [_] = s.raised := congrArg (fun t : Machine D => t.raised) h
  simp at hr

theorem sameByte_iff : SameByte P s .load a ↔
    ∃ p w dev r base, P.translate s.toArch a .load = .ok p w ∧ P.findDevice p = some dev ∧
      dev.name.ram = some r ∧ (s.mmuCache (mmuCacheIndex a)).ptr = some (r, base) ∧
      base + (a &&& 0xFFF) = p - dev.start := by
  constructor
  · intro ⟨p, attr, dev, r, base, ht, hd, hr, hp, hx⟩
    rw [protAddrWithAttr_eq] at ht
    cases hv : P.translate s.toArch a .load with
    | ok p' w =>
      rw [hv] at ht
      obtain ⟨he, -⟩ := EStateM.Result.ok.inj ht
      obtain ⟨rfl, -⟩ := Prod.mk.inj he
      exact ⟨p', w, dev, r, base, rfl, hd, hr, hp, hx⟩
    | fault f =>
      rw [hv] at ht
      exact absurd (EStateM.Result.ok.inj ht).2 (raised_fault_ne f)
    | abort why =>
      rw [hv] at ht
      cases ht
  · intro ⟨p, w, dev, r, base, ht, hd, hr, hp, hx⟩
    refine ⟨p, { MmuAttr.init .load true with dirty := w }, dev, r, base, ?_, hd, hr, hp, hx⟩
    rw [protAddrWithAttr_eq, ht]
    rfl

theorem readsLikeLoad_of_current (h : CurrentPage P s a len) : ReadsLikeLoad P s a len := by
  by_cases hc : s.cached P .load a
  · intro v ⟨_, t, hv, _⟩
    obtain ⟨r, base, hp, hio⟩ := cached_inBounds hc hv
    obtain ⟨p, w, dev, r', base', ht, hd, hr, hp', hx⟩ := sameByte_iff.1 (h hc ⟨r, base, hp, hio⟩)
    obtain ⟨rfl, rfl⟩ := Prod.mk.inj (Option.some.inj (hp.symm.trans hp'))
    rw [vaddrRead_cached hc hp hio] at hv
    rw [dbgVaddrRead_ram ht hd hr, ← (EStateM.Result.ok.inj hv).1, hx]
    rw [hx] at hio
    exact ramRead_ok hio s
  · exact readsLikeLoad_uncached hc

/-- A device without an array behind it does not see RAM. -/
theorem dbgReadDev_value {d : DevName} (hd : d.ram = none) {off : Word} {m m' : Memory}
    {v v' : Word} {t t' : Machine D}
    (h : dbgReadDev P d off len { s with ram := m } = .ok v t)
    (h' : dbgReadDev P d off len { s with ram := m' } = .ok v' t') : v = v' := by
  rw [dbgReadDev_of_not_ram hd] at h h'
  by_cases hb : d = .blackhole
  · rw [if_pos hb] at h h'
    exact (EStateM.Result.ok.inj h).1.symm.trans (EStateM.Result.ok.inj h').1
  · rw [if_neg hb] at h h'
    cases hf : P.mmio.read d with
    | none =>
      rw [hf] at h h'
      exact (EStateM.Result.ok.inj h).1.symm.trans (EStateM.Result.ok.inj h').1
    | some f =>
      rw [hf] at h h'
      simp only [Option.elim_some, mmioRead] at h h'
      -- both calls are handed the same context
      have hx : ({ s with ram := m' } : Machine D).devCtx = ({ s with ram := m } : Machine D).devCtx :=
        rfl
      rw [hx] at h'
      cases hr : f off len ({ s with ram := m } : Machine D).devCtx with
      | error e =>
        rw [hr] at h
        cases h
      | ok r =>
        rw [hr] at h h'
        exact (EStateM.Result.ok.inj h).1.symm.trans (EStateM.Result.ok.inj h').1

/-- RAM with one byte set. -/
def oneByte (r : Ram) (x : Word) : Memory := fun r' y => if r' = r ∧ y = x then 1 else 0

/-- If the page is not the one that the TLB gives, there is RAM that tells the difference. -/
theorem current_of_readsLikeLoad (hl : 0 < len) (hl' : len ≤ 4)
    (h : ∀ m, ReadsLikeLoad P { s with ram := m } a len) : CurrentPage P s a len := by
  intro hc ⟨r, base, hp, hio⟩
  generalize hx : base + (a &&& 0xFFF) = x at hio
  have hpage : s.hostPage P .load a = some (r, base) := by
    unfold Machine.hostPage
    rw [if_pos hc, hp]
  have hread (m : Memory) : dbgVaddrRead P a len { s with ram := m } =
      .ok (loadBytes (m r) x len) { s with ram := m } := by
    have hc' : ({ s with ram := m } : Machine D).cached P .load a := hc
    have hload := vaddrRead_cached hc' hp (by rw [hx]; exact hio)
    rw [hx] at hload
    have hpage' : ({ s with ram := m } : Machine D).hostPage P .load a = some (r, base) :=
      (hostPage_congr ⟨rfl, rfl, rfl⟩ .load rfl).trans hpage
    exact h m _ ⟨by rw [hpage']; rfl, _, hload, rfl⟩
  have hbyte (m : Memory) (r' : Ram) (y : Word) : Words.byte (loadBytes (m r') y len) 0 = m r' y := by
    rw [byte_loadBytes _ _ hl' hl]
    exact congrArg (m r') (BitVec.add_zero y)
  have h0 := hread fun _ _ => 0
  have h1 := hread (oneByte r x)
  -- the value cannot be the same in both
  have hne : loadBytes ((fun _ _ => 0 : Memory) r) x len ≠ loadBytes (oneByte r x r) x len := by
    intro he
    have hb : (0 : BitVec 8) = oneByte r x r x := by
      rw [← hbyte (oneByte r x) r x, ← he]
      exact (hbyte (fun _ _ => 0) r x).symm
    simp [oneByte] at hb
  have ht (m : Memory) : P.translate ({ s with ram := m } : Machine D).toArch a .load =
      P.translate s.toArch a .load := rfl
  rw [dbgVaddrRead_eq, ht] at h0 h1
  rw [sameByte_iff]
  cases hv : P.translate s.toArch a .load with
  | abort why =>
    rw [hv] at h0
    cases h0
  | fault f =>
    rw [hv] at h0 h1
    exact absurd ((EStateM.Result.ok.inj h0).1.symm.trans (EStateM.Result.ok.inj h1).1) hne
  | ok p w =>
    rw [hv] at h0 h1
    simp only [dbgReadPaddr] at h0 h1
    cases hd : P.findDevice p with
    | none =>
      rw [hd] at h0 h1
      exact absurd ((EStateM.Result.ok.inj h0).1.symm.trans (EStateM.Result.ok.inj h1).1) hne
    | some dev =>
      rw [hd] at h0 h1
      cases hr : dev.name.ram with
      | none => exact absurd (dbgReadDev_value hr h0 h1) hne
      | some r' =>
        simp only [dbgReadDev, devRead_ram hr] at h1
        have hval := congrArg (fun w => Words.byte w 0) (ramRead_eq_ok h1).2
        simp only [hbyte] at hval
        have hplace : r' = r ∧ p - dev.start = x := by
          by_contra hn
          simp [oneByte, hn] at hval
        obtain ⟨rfl, hpx⟩ := hplace
        exact ⟨p, w, dev, r', base, rfl, hd, hr, hp, by rw [hx, hpx]⟩

theorem readsLikeLoad_iff (hl : 0 < len) (hl' : len ≤ 4) :
    (∀ m, ReadsLikeLoad P { s with ram := m } a len) ↔ CurrentPage P s a len := by
  constructor
  · exact current_of_readsLikeLoad hl hl'
  · intro h m
    apply readsLikeLoad_of_current
    intro hc hp
    obtain ⟨p, w, dev, r, base, ht, hd, hr, hptr, hx⟩ := sameByte_iff.1 (h hc hp)
    exact sameByte_iff.2 ⟨p, w, dev, r, base, ht, hd, hr, hptr, hx⟩

end Loads

/-- Which reads of the debugger disturb nothing, and when they show what the CPU would load,
    whatever RAM contains. -/
theorem debug_read {P : Platform (Peripherals F)} (hP : P.mmio.read = Peripherals.read)
    (s : Machine (Peripherals F)) (a : Word) (len : Nat) :
    ((∃ v, dbgVaddrRead P a len s = .ok v s) ↔ HarmlessAt P s a len) ∧
    (0 < len → len ≤ 4 →
      ((∀ m, ReadsLikeLoad P { s with ram := m } a len) ↔ CurrentPage P s a len)) :=
  ⟨dbgVaddrRead_unchanged hP s a len, readsLikeLoad_iff⟩

/-- The RAMs, and the UART at 0x1fe50000. -/
def uliteBoard : Board where
  regions i := if i = 0x1fe50 then some (deviceAt .xlnxUlite 0x1fe50000) else ramBoard.regions i
  blackhole_realized := by decide

def uliteMachine : Platform (Peripherals Unit) where
  cfg := buildOf .mips32R1 false false
  board := uliteBoard
  mmio := { read := Peripherals.read, write := fun _ => none }
  fpu := noFpu
  rand _ := 0
  malloc _ := default

/-- The devices before anything has happened to them. -/
def idlePeripherals : Peripherals Unit where
  keyboard := { queue := .filled fifoLen_pos 0, events := [] }
  now := 0
  pixels := none
  diskSize := 0
  ulite := .init
  spi := (Spi.init ⟨fun f _ => (0, f), fun f _ => f⟩ () 0).toDev
  elite _ := 0

/-- The character `a` waits in the UART, and the interrupt of the UART is pending. -/
def charWaits : Machine (Peripherals Unit) :=
  let s := Machine.boot (fun _ _ => 0)
    { idlePeripherals with ulite := { Ulite.init with intrEnabled := 0x10 }.enqueue 0x61 }
  { s with cpu := { s.cpu with cp0 := s.cpu.cp0.setIP 0x10 } }

/-- STAT may be read. -/
theorem debug_read_stat :
    (∃ v, dbgVaddrRead uliteMachine 0xbfe50008 4 charWaits = .ok v charWaits) ∧
      ∀ m, ReadsLikeLoad uliteMachine { charWaits with ram := m } 0x80000000 4 := by
  refine ⟨(debug_read rfl charWaits 0xbfe50008 4).1.2 ?_,
    ((debug_read rfl charWaits 0x80000000 4).2 (by decide) (by decide)).2 ?_⟩
  · intro dev hd
    obtain rfl : deviceAt .xlnxUlite 0x1fe50000 = dev := Option.some.inj hd
    exact ⟨by decide, .inl (by decide)⟩
  · intro hc
    exact absurd hc.1 (by decide)

/-- The receive register may not: the character is gone afterwards, and the interrupt. -/
theorem debug_read_rx :
    (charWaits.dev.ulite.q.toList = [0x61] ∧ charWaits.cpu.cp0.cause.IP.getLsbD 4 = true) ∧
    ∃ t, dbgVaddrRead uliteMachine 0xbfe50000 4 charWaits = .ok 0x61 t ∧
      t.dev.ulite.q.toList = [] ∧ t.cpu.cp0.cause.IP.getLsbD 4 = false ∧ t ≠ charWaits := by
  have hq : charWaits.dev.ulite.q.toList = [0x61] := by decide
  refine ⟨⟨hq, by decide⟩, _, rfl, by decide, by decide, ?_⟩
  intro h
  rw [← h] at hq
  exact absurd hq (by decide)

end NemuMips32
