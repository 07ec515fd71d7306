/-
  The SPI controller (`xlnx-spi.c`): a register file, two queues of 1024 bytes and the flash
  on the bus, which is a parameter here (`SpiSlave`).

  The four FIFO bits of SPISR are set and cleared by hand wherever a queue changes, and inside
  the drain loop of `spi_flush_txfifo` they are wrong until it ends; between two accesses they
  agree with the queues, and nothing waits in the transmit queue of an enabled master
  (`spi_status_agrees`). What the guest reads is what the flash answered to what the guest
  wrote, in order (`spi_history`).
-/
import NemuMips32.Lib.Fifo
import NemuMips32.Machine
import NemuMips32.Flash

namespace NemuMips32

variable {F : Type}

/-! ## Registers -/

/-- The slave on the bus: `m25p80_transfer8` and `m25p80_cs`. -/
structure SpiSlave (F : Type) where
  transfer8 : F → Word → Word × F
  cs : F → Bool → F

def flashSlave : SpiSlave Flash := ⟨Flash.transfer8, Flash.cs⟩

abbrev SpiReg := Fin 31

namespace SpiReg

def DGIER : SpiReg := ⟨0x1c / 4, by decide⟩
def IPISR : SpiReg := ⟨0x20 / 4, by decide⟩
def IPIER : SpiReg := ⟨0x28 / 4, by decide⟩
def SRR : SpiReg := ⟨0x40 / 4, by decide⟩
def SPICR : SpiReg := ⟨0x60 / 4, by decide⟩
def SPISR : SpiReg := ⟨0x64 / 4, by decide⟩
def SPIDTR : SpiReg := ⟨0x68 / 4, by decide⟩
def SPIDRR : SpiReg := ⟨0x6C / 4, by decide⟩
def SPISSR : SpiReg := ⟨0x70 / 4, by decide⟩

end SpiReg

def DGIER_IE : Word := 1 <<< 31

def IRQ_DRR_NOT_EMPTY : Word := 1 <<< (31 - 23)
def IRQ_DRR_OVERRUN : Word := 1 <<< (31 - 26)
def IRQ_DRR_FULL : Word := 1 <<< (31 - 27)
def IRQ_DTR_EMPTY : Word := 1 <<< (31 - 29)

def SPICR_TXFF_RST : Word := 1 <<< 5
def SPICR_RXFF_RST : Word := 1 <<< 6
def SPICR_MTI : Word := 1 <<< 8

def SR_SLAVE_MODE_SELECT : Word := 1 <<< 5
def SR_TX_FULL : Word := 1 <<< 3
def SR_TX_EMPTY : Word := 1 <<< 2
def SR_RX_FULL : Word := 1 <<< 1
def SR_RX_EMPTY : Word := 1 <<< 0

def XLNX_SPI_IRQ_NO : Nat := 5

/-- The controller, the flash behind it and the interrupt lines of the CPU. -/
structure Spi (F : Type) where
  flash : F
  regs : SpiReg → Word
  tx : Fifo (BitVec 8) 1024
  rx : Fifo (BitVec 8) 1024
  ip : BitVec 8

namespace Spi

def set (s : Spi F) (r : SpiReg) (v : Word) : Spi F :=
  { s with regs := Function.update s.regs r v }

/-- `xlnx_spi_regs[r] |= m`. -/
def raise (s : Spi F) (r : SpiReg) (m : Word) : Spi F := s.set r (s.regs r ||| m)

/-- `xlnx_spi_regs[r] &= ~m`. -/
def lower (s : Spi F) (r : SpiReg) (m : Word) : Spi F := s.set r (s.regs r &&& ~~~m)

/-! ## xlnx-spi.c -/

/-- `txfifo_reset`. -/
def txfifoReset (s : Spi F) : Spi F :=
  (({ s with tx := s.tx.reset }).lower .SPISR SR_TX_FULL).raise .SPISR SR_TX_EMPTY

/-- `rxfifo_reset`. -/
def rxfifoReset (s : Spi F) : Spi F :=
  (({ s with rx := s.rx.reset }).raise .SPISR SR_RX_EMPTY).lower .SPISR SR_RX_FULL

/-- `xlnx_spi_update_cs`. -/
def updateCs (m : SpiSlave F) (s : Spi F) : Spi F := { s with flash := m.cs s.flash true }

/-- The bits that `xlnx_spi_update_irq` adds to IPISR. -/
def rxIrqs (s : Spi F) : Word :=
  (if !s.rx.isEmpty then IRQ_DRR_NOT_EMPTY else 0) ||| (if s.rx.isFull then IRQ_DRR_FULL else 0)

/-- `pending` of `xlnx_spi_update_irq`. -/
def pending (s : Spi F) : Bool :=
  s.regs .IPISR &&& s.regs .IPIER != 0 && s.regs .DGIER &&& DGIER_IE != 0

/-- `xlnx_spi_update_irq`. -/
def updateIrq (s : Spi F) : Spi F :=
  let s := { s with ip := setIrq XLNX_SPI_IRQ_NO false s.ip }
  let s := s.raise .IPISR s.rxIrqs
  if s.pending then { s with ip := setIrq XLNX_SPI_IRQ_NO true s.ip } else s

/-- `xlnx_spi_do_reset`. -/
def doReset (m : SpiSlave F) (s : Spi F) : Spi F :=
  let s := { s with regs := fun _ => 0 }
  let s := s.rxfifoReset.txfifoReset
  let s := (s.raise .SPICR 0x180).raise .SPISR SR_SLAVE_MODE_SELECT
  let s := s.set .SPISSR (BitVec.allOnes 32)
  s.updateIrq.updateCs m

/-- `spi_master_enabled`. -/
def masterEnabled (s : Spi F) : Bool := s.regs .SPICR &&& SPICR_MTI == 0

/-- The answer of the slave to one byte; it answers only while it is selected. -/
def transfer (m : SpiSlave F) (s : Spi F) (tx : BitVec 8) : Word × Spi F :=
  if s.regs .SPISSR &&& 1 = 0 then
    let r := m.transfer8 s.flash (tx.setWidth 32)
    (r.1, { s with flash := r.2 })
  else (0, s)

/-- The received byte goes into the receive FIFO, or is lost. -/
def receive (s : Spi F) (rx : Word) : Spi F :=
  if s.rx.isFull then s.raise .IPISR IRQ_DRR_OVERRUN
  else
    let s := { s with rx := s.rx.push (rx.setWidth 8) }
    if s.rx.isFull then (s.raise .SPISR SR_RX_FULL).raise .IPISR IRQ_DRR_FULL else s

/-- The body of the loop of `spi_flush_txfifo`. -/
def flushOne (m : SpiSlave F) (s : Spi F) : Spi F :=
  let tx := s.tx.pop.1
  let s := { s with tx := s.tx.pop.2 }
  let r := s.transfer m tx
  let s := r.2.receive r.1
  let s := ((s.lower .SPISR SR_RX_EMPTY).lower .SPISR SR_TX_FULL).raise .SPISR SR_TX_EMPTY
  (s.raise .IPISR IRQ_DTR_EMPTY).raise .IPISR IRQ_DRR_NOT_EMPTY

/-- The loop of `spi_flush_txfifo`; every turn takes a byte, so it ends within the fuel. -/
def flushLoop (m : SpiSlave F) : Nat → Spi F → Spi F
  | 0, s => s
  | fuel + 1, s => if s.tx.isEmpty then s else flushLoop m fuel (s.flushOne m)

/-- `spi_flush_txfifo`. -/
def flushTxfifo (m : SpiSlave F) (s : Spi F) : Spi F := flushLoop m s.tx.size s

/-- The `R_SPIDRR` case of `xlnx_spi_read`, behind its test for an empty queue. -/
def takeRx (s : Spi F) : Word × Spi F :=
  let s := s.lower .SPISR SR_RX_FULL
  let r := s.rx.pop.1
  let s := { s with rx := s.rx.pop.2 }
  (r.setWidth 32, if s.rx.isEmpty then s.raise .SPISR SR_RX_EMPTY else s)

/-- `xlnx_spi_read`. -/
def read (addr : Word) (s : Spi F) : Word × Spi F :=
  if addr >>> 2 = 0x6C / 4 then
    if s.rx.isEmpty then (0xdeadbeef, s) else (s.takeRx.1, s.takeRx.2.updateIrq)
  else if h : (addr >>> 2).toNat < 31 then (s.regs ⟨(addr >>> 2).toNat, h⟩, s.updateIrq)
  else (0, s.updateIrq)

/-- The resets that `R_SPICR` of `xlnx_spi_write` does first. -/
def resetFifos (data : Word) (s : Spi F) : Spi F :=
  let s := if data &&& SPICR_RXFF_RST ≠ 0 then s.rxfifoReset else s
  if data &&& SPICR_TXFF_RST ≠ 0 then s.txfifoReset else s

/-- The `R_SPICR` case of `xlnx_spi_write`. -/
def writeSpicr (m : SpiSlave F) (data : Word) (s : Spi F) : Spi F :=
  let s := s.resetFifos data
  let data := data &&& ~~~(SPICR_RXFF_RST ||| SPICR_TXFF_RST)
  let s := s.set .SPICR data
  if data &&& SPICR_MTI = 0 then s.flushTxfifo m else s

/-- The byte that `R_SPIDTR` of `xlnx_spi_write` queues. -/
def pushTx (data : Word) (s : Spi F) : Spi F :=
  let s := s.lower .SPISR SR_TX_EMPTY
  let s := { s with tx := s.tx.push (data.setWidth 8) }
  if s.tx.isFull then s.raise .SPISR SR_TX_FULL else s

/-- The `R_SPIDTR` case of `xlnx_spi_write`. -/
def writeSpidtr (m : SpiSlave F) (data : Word) (s : Spi F) : Spi F :=
  let s := s.pushTx data
  if s.masterEnabled then s.flushTxfifo m else s

/-- The `switch` of `xlnx_spi_write`. -/
def writeReg (m : SpiSlave F) (r : SpiReg) (data : Word) (s : Spi F) : Spi F :=
  if r = .SRR then if data = 0xa then s.doReset m else s
  else if r = .SPIDTR then s.writeSpidtr m data
  else if r = .SPISR then s
  else if r = .IPISR then s.set r (s.regs r ^^^ data)
  else if r = .SPISSR then (s.set r data).updateCs m
  else if r = .SPICR then s.writeSpicr m data
  else s.set r data

/-- `xlnx_spi_write`. -/
def write (m : SpiSlave F) (addr data : Word) (s : Spi F) : Spi F :=
  (if h : (addr >>> 2).toNat < 31 then s.writeReg m ⟨(addr >>> 2).toNat, h⟩ data else s).updateIrq

/-- `xlnx_spi_init`, behind `flash_init`; static memory is zero. -/
def init (m : SpiSlave F) (flash : F) (ip : BitVec 8) : Spi F :=
  doReset m ⟨flash, fun _ => 0, .filled fifoLen_pos 0, .filled fifoLen_pos 0, ip⟩

/-! ## Status -/

/-- A bit of SPISR. -/
def status (s : Spi F) (mask : Word) : Prop := s.regs .SPISR &&& mask ≠ 0

theorem and_one_shiftLeft_ne (w : Word) (i : Nat) (hi : i < 32) :
    w &&& (1 <<< i) ≠ 0 ↔ w.getLsbD i = true := by
  have h : w &&& BitVec.twoPow 32 i = if w.getLsbD i then BitVec.twoPow 32 i else 0#32 :=
    BitVec.and_twoPow w i
  have hne : BitVec.twoPow 32 i ≠ 0#32 := by
    intro h0
    have := congrArg (fun x : Word => x.getLsbD i) h0
    simp [hi] at this
  rw [show (1 <<< i : Word) = BitVec.twoPow 32 i from (BitVec.twoPow_eq ..).symm, h]
  by_cases hb : w.getLsbD i = true <;> simp [hb, hne]

theorem status_txFull (s : Spi F) : s.status SR_TX_FULL ↔ (s.regs .SPISR).getLsbD 3 = true :=
  and_one_shiftLeft_ne _ 3 (by decide)

theorem status_txEmpty (s : Spi F) : s.status SR_TX_EMPTY ↔ (s.regs .SPISR).getLsbD 2 = true :=
  and_one_shiftLeft_ne _ 2 (by decide)

theorem status_rxFull (s : Spi F) : s.status SR_RX_FULL ↔ (s.regs .SPISR).getLsbD 1 = true :=
  and_one_shiftLeft_ne _ 1 (by decide)

theorem status_rxEmpty (s : Spi F) : s.status SR_RX_EMPTY ↔ (s.regs .SPISR).getLsbD 0 = true :=
  and_one_shiftLeft_ne _ 0 (by decide)

/-- The receive bits of SPISR are right. -/
structure RxAgrees (s : Spi F) : Prop where
  empty : s.status SR_RX_EMPTY ↔ s.rx.toList = []
  full : s.status SR_RX_FULL ↔ s.rx.toList.length = 1024

/-- The transmit bits of SPISR are right. -/
structure TxAgrees (s : Spi F) : Prop where
  empty : s.status SR_TX_EMPTY ↔ s.tx.toList = []
  full : s.status SR_TX_FULL ↔ s.tx.toList.length = 1024

theorem raise_of_ne {r : SpiReg} (hr : r ≠ .SPISR) (s : Spi F) (m : Word) :
    (s.raise r m).regs .SPISR = s.regs .SPISR := Function.update_of_ne hr.symm _ _

section Bits

variable (s : Spi F) (m : Word)

@[simp] theorem regs_raise : (s.raise .SPISR m).regs .SPISR = s.regs .SPISR ||| m := by
  simp [raise, set]

@[simp] theorem regs_lower : (s.lower .SPISR m).regs .SPISR = s.regs .SPISR &&& ~~~m := by
  simp [lower, set]

@[simp] theorem raise_tx (r : SpiReg) : (s.raise r m).tx = s.tx := rfl
@[simp] theorem raise_rx (r : SpiReg) : (s.raise r m).rx = s.rx := rfl
@[simp] theorem raise_flash (r : SpiReg) : (s.raise r m).flash = s.flash := rfl
@[simp] theorem lower_tx (r : SpiReg) : (s.lower r m).tx = s.tx := rfl
@[simp] theorem lower_rx (r : SpiReg) : (s.lower r m).rx = s.rx := rfl
@[simp] theorem lower_flash (r : SpiReg) : (s.lower r m).flash = s.flash := rfl
@[simp] theorem set_tx (r : SpiReg) : (s.set r m).tx = s.tx := rfl
@[simp] theorem set_rx (r : SpiReg) : (s.set r m).rx = s.rx := rfl
@[simp] theorem set_flash (r : SpiReg) : (s.set r m).flash = s.flash := rfl

end Bits

theorem rxAgrees_iff {s : Spi F} : s.RxAgrees ↔
    ((s.regs .SPISR).getLsbD 0 = true ↔ s.rx.toList = []) ∧
      ((s.regs .SPISR).getLsbD 1 = true ↔ s.rx.toList.length = 1024) := by
  rw [← status_rxEmpty, ← status_rxFull]
  exact ⟨fun h => ⟨h.empty, h.full⟩, fun h => ⟨h.1, h.2⟩⟩

theorem txAgrees_iff {s : Spi F} : s.TxAgrees ↔
    ((s.regs .SPISR).getLsbD 2 = true ↔ s.tx.toList = []) ∧
      ((s.regs .SPISR).getLsbD 3 = true ↔ s.tx.toList.length = 1024) := by
  rw [← status_txEmpty, ← status_txFull]
  exact ⟨fun h => ⟨h.empty, h.full⟩, fun h => ⟨h.1, h.2⟩⟩

/-- Neither bits nor queues differ. -/
structure SameStatus (s t : Spi F) : Prop where
  sr : t.regs .SPISR = s.regs .SPISR
  tx : t.tx = s.tx
  rx : t.rx = s.rx

theorem SameStatus.rxAgrees {s t : Spi F} (h : SameStatus s t) (hs : s.RxAgrees) : t.RxAgrees := by
  rw [rxAgrees_iff, h.sr, h.rx]
  exact rxAgrees_iff.1 hs

theorem SameStatus.txAgrees {s t : Spi F} (h : SameStatus s t) (hs : s.TxAgrees) : t.TxAgrees := by
  rw [txAgrees_iff, h.sr, h.tx]
  exact txAgrees_iff.1 hs

theorem sameStatus_set {r : SpiReg} (hr : r ≠ .SPISR) (s : Spi F) (v : Word) :
    SameStatus s (s.set r v) := ⟨Function.update_of_ne hr.symm _ _, rfl, rfl⟩

theorem sameStatus_updateCs (m : SpiSlave F) (s : Spi F) : SameStatus s (s.updateCs m) :=
  ⟨rfl, rfl, rfl⟩

theorem updateIrq_regs (s : Spi F) {r : SpiReg} (hr : r ≠ .IPISR) :
    s.updateIrq.regs r = s.regs r := by
  simp only [updateIrq]
  split <;> exact Function.update_of_ne hr _ _

theorem sameStatus_updateIrq (s : Spi F) : SameStatus s s.updateIrq := by
  refine ⟨updateIrq_regs s (by decide), ?_, ?_⟩ <;>
    · simp only [updateIrq]
      split <;> rfl

theorem transfer_spisr (m : SpiSlave F) (s : Spi F) (b : BitVec 8) :
    SameStatus s (s.transfer m b).2 := by
  simp only [transfer]
  split <;> exact ⟨rfl, rfl, rfl⟩

/-! ## The drain loop -/

theorem receive_tx (s : Spi F) (rx : Word) : (s.receive rx).tx = s.tx := by
  simp only [receive]
  split
  · rfl
  · split <;> rfl

theorem flushOne_tx (m : SpiSlave F) (s : Spi F) : (s.flushOne m).tx = s.tx.pop.2 := by
  rw [flushOne, raise_tx, raise_tx, raise_tx, lower_tx, lower_tx, receive_tx,
    (transfer_spisr m _ _).tx]

/-- After a byte has arrived the receive queue is not empty, and its full bit is right. -/
theorem receive_full {s : Spi F} (h : s.RxAgrees) (rx : Word) :
    (s.receive rx).rx.toList ≠ [] ∧
      (((s.receive rx).regs .SPISR).getLsbD 1 = true ↔ (s.receive rx).rx.toList.length = 1024) := by
  obtain ⟨-, hf⟩ := rxAgrees_iff.1 h
  by_cases hfull : s.rx.isFull = true
  · have hlen := Fifo.isFull_iff.1 hfull
    rw [receive, if_pos hfull]
    refine ⟨?_, ?_⟩
    · intro h0
      rw [raise_rx] at h0
      rw [h0] at hlen
      cases hlen
    · rw [raise_of_ne (by decide), raise_rx]
      exact hf
  · have hne : s.rx.toList.length ≠ 1024 := fun h0 => hfull (Fifo.isFull_iff.2 h0)
    have hle := s.rx.size_le
    rw [← Fifo.length_toList] at hle
    have hpush := Fifo.toList_push (show s.rx.toList.length < 1024 by omega) (rx.setWidth 8)
    have hbit : (s.regs .SPISR).getLsbD 1 = false := by
      simpa using fun h1 => hne (hf.1 h1)
    rw [receive, if_neg hfull]
    by_cases hnow : (s.rx.push (rx.setWidth 8)).isFull = true
    · simp only [hnow, if_true, raise_rx]
      refine ⟨by simp [hpush], ?_⟩
      rw [raise_of_ne (by decide), regs_raise, Fifo.isFull_iff.1 hnow]
      simp [SR_RX_FULL]
    · simp only [hnow]
      refine ⟨by simp [hpush], iff_of_false ?_ fun h0 => hnow (Fifo.isFull_iff.2 h0)⟩
      show ¬(s.regs .SPISR).getLsbD 1 = true
      rw [hbit]
      decide

/-- One turn of the loop leaves the receive bits right, whatever the transmit bits are. -/
theorem flushOne_rxAgrees (m : SpiSlave F) {s : Spi F} (h : s.RxAgrees) :
    (s.flushOne m).RxAgrees := by
  have hs : ({ s with tx := s.tx.pop.2 } : Spi F).RxAgrees := ⟨h.empty, h.full⟩
  have ht := (transfer_spisr m { s with tx := s.tx.pop.2 } s.tx.pop.1).rxAgrees hs
  obtain ⟨hne, hf⟩ := receive_full ht
    (({ s with tx := s.tx.pop.2 } : Spi F).transfer m s.tx.pop.1).1
  rw [rxAgrees_iff, flushOne, raise_of_ne (by decide), raise_of_ne (by decide), regs_raise,
    regs_lower, regs_lower]
  simp only [raise_rx, lower_rx]
  refine ⟨?_, ?_⟩
  · simp [hne, SR_TX_EMPTY, SR_TX_FULL, SR_RX_EMPTY]
  · rw [← hf]
    simp [SR_TX_EMPTY, SR_TX_FULL, SR_RX_EMPTY]

/-- One turn of the loop leaves the transmit bits as for an empty queue. -/
theorem flushOne_sr (m : SpiSlave F) (s : Spi F) :
    ((s.flushOne m).regs .SPISR).getLsbD 2 = true ∧
      ((s.flushOne m).regs .SPISR).getLsbD 3 = false := by
  rw [flushOne, raise_of_ne (by decide), raise_of_ne (by decide), regs_raise, regs_lower,
    regs_lower]
  simp [SR_TX_EMPTY, SR_TX_FULL, SR_RX_EMPTY]

theorem flushLoop_tx (m : SpiSlave F) (n : Nat) {s : Spi F} (hn : s.tx.toList.length ≤ n) :
    (flushLoop m n s).tx.toList = [] := by
  induction n generalizing s with
  | zero => exact List.length_eq_zero_iff.1 (Nat.le_zero.1 hn)
  | succ n ih =>
    rw [flushLoop]
    split
    · rename_i he
      exact Fifo.isEmpty_iff.1 he
    · rename_i he
      obtain ⟨x, l, hx⟩ := List.exists_cons_of_ne_nil fun h0 => he (Fifo.isEmpty_iff.2 h0)
      apply ih
      rw [flushOne_tx, (Fifo.pop_cons hx).2]
      rw [hx, List.length_cons] at hn
      omega

theorem flushLoop_rxAgrees (m : SpiSlave F) (n : Nat) {s : Spi F} (h : s.RxAgrees) :
    (flushLoop m n s).RxAgrees := by
  induction n generalizing s with
  | zero => exact h
  | succ n ih =>
    rw [flushLoop]
    split
    · exact h
    · exact ih (flushOne_rxAgrees m h)

/-- The loop ends with transmit bits that were right, or that its last turn has set. -/
theorem flushLoop_sr (m : SpiSlave F) (n : Nat) {s : Spi F}
    (h : s.tx.toList = [] →
      (s.regs .SPISR).getLsbD 2 = true ∧ (s.regs .SPISR).getLsbD 3 = false)
    (hn : s.tx.toList.length ≤ n) :
    ((flushLoop m n s).regs .SPISR).getLsbD 2 = true ∧
      ((flushLoop m n s).regs .SPISR).getLsbD 3 = false := by
  induction n generalizing s with
  | zero => exact h (List.length_eq_zero_iff.1 (Nat.le_zero.1 hn))
  | succ n ih =>
    rw [flushLoop]
    split
    · rename_i he
      exact h (Fifo.isEmpty_iff.1 he)
    · rename_i he
      obtain ⟨x, l, hx⟩ := List.exists_cons_of_ne_nil fun h0 => he (Fifo.isEmpty_iff.2 h0)
      refine ih (fun _ => flushOne_sr m s) ?_
      rw [flushOne_tx, (Fifo.pop_cons hx).2]
      rw [hx, List.length_cons] at hn
      omega

theorem flushTxfifo_rxAgrees (m : SpiSlave F) {s : Spi F} (h : s.RxAgrees) :
    (s.flushTxfifo m).RxAgrees := flushLoop_rxAgrees m _ h

theorem flushTxfifo_tx (m : SpiSlave F) (s : Spi F) : (s.flushTxfifo m).tx.toList = [] :=
  flushLoop_tx m _ (Nat.le_of_eq Fifo.length_toList)

/-- The loop sets the transmit bits right, unless it does nothing. -/
theorem flushTxfifo_txAgrees (m : SpiSlave F) {s : Spi F}
    (h : s.tx.toList = [] → s.TxAgrees) : (s.flushTxfifo m).TxAgrees := by
  have hbits := flushLoop_sr m s.tx.size (s := s) (fun h0 => ?_) (Nat.le_of_eq Fifo.length_toList)
  · rw [txAgrees_iff, flushTxfifo_tx]
    exact ⟨iff_of_true hbits.1 rfl, iff_of_false (by rw [flushTxfifo, hbits.2]; decide) (by decide)⟩
  · obtain ⟨he, hf⟩ := txAgrees_iff.1 (h h0)
    refine ⟨he.2 h0, Bool.eq_false_iff.2 fun h3 => ?_⟩
    have := hf.1 h3
    rw [h0] at this
    cases this

/-! ## Accesses -/

/-- What holds between two accesses. -/
structure Agrees (s : Spi F) : Prop where
  rx : s.RxAgrees
  tx : s.TxAgrees
  idle : s.masterEnabled = true → s.tx.toList = []

theorem Agrees.of_same {s t : Spi F} (h : SameStatus s t) (hc : t.regs .SPICR = s.regs .SPICR)
    (hs : s.Agrees) : t.Agrees := by
  refine ⟨h.rxAgrees hs.rx, h.txAgrees hs.tx, fun hm => ?_⟩
  rw [masterEnabled, hc] at hm
  rw [h.tx]
  exact hs.idle hm

theorem agrees_updateIrq {s : Spi F} (h : s.Agrees) : s.updateIrq.Agrees :=
  h.of_same (sameStatus_updateIrq s) (updateIrq_regs s (by decide))

theorem agrees_set {r : SpiReg} (hr : r ≠ .SPISR) (hc : r ≠ .SPICR) {s : Spi F} (h : s.Agrees)
    (v : Word) : (s.set r v).Agrees :=
  h.of_same (sameStatus_set hr s v) (Function.update_of_ne hc.symm _ _)

theorem rxfifoReset_rxAgrees (s : Spi F) : s.rxfifoReset.RxAgrees := by
  rw [rxAgrees_iff, rxfifoReset, regs_lower, regs_raise]
  simp [SR_RX_EMPTY, SR_RX_FULL]

theorem rxfifoReset_txAgrees {s : Spi F} (h : s.TxAgrees) : s.rxfifoReset.TxAgrees := by
  rw [txAgrees_iff] at h ⊢
  rw [rxfifoReset, regs_lower, regs_raise]
  simpa [SR_RX_EMPTY, SR_RX_FULL] using h

theorem txfifoReset_txAgrees (s : Spi F) : s.txfifoReset.TxAgrees := by
  rw [txAgrees_iff, txfifoReset, regs_raise, regs_lower]
  simp [SR_TX_EMPTY, SR_TX_FULL]

theorem txfifoReset_rxAgrees {s : Spi F} (h : s.RxAgrees) : s.txfifoReset.RxAgrees := by
  rw [rxAgrees_iff] at h ⊢
  rw [txfifoReset, regs_raise, regs_lower]
  simpa [SR_TX_EMPTY, SR_TX_FULL] using h

theorem txfifoReset_tx (s : Spi F) : s.txfifoReset.tx.toList = [] := by simp [txfifoReset]

theorem agrees_doReset (m : SpiSlave F) (s : Spi F) : (s.doReset m).Agrees := by
  have htx := txfifoReset_txAgrees (rxfifoReset { s with regs := fun _ => 0 })
  have hrx := txfifoReset_rxAgrees (rxfifoReset_rxAgrees { s with regs := fun _ => 0 })
  have h0 := txfifoReset_tx (rxfifoReset { s with regs := fun _ => 0 })
  refine Agrees.of_same (sameStatus_updateCs m _) rfl (agrees_updateIrq ?_)
  refine agrees_set (by decide) (by decide) ?_ _
  refine ⟨?_, ?_, fun _ => h0⟩
  · rw [rxAgrees_iff] at hrx ⊢
    rw [regs_raise, raise_of_ne (by decide)]
    simpa [SR_SLAVE_MODE_SELECT] using hrx
  · rw [txAgrees_iff] at htx ⊢
    rw [regs_raise, raise_of_ne (by decide)]
    simpa [SR_SLAVE_MODE_SELECT] using htx

/-- A byte is taken from a receive queue that has one. -/
theorem agrees_takeRx {s : Spi F} (h : s.Agrees) (hne : s.rx.toList ≠ []) :
    s.takeRx.2.Agrees := by
  obtain ⟨x, l, hx⟩ := List.exists_cons_of_ne_nil hne
  have hp := (Fifo.pop_cons hx).2
  have hle := s.rx.size_le
  rw [← Fifo.length_toList, hx, List.length_cons] at hle
  obtain ⟨he, -⟩ := rxAgrees_iff.1 h.rx
  have hb : ¬(s.regs .SPISR).getLsbD 0 = true := fun h0 => hne (he.1 h0)
  have htx := txAgrees_iff.1 h.tx
  by_cases hemp : s.rx.pop.2.isEmpty = true
  · have hs : s.takeRx.2 =
        (({ s with rx := s.rx.pop.2 } : Spi F).lower .SPISR SR_RX_FULL).raise .SPISR
          SR_RX_EMPTY := if_pos hemp
    have hl := Fifo.isEmpty_iff.1 hemp
    rw [hs]
    refine ⟨?_, ?_, h.idle⟩
    · rw [rxAgrees_iff, regs_raise, regs_lower, raise_rx, lower_rx, hl]
      simp [SR_RX_EMPTY, SR_RX_FULL]
    · rw [txAgrees_iff, regs_raise, regs_lower]
      simpa [SR_RX_EMPTY, SR_RX_FULL] using htx
  · have hs : s.takeRx.2 = ({ s with rx := s.rx.pop.2 } : Spi F).lower .SPISR SR_RX_FULL :=
      if_neg hemp
    have hl : l ≠ [] := fun h0 => hemp (Fifo.isEmpty_iff.2 (hp.trans h0))
    rw [hs]
    refine ⟨?_, ?_, h.idle⟩
    · rw [rxAgrees_iff, regs_lower, lower_rx, hp]
      refine ⟨iff_of_false ?_ hl, iff_of_false ?_ (by omega)⟩
      · simpa [SR_RX_FULL] using hb
      · simp [SR_RX_FULL]
    · rw [txAgrees_iff, regs_lower]
      simpa [SR_RX_EMPTY, SR_RX_FULL] using htx

theorem agrees_read {s : Spi F} (h : s.Agrees) (addr : Word) : (s.read addr).2.Agrees := by
  rw [read]
  split
  · split
    · exact h
    · rename_i he
      exact agrees_updateIrq (agrees_takeRx h fun h0 => he (Fifo.isEmpty_iff.2 h0))
  · split <;> exact agrees_updateIrq h

/-- After the drain loop nothing waits, whether the master is enabled or not. -/
theorem agrees_flushTxfifo (m : SpiSlave F) {s : Spi F} (hrx : s.RxAgrees)
    (htx : s.tx.toList = [] → s.TxAgrees) : (s.flushTxfifo m).Agrees :=
  ⟨flushTxfifo_rxAgrees m hrx, flushTxfifo_txAgrees m htx, fun _ => flushTxfifo_tx m s⟩

theorem pushTx_tx (data : Word) (s : Spi F) : (s.pushTx data).tx = s.tx.push (data.setWidth 8) := by
  simp only [pushTx]
  split <;> rfl

theorem pushTx_rxAgrees (data : Word) {s : Spi F} (h : s.RxAgrees) : (s.pushTx data).RxAgrees := by
  rw [rxAgrees_iff] at h ⊢
  simp only [pushTx]
  split
  · rw [regs_raise]
    simpa [lower, set, SR_TX_EMPTY, SR_TX_FULL] using h
  · simpa [lower, set, SR_TX_EMPTY, SR_TX_FULL] using h

theorem pushTx_txAgrees (data : Word) {s : Spi F} (h : s.TxAgrees) : (s.pushTx data).TxAgrees := by
  have hne := Fifo.toList_push_ne (by decide) s.tx (data.setWidth 8)
  by_cases hfull : (s.tx.push (data.setWidth 8)).isFull = true
  · have hs : s.pushTx data =
        (({ s with tx := s.tx.push (data.setWidth 8) } : Spi F).lower .SPISR SR_TX_EMPTY).raise
          .SPISR SR_TX_FULL := if_pos hfull
    rw [hs, txAgrees_iff, regs_raise, regs_lower, raise_tx, lower_tx, Fifo.isFull_iff.1 hfull]
    simp [hne, SR_TX_EMPTY, SR_TX_FULL]
  · have hs : s.pushTx data =
        ({ s with tx := s.tx.push (data.setWidth 8) } : Spi F).lower .SPISR SR_TX_EMPTY :=
      if_neg hfull
    have hlen : (s.tx.push (data.setWidth 8)).toList.length ≠ 1024 :=
      fun h0 => hfull (Fifo.isFull_iff.2 h0)
    -- a queue that is not full now was not full before
    have hb : ¬(s.regs .SPISR).getLsbD 3 = true := by
      intro h3
      have h0 := (txAgrees_iff.1 h).2.1 h3
      rw [Fifo.push_of_full h0] at hlen
      exact hlen h0
    rw [hs, txAgrees_iff, regs_lower, lower_tx]
    refine ⟨iff_of_false ?_ hne, iff_of_false ?_ hlen⟩
    · simp [SR_TX_EMPTY]
    · simpa [SR_TX_EMPTY] using hb

theorem agrees_writeSpidtr (m : SpiSlave F) (data : Word) {s : Spi F} (h : s.Agrees) :
    (s.writeSpidtr m data).Agrees := by
  have hrx := pushTx_rxAgrees data h.rx
  have htx := pushTx_txAgrees data h.tx
  rw [writeSpidtr]
  split
  · exact agrees_flushTxfifo m hrx fun _ => htx
  · rename_i hm
    exact ⟨hrx, htx, fun h0 => absurd h0 hm⟩

theorem resetFifos_rxAgrees (data : Word) {s : Spi F} (h : s.RxAgrees) :
    (s.resetFifos data).RxAgrees := by
  have h1 : (if data &&& SPICR_RXFF_RST ≠ 0 then s.rxfifoReset else s).RxAgrees := by
    split
    · exact rxfifoReset_rxAgrees s
    · exact h
  rw [resetFifos]
  split
  · exact txfifoReset_rxAgrees h1
  · exact h1

theorem resetFifos_txAgrees (data : Word) {s : Spi F} (h : s.TxAgrees) :
    (s.resetFifos data).TxAgrees := by
  have h1 : (if data &&& SPICR_RXFF_RST ≠ 0 then s.rxfifoReset else s).TxAgrees := by
    split
    · exact rxfifoReset_txAgrees h
    · exact h
  rw [resetFifos]
  split
  · exact txfifoReset_txAgrees _
  · exact h1

theorem agrees_writeSpicr (m : SpiSlave F) (data : Word) {s : Spi F} (h : s.Agrees) :
    (s.writeSpicr m data).Agrees := by
  have hset := sameStatus_set (r := .SPICR) (by decide) (s.resetFifos data)
    (data &&& ~~~(SPICR_RXFF_RST ||| SPICR_TXFF_RST))
  have hrx := hset.rxAgrees (resetFifos_rxAgrees data h.rx)
  have htx := hset.txAgrees (resetFifos_txAgrees data h.tx)
  rw [writeSpicr]
  split
  · exact agrees_flushTxfifo m hrx fun _ => htx
  · rename_i hm
    refine ⟨hrx, htx, fun h0 => absurd ?_ hm⟩
    simpa [masterEnabled, set] using h0

theorem agrees_writeReg (m : SpiSlave F) (r : SpiReg) (data : Word) {s : Spi F} (h : s.Agrees) :
    (s.writeReg m r data).Agrees := by
  rw [writeReg]
  split
  · split
    · exact agrees_doReset m s
    · exact h
  split
  · exact agrees_writeSpidtr m data h
  split
  · exact h
  rename_i hsr
  split
  · rename_i hr
    exact agrees_set hsr (by rw [hr]; decide) h _
  split
  · rename_i hr
    exact Agrees.of_same (sameStatus_updateCs m _) rfl (agrees_set hsr (by rw [hr]; decide) h _)
  split
  · exact agrees_writeSpicr m data h
  · rename_i hcr
    exact agrees_set hsr hcr h _

theorem agrees_write (m : SpiSlave F) (addr data : Word) {s : Spi F} (h : s.Agrees) :
    (s.write m addr data).Agrees := by
  rw [write]
  apply agrees_updateIrq
  split
  · exact agrees_writeReg m _ data h
  · exact h

end Spi

/-! ## Runs -/

/-- What can happen to the controller: the accesses of the guest, and the poll of the
    device's `update_irq`. -/
inductive SpiEvent where
  | read (addr : Word)
  | write (addr data : Word)
  | poll

def SpiEvent.step (m : SpiSlave F) (s : Spi F) : SpiEvent → Spi F
  | .read addr => (s.read addr).2
  | .write addr data => s.write m addr data
  | .poll => s.updateIrq

def Spi.run (m : SpiSlave F) (s : Spi F) (es : List SpiEvent) : Spi F := es.foldl (SpiEvent.step m) s

theorem agrees_step (m : SpiSlave F) {s : Spi F} (h : s.Agrees) (e : SpiEvent) :
    (e.step m s).Agrees := by
  cases e with
  | read addr => exact Spi.agrees_read h addr
  | write addr data => exact Spi.agrees_write m addr data h
  | poll => exact Spi.agrees_updateIrq h

theorem agrees_run (m : SpiSlave F) (es : List SpiEvent) {s : Spi F} (h : s.Agrees) :
    (s.run m es).Agrees := by
  induction es generalizing s with
  | nil => exact h
  | cons e es ih => exact ih (agrees_step m h e)

/-- SPISR agrees with the queues after any accesses. -/
theorem spi_status_agrees (m : SpiSlave F) (flash : F) (ip : BitVec 8) (es : List SpiEvent) :
    let s := (Spi.init m flash ip).run m es
    (s.status SR_TX_EMPTY ↔ s.tx.toList = []) ∧
      (s.status SR_TX_FULL ↔ s.tx.toList.length = 1024) ∧
      (s.status SR_RX_EMPTY ↔ s.rx.toList = []) ∧
      (s.status SR_RX_FULL ↔ s.rx.toList.length = 1024) ∧
      (s.masterEnabled = true → s.tx.toList = []) := by
  have h : ((Spi.init m flash ip).run m es).Agrees := agrees_run m es (Spi.agrees_doReset m _)
  exact ⟨h.tx.empty, h.tx.full, h.rx.empty, h.rx.full, h.idle⟩

/-! ## Histories -/

namespace SpiSlave

variable (m : SpiSlave F)

/-- The slave after it has been sent some bytes. -/
def after (f : F) : List (BitVec 8) → F
  | [] => f
  | b :: bs => after (m.transfer8 f (b.setWidth 32)).2 bs

/-- The low 8 bits of its answers. -/
def responses (f : F) : List (BitVec 8) → List (BitVec 8)
  | [] => []
  | b :: bs =>
    (m.transfer8 f (b.setWidth 32)).1.setWidth 8 :: responses (m.transfer8 f (b.setWidth 32)).2 bs

theorem after_append (f : F) (bs cs : List (BitVec 8)) :
    m.after f (bs ++ cs) = m.after (m.after f bs) cs := by
  induction bs generalizing f with
  | nil => rfl
  | cons b bs ih => exact ih _

theorem responses_append (f : F) (bs cs : List (BitVec 8)) :
    m.responses f (bs ++ cs) = m.responses f bs ++ m.responses (m.after f bs) cs := by
  induction bs generalizing f with
  | nil => rfl
  | cons b bs ih => rw [List.cons_append, responses, ih]; rfl

end SpiSlave

namespace Spi

theorem raise_regs_of_ne {r r' : SpiReg} (h : r' ≠ r) (s : Spi F) (v : Word) :
    (s.raise r v).regs r' = s.regs r' := Function.update_of_ne h _ _

theorem lower_regs_of_ne {r r' : SpiReg} (h : r' ≠ r) (s : Spi F) (v : Word) :
    (s.lower r v).regs r' = s.regs r' := Function.update_of_ne h _ _

/-- The slave stays selected while the queue drains. -/
theorem flushOne_spissr (m : SpiSlave F) (s : Spi F) :
    (s.flushOne m).regs .SPISSR = s.regs .SPISSR := by
  have ht (b : BitVec 8) (u : Spi F) : (u.transfer m b).2.regs = u.regs := by
    simp only [transfer]
    split <;> rfl
  have hr (u : Spi F) (w : Word) : (u.receive w).regs .SPISSR = u.regs .SPISSR := by
    simp only [receive]
    split
    · exact raise_regs_of_ne (by decide) ..
    · split
      · rw [raise_regs_of_ne (by decide), raise_regs_of_ne (by decide)]
      · rfl
  rw [flushOne, raise_regs_of_ne (by decide), raise_regs_of_ne (by decide),
    raise_regs_of_ne (by decide), lower_regs_of_ne (by decide), lower_regs_of_ne (by decide), hr, ht]

/-- One turn of the loop, with a selected slave and room for its answer. -/
theorem flushOne_moves (m : SpiSlave F) {s : Spi F} (hsel : s.regs .SPISSR &&& 1 = 0)
    (hroom : s.rx.toList.length < 1024) {b : BitVec 8} {bs : List (BitVec 8)}
    (hb : s.tx.toList = b :: bs) :
    (s.flushOne m).tx.toList = bs ∧
      (s.flushOne m).rx.toList =
        s.rx.toList ++ [(m.transfer8 s.flash (b.setWidth 32)).1.setWidth 8] ∧
      (s.flushOne m).flash = (m.transfer8 s.flash (b.setWidth 32)).2 := by
  obtain ⟨h1, h2⟩ := Fifo.pop_cons hb
  have hfull : s.rx.isFull = false :=
    Bool.eq_false_iff.2 fun h0 => by
      have := Fifo.isFull_iff.1 h0
      omega
  have ht : ({ s with tx := s.tx.pop.2 } : Spi F).transfer m s.tx.pop.1 =
      ((m.transfer8 s.flash (b.setWidth 32)).1,
        { s with tx := s.tx.pop.2, flash := (m.transfer8 s.flash (b.setWidth 32)).2 }) := by
    rw [transfer, if_pos hsel, h1]
  refine ⟨by rw [flushOne_tx, h2], ?_, ?_⟩
  · rw [← Fifo.toList_push hroom]
    simp only [flushOne, ht, raise_rx, lower_rx, receive, hfull]
    split
    · rename_i h0
      cases h0
    · split <;> rfl
  · simp only [flushOne, ht, raise_flash, lower_flash, receive, hfull]
    split
    · rename_i h0
      cases h0
    · split <;> rfl

theorem flushLoop_moves (m : SpiSlave F) (n : Nat) {s : Spi F} (hsel : s.regs .SPISSR &&& 1 = 0)
    (hroom : s.rx.toList.length + s.tx.toList.length ≤ 1024) (hn : s.tx.toList.length ≤ n) :
    (flushLoop m n s).rx.toList = s.rx.toList ++ m.responses s.flash s.tx.toList ∧
      (flushLoop m n s).flash = m.after s.flash s.tx.toList ∧
      (flushLoop m n s).regs .SPISSR = s.regs .SPISSR := by
  induction n generalizing s with
  | zero =>
    rw [List.length_eq_zero_iff.1 (Nat.le_zero.1 hn)]
    exact ⟨by simp [flushLoop, SpiSlave.responses], rfl, rfl⟩
  | succ n ih =>
    rw [flushLoop]
    split
    · rename_i he
      rw [Fifo.isEmpty_iff.1 he]
      exact ⟨by simp [SpiSlave.responses], rfl, rfl⟩
    · rename_i he
      obtain ⟨b, bs, hb⟩ := List.exists_cons_of_ne_nil fun h0 => he (Fifo.isEmpty_iff.2 h0)
      rw [hb, List.length_cons] at hroom hn
      obtain ⟨h1, h2, h3⟩ := flushOne_moves m hsel (by omega) hb
      have hss := flushOne_spissr m s
      obtain ⟨i1, i2, i3⟩ := ih (s := s.flushOne m) (by rw [hss]; exact hsel)
        (by rw [h1, h2, List.length_append, List.length_singleton]; omega) (by rw [h1]; omega)
      rw [i1, i2, i3, h1, h2, h3, hb]
      exact ⟨by simp [SpiSlave.responses], rfl, hss⟩

/-- A data write, a data read of a queue that is not empty, or an SPICR write that changes
    only the master inhibit bit; no queue is asked to hold more than it can. -/
inductive Transfers (s : Spi F) : SpiEvent → Prop
  | dtr {addr data : Word} (ha : addr >>> 2 = 0x68 / 4) (htx : s.tx.toList.length < 1024)
      (hrx : s.masterEnabled = true → s.rx.toList.length + (s.tx.toList.length + 1) ≤ 1024) :
      Transfers s (.write addr data)
  | drr {addr : Word} (ha : addr >>> 2 = 0x6C / 4) (hne : s.rx.toList ≠ []) :
      Transfers s (.read addr)
  | inhibit {addr data : Word} (ha : addr >>> 2 = 0x60 / 4)
      (hd : (data ^^^ s.regs .SPICR) &&& ~~~SPICR_MTI = 0)
      (hr : data &&& (SPICR_RXFF_RST ||| SPICR_TXFF_RST) = 0)
      (hrx : data &&& SPICR_MTI = 0 → s.rx.toList.length + s.tx.toList.length ≤ 1024) :
      Transfers s (.write addr data)

/-- Every event of the run is such a transfer. -/
def Exchange (m : SpiSlave F) : Spi F → List SpiEvent → Prop
  | _, [] => True
  | s, e :: es => s.Transfers e ∧ Exchange m (e.step m s) es

/-- The values that the reads of a run return. -/
def valuesRead (m : SpiSlave F) : Spi F → List SpiEvent → List Word
  | _, [] => []
  | s, .read addr :: es => (s.read addr).1 :: valuesRead m (s.read addr).2 es
  | s, e :: es => valuesRead m (e.step m s) es

/-- The bytes that a run writes to SPIDTR. -/
def bytesWritten : List SpiEvent → List (BitVec 8)
  | [] => []
  | .write addr data :: es =>
    if addr >>> 2 = 0x68 / 4 then data.setWidth 8 :: bytesWritten es else bytesWritten es
  | _ :: es => bytesWritten es

/-- `sent` has gone through the slave and come back as the bytes in `got` and in the receive
    queue; what else was written still waits. -/
structure History (m : SpiSlave F) (f : F) (written : List (BitVec 8)) (got : List Word)
    (sent : List (BitVec 8)) (s : Spi F) : Prop where
  selected : s.regs .SPISSR &&& 1 = 0
  flash : s.flash = m.after f sent
  written : sent ++ s.tx.toList = written
  received : got ++ s.rx.toList.map (·.setWidth 32) = (m.responses f sent).map (·.setWidth 32)

section History

variable {m : SpiSlave F} {f : F} {written : List (BitVec 8)} {got : List Word}
  {sent : List (BitVec 8)} {s : Spi F}

theorem History.flush (h : History m f written got sent s)
    (hroom : s.rx.toList.length + s.tx.toList.length ≤ 1024) :
    History m f written got (sent ++ s.tx.toList) (s.flushTxfifo m) := by
  obtain ⟨hrx, hfl, hss⟩ :=
    flushLoop_moves m s.tx.size h.selected hroom (Nat.le_of_eq Fifo.length_toList)
  have htx := flushTxfifo_tx m s
  refine ⟨by rw [flushTxfifo, hss]; exact h.selected, ?_, ?_, ?_⟩
  · rw [flushTxfifo, hfl, h.flash, SpiSlave.after_append]
  · rw [htx, List.append_nil, h.written]
  · rw [flushTxfifo, hrx, List.map_append, ← List.append_assoc, h.received, h.flash,
      SpiSlave.responses_append, List.map_append]

theorem History.same {t : Spi F} (h : History m f written got sent s)
    (hss : t.regs .SPISSR = s.regs .SPISSR) (hfl : t.flash = s.flash) (htx : t.tx = s.tx)
    (hrx : t.rx = s.rx) : History m f written got sent t :=
  ⟨by rw [hss]; exact h.selected, hfl.trans h.flash, by rw [htx]; exact h.written,
    by rw [hrx]; exact h.received⟩

theorem updateIrq_flash (s : Spi F) : s.updateIrq.flash = s.flash := by
  simp only [updateIrq]
  split <;> rfl

theorem History.updateIrq (h : History m f written got sent s) :
    History m f written got sent s.updateIrq :=
  h.same (updateIrq_regs s (by decide)) (updateIrq_flash s) (sameStatus_updateIrq s).tx
    (sameStatus_updateIrq s).rx

theorem pushTx_rx (data : Word) (s : Spi F) : (s.pushTx data).rx = s.rx := by
  simp only [Spi.pushTx]
  split <;> rfl

theorem pushTx_flash (data : Word) (s : Spi F) : (s.pushTx data).flash = s.flash := by
  simp only [Spi.pushTx]
  split <;> rfl

theorem pushTx_regs {r : SpiReg} (hr : r ≠ .SPISR) (data : Word) (s : Spi F) :
    (s.pushTx data).regs r = s.regs r := by
  simp only [Spi.pushTx]
  split
  · rw [raise_regs_of_ne hr]
    exact lower_regs_of_ne hr s _
  · exact lower_regs_of_ne hr s _

theorem History.pushTx (h : History m f written got sent s) (htx : s.tx.toList.length < 1024)
    (data : Word) : History m f (written ++ [data.setWidth 8]) got sent (s.pushTx data) := by
  refine ⟨by rw [pushTx_regs (by decide)]; exact h.selected, (pushTx_flash data s).trans h.flash, ?_,
    by rw [pushTx_rx]; exact h.received⟩
  rw [pushTx_tx, Fifo.toList_push htx, ← List.append_assoc, h.written]

theorem pushTx_masterEnabled (data : Word) (s : Spi F) :
    (s.pushTx data).masterEnabled = s.masterEnabled := by
  rw [masterEnabled, pushTx_regs (by decide), masterEnabled]

theorem History.writeSpidtr (h : History m f written got sent s) (htx : s.tx.toList.length < 1024)
    (hrx : s.masterEnabled = true → s.rx.toList.length + (s.tx.toList.length + 1) ≤ 1024)
    (data : Word) :
    ∃ sent', History m f (written ++ [data.setWidth 8]) got sent' (s.writeSpidtr m data) := by
  have hp := h.pushTx htx data
  rw [Spi.writeSpidtr]
  split
  · rename_i hm
    rw [pushTx_masterEnabled] at hm
    refine ⟨_, hp.flush ?_⟩
    rw [pushTx_rx, pushTx_tx, Fifo.toList_push htx, List.length_append, List.length_singleton]
    exact hrx hm
  · exact ⟨_, hp⟩

theorem History.takeRx (h : History m f written got sent s) (hne : s.rx.toList ≠ []) :
    History m f written (got ++ [s.takeRx.1]) sent s.takeRx.2 := by
  obtain ⟨x, l, hx⟩ := List.exists_cons_of_ne_nil hne
  obtain ⟨h1, h2⟩ := Fifo.pop_cons hx
  have hss : s.takeRx.2.regs .SPISSR = s.regs .SPISSR := by
    have hne' : SpiReg.SPISSR ≠ .SPISR := by decide
    simp only [Spi.takeRx]
    split
    · rw [raise_regs_of_ne hne']
      exact lower_regs_of_ne hne' s SR_RX_FULL
    · exact lower_regs_of_ne hne' s SR_RX_FULL
  obtain ⟨r2, r3, r4⟩ : s.takeRx.2.flash = s.flash ∧ s.takeRx.2.tx = s.tx ∧
      s.takeRx.2.rx = s.rx.pop.2 := by
    simp only [Spi.takeRx]
    split <;> exact ⟨rfl, rfl, rfl⟩
  have hv : s.takeRx.1 = x.setWidth 32 := congrArg (BitVec.setWidth 32) h1
  refine ⟨by rw [hss]; exact h.selected, r2.trans h.flash, by rw [r3]; exact h.written, ?_⟩
  rw [← h.received, r4, h2, hv, hx]
  simp

theorem and_or_eq_zero {d a b : Word} (h : d &&& (a ||| b) = 0) : d &&& a = 0 ∧ d &&& b = 0 := by
  rw [BitVec.and_or_distrib_left] at h
  exact BitVec.or_eq_zero_iff.1 h

theorem History.writeSpicr (h : History m f written got sent s) {data : Word}
    (hr : data &&& (SPICR_RXFF_RST ||| SPICR_TXFF_RST) = 0)
    (hrx : data &&& SPICR_MTI = 0 → s.rx.toList.length + s.tx.toList.length ≤ 1024) :
    ∃ sent', History m f written got sent' (s.writeSpicr m data) := by
  obtain ⟨h1, h2⟩ := and_or_eq_zero hr
  have hnone : s.resetFifos data = s := by simp [resetFifos, h1, h2]
  have hdata : data &&& ~~~(SPICR_RXFF_RST ||| SPICR_TXFF_RST) &&& SPICR_MTI =
      data &&& SPICR_MTI := by
    rw [BitVec.and_assoc]
    congr 1
  have hne : SpiReg.SPISSR ≠ .SPICR := by decide
  have hset (v : Word) : History m f written got sent (s.set .SPICR v) :=
    h.same (Function.update_of_ne hne v s.regs) rfl rfl rfl
  rw [Spi.writeSpicr, hnone, hdata]
  split
  · rename_i hm
    exact ⟨_, (hset _).flush (hrx hm)⟩
  · exact ⟨_, hset _⟩

/-- One transfer. -/
theorem History.step (h : History m f written got sent s) {e : SpiEvent} (he : s.Transfers e) :
    ∃ sent', History m f (written ++ bytesWritten [e]) (got ++ valuesRead m s [e]) sent'
      (e.step m s) := by
  cases he with
  | @dtr addr data ha htx hrx =>
    obtain ⟨sent', h'⟩ := h.writeSpidtr htx hrx data
    refine ⟨sent', ?_⟩
    have hw : s.write m addr data = (s.writeSpidtr m data).updateIrq := by
      simp only [Spi.write, ha]
      rfl
    simp only [SpiEvent.step, hw, bytesWritten, ha, if_true, valuesRead, List.append_nil]
    exact h'.updateIrq
  | @drr addr ha hne =>
    have hemp : s.rx.isEmpty = false := Bool.eq_false_iff.2 fun h0 => hne (Fifo.isEmpty_iff.1 h0)
    have hr : s.read addr = (s.takeRx.1, s.takeRx.2.updateIrq) := by
      rw [Spi.read, if_pos ha, hemp]
      rfl
    refine ⟨sent, ?_⟩
    simp only [SpiEvent.step, hr, bytesWritten, valuesRead, List.append_nil]
    exact (h.takeRx hne).updateIrq
  | @inhibit addr data ha hd hr hrx =>
    obtain ⟨sent', h'⟩ := h.writeSpicr hr hrx
    refine ⟨sent', ?_⟩
    have hw : s.write m addr data = (s.writeSpicr m data).updateIrq := by
      simp only [Spi.write, ha]
      rfl
    have hne : ¬addr >>> 2 = 0x68 / 4 := by
      rw [ha]
      decide
    simp only [SpiEvent.step, hw, bytesWritten, hne, if_false, valuesRead, List.append_nil]
    exact h'.updateIrq

theorem bytesWritten_cons (e : SpiEvent) (es : List SpiEvent) :
    bytesWritten (e :: es) = bytesWritten [e] ++ bytesWritten es := by
  cases e with
  | read addr => rfl
  | write addr data =>
    simp only [bytesWritten]
    split <;> rfl
  | poll => rfl

theorem valuesRead_cons (s : Spi F) (e : SpiEvent) (es : List SpiEvent) :
    valuesRead m s (e :: es) = valuesRead m s [e] ++ valuesRead m (e.step m s) es := by
  cases e <;> rfl

theorem History.run (es : List SpiEvent) (h : History m f written got sent s)
    (hes : Exchange m s es) :
    ∃ sent', History m f (written ++ bytesWritten es) (got ++ valuesRead m s es) sent'
      (s.run m es) := by
  induction es generalizing s written got sent with
  | nil => exact ⟨sent, by simpa [bytesWritten, valuesRead, Spi.run] using h⟩
  | cons e es ih =>
    obtain ⟨sent', h'⟩ := h.step hes.1
    rw [bytesWritten_cons, valuesRead_cons, ← List.append_assoc, ← List.append_assoc]
    exact ih h' hes.2

end History

end Spi

/-- What was read and what waits in the receive queue are the answers to the bytes that no
    longer wait in the transmit queue. -/
theorem spi_history (m : SpiSlave F) (s : Spi F) (es : List SpiEvent) (htx : s.tx.toList = [])
    (hrx : s.rx.toList = []) (hss : s.regs .SPISSR &&& 1 = 0) (hes : Spi.Exchange m s es) :
    ∃ sent, sent ++ (s.run m es).tx.toList = Spi.bytesWritten es ∧
      Spi.valuesRead m s es ++ (s.run m es).rx.toList.map (·.setWidth 32) =
        (m.responses s.flash sent).map (·.setWidth 32) := by
  have h0 : Spi.History m s.flash [] [] [] s :=
    ⟨hss, rfl, by simpa using htx, by simp [hrx, SpiSlave.responses]⟩
  obtain ⟨sent, h⟩ := h0.run es hes
  exact ⟨sent, by simpa using h.written, by simpa using h.received⟩

/-- The controller with the flash of an emulator without a backing file, selected. -/
def spiSelected : Spi Flash :=
  (Spi.init flashSlave ((flashInit (fun _ => 0) none).get rfl) 0).write flashSlave 0x70 0xfffffffe

/-- The guest asks for the manufacturer, first while the master is inhibited. -/
def askManufacturer : List SpiEvent :=
  [.write 0x68 0x9f, .write 0x68 0, .write 0x60 0x080, .read 0x6c, .read 0x6c]

theorem spi_history_manufacturer :
    ∃ sent, sent ++ (spiSelected.run flashSlave askManufacturer).tx.toList = [0x9f, 0] ∧
      [0, 0x20] ++ (spiSelected.run flashSlave askManufacturer).rx.toList.map (·.setWidth 32) =
        (flashSlave.responses spiSelected.flash sent).map (·.setWidth 32) := by
  have hes : Spi.Exchange flashSlave spiSelected askManufacturer :=
    ⟨.dtr (by decide) (by decide) (by decide), .dtr (by decide) (by decide) (by decide),
      .inhibit (by decide) (by decide) (by decide) (by decide), .drr (by decide) (by decide),
      .drr (by decide) (by decide), trivial⟩
  exact spi_history flashSlave spiSelected askManufacturer (by decide) (by decide) (by decide) hes

end NemuMips32
