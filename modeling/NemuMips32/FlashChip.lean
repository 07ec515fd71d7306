/-
  The flash as its guest sees it (`flash.c` behind `xlnx-spi.c`): an array of bytes that is
  programmed, erased and read by transactions. The guest selects the chip, sends a command with
  its address and data, and deselects it.

  `Chip` is that array with the few registers a transaction can tell apart, and `Chip.after` and
  `Chip.answers` are what a transaction does to it. `flash_refines`: in every sequence of
  transactions that the guest carries out through the registers of the SPI controller, it reads
  the answers of the chip.

  The chip is not quite the one of a data sheet: a program command needs no write enable, does
  not stay in its page, and the latch survives both programming and erasing.
-/
import NemuMips32.FlashStorage
import NemuMips32.Spi

namespace NemuMips32

/-! ## The chip -/

/-- The bytes from the start of the storage on, and the registers that a transaction sees. -/
structure Chip where
  bytes : Nat → BitVec 8
  size : Nat
  id : List (BitVec 8)
  writeEnable : Bool
  fourBytes : Bool
  bank : BitVec 8
  dummies : Nat

namespace FlashCMD

/-- The commands that wait for dummy bytes behind the address. -/
def isFast : FlashCMD → Bool
  | .FAST_READ | .FAST_READ4 | .DOR | .DOR4 | .QOR | .QOR4 | .DIOR | .DIOR4 | .QIOR | .QIOR4 => true
  | _ => false

def isRead (c : FlashCMD) : Bool := c = .READ || c = .READ4 || c.isFast

def isProgram : FlashCMD → Bool
  | .DPP | .QPP | .QPP_4 | .PP | .PP4 | .PP4_4 => true
  | _ => false

/-- The commands whose address has four bytes in either mode. -/
def takesFour : FlashCMD → Bool
  | .PP4 | .PP4_4 | .QPP_4 | .READ4 | .QIOR4 | .ERASE4_4K | .ERASE4_32K | .ERASE4_SECTOR
  | .FAST_READ4 | .DOR4 | .QOR4 | .DIOR4 => true
  | _ => false

/-- How much an erase command with an address erases. -/
def erases : FlashCMD → Option Nat
  | .ERASE_4K | .ERASE4_4K => some 4096
  | .ERASE_32K | .ERASE4_32K => some 32768
  | .ERASE_SECTOR | .ERASE4_SECTOR => some 65536
  | _ => none

end FlashCMD

/-- What the guest sends while the chip is selected. The bytes of `pad` only clock out answers. -/
inductive Transaction where
  | latch (on : Bool)
  | addressMode (four : Bool)
  | bank (op value : BitVec 8)
  | dummies (value : BitVec 8)
  | status (pad : List (BitVec 8))
  | flagStatus (pad : List (BitVec 8))
  | identify (pad : List (BitVec 8))
  | read (op : BitVec 8) (addr skip pad : List (BitVec 8))
  | program (op : BitVec 8) (addr data : List (BitVec 8))
  | erase (op : BitVec 8) (addr : List (BitVec 8))
  | eraseAll (op : BitVec 8)

namespace Transaction

def sent : Transaction → List (BitVec 8)
  | latch on => [if on then 0x06 else 0x04]
  | addressMode four => [if four then 0xb7 else 0xe9]
  | bank op value => [op, value]
  | dummies value => [0x81, value]
  | status pad => 0x05 :: pad
  | flagStatus pad => 0x70 :: pad
  | identify pad => 0x9f :: pad
  | read op addr skip pad => op :: (addr ++ skip ++ pad)
  | program op addr data => op :: (addr ++ data)
  | erase op addr => op :: addr
  | eraseAll op => [op]

end Transaction

namespace Chip

/-- The number of address bytes that a command takes. -/
def addressLength (c : Chip) (cmd : FlashCMD) : Nat :=
  if cmd.takesFour || c.fourBytes then 4 else 3

/-- The address that some bytes stand for; the bank register is the fourth byte of a short one. -/
def address (c : Chip) (addr : List (BitVec 8)) : Nat :=
  addr.foldl (fun a b => 256 * a + b.toNat) (if addr.length = 3 then c.bank.toNat else 0) % c.size

/-- The bytes from an address on; the chip wraps at its end. -/
def stream (c : Chip) (a n : Nat) : List (BitVec 8) :=
  (List.range n).map fun k => c.bytes ((a + k) % c.size)

/-- Programming clears bits. -/
def programmed (c : Chip) : Nat → List (BitVec 8) → Chip
  | _, [] => c
  | a, b :: data =>
    programmed { c with bytes := Function.update c.bytes a (c.bytes a &&& b) } ((a + 1) % c.size) data

def erased (c : Chip) (a n : Nat) : Chip :=
  if c.writeEnable then
    { c with bytes := fun i => if a ≤ i ∧ i < a + n then 0xff else c.bytes i }
  else c

/-- The command is one of its kind, has the address bytes that the chip waits for, and erases
    nothing behind the end of the part. -/
def Accepts (c : Chip) : Transaction → Prop
  | .bank op _ => c.writeEnable = true ∧ (op = 0x17 ∨ op = 0xc5)
  | .dummies _ => c.writeEnable = true
  | .identify pad => pad.length ≤ c.id.length
  | .read op addr skip _ =>
    (FlashCMD.ofByte op).isRead = true ∧ addr.length = c.addressLength (.ofByte op) ∧
      skip.length = (if (FlashCMD.ofByte op).isFast then c.dummies else 0) ∧
      addr.length + skip.length ≤ 16
  | .program op addr _ =>
    (FlashCMD.ofByte op).isProgram = true ∧ addr.length = c.addressLength (.ofByte op)
  | .erase op addr =>
    (FlashCMD.ofByte op).erases.isSome = true ∧ addr.length = c.addressLength (.ofByte op) ∧
      c.address addr + (FlashCMD.ofByte op).erases.getD 0 ≤ c.size
  | .eraseAll op => op = 0x60 ∨ op = 0xc7
  | _ => True

def after (c : Chip) : Transaction → Chip
  | .latch on => { c with writeEnable := on }
  | .addressMode four => { c with fourBytes := four }
  | .bank _ value => { c with bank := value }
  | .dummies value => { c with dummies := value.toNat / 16 }
  | .program _ addr data => c.programmed (c.address addr) data
  | .erase op addr => c.erased (c.address addr) ((FlashCMD.ofByte op).erases.getD 0)
  | .eraseAll _ => c.erased 0 c.size
  | _ => c

/-- One byte for each byte sent. -/
def answers (c : Chip) : Transaction → List (BitVec 8)
  | .status pad => 0 :: pad.map fun _ => if c.writeEnable then 0x02 else 0
  | .flagStatus pad => 0 :: pad.map fun _ => if c.fourBytes then 0x81 else 0x80
  | .identify pad => 0 :: c.id.take pad.length
  | .read _ addr skip pad =>
    List.replicate (1 + (addr.length + skip.length)) 0 ++ c.stream (c.address addr) pad.length
  | t => List.replicate t.sent.length 0

/-- The chip answers a sequence of transactions. -/
def dialog (c : Chip) : List Transaction → List (BitVec 8)
  | [] => []
  | t :: ts => c.answers t ++ (c.after t).dialog ts

def afterAll (c : Chip) (ts : List Transaction) : Chip := ts.foldl after c

def AcceptsAll : Chip → List Transaction → Prop
  | _, [] => True
  | c, t :: ts => c.Accepts t ∧ (c.after t).AcceptsAll ts

/-! ### The end of the part -/

@[simp] theorem size_programmed (c : Chip) (a : Nat) (data : List (BitVec 8)) :
    (c.programmed a data).size = c.size := by
  induction data generalizing c a with
  | nil => rfl
  | cons b data ih => rw [programmed, ih]

@[simp] theorem size_erased (c : Chip) (a n : Nat) : (c.erased a n).size = c.size := by
  unfold erased
  split <;> rfl

@[simp] theorem size_after (c : Chip) (t : Transaction) : (c.after t).size = c.size := by
  cases t <;> simp [after]

variable {c : Chip} {i : Nat}

/-- Programming wraps at the end of the part. -/
theorem programmed_behind {a : Nat} (ha : a < c.size) (data : List (BitVec 8)) (hi : c.size ≤ i) :
    (c.programmed a data).bytes i = c.bytes i := by
  induction data generalizing c a with
  | nil => rfl
  | cons b data ih =>
    rw [programmed, ih]
    · exact Function.update_of_ne (by omega) ..
    · exact Nat.mod_lt _ (by omega)
    · exact hi

theorem erased_behind {a n : Nat} (ha : a + n ≤ c.size) (hi : c.size ≤ i) :
    (c.erased a n).bytes i = c.bytes i := by
  unfold erased
  split
  · exact if_neg (by omega)
  · rfl

theorem after_behind {t : Transaction} (ht : c.Accepts t) (hs : 0 < c.size) (hi : c.size ≤ i) :
    (c.after t).bytes i = c.bytes i := by
  cases t with
  | program op addr data => exact programmed_behind (Nat.mod_lt _ hs) data hi
  | erase op addr => exact erased_behind ht.2.2 hi
  | eraseAll op => exact erased_behind (by rw [Nat.zero_add]) hi
  | _ => rfl

/-- No transaction that the chip accepts writes behind its end. -/
theorem afterAll_behind {ts : List Transaction} (ht : c.AcceptsAll ts) (hs : 0 < c.size)
    (hi : c.size ≤ i) : (c.afterAll ts).bytes i = c.bytes i := by
  induction ts generalizing c with
  | nil => rfl
  | cons t ts ih =>
    show ((c.after t).afterAll ts).bytes i = c.bytes i
    rw [ih ht.2, after_behind ht.1 hs hi]
    · rwa [size_after]
    · rwa [size_after]

end Chip

/-! ## The flash as a chip -/

namespace Flash

/-- What a transaction can tell of the flash. -/
def chip (s : Flash) : Chip where
  bytes := s.storage
  size := s.size.toNat
  id := s.pi.id.take s.pi.idLen
  writeEnable := s.writeEnable
  fourBytes := s.fourBytesAddressMode
  bank := s.ear
  dummies := s.fastReadDummy

/-- Between two transactions. -/
structure Settled (s : Flash) : Prop where
  sound : s.Sound
  idle : s.state = .idle
  once : s.dataReadLoop = false

variable {s : Flash}

theorem Sound.after (h : s.Sound) (bs : List (BitVec 8)) : (flashSlave.after s bs).Sound := by
  induction bs generalizing s with
  | nil => exact h
  | cons b bs ih => exact ih (sound_step h (.transfer (b.setWidth 32)))

theorem Sound.size_pow (h : s.Sound) : ∃ k, s.size.toNat = 2 ^ k := by
  rw [h.size]
  have hall : ∀ p ∈ parts, p.size.toNat = 2 ^ 29 ∨ p.size.toNat = 2 ^ 30 ∨ p.size.toNat = 2 ^ 31 := by
    decide
  obtain hp | hp | hp := hall _ h.part
  · exact ⟨29, hp⟩
  · exact ⟨30, hp⟩
  · exact ⟨31, hp⟩

/-- Masking with `size - 1` is reduction modulo the size. -/
theorem Sound.masked_eq (h : s.Sound) (a : Word) :
    (a &&& (s.size - 1)).toNat = a.toNat % s.size.toNat := by
  obtain ⟨k, hk⟩ := h.size_pow
  have hs := h.size_spec
  have hsub : (s.size - 1).toNat = s.size.toNat - 1 :=
    BitVec.toNat_sub_of_le (show 1 ≤ s.size.toNat by omega)
  rw [BitVec.toNat_and, hsub, hk, Nat.and_two_pow_sub_one_eq_mod]

theorem Sound.nextAddr_eq (h : s.Sound) : s.nextAddr.toNat = (s.curAddr.toNat + 1) % s.size.toNat := by
  have hs := h.size_spec
  have ha := h.addr
  rw [nextAddr, h.masked_eq, BitVec.toNat_add, Nat.mod_eq_of_lt (a := s.curAddr.toNat + _)]
  · rfl
  · show s.curAddr.toNat + 1 < 2 ^ 32
    omega

/-! ### Deselecting -/

theorem chip_syncArea (s : Flash) (off len : Nat) : (s.syncArea off len).chip = s.chip := by
  unfold syncArea
  split <;> rfl

theorem chip_syncDirty (s : Flash) (np : Option Nat) : (s.syncDirty np).chip = s.chip := by
  unfold syncDirty
  split
  · rfl
  · split
    · rfl
    · exact chip_syncArea s _ _

theorem state_syncDirty (s : Flash) (np : Option Nat) : (s.syncDirty np).state = s.state := by
  unfold syncDirty syncPage syncArea
  split
  · rfl
  · split
    · rfl
    · split <;> rfl

/-- The chip is deselected after a transaction. -/
theorem deselect (h : s.Sound) : (s.cs true).chip = s.chip ∧ (s.cs true).Settled := by
  have hs : s.cs true = { s.toIdle.syncDirty none with dataReadLoop := false } := by
    rw [cs, if_pos rfl, if_neg h.fixed]
  refine ⟨?_, sound_step h (.cs true), ?_, ?_⟩
  · rw [hs]
    exact chip_syncDirty s.toIdle none
  · rw [hs]
    exact state_syncDirty s.toIdle none
  · rw [hs]

/-! ### The phases of a transaction -/

theorem sent_byte (b : BitVec 8) : (b.setWidth 32).setWidth 8 = b := by
  rw [BitVec.setWidth_setWidth_of_le b (by decide), BitVec.setWidth_eq]

theorem command (hs : s.state = .idle) (b : BitVec 8) (bs : List (BitVec 8)) :
    flashSlave.after s (b :: bs) = flashSlave.after (s.decodeNewCmd b) bs ∧
      flashSlave.responses s (b :: bs) = 0 :: flashSlave.responses (s.decodeNewCmd b) bs := by
  have ht : flashSlave.transfer8 s (b.setWidth 32) = (0, s.decodeNewCmd b) := by
    show s.transfer8 (b.setWidth 32) = _
    rw [transfer8, hs]
    simp only [sent_byte]
  exact ⟨by rw [SpiSlave.after, ht], by rw [SpiSlave.responses, ht]; rfl⟩

theorem collect_byte (hs : s.state = .collectingData) (hl : s.len < 16) (b : BitVec 8) :
    flashSlave.transfer8 s (b.setWidth 32) =
      (0, if s.len + 1 = s.neededBytes then (s.gathered b).completeCollectingData
        else s.gathered b) := by
  show s.transfer8 (b.setWidth 32) = _
  rw [transfer8, hs]
  simp only [sent_byte, collectByte, if_neg (Nat.not_le_of_lt hl)]
  rfl

/-- The chip collects the bytes it waits for, and completes the command with the last one. -/
theorem collected {bs : List (BitVec 8)} (hs : s.state = .collectingData) (hne : bs ≠ [])
    (hn : s.len + bs.length = s.neededBytes) (h16 : s.neededBytes ≤ 16) :
    flashSlave.after s bs = (bs.foldl gathered s).completeCollectingData ∧
      flashSlave.responses s bs = List.replicate bs.length 0 := by
  induction bs generalizing s with
  | nil => exact absurd rfl hne
  | cons b bs ih =>
    rw [List.length_cons] at hn
    have ht := collect_byte hs (show s.len < 16 by omega) b
    cases bs with
    | nil =>
      rw [if_pos (show s.len + 1 = s.neededBytes from hn)] at ht
      exact ⟨by rw [SpiSlave.after, ht]; rfl, by rw [SpiSlave.responses, ht]; rfl⟩
    | cons b' bs =>
      rw [List.length_cons] at hn
      rw [if_neg (by omega)] at ht
      have hg := ih (s := s.gathered b) hs (by simp)
        (show s.len + 1 + (bs.length + 1) = s.neededBytes by omega) h16
      exact ⟨by rw [SpiSlave.after, ht, hg.1]; rfl, by rw [SpiSlave.responses, ht, hg.2]; rfl⟩

/-- Collecting fills `data` and changes nothing else that the chip looks at. -/
theorem gathered_eq (bs : List (BitVec 8)) :
    ∃ d n l, bs.foldl gathered s = { s with data := d, len := n, touched := l } ∧
      (∀ i, i < bs.length → d (s.len + i) = bs.getD i 0) ∧ ∀ i, i < s.len → d i = s.data i := by
  induction bs generalizing s with
  | nil => exact ⟨s.data, s.len, s.touched, rfl, fun i hi => absurd hi (by simp), fun _ _ => rfl⟩
  | cons b bs ih =>
    obtain ⟨d, n, l, he, hnew, hold⟩ := ih (s := s.gathered b)
    have hlen : (s.gathered b).len = s.len + 1 := rfl
    rw [hlen] at hnew hold
    refine ⟨d, n, l, by rw [List.foldl_cons, he]; rfl, fun i hi => ?_, fun i hi => ?_⟩
    · cases i with
      | zero =>
        rw [Nat.add_zero, hold s.len (by omega)]
        exact Function.update_self ..
      | succ i =>
        rw [show s.len + (i + 1) = s.len + 1 + i by omega, hnew i (by simpa using hi)]
        rfl
    · rw [hold i (by omega)]
      exact Function.update_of_ne (by omega) ..

/-! ### Addresses -/

theorem addrLength_eq (h : s.Sound) : s.addrLength = s.chip.addressLength s.cmdInProgress := by
  have hf : s.pi.flags ≠ EEPROM := by
    rw [(parts_spec _ h.part).2.1]
    decide
  rw [addrLength, if_neg hf, Chip.addressLength]
  cases s.cmdInProgress <;> rfl

theorem toNat_append_byte (a : Word) (b : BitVec 8) :
    ((a <<< 8) ||| b.setWidth 32).toNat = (256 * a.toNat + b.toNat) % 2 ^ 32 := by
  have hdis : (a <<< 8) &&& b.setWidth 32 = 0 := by
    ext i hi
    by_cases h8 : i < 8 <;> simp [h8]
    exact fun _ => BitVec.getLsbD_of_ge b i (by omega)
  have hb : b.toNat % 2 ^ 32 = b.toNat := Nat.mod_eq_of_lt (by have := b.isLt; omega)
  rw [← BitVec.add_eq_or_of_and_eq_zero _ _ hdis, BitVec.toNat_add, BitVec.toNat_shiftLeft,
    BitVec.toNat_setWidth, hb, Nat.shiftLeft_eq, Nat.mod_add_mod, Nat.mul_comm]

theorem toNat_fold (addr : List (BitVec 8)) (a : Word) :
    (addr.foldl (fun (a : Word) b => (a <<< 8) ||| b.setWidth 32) a).toNat =
      addr.foldl (fun a b => 256 * a + b.toNat) a.toNat % 2 ^ 32 := by
  induction addr using List.reverseRecOn with
  | nil => exact (Nat.mod_eq_of_lt a.isLt).symm
  | append_singleton addr b ih =>
    rw [List.foldl_append, List.foldl_append, List.foldl_cons, List.foldl_nil, List.foldl_cons,
      List.foldl_nil, toNat_append_byte, ih, Nat.add_mod, Nat.mul_mod_mod, ← Nat.add_mod]

theorem fold_lt (addr : List (BitVec 8)) {a k : Nat} (ha : a < 256 ^ k) :
    addr.foldl (fun a b => 256 * a + b.toNat) a < 256 ^ (k + addr.length) := by
  induction addr generalizing a k with
  | nil => exact ha
  | cons b addr ih =>
    have hb := b.isLt
    rw [List.foldl_cons, List.length_cons, show k + (addr.length + 1) = k + 1 + addr.length by omega]
    refine ih ?_
    rw [pow_succ]
    omega

/-- The address that `complete_collecting_data` makes of what was collected. -/
theorem collectedAddr_eq (h : s.Sound) {addr : List (BitVec 8)} (hn : addr.length = s.addrLength)
    (hd : ∀ i, i < addr.length → s.data i = addr.getD i 0) :
    s.collectedAddr.toNat = s.chip.address addr := by
  have hlist : (List.range s.addrLength).map s.data = addr := by
    refine List.ext_getElem (by simp [hn]) fun i h1 h2 => ?_
    rw [List.getElem_map, List.getElem_range, hd i h2, List.getD_eq_getElem?_getD,
      List.getElem?_eq_getElem h2]
    rfl
  have hfold (a : Word) : (List.range s.addrLength).foldl
      (fun (a : Word) i => (a <<< 8) ||| (s.data i).setWidth 32) a =
        addr.foldl (fun (a : Word) b => (a <<< 8) ||| b.setWidth 32) a := by
    rw [← List.foldl_map (f := s.data) (g := fun (a : Word) b => (a <<< 8) ||| b.setWidth 32), hlist]
  have hear : s.ear.toNat < 256 ^ 1 := s.ear.isLt
  have hword : s.ear.toNat % 2 ^ 32 = s.ear.toNat := Nat.mod_eq_of_lt (by omega)
  simp only [collectedAddr, hfold]
  rw [h.masked_eq, toNat_fold, Chip.address, hn]
  congr 1
  split
  · rename_i h3
    rw [BitVec.toNat_setWidth, hword]
    refine Nat.mod_eq_of_lt (lt_of_lt_of_le (fold_lt addr hear) ?_)
    rw [hn, h3]
    decide
  · have hz : (0 : Nat) < 256 ^ 0 := Nat.one_pos
    refine Nat.mod_eq_of_lt (lt_of_lt_of_le (fold_lt addr hz) ?_)
    rw [hn, Nat.zero_add]
    exact le_trans (Nat.pow_le_pow_right (by decide) (addrLength_le s)) (by decide)

/-! ### Commands with operands -/

theorem Sound.gathered (h : s.Sound) {bs : List (BitVec 8)} (hl : s.len + bs.length ≤ 16) :
    (bs.foldl Flash.gathered s).Sound := by
  induction bs generalizing s with
  | nil => exact h
  | cons b bs ih =>
    rw [List.length_cons] at hl
    exact ih (gathered_spec h (by omega) b).1 (show s.len + 1 + bs.length ≤ 16 by omega)

/-- The chip has taken a command and the bytes it waited for. -/
structure Taken (s t : Flash) (cmd : FlashCMD) (args : List (BitVec 8)) : Prop where
  sound : t.Sound
  chip : t.chip = s.chip
  cmd : t.cmdInProgress = cmd
  data : ∀ i, i < args.length → t.data i = args.getD i 0

theorem operands (h : s.Settled) {op : BitVec 8} {args : List (BitVec 8)} (hne : args ≠ [])
    (h16 : args.length ≤ 16)
    (hdec : (s.noted (.ofByte op)).decodeCmd (.ofByte op) =
      (s.noted (.ofByte op)).collect args.length) (rest : List (BitVec 8)) :
    ∃ t, Taken s t (.ofByte op) args ∧
      flashSlave.after s (op :: (args ++ rest)) = flashSlave.after t.completeCollectingData rest ∧
      flashSlave.responses s (op :: (args ++ rest)) =
        List.replicate (1 + args.length) 0 ++
          flashSlave.responses t.completeCollectingData rest := by
  obtain ⟨hafter, hresp⟩ := command h.idle op (args ++ rest)
  rw [decodeNewCmd, hdec] at hafter hresp
  generalize hu : (s.noted (.ofByte op)).collect args.length = u at hafter hresp
  have husound : u.Sound := hu ▸ (h.sound.noted _).collect _
  have hulen : u.len = 0 := by rw [← hu]; rfl
  obtain ⟨hall, hzero⟩ := collected (s := u) (by rw [← hu]; rfl) hne
    (by rw [← hu]; exact Nat.zero_add _) (by rw [← hu]; exact h16)
  obtain ⟨d, n, l, he, hd, -⟩ := gathered_eq (s := u) args
  refine ⟨args.foldl Flash.gathered u, ⟨husound.gathered (by omega), ?_, ?_, fun i hi => ?_⟩, ?_, ?_⟩
  · rw [he, ← hu]
    rfl
  · rw [he, ← hu]
    rfl
  · have hi' := hd i hi
    rw [hulen, Nat.zero_add] at hi'
    rw [he]
    exact hi'
  · rw [hafter, SpiSlave.after_append, hall]
  · rw [hresp, SpiSlave.responses_append, hall, hzero, Nat.add_comm, List.replicate_succ]
    rfl

/-- Its address has been looked at. -/
theorem Taken.addressed {t : Flash} {cmd : FlashCMD} {addr skip : List (BitVec 8)}
    (ht : Taken s t cmd (addr ++ skip)) (hn : addr.length = s.chip.addressLength cmd) :
    t.addressed.Sound ∧ t.addressed.chip = s.chip ∧
      t.addressed.curAddr.toNat = s.chip.address addr := by
  refine ⟨ht.sound.addressed, ht.chip, ?_⟩
  have hl : addr.length = t.addrLength := by rw [addrLength_eq ht.sound, ht.chip, ht.cmd, hn]
  have haddr := collectedAddr_eq ht.sound hl fun i hi => ?_
  · rw [← ht.chip]
    exact haddr
  · rw [ht.data i (by rw [List.length_append]; omega), List.getD_eq_getElem?_getD,
      List.getElem?_append_left hi, List.getD_eq_getElem?_getD]

/-! ### Data -/

theorem stream_succ (c : Chip) (a n : Nat) (ha : a < c.size) :
    c.stream a (n + 1) = c.bytes a :: c.stream ((a + 1) % c.size) n := by
  rw [Chip.stream, List.range_succ_eq_map, List.map_cons, List.map_map, Nat.add_zero,
    Nat.mod_eq_of_lt ha]
  refine congrArg _ (List.map_congr_left fun k _ => ?_)
  rw [Function.comp_apply, Nat.mod_add_mod, Nat.add_assoc, Nat.add_comm 1 k]

theorem reading (h : s.Sound) (hs : s.state = .read) (pad : List (BitVec 8)) :
    flashSlave.responses s pad = s.chip.stream s.curAddr.toNat pad.length ∧
      (flashSlave.after s pad).chip = s.chip := by
  induction pad generalizing s with
  | nil => exact ⟨rfl, rfl⟩
  | cons b pad ih =>
    have ht : flashSlave.transfer8 s (b.setWidth 32) =
        ((s.storage s.curAddr.toNat).setWidth 32,
          { s.touch (.readStorage s.curAddr.toNat 1) with curAddr := s.nextAddr }) := by
      show s.transfer8 _ = _
      rw [transfer8, hs]
    have hnext := sound_step h (.transfer (b.setWidth 32))
    have heq : FlashEvent.step s (.transfer (b.setWidth 32)) =
        { s.touch (.readStorage s.curAddr.toNat 1) with curAddr := s.nextAddr } :=
      congrArg Prod.snd ht
    rw [heq] at hnext
    obtain ⟨hr, hc⟩ := ih hnext hs
    rw [SpiSlave.responses, SpiSlave.after, ht, hr, hc, List.length_cons,
      stream_succ _ _ _ (show s.curAddr.toNat < s.chip.size from h.addr), sent_byte]
    exact ⟨congrArg (fun a => s.chip.bytes s.curAddr.toNat :: s.chip.stream a pad.length)
      h.nextAddr_eq, rfl⟩

theorem chip_write8 (h : s.Sound) (b : BitVec 8) :
    ({ s.write8 s.curAddr b with curAddr := s.nextAddr } : Flash).chip =
      { s.chip with
        bytes := Function.update s.storage s.curAddr.toNat (s.storage s.curAddr.toNat &&& b) } := by
  have hf : ¬s.pi.flags &&& EEPROM ≠ 0 := by
    rw [(parts_spec _ h.part).2.1]
    decide
  have hp : (s.program b).chip =
      { s.chip with
        bytes := Function.update s.storage s.curAddr.toNat (s.storage s.curAddr.toNat &&& b) } :=
    congrArg (fun v => ({ s.chip with
      bytes := Function.update s.storage s.curAddr.toNat v } : Chip)) (if_neg hf)
  rw [← hp, ← chip_syncDirty (s.program b) (some s.page), write8_eq h]
  rfl

theorem programming (h : s.Sound) (hs : s.state = .pageProgram) (data : List (BitVec 8)) :
    flashSlave.responses s data = List.replicate data.length 0 ∧
      (flashSlave.after s data).chip = s.chip.programmed s.curAddr.toNat data := by
  induction data generalizing s with
  | nil => exact ⟨rfl, rfl⟩
  | cons b data ih =>
    have ht : flashSlave.transfer8 s (b.setWidth 32) =
        (0, { s.write8 s.curAddr b with curAddr := s.nextAddr }) := by
      show s.transfer8 _ = _
      rw [transfer8, hs]
      simp only [sent_byte]
    have hstate : (s.write8 s.curAddr b).state = .pageProgram := by
      rw [write8_eq h]
      exact (state_syncDirty (s.program b) _).trans hs
    obtain ⟨hr, hc⟩ := ih (s := { s.write8 s.curAddr b with curAddr := s.nextAddr }) (h.write8 b)
      hstate
    rw [SpiSlave.responses, SpiSlave.after, ht, hr, hc, chip_write8 h]
    refine ⟨rfl, ?_⟩
    rw [Chip.programmed]
    exact congrArg (fun a => Chip.programmed _ a data) h.nextAddr_eq

/-- One byte, answered over and over. -/
theorem repeating (hs : s.state = .readingData) (hp : s.pos = 0) (hl : s.len = 1)
    (ho : s.dataReadLoop = true) (pad : List (BitVec 8)) :
    flashSlave.responses s pad = pad.map (fun _ => s.data 0) ∧
      (flashSlave.after s pad).chip = s.chip := by
  induction pad generalizing s with
  | nil => exact ⟨rfl, rfl⟩
  | cons b pad ih =>
    have ht : flashSlave.transfer8 s (b.setWidth 32) =
        ((s.data 0).setWidth 32, { s.touch (.data 0 1) with pos := 0 }) := by
      show s.transfer8 _ = _
      rw [transfer8, hs]
      simp only [answerByte, hp, hl, ho, touch]
      simp
    obtain ⟨hr, hc⟩ := ih (s := { s.touch (.data 0 1) with pos := 0 }) hs rfl hl ho
    rw [SpiSlave.responses, SpiSlave.after, ht, hr, hc, sent_byte]
    exact ⟨rfl, rfl⟩

/-- The bytes of an answer, one after another. -/
theorem answering (pad : List (BitVec 8)) (hs : s.state = .readingData) (hl : s.len ≤ 16)
    (hp : s.pos + pad.length ≤ s.len) :
    flashSlave.responses s pad = (List.range pad.length).map (fun k => s.data (s.pos + k)) ∧
      (flashSlave.after s pad).chip = s.chip := by
  induction pad generalizing s with
  | nil => exact ⟨rfl, rfl⟩
  | cons b pad ih =>
    rw [List.length_cons] at hp
    have ht : flashSlave.transfer8 s (b.setWidth 32) = s.answerByte := by
      show s.transfer8 _ = _
      rw [transfer8, hs]
    have hlist : (List.range (pad.length + 1)).map (fun k => s.data (s.pos + k)) =
        s.data s.pos :: (List.range pad.length).map (fun k => s.data (s.pos + 1 + k)) := by
      rw [List.range_succ_eq_map, List.map_cons, List.map_map]
      exact congrArg _ (List.map_congr_left fun k _ => by rw [Function.comp_apply]; congr 1; omega)
    rw [List.length_cons, hlist]
    by_cases he : s.pos + 1 = s.len
    · obtain rfl := List.length_eq_zero_iff.1 (show pad.length = 0 by omega)
      obtain ⟨t, ha, hc⟩ : ∃ t, s.answerByte = ((s.data s.pos).setWidth 32, t) ∧
          t.chip = s.chip := by
        rw [answerByte, if_neg (show ¬s.pos ≥ 16 by omega)]
        exact ⟨_, if_pos he, rfl⟩
      rw [SpiSlave.responses, SpiSlave.after, ht, ha, sent_byte]
      exact ⟨rfl, hc⟩
    · have ha : s.answerByte = ((s.data s.pos).setWidth 32,
          { s.touch (.data s.pos 1) with pos := s.pos + 1 }) := by
        rw [answerByte, if_neg (show ¬s.pos ≥ 16 by omega)]
        exact if_neg he
      obtain ⟨hr, hc⟩ := ih (s := { s.touch (.data s.pos 1) with pos := s.pos + 1 }) hs hl
        (show s.pos + 1 + pad.length ≤ s.len by omega)
      rw [SpiSlave.responses, SpiSlave.after, ht, ha, hr, hc, sent_byte]
      exact ⟨rfl, rfl⟩

/-! ### Transactions -/

theorem decode_read (h : s.Sound) {cmd : FlashCMD} (hc : cmd.isRead = true) :
    s.decodeCmd cmd = s.collect (s.addrLength + if cmd.isFast then s.fastReadDummy else 0) := by
  have hdio : s.dioReadDummy = s.fastReadDummy := by rw [dioReadDummy, fastReadDummy, h.man]
  have hqio : s.qioReadDummy = s.fastReadDummy := by rw [qioReadDummy, fastReadDummy, h.man]
  cases cmd
  case DIOR | DIOR4 => exact congrArg (fun n => s.collect (s.addrLength + n)) hdio
  case QIOR | QIOR4 => exact congrArg (fun n => s.collect (s.addrLength + n)) hqio
  all_goals first | exact absurd hc Bool.false_ne_true | rfl

theorem complete_read (s : Flash) {cmd : FlashCMD} (hc : cmd.isRead = true) :
    s.completeCmd cmd = { s with state := .read } := by
  cases cmd <;> first | exact absurd hc Bool.false_ne_true | rfl

theorem decode_program (s : Flash) {cmd : FlashCMD} (hc : cmd.isProgram = true) :
    s.decodeCmd cmd = s.collect s.addrLength := by
  cases cmd <;> first | exact absurd hc Bool.false_ne_true | rfl

theorem complete_program (s : Flash) {cmd : FlashCMD} (hc : cmd.isProgram = true) :
    s.completeCmd cmd = { s with state := .pageProgram } := by
  cases cmd <;> first | exact absurd hc Bool.false_ne_true | rfl

theorem decode_erase (s : Flash) {cmd : FlashCMD} (hc : cmd.erases.isSome = true) :
    s.decodeCmd cmd = s.collect s.addrLength := by
  cases cmd <;> first | exact absurd hc Bool.false_ne_true | rfl

theorem chip_eraseAt (hw : s.writeEnable = true) (off len : Word) :
    (s.eraseAt off len).chip = s.chip.erased off.toNat len.toNat := by
  rw [eraseAt, chip_syncArea, Chip.erased, if_pos (show s.chip.writeEnable = true from hw)]
  rfl

theorem chip_erase (off : Word) {c : EraseCmd} {len : Word}
    (hc : s.eraseArea off c = some (off, len)) :
    (s.erase off c).chip = s.chip.erased off.toNat len.toNat := by
  rw [erase_eq, hc]
  cases hw : s.writeEnable with
  | true => exact chip_eraseAt hw off len
  | false => exact (if_neg (by rw [show s.chip.writeEnable = false from hw]; decide)).symm

theorem complete_erase (h : s.Sound) {cmd : FlashCMD} (hc : cmd.erases.isSome = true) :
    (s.completeCmd cmd).chip = s.chip.erased s.curAddr.toNat (cmd.erases.getD 0) := by
  have hsector : s.pi.sectorSize = 65536 := (parts_spec _ h.part).2.2.2.2.1
  cases cmd
  case ERASE_4K => exact chip_erase _ (c := .ERASE_4K) rfl
  case ERASE4_4K => exact chip_erase _ (c := .ERASE4_4K) rfl
  case ERASE_32K => exact chip_erase _ (c := .ERASE_32K) rfl
  case ERASE4_32K => exact chip_erase _ (c := .ERASE4_32K) rfl
  case ERASE_SECTOR =>
    exact chip_erase s.curAddr (c := .ERASE_SECTOR) (by rw [eraseArea, hsector])
  case ERASE4_SECTOR =>
    exact chip_erase s.curAddr (c := .ERASE4_SECTOR) (by rw [eraseArea, hsector])
  all_goals exact absurd hc Bool.false_ne_true

/-- A flash that does with some bytes what the chip does with a transaction. -/
def Serves (s : Flash) (t : Transaction) : Prop :=
  flashSlave.responses s t.sent = s.chip.answers t ∧
    (flashSlave.after s t.sent).chip = s.chip.after t

theorem noted_addressLength (h : s.Sound) (cmd : FlashCMD) :
    (s.noted cmd).addrLength = s.chip.addressLength cmd := addrLength_eq (h.noted cmd)

theorem serves_read (h : s.Settled) {op : BitVec 8} {addr skip pad : List (BitVec 8)}
    (ht : s.chip.Accepts (.read op addr skip pad)) : s.Serves (.read op addr skip pad) := by
  obtain ⟨hr, hn, hskip, h16⟩ := ht
  have hlen : (addr ++ skip).length = addr.length + skip.length := List.length_append
  have hdec : (s.noted (.ofByte op)).decodeCmd (.ofByte op) =
      (s.noted (.ofByte op)).collect (addr ++ skip).length := by
    rw [decode_read (h.sound.noted _) hr, noted_addressLength h.sound, hlen, hn, hskip]
    rfl
  have hne : addr ++ skip ≠ [] := by
    intro h0
    have h3 := congrArg List.length h0
    rw [hlen, hn, Chip.addressLength] at h3
    split at h3 <;> simp at h3
  obtain ⟨t, htaken, hafter, hresp⟩ := operands h hne (by omega) hdec pad
  obtain ⟨hs, hc, ha⟩ := htaken.addressed hn
  have hcomp : t.completeCollectingData = { t.addressed with state := .read } := by
    rw [completeCollectingData, htaken.cmd, complete_read _ hr]
  obtain ⟨hdata, hkeep⟩ := reading (s := { t.addressed with state := .read })
    ⟨hs.part, hs.size, hs.addr, hs.len, by simp, hs.dirty, hs.data⟩ rfl pad
  refine ⟨?_, ?_⟩
  · rw [Transaction.sent, hresp, hcomp, hdata, hlen]
    show _ ++ Chip.stream t.addressed.chip t.addressed.curAddr.toNat _ = _
    rw [hc, ha]
    rfl
  · rw [Transaction.sent, hafter, hcomp, hkeep]
    exact hc

theorem serves_program (h : s.Settled) {op : BitVec 8} {addr data : List (BitVec 8)}
    (ht : s.chip.Accepts (.program op addr data)) : s.Serves (.program op addr data) := by
  obtain ⟨hp, hn⟩ := ht
  have hdec : (s.noted (.ofByte op)).decodeCmd (.ofByte op) =
      (s.noted (.ofByte op)).collect addr.length := by
    rw [decode_program _ hp, noted_addressLength h.sound, hn]
  have hl : 3 ≤ addr.length ∧ addr.length ≤ 4 := by
    rw [hn, Chip.addressLength]
    split <;> decide
  obtain ⟨t, htaken, hafter, hresp⟩ := operands h (List.ne_nil_of_length_pos (by omega)) (by omega)
    hdec data
  rw [← List.append_nil addr] at htaken
  obtain ⟨hs, hc, ha⟩ := htaken.addressed hn
  have hcomp : t.completeCollectingData = { t.addressed with state := .pageProgram } := by
    rw [completeCollectingData, htaken.cmd, complete_program _ hp]
  obtain ⟨hzero, hkeep⟩ := programming (s := { t.addressed with state := .pageProgram })
    ⟨hs.part, hs.size, hs.addr, hs.len, by simp, hs.dirty, hs.data⟩ rfl data
  refine ⟨?_, ?_⟩
  · rw [Transaction.sent, hresp, hcomp, hzero, List.replicate_append_replicate]
    show _ = List.replicate (addr ++ data).length.succ 0
    rw [List.length_append]
    congr 1
    omega
  · rw [Transaction.sent, hafter, hcomp, hkeep]
    show Chip.programmed t.addressed.chip t.addressed.curAddr.toNat data = _
    rw [hc, ha]
    rfl

theorem serves_erase (h : s.Settled) {op : BitVec 8} {addr : List (BitVec 8)}
    (ht : s.chip.Accepts (.erase op addr)) : s.Serves (.erase op addr) := by
  obtain ⟨he, hn, -⟩ := ht
  have hdec : (s.noted (.ofByte op)).decodeCmd (.ofByte op) =
      (s.noted (.ofByte op)).collect addr.length := by
    rw [decode_erase _ he, noted_addressLength h.sound, hn]
  have hl : 3 ≤ addr.length ∧ addr.length ≤ 4 := by
    rw [hn, Chip.addressLength]
    split <;> decide
  obtain ⟨t, htaken, hafter, hresp⟩ := operands h (List.ne_nil_of_length_pos (by omega)) (by omega)
    hdec []
  rw [← List.append_nil addr] at htaken
  obtain ⟨hs, hc, ha⟩ := htaken.addressed hn
  rw [List.append_nil] at hafter hresp
  refine ⟨?_, ?_⟩
  · rw [Transaction.sent, hresp, Nat.add_comm]
    exact List.append_nil _
  · rw [Transaction.sent, hafter]
    show (t.addressed.completeCmd t.cmdInProgress).chip = _
    rw [htaken.cmd, complete_erase hs he, hc, ha]
    rfl

/-- A register write is a command that waits for one byte. -/
theorem serves_register (h : s.Settled) (op value : BitVec 8)
    (hdec : (s.noted (.ofByte op)).decodeCmd (.ofByte op) = (s.noted (.ofByte op)).collect 1) :
    ∃ t : Flash, t.Sound ∧ t.chip = s.chip ∧ t.data 0 = value ∧
      flashSlave.responses s [op, value] = [0, 0] ∧
      flashSlave.after s [op, value] = t.completeCmd (.ofByte op) := by
  have hne : [value] ≠ [] := List.cons_ne_nil _ _
  obtain ⟨t, htaken, hafter, hresp⟩ := operands h hne (by simp) hdec []
  refine ⟨t.addressed, htaken.sound.addressed, htaken.chip, htaken.data 0 (by simp), hresp, ?_⟩
  rw [← htaken.cmd]
  exact hafter

theorem serves_bank (h : s.Settled) {op value : BitVec 8} (ht : s.chip.Accepts (.bank op value)) :
    s.Serves (.bank op value) := by
  obtain ⟨hw, hop⟩ := ht
  have hset (t : Flash) (hc : t.chip = s.chip) (hd : t.data 0 = value) :
      ({ t with ear := t.data 0 } : Flash).chip = s.chip.after (.bank op value) := by
    rw [Chip.after, ← hc, ← hd]
    rfl
  obtain rfl | rfl := hop
  · obtain ⟨t, -, hc, hd, hresp, hafter⟩ := serves_register h 0x17 value
      (if_pos (show (s.noted .BRWR).writeEnable = true from hw))
    exact ⟨hresp, by rw [Transaction.sent, hafter]; exact hset t hc hd⟩
  · obtain ⟨t, -, hc, hd, hresp, hafter⟩ := serves_register h 0xc5 value
      (if_pos (show (s.noted .EXTEND_ADDR_WRITE).writeEnable = true from hw))
    exact ⟨hresp, by rw [Transaction.sent, hafter]; exact hset t hc hd⟩

theorem toNat_extract_dummies (v : BitVec 8) :
    (extract32 (v.setWidth 32) 4 4).toNat = v.toNat / 16 := by
  have hv := v.isLt
  have hmask : (BitVec.allOnes 32 >>> (32 - 4) : Word).toNat = 2 ^ 4 - 1 := by decide
  rw [extract32, BitVec.toNat_and, hmask, Nat.and_two_pow_sub_one_eq_mod, BitVec.toNat_ushiftRight,
    BitVec.toNat_setWidth, Nat.shiftRight_eq_div_pow]
  omega

theorem serves_dummies (h : s.Settled) {value : BitVec 8} (ht : s.chip.Accepts (.dummies value)) :
    s.Serves (.dummies value) := by
  obtain ⟨t, hs, hc, hd, hresp, hafter⟩ := serves_register h 0x81 value
    (if_pos (show (s.noted .WVCR).writeEnable = true from ht))
  refine ⟨hresp, ?_⟩
  have hdummies : ({ t with volatileCfg := (t.data 0).setWidth 32 } : Flash).fastReadDummy =
      value.toNat / 16 := by
    rw [fastReadDummy, show ({ t with volatileCfg := (t.data 0).setWidth 32 } : Flash).pi.man =
      .numonyx from hs.man, hd]
    exact toNat_extract_dummies value
  rw [Transaction.sent, hafter, Chip.after, ← hc, ← hdummies]
  rfl

/-- A command that looks at no further byte. -/
theorem serves_command (hs : s.state = .idle) {t : Transaction} {op : BitVec 8}
    (hsent : t.sent = [op]) (hzero : s.chip.answers t = [0])
    (ht : (s.decodeNewCmd op).chip = s.chip.after t) : s.Serves t := by
  obtain ⟨hafter, hresp⟩ := command hs op []
  refine ⟨?_, ?_⟩
  · rw [hsent, hresp, hzero]
    rfl
  · rw [hsent, hafter]
    exact ht

theorem serves_eraseAll (h : s.Settled) {op : BitVec 8} (ht : s.chip.Accepts (.eraseAll op)) :
    s.Serves (.eraseAll op) := by
  refine serves_command h.idle rfl rfl ?_
  have hall (cmd : FlashCMD) : (if (s.noted cmd).writeEnable then
      (s.noted cmd).erase 0 .BULK_ERASE else s.noted cmd).chip = s.chip.erased 0 s.chip.size := by
    cases hw : s.writeEnable with
    | true =>
      rw [if_pos (show (s.noted cmd).writeEnable = true from hw)]
      exact chip_erase (s := s.noted cmd) 0 rfl
    | false =>
      have hn (c : Chip) (h0 : c.writeEnable = false) : c.erased 0 c.size = c :=
        if_neg (by rw [h0]; decide)
      rw [if_neg (by rw [show (s.noted cmd).writeEnable = false from hw]; decide), hn s.chip hw]
      rfl
  obtain rfl | rfl := ht
  · exact hall .BULK_ERASE_60
  · exact hall .BULK_ERASE

/-- A status register is sent until the guest has seen enough. -/
theorem serves_repeated (h : s.Settled) {t : Transaction} {op b : BitVec 8} {pad : List (BitVec 8)}
    (hsent : t.sent = op :: pad) (hzero : s.chip.answers t = 0 :: pad.map fun _ => b)
    (hkeep : s.chip.after t = s.chip) (u : Flash) (hu : u.chip = s.chip)
    (hdec : s.decodeNewCmd op = { (u.setData 0 b).answer 1 with dataReadLoop := true }) :
    s.Serves t := by
  obtain ⟨hafter, hresp⟩ := command h.idle op pad
  obtain ⟨hdata, hc⟩ := repeating (s := { (u.setData 0 b).answer 1 with dataReadLoop := true })
    rfl rfl rfl rfl pad
  refine ⟨?_, ?_⟩
  · rw [hsent, hresp, hdec, hdata, hzero]
    rfl
  · rw [hsent, hafter, hdec, hc, hkeep]
    exact hu

theorem serves_status (h : s.Settled) (pad : List (BitVec 8)) : s.Serves (.status pad) := by
  refine serves_repeated h rfl rfl rfl (s.noted .RDSR) rfl ?_
  have hq : ¬(s.pi.man = .macronix ∧ s.quadEnable = true) := fun hm => by
    rw [h.sound.man] at hm
    cases hm.1
  have hb : (if s.writeEnable then 0x02 else 0 : BitVec 8) |||
      (if s.pi.man = .macronix ∧ s.quadEnable = true then 0x40 else 0) =
        if s.writeEnable then 0x02 else 0 := by
    rw [if_neg hq]
    cases s.writeEnable <;> rfl
  exact congrArg (fun b => ({ ((s.noted .RDSR).setData 0 b).answer 1 with
    dataReadLoop := true } : Flash)) hb

theorem serves_flagStatus (h : s.Settled) (pad : List (BitVec 8)) : s.Serves (.flagStatus pad) := by
  refine serves_repeated h rfl rfl rfl (s.noted .READ_FSR) rfl ?_
  have hb : ((1 <<< 7) ||| (if s.fourBytesAddressMode then 0x1 else 0) : BitVec 8) =
      if s.fourBytesAddressMode then 0x81 else 0x80 := by
    cases s.fourBytesAddressMode <;> rfl
  exact congrArg (fun b => ({ ((s.noted .READ_FSR).setData 0 b).answer 1 with
    dataReadLoop := true } : Flash)) hb

theorem serves_identify (h : s.Settled) {pad : List (BitVec 8)}
    (ht : s.chip.Accepts (.identify pad)) : s.Serves (.identify pad) := by
  have hid : s.pi.idLen = 3 := (parts_spec _ h.sound.part).2.2.2.1
  have hlen : s.chip.id.length ≤ 3 := by
    show (s.pi.id.take s.pi.idLen).length ≤ 3
    rw [hid]
    exact List.length_take_le 3 _
  have hpad : pad.length ≤ s.chip.id.length := ht
  obtain ⟨hafter, hresp⟩ := command h.idle 0x9f pad
  have hdec : s.decodeNewCmd 0x9f = ({ s.noted .JEDEC_READ with
      data := fun i => if i < s.pi.idLen then s.pi.id.getD i 0 else s.data i }.touch
        (.data 0 s.pi.idLen)).answer s.pi.idLen := rfl
  obtain ⟨hdata, hc⟩ := answering (s := s.decodeNewCmd 0x9f) pad rfl
    (by rw [hdec]; show s.pi.idLen ≤ 16; omega)
    (by rw [hdec]; show 0 + pad.length ≤ s.pi.idLen; omega)
  refine ⟨?_, ?_⟩
  · rw [Transaction.sent, hresp, hdata]
    show 0 :: _ = 0 :: (s.pi.id.take s.pi.idLen).take pad.length
    congr 1
    have htake : (s.chip.id.take pad.length).length = pad.length := by
      rw [List.length_take, Nat.min_eq_left hpad]
    refine List.ext_getElem (by rw [List.length_map, List.length_range]; exact htake.symm)
      fun i h1 h2 => ?_
    rw [List.length_map, List.length_range] at h1
    have hi : i < s.pi.id.length := by
      have : s.chip.id.length ≤ s.pi.id.length := List.length_take_le' _ _
      omega
    rw [List.getElem_map, List.getElem_range, List.getElem_take, List.getElem_take, hdec]
    show (if 0 + i < s.pi.idLen then s.pi.id.getD (0 + i) 0 else _) = _
    rw [Nat.zero_add, if_pos (by omega), List.getD_eq_getElem?_getD, List.getElem?_eq_getElem hi]
    rfl
  · rw [Transaction.sent, hafter, hc]
    rfl

/-- One transaction. -/
theorem serves (h : s.Settled) {t : Transaction} (ht : s.chip.Accepts t) : s.Serves t := by
  cases t with
  | latch on => cases on <;> exact serves_command h.idle rfl rfl rfl
  | addressMode four => cases four <;> exact serves_command h.idle rfl rfl rfl
  | bank op value => exact serves_bank h ht
  | dummies value => exact serves_dummies h ht
  | status pad => exact serves_status h pad
  | flagStatus pad => exact serves_flagStatus h pad
  | identify pad => exact serves_identify h ht
  | read op addr skip pad => exact serves_read h ht
  | program op addr data => exact serves_program h ht
  | erase op addr => exact serves_erase h ht
  | eraseAll op => exact serves_eraseAll h ht

end Flash

/-! ## The guest -/

/-- One selection of the chip: the values written to SPISSR, and the accesses in between. -/
structure Visit where
  transaction : Transaction
  select : Word
  body : List SpiEvent
  deselect : Word

namespace Visit

def events (v : Visit) : List SpiEvent :=
  .write 0x70 v.select :: (v.body ++ [.write 0x70 v.deselect])

/-- The guest sends the bytes of the transaction and fetches all answers, in whatever portions the
    queues can take. -/
structure Carried (s : Spi Flash) (v : Visit) : Prop where
  selects : v.select &&& 1 = 0
  exchange : Spi.Exchange flashSlave (s.write flashSlave 0x70 v.select) v.body
  sent : Spi.bytesWritten v.body = v.transaction.sent
  drained : ((s.write flashSlave 0x70 v.select).run flashSlave v.body).tx.toList = []
  fetched : ((s.write flashSlave 0x70 v.select).run flashSlave v.body).rx.toList = []

end Visit

/-- Every selection of the run is such a visit. -/
def Visits : Spi Flash → List Visit → Prop
  | _, [] => True
  | s, v :: vs => v.Carried s ∧ Visits (s.run flashSlave v.events) vs

namespace Spi

theorem run_append (m : SpiSlave F) (s : Spi F) (es fs : List SpiEvent) :
    s.run m (es ++ fs) = (s.run m es).run m fs := List.foldl_append

theorem valuesRead_append (m : SpiSlave F) (s : Spi F) (es fs : List SpiEvent) :
    valuesRead m s (es ++ fs) = valuesRead m s es ++ valuesRead m (s.run m es) fs := by
  induction es generalizing s with
  | nil => rfl
  | cons e es ih =>
    rw [List.cons_append, valuesRead_cons, ih, valuesRead_cons _ _ es, List.append_assoc]
    rfl

/-- Every write to SPISSR deselects the flash first. -/
theorem write_spissr (m : SpiSlave F) (s : Spi F) (w : Word) :
    (s.write m 0x70 w).flash = m.cs s.flash true ∧ (s.write m 0x70 w).tx = s.tx ∧
      (s.write m 0x70 w).rx = s.rx ∧ (s.write m 0x70 w).regs .SPISSR = w := by
  have hw : s.write m 0x70 w = ((s.set .SPISSR w).updateCs m).updateIrq := rfl
  have hsame := sameStatus_updateIrq ((s.set .SPISSR w).updateCs m)
  rw [hw]
  refine ⟨updateIrq_flash _, hsame.tx, hsame.rx, ?_⟩
  rw [updateIrq_regs _ (by decide)]
  exact Function.update_self SpiReg.SPISSR w s.regs

end Spi

/-- The guest has finished a transaction, and the flash waits for the next one. -/
structure Rests (s : Spi Flash) : Prop where
  flash : s.flash.Settled
  tx : s.tx.toList = []
  rx : s.rx.toList = []

theorem Rests.spissr {s : Spi Flash} (hf : s.flash.Sound) (htx : s.tx.toList = [])
    (hrx : s.rx.toList = []) (w : Word) :
    Rests (s.write flashSlave 0x70 w) ∧
      (s.write flashSlave 0x70 w).flash.chip = s.flash.chip := by
  obtain ⟨h1, h2, h3, -⟩ := Spi.write_spissr flashSlave s w
  obtain ⟨hc, hset⟩ := Flash.deselect hf
  exact ⟨⟨by rw [h1]; exact hset, by rw [h2]; exact htx, by rw [h3]; exact hrx⟩,
    by rw [h1]; exact hc⟩

/-- One visit. -/
theorem Rests.visit {s : Spi Flash} (h : Rests s) {v : Visit} (hv : v.Carried s)
    (ha : s.flash.chip.Accepts v.transaction) :
    Rests (s.run flashSlave v.events) ∧
      (s.run flashSlave v.events).flash.chip = s.flash.chip.after v.transaction ∧
      Spi.valuesRead flashSlave s v.events =
        (s.flash.chip.answers v.transaction).map (·.setWidth 32) := by
  obtain ⟨hrest, hchip⟩ := Rests.spissr h.flash.sound h.tx h.rx v.select
  have hsel := (Spi.write_spissr flashSlave s v.select).2.2.2
  generalize hu : s.write flashSlave 0x70 v.select = u at hrest hchip hsel
  have hrun : s.run flashSlave v.events =
      (u.run flashSlave v.body).write flashSlave 0x70 v.deselect := by
    rw [Visit.events, ← hu]
    exact Spi.run_append flashSlave (s.write flashSlave 0x70 v.select) v.body _
  have hvals : Spi.valuesRead flashSlave s v.events = Spi.valuesRead flashSlave u v.body := by
    rw [Visit.events, ← hu]
    exact (Spi.valuesRead_append flashSlave _ v.body _).trans (List.append_nil _)
  have h0 : Spi.History flashSlave u.flash [] [] [] u :=
    ⟨by rw [hsel]; exact hv.selects, rfl, hrest.tx, by rw [hrest.rx]; rfl⟩
  obtain ⟨sent, hist⟩ := h0.run v.body (hu ▸ hv.exchange)
  have htx : (u.run flashSlave v.body).tx.toList = [] := hu ▸ hv.drained
  have hrx : (u.run flashSlave v.body).rx.toList = [] := hu ▸ hv.fetched
  have hsent : sent = v.transaction.sent := by
    have hw := hist.written
    rw [htx, List.append_nil, List.nil_append] at hw
    rw [hw, hv.sent]
  have hflash := hist.flash
  have hgot := hist.received
  rw [hsent] at hflash hgot
  rw [hrx, List.map_nil, List.append_nil, List.nil_append] at hgot
  obtain ⟨hansw, hafter⟩ := Flash.serves hrest.flash (hchip ▸ ha)
  have hsound : (u.run flashSlave v.body).flash.Sound := by
    rw [hflash]
    exact hrest.flash.sound.after _
  obtain ⟨hrest', hchip'⟩ := Rests.spissr hsound htx hrx v.deselect
  rw [hrun, hvals, hgot, hansw, hchip', hflash, hafter, hchip]
  exact ⟨hrest', rfl, rfl⟩

theorem Rests.visits {s : Spi Flash} (h : Rests s) {vs : List Visit} (hv : Visits s vs)
    (ha : s.flash.chip.AcceptsAll (vs.map Visit.transaction)) :
    Spi.valuesRead flashSlave s (vs.flatMap Visit.events) =
        (s.flash.chip.dialog (vs.map Visit.transaction)).map (·.setWidth 32) ∧
      (s.run flashSlave (vs.flatMap Visit.events)).flash.chip =
        s.flash.chip.afterAll (vs.map Visit.transaction) ∧
      Rests (s.run flashSlave (vs.flatMap Visit.events)) := by
  induction vs generalizing s with
  | nil => exact ⟨rfl, rfl, h⟩
  | cons v vs ih =>
    obtain ⟨hrest, hchip, hvals⟩ := h.visit hv.1 ha.1
    obtain ⟨h1, h2, h3⟩ := ih hrest hv.2 (hchip ▸ ha.2)
    rw [hchip] at h1 h2
    rw [List.flatMap_cons, Spi.valuesRead_append, Spi.run_append, h1, h2, hvals]
    exact ⟨(List.map_append ..).symm, rfl, h3⟩

/-- What the guest reads in a sequence of transactions is what the chip answers; the flash holds
    afterwards what the chip holds, and nothing was stored behind its end. -/
theorem flash_refines {s : Spi Flash} (h : Rests s) {vs : List Visit} (hv : Visits s vs)
    (ha : s.flash.chip.AcceptsAll (vs.map Visit.transaction)) :
    Spi.valuesRead flashSlave s (vs.flatMap Visit.events) =
        (s.flash.chip.dialog (vs.map Visit.transaction)).map (·.setWidth 32) ∧
      (s.run flashSlave (vs.flatMap Visit.events)).flash.chip =
        s.flash.chip.afterAll (vs.map Visit.transaction) ∧
      Rests (s.run flashSlave (vs.flatMap Visit.events)) ∧
      ∀ i, s.flash.size.toNat ≤ i →
        (s.run flashSlave (vs.flatMap Visit.events)).flash.storage i = s.flash.storage i := by
  obtain ⟨hvals, hchip, hrest⟩ := h.visits hv ha
  have hsize : 0 < s.flash.chip.size :=
    Nat.lt_of_lt_of_le (by decide) h.flash.sound.size_spec.2.1
  refine ⟨hvals, hchip, hrest, fun i hi => ?_⟩
  exact (congrFun (congrArg Chip.bytes hchip) i).trans (Chip.afterAll_behind ha hsize hi)

/-! ### A driver -/

/-- The transaction byte for byte: each is written to SPIDTR and its answer read at once. -/
def Transaction.bytewise (t : Transaction) : Visit where
  transaction := t
  select := 0xfffffffe
  body := t.sent.flatMap fun b => [.write 0x68 (b.setWidth 32), .read 0x6c]
  deselect := 0xffffffff

namespace Spi

theorem flushOne_regs (m : SpiSlave F) {r : SpiReg} (hr : r ≠ .SPISR) (hr' : r ≠ .IPISR)
    (s : Spi F) : (s.flushOne m).regs r = s.regs r := by
  have ht (b : BitVec 8) (u : Spi F) : (u.transfer m b).2.regs = u.regs := by
    simp only [transfer]
    split <;> rfl
  have hreceive (u : Spi F) (w : Word) : (u.receive w).regs r = u.regs r := by
    simp only [receive]
    split
    · exact raise_regs_of_ne hr' ..
    · split
      · rw [raise_regs_of_ne hr', raise_regs_of_ne hr]
      · rfl
  rw [flushOne, raise_regs_of_ne hr', raise_regs_of_ne hr', raise_regs_of_ne hr,
    lower_regs_of_ne hr, lower_regs_of_ne hr, hreceive, ht]

theorem flushLoop_regs (m : SpiSlave F) {r : SpiReg} (hr : r ≠ .SPISR) (hr' : r ≠ .IPISR)
    (n : Nat) (s : Spi F) : (flushLoop m n s).regs r = s.regs r := by
  induction n generalizing s with
  | zero => rfl
  | succ n ih =>
    rw [flushLoop]
    split
    · rfl
    · rw [ih, flushOne_regs m hr hr']

theorem write_spidtr (m : SpiSlave F) {s : Spi F} (hm : s.masterEnabled = true) (w : Word) :
    s.write m 0x68 w = ((s.pushTx w).flushTxfifo m).updateIrq := by
  have hm' : (s.pushTx w).masterEnabled = true := by rw [pushTx_masterEnabled, hm]
  have hw : s.write m 0x68 w = (s.writeSpidtr m w).updateIrq := rfl
  rw [hw, writeSpidtr, if_pos hm']

/-- An enabled master and a selected slave, with nothing in the queues. -/
structure Ready (s : Spi F) : Prop where
  selected : s.regs .SPISSR &&& 1 = 0
  enabled : s.masterEnabled = true
  tx : s.tx.toList = []
  rx : s.rx.toList = []

/-- One byte goes out, and its answer is fetched. -/
theorem Ready.byte {m : SpiSlave F} {s : Spi F} (h : s.Ready) (b : BitVec 8) :
    s.Transfers (.write 0x68 (b.setWidth 32)) ∧
      (s.write m 0x68 (b.setWidth 32)).Transfers (.read 0x6c) ∧
      ((s.write m 0x68 (b.setWidth 32)).read 0x6c).2.Ready := by
  have h1 : s.Transfers (.write 0x68 (b.setWidth 32)) :=
    .dtr rfl (by rw [h.tx]; decide) fun _ => by rw [h.rx, h.tx]; decide
  have h0 : History m s.flash [] [] [] s := ⟨h.selected, rfl, h.tx, by rw [h.rx]; rfl⟩
  obtain ⟨sent, hist⟩ := h0.step h1
  have hwrite := write_spidtr m h.enabled (b.setWidth 32)
  have hregs {r : SpiReg} (hr : r ≠ .SPISR) (hr' : r ≠ .IPISR) :
      (s.write m 0x68 (b.setWidth 32)).regs r = s.regs r := by
    rw [hwrite, updateIrq_regs _ hr', flushTxfifo, flushLoop_regs m hr hr', pushTx_regs hr]
  have htx : (s.write m 0x68 (b.setWidth 32)).tx.toList = [] := by
    rw [hwrite, (sameStatus_updateIrq _).tx, flushTxfifo_tx]
  have hone : (s.write m 0x68 (b.setWidth 32)).rx.toList.length = 1 := by
    have hw := hist.written
    have hg := congrArg List.length hist.received
    change sent ++ (s.write m 0x68 (b.setWidth 32)).tx.toList = _ at hw
    rw [htx, List.append_nil] at hw
    rw [hw] at hg
    simpa [SpiEvent.step, valuesRead, bytesWritten, SpiSlave.responses] using hg
  generalize s.write m 0x68 (b.setWidth 32) = u at hregs htx hone
  have hne : u.rx.toList ≠ [] := fun h0 => by rw [h0] at hone; cases hone
  refine ⟨h1, .drr rfl hne, ?_⟩
  have hr : (u.read 0x6c).2 = u.takeRx.2.updateIrq := by
    have hemp : u.rx.isEmpty = false := Bool.eq_false_iff.2 fun h0 => hne (Fifo.isEmpty_iff.1 h0)
    rw [read, if_pos (by decide), hemp]
    rfl
  have htake {r : SpiReg} (hr : r ≠ .SPISR) : u.takeRx.2.regs r = u.regs r := by
    simp only [takeRx]
    split
    · rw [raise_regs_of_ne hr]
      exact lower_regs_of_ne hr u SR_RX_FULL
    · exact lower_regs_of_ne hr u SR_RX_FULL
  have hqueues : u.takeRx.2.tx = u.tx ∧ u.takeRx.2.rx = u.rx.pop.2 := by
    simp only [takeRx]
    split <;> exact ⟨rfl, rfl⟩
  obtain ⟨x, hx⟩ := List.length_eq_one_iff.1 hone
  rw [hr]
  refine ⟨?_, ?_, ?_, ?_⟩
  · rw [updateIrq_regs _ (by decide), htake (by decide), hregs (by decide) (by decide)]
    exact h.selected
  · rw [masterEnabled, updateIrq_regs _ (by decide), htake (by decide),
      hregs (by decide) (by decide)]
    exact h.enabled
  · rw [(sameStatus_updateIrq _).tx, hqueues.1, htx]
  · rw [(sameStatus_updateIrq _).rx, hqueues.2, (Fifo.pop_cons hx).2]

theorem Ready.bytes {m : SpiSlave F} {s : Spi F} (h : s.Ready) (bs : List (BitVec 8)) :
    Exchange m s (bs.flatMap fun b => [.write 0x68 (b.setWidth 32), .read 0x6c]) ∧
      (s.run m (bs.flatMap fun b => [.write 0x68 (b.setWidth 32), .read 0x6c])).Ready := by
  induction bs generalizing s with
  | nil => exact ⟨trivial, h⟩
  | cons b bs ih =>
    obtain ⟨h1, h2, h3⟩ := h.byte (m := m) b
    obtain ⟨he, hr⟩ := ih h3
    exact ⟨⟨h1, h2, he⟩, hr⟩

theorem bytesWritten_bytewise (bs : List (BitVec 8)) :
    bytesWritten (bs.flatMap fun b => [.write 0x68 (b.setWidth 32), .read 0x6c]) = bs := by
  induction bs with
  | nil => rfl
  | cons b bs ih =>
    show (b.setWidth 32).setWidth 8 :: _ = _
    rw [Flash.sent_byte]
    exact congrArg _ ih

end Spi

theorem Rests.bytewise {s : Spi Flash} (h : Rests s) (hm : s.masterEnabled = true)
    (t : Transaction) :
    t.bytewise.Carried s ∧ (s.run flashSlave t.bytewise.events).masterEnabled = true := by
  obtain ⟨hrest, -⟩ := Rests.spissr h.flash.sound h.tx h.rx t.bytewise.select
  have hkeep (u : Spi Flash) (w : Word) :
      (u.write flashSlave 0x70 w).masterEnabled = u.masterEnabled := by
    have hw : u.write flashSlave 0x70 w = ((u.set .SPISSR w).updateCs flashSlave).updateIrq := rfl
    rw [hw, Spi.masterEnabled, Spi.updateIrq_regs _ (by decide)]
    exact congrArg (fun v : Word => v &&& SPICR_MTI == 0)
      (Function.update_of_ne (show SpiReg.SPICR ≠ .SPISSR by decide) w u.regs)
  have hready : (s.write flashSlave 0x70 t.bytewise.select).Ready := by
    refine ⟨?_, ?_, hrest.tx, hrest.rx⟩
    · rw [(Spi.write_spissr flashSlave s _).2.2.2]
      exact (by decide : (0xfffffffe : Word) &&& 1 = 0)
    · rw [hkeep, hm]
  obtain ⟨he, hr⟩ := hready.bytes (m := flashSlave) t.sent
  refine ⟨⟨(by decide : (0xfffffffe : Word) &&& 1 = 0), he, Spi.bytesWritten_bytewise t.sent, hr.tx, hr.rx⟩, ?_⟩
  have hrun : s.run flashSlave t.bytewise.events =
      ((s.write flashSlave 0x70 t.bytewise.select).run flashSlave t.bytewise.body).write
        flashSlave 0x70 t.bytewise.deselect :=
    Spi.run_append flashSlave (s.write flashSlave 0x70 t.bytewise.select) t.bytewise.body _
  rw [hrun, hkeep]
  exact hr.enabled

/-- The driver can carry out every sequence of transactions that the chip accepts. -/
theorem visits_bytewise {s : Spi Flash} (h : Rests s) (hm : s.masterEnabled = true)
    {ts : List Transaction} (ha : s.flash.chip.AcceptsAll ts) :
    Visits s (ts.map Transaction.bytewise) := by
  induction ts generalizing s with
  | nil => trivial
  | cons t ts ih =>
    obtain ⟨hv, hm'⟩ := h.bytewise hm t
    obtain ⟨hrest, hchip, -⟩ := h.visit hv ha.1
    exact ⟨hv, ih hrest hm' (hchip ▸ ha.2)⟩

/-- The controller of an emulator without a backing file, its master enabled. -/
def enabledSpi : Spi Flash := spiSelected.write flashSlave 0x60 0x080

/-- Two writes to the bytes 0x1ff and 0x200, the second to the first of them only, which are read
    back before and after their sector is erased. -/
def flashDemo : List Transaction :=
  [.identify [0, 0, 0], .latch true, .program 0x12 [0, 0, 1, 0xff] [0xf0, 0x0f],
    .program 0x12 [0, 0, 1, 0xff] [0x3c], .status [0], .read 0x13 [0, 0, 1, 0xff] [] [0, 0],
    .erase 0x21 [0, 0, 0, 0], .read 0x13 [0, 0, 1, 0xff] [] [0, 0]]

theorem rests_enabledSpi : Rests enabledSpi := by
  have hinit : flashInit (fun _ => 0) none = some ((flashInit (fun _ => 0) none).get rfl) := rfl
  have hs := Flash.sound_init hinit
  have hflash : enabledSpi.flash = (((flashInit (fun _ => 0) none).get rfl).cs true).cs true := rfl
  refine ⟨?_, by decide, by decide⟩
  rw [hflash]
  exact (Flash.deselect (Flash.deselect hs).2.sound).2

theorem flash_refines_demo :
    Spi.valuesRead flashSlave enabledSpi
        ((flashDemo.map Transaction.bytewise).flatMap Visit.events) =
      [0, 0x20, 0xbb, 0x23, 0, 0, 0, 0, 0, 0, 0, 0, 0, 0, 0, 0, 0, 0, 0, 0x02,
        0, 0, 0, 0, 0, 0x30, 0x0f, 0, 0, 0, 0, 0, 0, 0, 0, 0, 0, 0xff, 0xff] := by
  have ha : enabledSpi.flash.chip.AcceptsAll flashDemo := by
    refine ⟨?_, trivial, ⟨rfl, rfl⟩, ⟨rfl, rfl⟩, trivial, ⟨rfl, rfl, rfl, by decide⟩,
      ⟨rfl, rfl, ?_⟩, ⟨rfl, rfl, rfl, by decide⟩, trivial⟩
    · exact (by decide : 3 ≤ enabledSpi.flash.chip.id.length)
    · exact (by decide : enabledSpi.flash.chip.address [0, 0, 0, 0] + 4096 ≤
        enabledSpi.flash.chip.size)
  have hlist : (flashDemo.map Transaction.bytewise).map Visit.transaction = flashDemo := rfl
  rw [(flash_refines rests_enabledSpi (visits_bytewise rests_enabledSpi (by decide) ha)
    (by rw [hlist]; exact ha)).1, hlist]
  decide

end NemuMips32
