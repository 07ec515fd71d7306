/-
  The Ethernet controller (`xlnx-elite.c`): a register file of 8 KiB with two transmit buffers,
  two receive buffers and the registers of an MDIO bus.

  A frame is sent within the store that asks for it, so the guest never sees a busy bit. A packet
  that arrives goes to the first receive buffer whose status bit is clear, and is refused if
  there is none. Packets arrive between any two accesses of the guest: `xlnx_elite_rx` is bound to
  `EVENT_PACKET_IN`, although `net_poll_packet` does not notify that event at present.

  `elite_mailbox`: the receive buffers are a mailbox of two slots. What it has accepted stays there
  unchanged until the guest clears the status bit. `elite_frames`: the frames sent are what the
  guest has written, whatever arrives meanwhile. `elite_idle`: no busy bit survives an access, and
  no access changes the identity of the PHY.
-/
import NemuMips32.Lib.Words
import NemuMips32.Machine

namespace NemuMips32

open Words

/-! ## xlnx-elite.c -/

def TX_PING : Nat := 0x0
def MDIO_ADDR : Nat := 0x7e4
def MDIO_WR : Nat := 0x7e8
def MDIO_RD : Nat := 0x7ec
def MDIO_CTRL : Nat := 0x7f0
def TX_PING_TPLR : Nat := 0x7f4
def TX_PING_TSR : Nat := 0x7fc
def TX_PONG : Nat := 0x800
def TX_PONG_TPLR : Nat := 0xff4
def TX_PONG_TSR : Nat := 0xffc
def RX_PING : Nat := 0x1000
def RX_PING_RSR : Nat := 0x17fc
def RX_PONG : Nat := 0x1800
def RX_PONG_RSR : Nat := 0x1ffc

def TX_PING_BUF_END : Nat := MDIO_ADDR - 4
def TX_PONG_BUF_END : Nat := TX_PONG_TPLR - 4
def RX_PING_BUF_END : Nat := RX_PING_RSR - 4
def RX_PONG_BUF_END : Nat := RX_PONG_RSR - 4

/-- `sizeof(struct emaclite_regs)`. -/
def REGS_SIZE : Nat := 0x2000

def ENET_ADDR_LENGTH : Nat := 6

def ACTIVE_PHY : Nat := 1
def MII_BMCR : Nat := 0
def MII_BMSR : Nat := 1
def MII_PHYSID1 : Nat := 2
def MII_PHYSID2 : Nat := 3
def MII_ADVERTISE : Nat := 4
def MII_LPA : Nat := 5

/-- `BMSR_ANEGCOMPLETE | BMSR_LSTATUS`. -/
def linkUp : BitVec 16 := 0x0020 ||| 0x0004

/-- `regs` are the bytes of `struct emaclite_regs`, a register at its offset; `frames` is what has
    been given to `net_send_data`. -/
structure Elite where
  regs : Nat → BitVec 8
  phyRegs : Nat → Nat → BitVec 16
  ethMacAddr : Nat → BitVec 8
  frames : List (List (BitVec 8))

namespace Elite

/-- The register at an offset. -/
def word (s : Elite) (off : Nat) : Word :=
  s.regs (off + 3) ++ s.regs (off + 2) ++ s.regs (off + 1) ++ s.regs off

def setWord (s : Elite) (off : Nat) (w : Word) : Elite :=
  { s with regs := fun x => if off ≤ x ∧ x < off + 4 then byte w (x - off) else s.regs x }

/-- `memcpy` to the register at an offset. -/
def copyIn (s : Elite) (off : Nat) (data : List (BitVec 8)) : Elite :=
  { s with
    regs := fun x => if off ≤ x ∧ x < off + data.length then data.getD (x - off) 0 else s.regs x }

/-- `len` bytes from an offset on. -/
def copyOut (s : Elite) (off len : Nat) : List (BitVec 8) :=
  (List.range len).map fun i => s.regs (off + i)

/-- `xlnx_elite_init` on zeroed memory. -/
def init : Elite where
  regs _ := 0
  phyRegs phy reg :=
    if phy = ACTIVE_PHY then
      if reg = MII_PHYSID1 then 0x181
      else if reg = MII_PHYSID2 then 0xb8a0
      else if reg = MII_BMCR then 0x2000 ||| 0x1000 ||| 0x0100
      else if reg = MII_BMSR then
        0x4000 ||| 0x2000 ||| 0x1000 ||| 0x0800 ||| 0x0008 ||| 0x0001 ||| 0x40
      else if reg = MII_ADVERTISE then 0x0100 ||| 0x0080 ||| 0x0040 ||| 0x0020 ||| 0x0001
      else if reg = MII_LPA then
        0x4000 ||| 0x0800 ||| 0x0400 ||| 0x0100 ||| 0x0080 ||| 0x0040 ||| 0x0020 ||| 0x1
      else 0
    else 0
  ethMacAddr i := [0x00, 0x00, 0x5E, 0x00, 0xFA, 0xCE].getD i 0
  frames := []

/-- `mii_transaction`. -/
def miiTransaction (s : Elite) : Except Halt Elite :=
  let mdioAddr := s.word MDIO_ADDR
  let reg := (mdioAddr &&& 0x1f).toNat
  let phy := ((mdioAddr >>> 5) &&& 0x1f).toNat
  if mdioAddr.getLsbD 10 then
    .ok (s.setWord MDIO_RD ((s.phyRegs phy reg).setWidth 32))
  else if phy ≠ ACTIVE_PHY then .ok s
  else if reg = MII_BMCR then
    let data : BitVec 16 := (s.word MDIO_WR).setWidth 16
    let r := if data.getLsbD 15 then MII_BMSR else reg
    let v := if data.getLsbD 15 then s.phyRegs phy MII_BMSR ||| linkUp else data
    .ok { s with phyRegs := Function.update s.phyRegs phy (Function.update (s.phyRegs phy) r v) }
  else .error .cpuAssert

/-- `xlnx_elite_rx`; a packet is refused with -1. -/
def rx (s : Elite) (data : List (BitVec 8)) : Except Halt (Int × Elite) :=
  if (s.word RX_PING_RSR).getLsbD 0 = false then
    if data.length ≤ RX_PING_BUF_END - RX_PING then
      .ok (data.length, (s.setWord RX_PING_RSR (s.word RX_PING_RSR ||| 1)).copyIn RX_PING data)
    else .error .assert
  else if (s.word RX_PONG_RSR).getLsbD 0 = false then
    if data.length ≤ RX_PONG_BUF_END - RX_PONG then
      .ok (data.length, (s.setWord RX_PONG_RSR (s.word RX_PONG_RSR ||| 1)).copyIn RX_PONG data)
    else .error .assert
  else .ok (-1, s)

/-- `xlnx_elite_read`. -/
def read (addr : Word) (s : Elite) : Except Halt Word :=
  let a := addr.toNat
  if a = TX_PING_TSR ∨ a = TX_PONG_TSR ∨ a = RX_PING_RSR ∨ a = RX_PONG_RSR ∨ a = MDIO_RD ∨
      a = MDIO_CTRL then
    .ok (s.word a)
  else if (RX_PING ≤ a ∧ a ≤ RX_PING_BUF_END) ∨ (RX_PONG ≤ a ∧ a ≤ RX_PONG_BUF_END) then
    .ok (s.word (4 * (a / 4)))
  else .error .cpuAssert

/-- The `TX_PING_TSR` and `TX_PONG_TSR` cases of `xlnx_elite_write`. More than the array takes or
    gives is undefined. -/
def writeTsr (buf tplr tsr : Nat) (data : Word) (s : Elite) : Except Halt Elite :=
  let s := s.setWord tsr data
  let len := (s.word tplr).toNat
  if data.getLsbD 0 then
    if data.getLsbD 1 then
      if len ≤ ENET_ADDR_LENGTH then
        .ok ({ s with ethMacAddr := fun i => if i < len then s.regs (buf + i) else s.ethMacAddr i
          }.setWord tsr (data &&& ~~~3))
      else .error .undefined
    else if buf + len ≤ REGS_SIZE then
      .ok ({ s with frames := s.frames ++ [s.copyOut buf len] }.setWord tsr (data &&& ~~~1))
    else .error .undefined
  else .ok s

/-- The `MDIO_CTRL` case of `xlnx_elite_write`. -/
def writeMdioCtrl (data : Word) (s : Elite) : Except Halt Elite :=
  let s := s.setWord MDIO_CTRL data
  if data.getLsbD 0 then s.miiTransaction.map (·.setWord MDIO_CTRL (data &&& ~~~1)) else .ok s

/-- `xlnx_elite_write`. -/
def write (addr data : Word) (s : Elite) : Except Halt Elite :=
  let a := addr.toNat
  if a = TX_PING_TSR then s.writeTsr TX_PING TX_PING_TPLR TX_PING_TSR data
  else if a = TX_PONG_TSR then s.writeTsr TX_PONG TX_PONG_TPLR TX_PONG_TSR data
  else if a = TX_PING_TPLR ∨ a = TX_PONG_TPLR ∨ a = RX_PING_RSR ∨ a = RX_PONG_RSR ∨
      a = MDIO_ADDR ∨ a = MDIO_WR then
    .ok (s.setWord a data)
  else if (TX_PING ≤ a ∧ a ≤ TX_PING_BUF_END) ∨ (TX_PONG ≤ a ∧ a ≤ TX_PONG_BUF_END) then
    .ok (s.setWord (4 * (a / 4)) data)
  else if a = MDIO_CTRL then s.writeMdioCtrl data
  else .error .cpuAssert

end Elite

/-- An access of the guest, or a packet from the network. -/
inductive EliteEvent where
  | read (addr : Word)
  | write (addr data : Word)
  | packet (data : List (BitVec 8))

def EliteEvent.step (s : Elite) : EliteEvent → Except Halt Elite
  | .read addr => (s.read addr).map fun _ => s
  | .write addr data => s.write addr data
  | .packet data => (s.rx data).map Prod.snd

def Elite.run (s : Elite) (es : List EliteEvent) : Except Halt Elite := es.foldlM EliteEvent.step s

/-! ## Registers -/

namespace Elite

variable {s t : Elite}

theorem byte_word (s : Elite) (off : Nat) {i : Nat} (hi : i < 4) :
    byte (s.word off) i = s.regs (off + i) := by
  apply BitVec.eq_of_getLsbD_eq
  intro k hk
  obtain rfl | rfl | rfl | rfl : i = 0 ∨ i = 1 ∨ i = 2 ∨ i = 3 := by omega
  all_goals
    simp only [byte, word, BitVec.getLsbD_extractLsb', BitVec.getLsbD_append, hk, decide_true,
      Bool.true_and]
  · rw [if_pos (by omega), Nat.zero_mul, Nat.zero_add]
    rfl
  · rw [if_neg (by omega), if_pos (by omega)]
    congr 1
    omega
  · rw [if_neg (by omega), if_neg (by omega), if_pos (by omega)]
    congr 1
    omega
  · rw [if_neg (by omega), if_neg (by omega), if_neg (by omega)]
    congr 1
    omega

theorem word_congr {off : Nat} (h : ∀ i, i < 4 → t.regs (off + i) = s.regs (off + i)) :
    t.word off = s.word off :=
  eq_of_byte_eq fun i hi => by rw [byte_word t off hi, byte_word s off hi, h i hi]

theorem regs_setWord (s : Elite) (off : Nat) (w : Word) (x : Nat) :
    (s.setWord off w).regs x = if off ≤ x ∧ x < off + 4 then byte w (x - off) else s.regs x := rfl

theorem regs_setWord_of_ne {off x : Nat} (h : x < off ∨ off + 4 ≤ x) (s : Elite) (w : Word) :
    (s.setWord off w).regs x = s.regs x := if_neg (by omega)

@[simp] theorem word_setWord (s : Elite) (off : Nat) (w : Word) : (s.setWord off w).word off = w :=
  eq_of_byte_eq fun i hi => by
    rw [byte_word _ _ hi, regs_setWord, if_pos (by omega), Nat.add_sub_cancel_left]

theorem word_setWord_of_ne {off off' : Nat} (h : off' + 4 ≤ off ∨ off + 4 ≤ off') (s : Elite)
    (w : Word) : (s.setWord off w).word off' = s.word off' :=
  word_congr fun i hi => regs_setWord_of_ne (by omega) s w

theorem regs_copyIn_of_ne {off x : Nat} {data : List (BitVec 8)}
    (h : x < off ∨ off + data.length ≤ x) (s : Elite) :
    (s.copyIn off data).regs x = s.regs x := if_neg (by omega)

/-! ## Stores -/

/-- A store to a transmit status register: it is done with its frame, and with nothing else. -/
theorem writeTsr_cases {buf tplr tsr : Nat} {data : Word}
    (h : s.writeTsr buf tplr tsr data = .ok t) :
    (∀ x, x < tsr ∨ tsr + 4 ≤ x → t.regs x = s.regs x) ∧ (t.word tsr).getLsbD 0 = false ∧
      t.phyRegs = s.phyRegs ∧
      t.frames = s.frames ++ if data.getLsbD 0 && !data.getLsbD 1 then
        [(s.setWord tsr data).copyOut buf ((s.setWord tsr data).word tplr).toNat] else [] := by
  have hclear {m : Word} (hm : m.getLsbD 0 = true) : (data &&& ~~~m).getLsbD 0 = false := by
    simp [hm]
  have htwice (u : Elite) (hu : u.regs = (s.setWord tsr data).regs) (w : Word) (x : Nat)
      (hx : x < tsr ∨ tsr + 4 ≤ x) : (u.setWord tsr w).regs x = s.regs x := by
    rw [regs_setWord_of_ne hx, hu, regs_setWord_of_ne hx]
  unfold writeTsr at h
  cases h0 : data.getLsbD 0 with
  | false =>
    simp only [h0] at h
    obtain rfl := Except.ok.inj h
    exact ⟨fun x hx => regs_setWord_of_ne hx s data, by rw [word_setWord, h0], rfl,
      (List.append_nil _).symm⟩
  | true =>
    cases h1 : data.getLsbD 1 with
    | true =>
      simp only [h0, h1, if_true] at h
      split at h
      · obtain rfl := Except.ok.inj h
        refine ⟨htwice _ rfl _, ?_, rfl, (List.append_nil _).symm⟩
        rw [word_setWord]
        exact hclear (by decide)
      · cases h
    | false =>
      simp only [h0, h1, if_true, Bool.false_eq_true, if_false] at h
      split at h
      · obtain rfl := Except.ok.inj h
        refine ⟨htwice _ rfl _, ?_, rfl, rfl⟩
        rw [word_setWord]
        exact hclear (by decide)
      · cases h

/-- What an MDIO transaction may do to the registers of the PHYs. -/
def PhyStep (s t : Elite) : Prop :=
  ∀ phy reg, t.phyRegs phy reg = s.phyRegs phy reg ∨ (phy = ACTIVE_PHY ∧ reg = MII_BMCR) ∨
    (phy = ACTIVE_PHY ∧ reg = MII_BMSR ∧ t.phyRegs phy reg = s.phyRegs phy reg ||| linkUp)

theorem PhyStep.of_eq (h : t.phyRegs = s.phyRegs) : PhyStep s t :=
  fun phy reg => .inl (by rw [h])

theorem miiTransaction_cases (h : s.miiTransaction = .ok t) :
    (∀ x, x < MDIO_RD ∨ MDIO_RD + 4 ≤ x → t.regs x = s.regs x) ∧ t.frames = s.frames ∧
      PhyStep s t := by
  unfold miiTransaction at h
  dsimp only at h
  split at h
  · obtain rfl := Except.ok.inj h
    exact ⟨fun x hx => regs_setWord_of_ne hx s _, rfl, .of_eq rfl⟩
  split at h
  · obtain rfl := Except.ok.inj h
    exact ⟨fun x hx => rfl, rfl, .of_eq rfl⟩
  rename_i hphy
  split at h
  · rename_i hreg
    obtain rfl := Except.ok.inj h
    refine ⟨fun x hx => rfl, rfl, fun phy reg => ?_⟩
    rw [Decidable.not_not.1 hphy, hreg]
    dsimp only
    by_cases hp : phy = ACTIVE_PHY
    · subst hp
      rw [Function.update_self]
      split
      · by_cases hr : reg = MII_BMSR
        · subst hr
          exact .inr (.inr ⟨rfl, rfl, Function.update_self ..⟩)
        · exact .inl (Function.update_of_ne hr _ _)
      · by_cases hr : reg = MII_BMCR
        · exact .inr (.inl ⟨rfl, hr⟩)
        · exact .inl (Function.update_of_ne hr _ _)
    · exact .inl (congrFun (Function.update_of_ne hp _ _) reg)
  · cases h

theorem writeMdioCtrl_cases {data : Word} (h : s.writeMdioCtrl data = .ok t) :
    (∀ x, x < MDIO_RD ∨ MDIO_CTRL + 4 ≤ x → t.regs x = s.regs x) ∧
      (t.word MDIO_CTRL).getLsbD 0 = false ∧ t.frames = s.frames ∧ PhyStep s t := by
  have hout {x : Nat} (hx : x < MDIO_RD ∨ MDIO_CTRL + 4 ≤ x) :
      (x < MDIO_CTRL ∨ MDIO_CTRL + 4 ≤ x) ∧ (x < MDIO_RD ∨ MDIO_RD + 4 ≤ x) := by
    have h1 : MDIO_RD + 4 = MDIO_CTRL := rfl
    omega
  unfold writeMdioCtrl at h
  dsimp only at h
  split at h
  · cases hm : (s.setWord MDIO_CTRL data).miiTransaction with
    | error e =>
      rw [hm] at h
      cases h
    | ok u =>
      rw [hm] at h
      obtain rfl := Except.ok.inj h
      obtain ⟨hregs, hframes, hphy⟩ := miiTransaction_cases hm
      refine ⟨fun x hx => ?_, ?_, hframes, hphy⟩
      · rw [regs_setWord_of_ne (hout hx).1, hregs x (hout hx).2, regs_setWord_of_ne (hout hx).1]
      · rw [word_setWord]
        simp
  · rename_i h0
    obtain rfl := Except.ok.inj h
    exact ⟨fun x hx => regs_setWord_of_ne (hout hx).1 s data,
      by rw [word_setWord]; exact Bool.eq_false_iff.2 h0, rfl, .of_eq rfl⟩

/-- The registers and buffer words that a store just fills. -/
def Plain (a : Nat) : Prop :=
  a = TX_PING_TPLR ∨ a = TX_PONG_TPLR ∨ a = RX_PING_RSR ∨ a = RX_PONG_RSR ∨ a = MDIO_ADDR ∨
    a = MDIO_WR ∨ a ≤ TX_PING_BUF_END ∨ (TX_PONG ≤ a ∧ a ≤ TX_PONG_BUF_END)

/-- The last case is the MDIO bus. -/
theorem write_cases {addr data : Word} (h : s.write addr data = .ok t) :
    (addr.toNat = TX_PING_TSR ∧ s.writeTsr TX_PING TX_PING_TPLR TX_PING_TSR data = .ok t) ∨
    (addr.toNat = TX_PONG_TSR ∧ s.writeTsr TX_PONG TX_PONG_TPLR TX_PONG_TSR data = .ok t) ∨
    (Plain addr.toNat ∧ t = s.setWord (4 * (addr.toNat / 4)) data) ∨
    (addr.toNat = MDIO_CTRL ∧ s.writeMdioCtrl data = .ok t) := by
  unfold write at h
  dsimp only at h
  split at h
  · rename_i ha
    exact .inl ⟨ha, h⟩
  split at h
  · rename_i ha
    exact .inr (.inl ⟨ha, h⟩)
  split at h
  · rename_i ha
    have h4 : 4 * (addr.toNat / 4) = addr.toNat := by
      obtain ha | ha | ha | ha | ha | ha := ha
      all_goals rw [ha]; rfl
    refine .inr (.inr (.inl ⟨?_, by rw [h4]; exact (Except.ok.inj h).symm⟩))
    unfold Plain
    tauto
  split at h
  · rename_i ha
    refine .inr (.inr (.inl ⟨?_, (Except.ok.inj h).symm⟩))
    unfold Plain
    tauto
  split at h
  · rename_i ha
    exact .inr (.inr (.inr ⟨ha, h⟩))
  · cases h

/-- The receive buffer at `buf`, its status register behind it, with a packet copied in. -/
def filled (s : Elite) (buf : Nat) (p : List (BitVec 8)) : Elite :=
  (s.setWord (buf + 0x7fc) (s.word (buf + 0x7fc) ||| 1)).copyIn buf p

theorem regs_filled_of_ne {buf x : Nat} {p : List (BitVec 8)} (hp : p.length ≤ 0x7f8)
    (hx : x < buf ∨ buf + 0x800 ≤ x) (s : Elite) : (s.filled buf p).regs x = s.regs x := by
  rw [filled, regs_copyIn_of_ne (by omega), regs_setWord_of_ne (by omega)]

theorem rx_cases {p : List (BitVec 8)} {r : Int} (h : s.rx p = .ok (r, t)) :
    ((s.word RX_PING_RSR).getLsbD 0 = false ∧ p.length ≤ 0x7f8 ∧ t = s.filled RX_PING p) ∨
    ((s.word RX_PING_RSR).getLsbD 0 = true ∧ (s.word RX_PONG_RSR).getLsbD 0 = false ∧
      p.length ≤ 0x7f8 ∧ t = s.filled RX_PONG p) ∨
    ((s.word RX_PING_RSR).getLsbD 0 = true ∧ (s.word RX_PONG_RSR).getLsbD 0 = true ∧ t = s) := by
  unfold rx at h
  split at h
  · rename_i h0
    split at h
    · rename_i hp
      exact .inl ⟨h0, hp, (congrArg Prod.snd (Except.ok.inj h)).symm⟩
    · cases h
  rename_i h0
  have h0 := Bool.of_not_eq_false h0
  split at h
  · rename_i h1
    split at h
    · rename_i hp
      exact .inr (.inl ⟨h0, h1, hp, (congrArg Prod.snd (Except.ok.inj h)).symm⟩)
    · cases h
  · rename_i h1
    exact .inr (.inr ⟨h0, Bool.of_not_eq_false h1, (congrArg Prod.snd (Except.ok.inj h)).symm⟩)

/-- A store reaches the receive buffers only at their status registers. -/
theorem write_receive {addr data : Word} (h : s.write addr data = .ok t) {x : Nat}
    (hx : RX_PING ≤ x) :
    t.regs x = if addr.toNat = RX_PING_RSR ∨ addr.toNat = RX_PONG_RSR then
      (s.setWord addr.toNat data).regs x else s.regs x := by
  have hrx : RX_PING = 0x1000 := rfl
  obtain ⟨ha, h⟩ | ⟨ha, h⟩ | ⟨hp, rfl⟩ | ⟨ha, h⟩ := write_cases h
  · rw [ha, if_neg (by decide)]
    exact (writeTsr_cases h).1 x (.inr (by simp only [TX_PING_TSR]; omega))
  · rw [ha, if_neg (by decide)]
    exact (writeTsr_cases h).1 x (.inr (by simp only [TX_PONG_TSR]; omega))
  · split
    · rename_i ha
      obtain ha | ha := ha
      all_goals rw [ha]; rfl
    · rename_i ha
      refine regs_setWord_of_ne (.inr ?_) s data
      simp only [Plain, TX_PING_TPLR, TX_PONG_TPLR, MDIO_ADDR, MDIO_WR, TX_PING_BUF_END, TX_PONG,
        TX_PONG_BUF_END] at hp
      omega
  · rw [ha, if_neg (by decide)]
    exact (writeMdioCtrl_cases h).1 x (.inr (by simp only [MDIO_CTRL]; omega))

theorem step_read {addr : Word} (h : (EliteEvent.read addr).step s = .ok t) : t = s := by
  simp only [EliteEvent.step] at h
  cases hr : s.read addr with
  | error e =>
    rw [hr] at h
    cases h
  | ok w =>
    rw [hr] at h
    exact (Except.ok.inj h).symm

theorem step_packet {p : List (BitVec 8)} (h : (EliteEvent.packet p).step s = .ok t) :
    ∃ r, s.rx p = .ok (r, t) := by
  simp only [EliteEvent.step] at h
  cases hr : s.rx p with
  | error e =>
    rw [hr] at h
    cases h
  | ok ru =>
    rw [hr] at h
    exact ⟨ru.1, by rw [← Except.ok.inj h]⟩

theorem run_nil (h : s.run [] = .ok t) : t = s := (Except.ok.inj h).symm

theorem run_cons {e : EliteEvent} {es : List EliteEvent} (h : s.run (e :: es) = .ok t) :
    ∃ u, e.step s = .ok u ∧ u.run es = .ok t := by
  rw [run, List.foldlM_cons] at h
  cases he : e.step s with
  | error e =>
    rw [he] at h
    cases h
  | ok u =>
    rw [he] at h
    exact ⟨u, rfl, h⟩

end Elite

/-! ## The mailbox -/

/-- A receive buffer: its status bit, and the packet in it that the guest has not released. -/
structure Slot where
  full : Bool
  packet : Option (List (BitVec 8))

/-- The guest writes a status register; with the bit clear that releases the packet. -/
def Slot.written (b : Slot) (v : Bool) : Slot :=
  if v then { b with full := true } else ⟨false, none⟩

/-- The packet that the guest releases. -/
def Slot.freed (b : Slot) (v : Bool) : List (List (BitVec 8)) := if v then [] else b.packet.toList

structure Mailbox where
  ping : Slot
  pong : Slot
  accepted : List (List (BitVec 8))
  released : List (List (BitVec 8))

namespace Mailbox

def empty : Mailbox := ⟨⟨false, none⟩, ⟨false, none⟩, [], []⟩

def step (b : Mailbox) : EliteEvent → Mailbox
  | .read _ => b
  | .write addr data =>
    if addr.toNat = RX_PING_RSR then
      { b with
        ping := b.ping.written (data.getLsbD 0)
        released := b.released ++ b.ping.freed (data.getLsbD 0) }
    else if addr.toNat = RX_PONG_RSR then
      { b with
        pong := b.pong.written (data.getLsbD 0)
        released := b.released ++ b.pong.freed (data.getLsbD 0) }
    else b
  | .packet data =>
    if b.ping.full = false then
      { b with ping := ⟨true, some data⟩, accepted := b.accepted ++ [data] }
    else if b.pong.full = false then
      { b with pong := ⟨true, some data⟩, accepted := b.accepted ++ [data] }
    else b

def run (es : List EliteEvent) : Mailbox := es.foldl step empty

/-- The packets that wait. -/
def waiting (b : Mailbox) : List (List (BitVec 8)) := b.ping.packet.toList ++ b.pong.packet.toList

end Mailbox

namespace Elite

variable {s t : Elite} {buf : Nat} {b : Slot}

/-- The receive buffer at `buf` holds a slot. -/
def Holds (s : Elite) (buf : Nat) (b : Slot) : Prop :=
  (s.word (buf + 0x7fc)).getLsbD 0 = b.full ∧
    ∀ p, b.packet = some p → b.full = true ∧ p.length ≤ 0x7f8 ∧
      ∀ k (hk : k < p.length), s.regs (buf + k) = p[k]

theorem Holds.congr (h : s.Holds buf b) (hregs : ∀ x, buf ≤ x → x < buf + 0x800 →
    t.regs x = s.regs x) : t.Holds buf b := by
  refine ⟨?_, fun p hp => ?_⟩
  · rw [word_congr fun i hi => hregs _ (by omega) (by omega)]
    exact h.1
  · obtain ⟨hfull, hlen, hbytes⟩ := h.2 p hp
    exact ⟨hfull, hlen, fun k hk => by rw [hregs _ (by omega) (by omega), hbytes k hk]⟩

theorem Holds.written (h : s.Holds buf b) (data : Word) :
    (s.setWord (buf + 0x7fc) data).Holds buf (b.written (data.getLsbD 0)) := by
  cases h0 : data.getLsbD 0 with
  | false => exact ⟨by rw [word_setWord, h0]; rfl, fun p hp => (Option.some_ne_none p hp.symm).elim⟩
  | true =>
    refine ⟨by rw [word_setWord, h0]; rfl, fun p hp => ?_⟩
    obtain ⟨-, hlen, hbytes⟩ := h.2 p hp
    exact ⟨rfl, hlen, fun k hk => by rw [regs_setWord_of_ne (by omega), hbytes k hk]⟩

theorem holds_filled {p : List (BitVec 8)} (hp : p.length ≤ 0x7f8) (s : Elite) :
    (s.filled buf p).Holds buf ⟨true, some p⟩ := by
  refine ⟨?_, fun q hq => ?_⟩
  · rw [filled, word_congr fun i hi => regs_copyIn_of_ne (by omega) _, word_setWord]
    simp
  · obtain rfl := Option.some.inj hq
    refine ⟨rfl, hp, fun k hk => ?_⟩
    simp only [filled, copyIn]
    rw [if_pos (by omega), Nat.add_sub_cancel_left, List.getD_eq_getElem?_getD,
      List.getElem?_eq_getElem hk, Option.getD_some]

/-- A slot whose status bit is clear has no packet. -/
theorem Holds.packet_eq_none (h : s.Holds buf b) (hfull : b.full = false) : b.packet = none := by
  cases hp : b.packet with
  | none => rfl
  | some p =>
    rw [(h.2 p hp).1] at hfull
    cases hfull

/-- The register file and the mailbox. -/
def Mirrors (s : Elite) (b : Mailbox) : Prop :=
  s.Holds RX_PING b.ping ∧ s.Holds RX_PONG b.pong ∧ b.accepted.Perm (b.released ++ b.waiting)

theorem mirrors_init : init.Mirrors .empty :=
  ⟨⟨by decide, fun p hp => (Option.some_ne_none p hp.symm).elim⟩,
    ⟨by decide, fun p hp => (Option.some_ne_none p hp.symm).elim⟩, .refl _⟩

variable {b : Mailbox}

/-- Releasing moves what waits to what is released. -/
theorem freed_perm (b : Slot) (v : Bool) :
    (b.freed v ++ (b.written v).packet.toList).Perm b.packet.toList := by
  cases v with
  | false => rw [Slot.freed, Slot.written, if_neg (by decide), if_neg (by decide),
      Option.toList_none, List.append_nil]
  | true => exact .refl _

theorem Mirrors.write {addr data : Word} (hb : s.Mirrors b) (h : s.write addr data = .ok t) :
    t.Mirrors (b.step (.write addr data)) := by
  obtain ⟨hping, hpong, hperm⟩ := hb
  have hregs {x : Nat} (hx : RX_PING ≤ x) := write_receive h hx
  have hpp : RX_PING + 0x800 = RX_PONG := rfl
  simp only [Mailbox.step]
  split
  · rename_i ha
    refine ⟨(hping.written data).congr fun x hx hx' => ?_, hpong.congr fun x hx hx' => ?_, ?_⟩
    · rw [hregs hx, if_pos (.inl ha), ha]
      rfl
    · rw [hregs (by omega), if_pos (.inl ha), ha]
      exact regs_setWord_of_ne (.inr (Nat.le_trans (by decide) hx)) s data
    · refine hperm.trans ?_
      simp only [Mailbox.waiting, List.append_assoc]
      refine .append_left _ ?_
      rw [← List.append_assoc]
      exact .append_right _ (freed_perm b.ping _).symm
  split
  · rename_i ha
    refine ⟨hping.congr fun x hx hx' => ?_, (hpong.written data).congr fun x hx hx' => ?_, ?_⟩
    · rw [hregs hx, if_pos (.inr ha), ha]
      exact regs_setWord_of_ne (.inl (Nat.lt_of_lt_of_le hx' (by decide))) s data
    · rw [hregs (by omega), if_pos (.inr ha), ha]
      rfl
    · refine hperm.trans ?_
      simp only [Mailbox.waiting, List.append_assoc]
      refine .append_left _ ?_
      refine (List.Perm.append_left _ (freed_perm b.pong (data.getLsbD 0)).symm).trans ?_
      rw [← List.append_assoc, ← List.append_assoc]
      exact .append_right _ List.perm_append_comm
  · rename_i h1 h2
    have hsame {x : Nat} (hx : RX_PING ≤ x) : t.regs x = s.regs x := by
      rw [hregs hx, if_neg (not_or.2 ⟨h1, h2⟩)]
    exact ⟨hping.congr fun x hx _ => hsame hx, hpong.congr fun x hx _ => hsame (by omega), hperm⟩

theorem Mirrors.packet {p : List (BitVec 8)} {r : Int} (hb : s.Mirrors b)
    (h : s.rx p = .ok (r, t)) : t.Mirrors (b.step (.packet p)) := by
  obtain ⟨hping, hpong, hperm⟩ := hb
  have hpp : RX_PING + 0x800 = RX_PONG := rfl
  have hfull1 : (s.word RX_PING_RSR).getLsbD 0 = b.ping.full := hping.1
  have hfull2 : (s.word RX_PONG_RSR).getLsbD 0 = b.pong.full := hpong.1
  simp only [Mailbox.step]
  obtain ⟨h0, hp, rfl⟩ | ⟨h0, h1, hp, rfl⟩ | ⟨h0, h1, rfl⟩ := rx_cases h
  · rw [hfull1] at h0
    rw [if_pos h0]
    refine ⟨holds_filled hp s, hpong.congr fun x hx _ => regs_filled_of_ne hp (by omega) s, ?_⟩
    have hnone := hping.packet_eq_none h0
    refine (hperm.append_right [p]).trans ?_
    simp only [Mailbox.waiting, hnone, Option.toList_none, Option.toList_some, List.nil_append,
      List.append_assoc]
    exact .append_left _ List.perm_append_comm
  · rw [hfull1] at h0
    rw [hfull2] at h1
    rw [if_neg (by rw [h0]; decide), if_pos h1]
    refine ⟨hping.congr fun x _ hx => regs_filled_of_ne hp (by omega) s, holds_filled hp s, ?_⟩
    have hnone := hpong.packet_eq_none h1
    refine (hperm.append_right [p]).trans ?_
    simp only [Mailbox.waiting, hnone, Option.toList_none, Option.toList_some, List.append_nil,
      List.append_assoc]
    exact .refl _
  · rw [hfull1] at h0
    rw [hfull2] at h1
    rw [if_neg (by rw [h0]; decide), if_neg (by rw [h1]; decide)]
    exact ⟨hping, hpong, hperm⟩

theorem Mirrors.step {e : EliteEvent} (hb : s.Mirrors b) (h : e.step s = .ok t) :
    t.Mirrors (b.step e) := by
  cases e with
  | read addr =>
    obtain rfl := step_read h
    exact hb
  | write addr data => exact hb.write h
  | packet p =>
    obtain ⟨r, hr⟩ := step_packet h
    exact hb.packet hr

theorem Mirrors.run (es : List EliteEvent) :
    ∀ {s : Elite} {b : Mailbox}, s.Mirrors b → s.run es = .ok t →
      t.Mirrors (es.foldl Mailbox.step b) := by
  induction es with
  | nil =>
    intro s b hb h
    rw [run_nil h]
    exact hb
  | cons e es ih =>
    intro s b hb h
    obtain ⟨u, he, h⟩ := run_cons h
    exact ih (hb.step he) h

/-- What the guest reads of a receive buffer: the status bit, and each byte of the packet. -/
def Shows (t : Elite) (buf : Nat) (b : Slot) : Prop :=
  (∃ w, t.read (BitVec.ofNat 32 (buf + 0x7fc)) = .ok w ∧ w.getLsbD 0 = b.full) ∧
    ∀ p, b.packet = some p → ∀ k (hk : k < p.length),
      ∃ w, t.read (BitVec.ofNat 32 (buf + k)) = .ok w ∧ byte w (k % 4) = p[k]

theorem Holds.shows {b : Slot} (hbuf : buf = RX_PING ∨ buf = RX_PONG) (h : t.Holds buf b) :
    t.Shows buf b := by
  have hb : buf % 4 = 0 ∧ buf ≤ 0x1800 := by
    obtain rfl | rfl := hbuf <;> decide
  have hnat {k : Nat} (hk : k < 0x800) : (BitVec.ofNat 32 (buf + k)).toNat = buf + k := by
    rw [BitVec.toNat_ofNat, Nat.mod_eq_of_lt (by omega)]
  refine ⟨⟨_, ?_, h.1⟩, fun p hp k hk => ?_⟩
  · simp only [read, hnat (k := 0x7fc) (by decide)]
    obtain rfl | rfl := hbuf
    · exact if_pos (.inr (.inr (.inl rfl)))
    · exact if_pos (.inr (.inr (.inr (.inl rfl))))
  · obtain ⟨-, hlen, hbytes⟩ := h.2 p hp
    refine ⟨t.word (4 * ((buf + k) / 4)), ?_, ?_⟩
    · simp only [read, hnat (show k < 0x800 by omega)]
      obtain rfl | rfl := hbuf
      · rw [if_neg, if_pos]
        all_goals
          simp only [TX_PING_TSR, TX_PONG_TSR, RX_PING_RSR, RX_PONG_RSR, MDIO_RD, MDIO_CTRL,
            RX_PING, RX_PING_BUF_END, RX_PONG, RX_PONG_BUF_END]
          omega
      · rw [if_neg, if_pos]
        all_goals
          simp only [TX_PING_TSR, TX_PONG_TSR, RX_PING_RSR, RX_PONG_RSR, MDIO_RD, MDIO_CTRL,
            RX_PING, RX_PING_BUF_END, RX_PONG, RX_PONG_BUF_END]
          omega
    · rw [byte_word _ _ (Nat.mod_lt _ (by decide)), ← hbytes k hk]
      congr 1
      omega

/-- A packet is taken exactly if a slot is free. -/
theorem rx_ok {p : List (BitVec 8)} (hb : t.Mirrors b) (hp : p.length ≤ 0x7f8) :
    ∃ u, t.rx p = .ok (if b.ping.full && b.pong.full then -1 else p.length, u) := by
  have hfull1 : (t.word RX_PING_RSR).getLsbD 0 = b.ping.full := hb.1.1
  have hfull2 : (t.word RX_PONG_RSR).getLsbD 0 = b.pong.full := hb.2.1.1
  unfold rx
  rw [hfull1, hfull2]
  cases b.ping.full with
  | false =>
    rw [if_pos rfl, if_pos (show p.length ≤ RX_PING_BUF_END - RX_PING from hp)]
    exact ⟨_, rfl⟩
  | true =>
    rw [if_neg (by decide)]
    cases b.pong.full with
    | false =>
      rw [if_pos rfl, if_pos (show p.length ≤ RX_PONG_BUF_END - RX_PONG from hp)]
      exact ⟨_, rfl⟩
    | true => exact ⟨_, rfl⟩

end Elite

/-- Whatever the guest does and whenever packets arrive: what the controller has accepted is what
    the guest has released and what waits in the buffers, each packet once. A packet that waits
    can be read byte by byte, and one is refused only while both status bits are set. -/
theorem elite_mailbox (es : List EliteEvent) {t : Elite} (h : Elite.init.run es = .ok t) :
    (Mailbox.run es).accepted.Perm ((Mailbox.run es).released ++ (Mailbox.run es).waiting) ∧
      t.Shows RX_PING (Mailbox.run es).ping ∧ t.Shows RX_PONG (Mailbox.run es).pong ∧
      ∀ p : List (BitVec 8), p.length ≤ 0x7f8 → ∃ u, t.rx p = .ok
        (if (Mailbox.run es).ping.full && (Mailbox.run es).pong.full then -1 else p.length, u) :=
  have hb : t.Mirrors (Mailbox.run es) := Elite.Mirrors.run es Elite.mirrors_init h
  ⟨hb.2.2, hb.1.shows (.inl rfl), hb.2.1.shows (.inr rfl), fun _ hp => Elite.rx_ok hb hp⟩

/-- Two packets arrive, a third is refused; the guest releases the first, and a fourth arrives. -/
def mailboxDemo : List EliteEvent :=
  [.packet [1, 2, 3, 4, 5], .packet [6], .packet [7, 8], .read 0x1000, .write 0x17fc 0,
    .packet [9, 10], .write 0x17fc 1]

theorem elite_mailbox_demo :
    ∃ t, Elite.init.run mailboxDemo = .ok t ∧
      (Mailbox.run mailboxDemo).released = [[1, 2, 3, 4, 5]] ∧
      t.Shows RX_PING ⟨true, some [9, 10]⟩ ∧ t.Shows RX_PONG ⟨true, some [6]⟩ ∧
      ∃ u, t.rx [11] = .ok (-1, u) := by
  obtain ⟨-, hping, hpong, hrx⟩ := elite_mailbox mailboxDemo rfl
  exact ⟨_, rfl, rfl, hping, hpong, hrx [11] (by decide)⟩

/-! ## Frames -/

/-- What an event leaves in the word at an offset, as far as the guest writes it. -/
def EliteEvent.stored (off : Nat) (w : Word) : EliteEvent → Word
  | .write addr data => if 4 * (addr.toNat / 4) = off then data else w
  | _ => w

/-- The last word that the guest has written to an offset. -/
def lastWrite (es : List EliteEvent) (off : Nat) : Word := es.foldl (EliteEvent.stored off) 0

/-- A frame that the guest asks for: `byteAt` are its bytes up to the end of the buffer. -/
structure TxRequest where
  len : Nat
  limit : Nat
  byteAt : Nat → BitVec 8

/-- The request that is in a transmit buffer after the events `before`. -/
def TxRequest.written (before : List EliteEvent) (buf tplr limit : Nat) : TxRequest where
  len := (lastWrite before tplr).toNat
  limit := limit
  byteAt k := byte (lastWrite before (buf + 4 * (k / 4))) (k % 4)

/-- The request that an event makes: bit 0 of a status register, without bit 1. -/
def EliteEvent.requests (before : List EliteEvent) : EliteEvent → List TxRequest
  | .write addr data =>
    if addr.toNat = TX_PING_TSR then
      if data.getLsbD 0 && !data.getLsbD 1 then
        [.written before TX_PING TX_PING_TPLR (TX_PING_BUF_END + 4 - TX_PING)]
      else []
    else if addr.toNat = TX_PONG_TSR then
      if data.getLsbD 0 && !data.getLsbD 1 then
        [.written before TX_PONG TX_PONG_TPLR (TX_PONG_BUF_END + 4 - TX_PONG)]
      else []
    else []
  | _ => []

def requestsFrom (before : List EliteEvent) : List EliteEvent → List TxRequest
  | [] => []
  | e :: es => e.requests before ++ requestsFrom (before ++ [e]) es

def TxRequest.SentAs (r : TxRequest) (f : List (BitVec 8)) : Prop :=
  f.length = r.len ∧ ∀ k (hk : k < f.length), k < r.limit → f[k] = r.byteAt k

theorem lastWrite_append (es : List EliteEvent) (e : EliteEvent) (off : Nat) :
    lastWrite (es ++ [e]) off = e.stored off (lastWrite es off) := by
  rw [lastWrite, List.foldl_append]
  rfl

namespace Elite

variable {s t : Elite} {before : List EliteEvent}

/-- The words of the transmit buffers and their lengths. -/
def TxWord (off : Nat) : Prop :=
  off % 4 = 0 ∧
    (off ≤ TX_PING_BUF_END ∨ off = TX_PING_TPLR ∨ (TX_PONG ≤ off ∧ off ≤ TX_PONG_TPLR))

/-- The transmit buffers hold what the guest has written last. -/
def Buffered (s : Elite) (before : List EliteEvent) : Prop :=
  ∀ off, TxWord off → s.word off = lastWrite before off

theorem TxWord.cases {off : Nat} (h : TxWord off) :
    off + 4 ≤ MDIO_RD ∨ (MDIO_CTRL + 4 ≤ off ∧ off + 4 ≤ TX_PING_TSR) ∨
      (TX_PING_TSR + 4 ≤ off ∧ off + 4 ≤ TX_PONG_TSR) := by
  simp only [TxWord, TX_PING_BUF_END, TX_PING_TPLR, TX_PONG, TX_PONG_TPLR, MDIO_ADDR] at h
  simp only [MDIO_RD, MDIO_CTRL, TX_PING_TSR, TX_PONG_TSR]
  omega

theorem Buffered.step {e : EliteEvent} (hs : s.Buffered before) (h : e.step s = .ok t) :
    t.Buffered (before ++ [e]) := by
  intro off hoff
  have hbounds := hoff.cases
  simp only [MDIO_RD, MDIO_CTRL, TX_PING_TSR, TX_PONG_TSR] at hbounds
  rw [lastWrite_append, ← hs off hoff]
  cases e with
  | read addr =>
    obtain rfl := step_read h
    rfl
  | packet p =>
    obtain ⟨r, hr⟩ := step_packet h
    refine word_congr fun i hi => ?_
    obtain ⟨-, hp, rfl⟩ | ⟨-, -, hp, rfl⟩ | ⟨-, -, rfl⟩ := rx_cases hr
    · exact regs_filled_of_ne hp (.inl (by simp only [RX_PING]; omega)) s
    · exact regs_filled_of_ne hp (.inl (by simp only [RX_PONG]; omega)) s
    · rfl
  | write addr data =>
    simp only [EliteEvent.step] at h
    simp only [EliteEvent.stored]
    have hmod := hoff.1
    obtain ⟨ha, h⟩ | ⟨ha, h⟩ | ⟨-, rfl⟩ | ⟨ha, h⟩ := write_cases h
    · rw [ha, if_neg (by simp only [TX_PING_TSR]; omega)]
      exact word_congr fun i hi => (writeTsr_cases h).1 _ (by simp only [TX_PING_TSR]; omega)
    · rw [ha, if_neg (by simp only [TX_PONG_TSR]; omega)]
      exact word_congr fun i hi => (writeTsr_cases h).1 _ (by simp only [TX_PONG_TSR]; omega)
    · split
      · rename_i ha
        rw [ha, word_setWord]
      · exact word_setWord_of_ne (by omega) s data
    · rw [ha, if_neg (by simp only [MDIO_CTRL]; omega)]
      exact word_congr fun i hi =>
        (writeMdioCtrl_cases h).1 _ (by simp only [MDIO_RD, MDIO_CTRL]; omega)

theorem copyOut_sentAs {buf tplr tsr limit : Nat} (hs : s.Buffered before) (data : Word)
    (hbuf : ∀ k, k < limit → TxWord (buf + 4 * (k / 4))) (htplr : TxWord tplr)
    (htsr : buf + limit ≤ tplr ∧ tplr + 4 ≤ tsr) :
    (TxRequest.written before buf tplr limit).SentAs
      ((s.setWord tsr data).copyOut buf ((s.setWord tsr data).word tplr).toNat) := by
  refine ⟨?_, fun k hk hlimit => ?_⟩
  · rw [copyOut, List.length_map, List.length_range, word_setWord_of_ne (by omega), hs _ htplr]
    rfl
  · have hlimit : k < limit := hlimit
    simp only [copyOut, List.getElem_map, List.getElem_range, TxRequest.written]
    rw [regs_setWord_of_ne (by omega), ← hs _ (hbuf k hlimit),
      byte_word _ _ (Nat.mod_lt _ (by decide)), Nat.add_assoc, Nat.div_add_mod]

theorem frames_step {e : EliteEvent} (hs : s.Buffered before) (h : e.step s = .ok t) :
    ∃ fs, t.frames = s.frames ++ fs ∧ List.Forall₂ TxRequest.SentAs (e.requests before) fs := by
  have hsame {t : Elite} (ht : t.frames = s.frames) :
      ∃ fs, t.frames = s.frames ++ fs ∧ List.Forall₂ TxRequest.SentAs [] fs :=
    ⟨[], by rw [ht, List.append_nil], .nil⟩
  cases e with
  | read addr =>
    obtain rfl := step_read h
    exact hsame rfl
  | packet p =>
    obtain ⟨r, hr⟩ := step_packet h
    obtain ⟨-, -, rfl⟩ | ⟨-, -, -, rfl⟩ | ⟨-, -, rfl⟩ := rx_cases hr
    all_goals exact hsame rfl
  | write addr data =>
    simp only [EliteEvent.step] at h
    simp only [EliteEvent.requests]
    obtain ⟨ha, h⟩ | ⟨ha, h⟩ | ⟨hp, rfl⟩ | ⟨ha, h⟩ := write_cases h
    · rw [if_pos ha]
      refine ⟨_, (writeTsr_cases h).2.2.2, ?_⟩
      split
      · refine .cons (copyOut_sentAs hs data (fun k hk => ?_) ?_ ?_) .nil
        · simp only [TxWord, TX_PING, TX_PING_BUF_END, MDIO_ADDR] at hk ⊢
          omega
        · exact ⟨rfl, .inr (.inl rfl)⟩
        · decide
      · exact .nil
    · rw [if_neg (by rw [ha]; decide), if_pos ha]
      refine ⟨_, (writeTsr_cases h).2.2.2, ?_⟩
      split
      · refine .cons (copyOut_sentAs hs data (fun k hk => ?_) ?_ ?_) .nil
        · simp only [TxWord, TX_PONG, TX_PONG_BUF_END, TX_PONG_TPLR] at hk ⊢
          omega
        · exact ⟨rfl, .inr (.inr ⟨by decide, Nat.le_refl _⟩)⟩
        · decide
      · exact .nil
    · simp only [Plain, TX_PING_TPLR, TX_PONG_TPLR, RX_PING_RSR, RX_PONG_RSR, MDIO_ADDR, MDIO_WR,
        TX_PING_BUF_END, TX_PONG, TX_PONG_BUF_END] at hp
      rw [if_neg (by simp only [TX_PING_TSR]; omega), if_neg (by simp only [TX_PONG_TSR]; omega)]
      exact hsame rfl
    · rw [if_neg (by rw [ha]; decide), if_neg (by rw [ha]; decide)]
      exact hsame (writeMdioCtrl_cases h).2.2.1

theorem frames_run (es : List EliteEvent) :
    ∀ {s : Elite} {before : List EliteEvent}, s.Buffered before → s.run es = .ok t →
      ∃ fs, t.frames = s.frames ++ fs ∧
        List.Forall₂ TxRequest.SentAs (requestsFrom before es) fs := by
  induction es with
  | nil =>
    intro s before hs h
    rw [run_nil h]
    exact ⟨[], (List.append_nil _).symm, .nil⟩
  | cons e es ih =>
    intro s before hs h
    obtain ⟨u, he, h⟩ := run_cons h
    obtain ⟨fs, hfs, hsent⟩ := frames_step hs he
    obtain ⟨gs, hgs, hrest⟩ := ih (hs.step he) h
    exact ⟨fs ++ gs, by rw [hgs, hfs, List.append_assoc], List.rel_append hsent hrest⟩

end Elite

/-- The frames sent are those that the guest has asked for, in order: as long as the length it has
    written last, with the bytes it has written last to the buffer. Packets that arrive meanwhile
    and the MDIO bus change nothing. -/
theorem elite_frames (es : List EliteEvent) {t : Elite} (h : Elite.init.run es = .ok t) :
    List.Forall₂ TxRequest.SentAs (requestsFrom [] es) t.frames := by
  have hinit : Elite.init.Buffered [] := fun off _ => by simp [Elite.word, Elite.init, lastWrite]
  obtain ⟨fs, hfs, hsent⟩ := Elite.frames_run es hinit h
  rw [hfs]
  exact hsent

/-- A frame from each buffer, with a packet between the stores, and a MAC address that is no
    frame. -/
def framesDemo : List EliteEvent :=
  [.write 0x0 0x44332211, .write 0x4 0x88776655, .packet [0xaa, 0xbb], .write 0x7f4 6,
    .write 0x800 0xccbbaa99, .write 0x7fc 9, .write 0xff4 3, .write 0x7f0 1, .write 0xffc 1,
    .write 0x7fc 3]

theorem elite_frames_demo :
    ∃ t, Elite.init.run framesDemo = .ok t ∧
      List.Forall₂ TxRequest.SentAs (requestsFrom [] framesDemo) t.frames ∧
      t.frames = [[0x11, 0x22, 0x33, 0x44, 0x55, 0x66], [0x99, 0xaa, 0xbb]] :=
  ⟨_, rfl, elite_frames framesDemo rfl, by decide⟩

/-! ## Idle -/

namespace Elite

variable {s t : Elite}

/-- The status registers with a busy bit. -/
def BusyReg (r : Nat) : Prop := r = TX_PING_TSR ∨ r = TX_PONG_TSR ∨ r = MDIO_CTRL

def Idle (s : Elite) : Prop := ∀ r, BusyReg r → (s.word r).getLsbD 0 = false

/-- Only the control register of the PHY is the guest's, and its status goes up only. -/
def PhyKept (s : Elite) : Prop :=
  ∀ phy reg, ¬ (phy = ACTIVE_PHY ∧ reg = MII_BMCR) → s.phyRegs phy reg = init.phyRegs phy reg ∨
    (phy = ACTIVE_PHY ∧ reg = MII_BMSR ∧ s.phyRegs phy reg = init.phyRegs phy reg ||| linkUp)

theorem PhyKept.step (hs : s.PhyKept) (h : PhyStep s t) : t.PhyKept := by
  intro phy reg hne
  obtain h | h | ⟨hphy, hreg, h⟩ := h phy reg
  · rw [h]
    exact hs phy reg hne
  · exact (hne h).elim
  · obtain hs | ⟨-, -, hs⟩ := hs phy reg hne
    · exact .inr ⟨hphy, hreg, by rw [h, hs]⟩
    · exact .inr ⟨hphy, hreg, by rw [h, hs, BitVec.or_assoc, BitVec.or_self]⟩

theorem Idle.write {addr data : Word} (hs : s.Idle) (h : s.write addr data = .ok t) : t.Idle := by
  intro r hr
  have hbounds : r = 0x7fc ∨ r = 0xffc ∨ r = 0x7f0 := hr
  obtain ⟨-, h⟩ | ⟨-, h⟩ | ⟨hp, rfl⟩ | ⟨-, h⟩ := write_cases h
  · by_cases hrt : r = TX_PING_TSR
    · rw [hrt]
      exact (writeTsr_cases h).2.1
    · simp only [TX_PING_TSR] at hrt
      rw [word_congr fun i hi => (writeTsr_cases h).1 _ (by simp only [TX_PING_TSR]; omega)]
      exact hs r hr
  · by_cases hrt : r = TX_PONG_TSR
    · rw [hrt]
      exact (writeTsr_cases h).2.1
    · simp only [TX_PONG_TSR] at hrt
      rw [word_congr fun i hi => (writeTsr_cases h).1 _ (by simp only [TX_PONG_TSR]; omega)]
      exact hs r hr
  · simp only [Plain, TX_PING_TPLR, TX_PONG_TPLR, RX_PING_RSR, RX_PONG_RSR, MDIO_ADDR, MDIO_WR,
      TX_PING_BUF_END, TX_PONG, TX_PONG_BUF_END] at hp
    rw [word_setWord_of_ne (by omega)]
    exact hs r hr
  · by_cases hrt : r = MDIO_CTRL
    · rw [hrt]
      exact (writeMdioCtrl_cases h).2.1
    · simp only [MDIO_CTRL] at hrt
      rw [word_congr fun i hi => (writeMdioCtrl_cases h).1 _ (by
        simp only [MDIO_RD, MDIO_CTRL]
        omega)]
      exact hs r hr

theorem phyStep_write {addr data : Word} (h : s.write addr data = .ok t) : PhyStep s t := by
  obtain ⟨-, h⟩ | ⟨-, h⟩ | ⟨-, rfl⟩ | ⟨-, h⟩ := write_cases h
  · exact .of_eq (writeTsr_cases h).2.2.1
  · exact .of_eq (writeTsr_cases h).2.2.1
  · exact .of_eq rfl
  · exact (writeMdioCtrl_cases h).2.2.2

theorem idle_step {e : EliteEvent} (hs : s.Idle ∧ s.PhyKept) (h : e.step s = .ok t) :
    t.Idle ∧ t.PhyKept := by
  cases e with
  | read addr =>
    obtain rfl := step_read h
    exact hs
  | packet p =>
    obtain ⟨r, hr⟩ := step_packet h
    have hbounds {r : Nat} (hr : BusyReg r) : r = 0x7fc ∨ r = 0xffc ∨ r = 0x7f0 := hr
    obtain ⟨-, hp, rfl⟩ | ⟨-, -, hp, rfl⟩ | ⟨-, -, rfl⟩ := rx_cases hr
    · refine ⟨fun r hr => ?_, hs.2.step (.of_eq rfl)⟩
      have := hbounds hr
      rw [word_congr fun i hi =>
        regs_filled_of_ne hp (.inl (by simp only [RX_PING]; omega)) s]
      exact hs.1 r hr
    · refine ⟨fun r hr => ?_, hs.2.step (.of_eq rfl)⟩
      have := hbounds hr
      rw [word_congr fun i hi =>
        regs_filled_of_ne hp (.inl (by simp only [RX_PONG]; omega)) s]
      exact hs.1 r hr
    · exact hs
  | write addr data => exact ⟨hs.1.write h, hs.2.step (phyStep_write h)⟩

theorem idle_run (es : List EliteEvent) :
    ∀ {s : Elite}, s.Idle ∧ s.PhyKept → s.run es = .ok t → t.Idle ∧ t.PhyKept := by
  induction es with
  | nil =>
    intro s hs h
    rw [run_nil h]
    exact hs
  | cons e es ih =>
    intro s hs h
    obtain ⟨u, he, h⟩ := run_cons h
    exact ih (idle_step hs he) h

end Elite

/-- In every reachable state each busy bit that the guest can poll reads as clear, and the PHYs are
    as they were at the start but for the control register of the active one and the link bits of
    its status. -/
theorem elite_idle (es : List EliteEvent) {t : Elite} (h : Elite.init.run es = .ok t) :
    (∀ r, Elite.BusyReg r → ∃ w, t.read (BitVec.ofNat 32 r) = .ok w ∧ w.getLsbD 0 = false) ∧
      t.PhyKept := by
  have hinit : Elite.init.Idle ∧ Elite.init.PhyKept :=
    ⟨fun r _ => by simp [Elite.word, Elite.init], fun phy reg _ => .inl rfl⟩
  obtain ⟨hidle, hphy⟩ := Elite.idle_run es hinit h
  refine ⟨fun r hr => ⟨t.word r, ?_, hidle r hr⟩, hphy⟩
  obtain rfl | rfl | rfl := hr
  all_goals rfl

/-- The guest resets the PHY, and reads its status. -/
def idleDemo : List EliteEvent :=
  [.write 0x7fc 0xb, .write 0x7e4 0x20, .write 0x7e8 0x8000, .write 0x7f0 9, .write 0x7e4 0x421,
    .write 0x7f0 9]

theorem elite_idle_demo :
    ∃ t, Elite.init.run idleDemo = .ok t ∧ t.PhyKept ∧ t.read 0x7ec = .ok 0x786d ∧
      ∃ w, t.read 0x7f0 = .ok w ∧ w.getLsbD 0 = false := by
  obtain ⟨hidle, hphy⟩ := elite_idle idleDemo rfl
  exact ⟨_, rfl, hphy, by decide, hidle MDIO_CTRL (.inr (.inr rfl))⟩

end NemuMips32
