/-
  The SPI flash (`flash.c`): a six-state command machine over a storage array and a backing
  file.

  A page program changes the storage at once and the file later: the page is written back when
  another page is programmed or the chip is deselected (`dirty_page`). An erase goes to both.

  `storage` is the memory from `s->storage` on, so an access beyond `size` is an access to what
  lies behind the block. `touched` is ghost state: it records every access to `storage`, and
  every access to `data` with a computed index, together with the write-enable latch.
-/
import NemuMips32.Reg

namespace NemuMips32

/-! ## Parts -/

/-- Erase capabilities. -/
def ER_4K : BitVec 16 := 1
def ER_32K : BitVec 16 := 2
def EEPROM : BitVec 16 := 0x100

structure FlashPartInfo where
  id : List (BitVec 8)
  idLen : Nat
  sectorSize : Word
  nSectors : Word
  pageSize : Word
  flags : BitVec 16
  dieCnt : BitVec 8
  deriving DecidableEq

/-- `INFO_STACKED`. -/
def infoStacked (jedec : BitVec 24) (ext : BitVec 16) (sectorSize nSectors : Word)
    (flags : BitVec 16) (dieCnt : BitVec 8) : FlashPartInfo where
  id := [jedec.extractLsb' 16 8, jedec.extractLsb' 8 8, jedec.extractLsb' 0 8,
    ext.extractLsb' 8 8, ext.extractLsb' 0 8, 0]
  idLen := if jedec = 0 then 0 else 3 + (if ext ≠ 0 then 2 else 0)
  sectorSize := sectorSize
  nSectors := nSectors
  pageSize := 256
  flags := flags
  dieCnt := dieCnt

/-- `INFO`. -/
def info (jedec : BitVec 24) (ext : BitVec 16) (sectorSize nSectors : Word)
    (flags : BitVec 16) : FlashPartInfo := infoStacked jedec ext sectorSize nSectors flags 0

/-- `INFO6`. -/
def info6 (jedec ext : BitVec 24) (sectorSize nSectors : Word) (flags : BitVec 16) :
    FlashPartInfo where
  id := [jedec.extractLsb' 16 8, jedec.extractLsb' 8 8, jedec.extractLsb' 0 8,
    ext.extractLsb' 16 8, ext.extractLsb' 8 8, ext.extractLsb' 0 8]
  idLen := 6
  sectorSize := sectorSize
  nSectors := nSectors
  pageSize := 256
  flags := flags
  dieCnt := 0

def FlashPartInfo.size (p : FlashPartInfo) : Word := p.sectorSize * p.nSectors

/-- `known_devices`, without the part names. -/
def knownDevices : List FlashPartInfo :=
  [
    info 0x20bb23 0 (64 <<< 10) 8192 ER_4K, info 0x20bb24 0 (64 <<< 10) 16384 ER_4K,
    info 0x20bb25 0 (64 <<< 10) 32768 ER_4K,
    -- Atmel
    info 0x1f6601 0 (32 <<< 10) 4 ER_4K, info 0x1f6604 0 (64 <<< 10) 8 ER_4K,
    info 0x1f4401 0 (64 <<< 10) 8 ER_4K, info 0x1f4701 0 (64 <<< 10) 64 ER_4K,
    info 0x1f4800 0 (64 <<< 10) 128 ER_4K, info 0x1f0400 0 (64 <<< 10) 8 ER_4K,
    info 0x1f4501 0 (64 <<< 10) 16 ER_4K, info 0x1f4601 0 (64 <<< 10) 32 ER_4K,
    info 0x1f4700 0 (64 <<< 10) 64 ER_4K, info 0x1f2500 0 (64 <<< 10) 16 ER_4K,
    -- Atmel EEPROMS
    info 0x0 0 1 131072 EEPROM, info 0x0 0 1 262144 EEPROM,
    -- EON
    info 0x1c3116 0 (64 <<< 10) 64 ER_4K, info 0x1c2016 0 (64 <<< 10) 64 0,
    info 0x1c3016 0 (64 <<< 10) 64 0, info 0x1c2017 0 (64 <<< 10) 128 0,
    info 0x1c3017 0 (64 <<< 10) 128 ER_4K,
    -- GigaDevice
    info 0xc84016 0 (64 <<< 10) 64 ER_4K, info 0xc84017 0 (64 <<< 10) 128 ER_4K,
    -- Intel/Numonyx
    info 0x898911 0 (64 <<< 10) 32 0, info 0x898912 0 (64 <<< 10) 64 0,
    info 0x898913 0 (64 <<< 10) 128 0, info 0x20ba17 0 (64 <<< 10) 128 0,
    -- Macronix
    info 0xc22012 0 (64 <<< 10) 4 ER_4K, info 0xc22013 0 (64 <<< 10) 8 ER_4K,
    info 0xc22014 0 (64 <<< 10) 16 0, info 0xc22015 0 (64 <<< 10) 32 ER_4K,
    info 0xc22016 0 (64 <<< 10) 64 0, info 0xc22017 0 (64 <<< 10) 128 0,
    info 0xc22018 0 (64 <<< 10) 256 0, info 0xc22618 0 (64 <<< 10) 256 0,
    info 0xc22019 0 (64 <<< 10) 512 0, info 0xc22619 0 (64 <<< 10) 512 0,
    info 0xc2253a 0 (64 <<< 10) 1024 (ER_4K ||| ER_32K),
    info 0xc2253b 0 (64 <<< 10) 2048 (ER_4K ||| ER_32K),
    info 0xc2201b 0 (64 <<< 10) 2048 (ER_4K ||| ER_32K),
    -- Micron
    info 0x20bb16 0 (64 <<< 10) 64 ER_4K, info 0x20ba16 0 (64 <<< 10) 64 ER_4K,
    info 0x20bb17 0 (64 <<< 10) 128 ER_4K, info 0x20ba17 0 (64 <<< 10) 128 ER_4K,
    info 0x20bb18 0 (64 <<< 10) 256 ER_4K, info 0x20ba18 0 (64 <<< 10) 256 ER_4K,
    info 0x20bb19 0 (64 <<< 10) 512 ER_4K, info 0x20ba19 0 (64 <<< 10) 512 ER_4K,
    info 0x20bb20 0 (64 <<< 10) 1024 ER_4K, info 0x20ba20 0 (64 <<< 10) 1024 ER_4K,
    info 0x20ba18 0 (64 <<< 10) 256 0, info 0x20ba19 0 (64 <<< 10) 512 ER_4K,
    info 0x20ba20 0 (64 <<< 10) 1024 ER_4K, infoStacked 0x20ba21 0x1000 (64 <<< 10) 2048 ER_4K 4,
    infoStacked 0x20bb21 0x1000 (64 <<< 10) 2048 ER_4K 4,
    infoStacked 0x20ba21 0x1040 (64 <<< 10) 2048 ER_4K 2,
    infoStacked 0x20bb21 0x1040 (64 <<< 10) 2048 ER_4K 2,
    -- Spansion, single sector size
    info 0x010215 0x4d00 (64 <<< 10) 64 ER_4K, info 0x010216 0x4d00 (64 <<< 10) 128 ER_4K,
    info 0x010219 0x4d00 (256 <<< 10) 128 0, info 0x010219 0x4d01 (64 <<< 10) 512 0,
    info6 0x010220 0x4d0080 (256 <<< 10) 256 0, info6 0x010221 0x4d0080 (256 <<< 10) 512 0,
    info 0x012018 0x0300 (256 <<< 10) 64 0, info 0x012018 0x0301 (64 <<< 10) 256 0,
    info 0x012018 0x4d00 (256 <<< 10) 64 0, info 0x012018 0x4d01 (64 <<< 10) 256 0,
    info 0x010212 0 (64 <<< 10) 8 0, info 0x010213 0 (64 <<< 10) 16 0,
    info 0x010214 0 (64 <<< 10) 32 0, info 0x010215 0 (64 <<< 10) 64 0,
    info 0x010216 0 (64 <<< 10) 128 0, info 0xef4015 0 (64 <<< 10) 32 (ER_4K ||| ER_32K),
    info 0xef4017 0 (64 <<< 10) 128 (ER_4K ||| ER_32K),
    -- Spansion, boot sectors
    info6 0x010220 0x4d0081 (256 <<< 10) 256 0, info6 0x010221 0x4d0081 (256 <<< 10) 512 0,
    -- SST
    info 0xbf258d 0 (64 <<< 10) 8 ER_4K, info 0xbf258e 0 (64 <<< 10) 16 ER_4K,
    info 0xbf2541 0 (64 <<< 10) 32 ER_4K, info 0xbf254a 0 (64 <<< 10) 64 ER_4K,
    info 0xbf2501 0 (64 <<< 10) 1 ER_4K, info 0xbf2502 0 (64 <<< 10) 2 ER_4K,
    info 0xbf2503 0 (64 <<< 10) 4 ER_4K, info 0xbf2504 0 (64 <<< 10) 8 ER_4K,
    info 0xbf2505 0 (64 <<< 10) 16 ER_4K,
    -- ST Microelectronics
    info 0x202010 0 (32 <<< 10) 2 0, info 0x202011 0 (32 <<< 10) 4 0,
    info 0x202012 0 (64 <<< 10) 4 0, info 0x202013 0 (64 <<< 10) 8 0,
    info 0x202014 0 (64 <<< 10) 16 0, info 0x202015 0 (64 <<< 10) 32 0,
    info 0x202016 0 (64 <<< 10) 64 0, info 0x202017 0 (64 <<< 10) 128 0,
    info 0x202018 0 (256 <<< 10) 64 0, info 0x20ba16 0 (64 <<< 10) 64 0,
    info 0x204011 0 (64 <<< 10) 2 0, info 0x204014 0 (64 <<< 10) 16 0,
    info 0x204015 0 (64 <<< 10) 32 0, info 0x208012 0 (64 <<< 10) 4 0,
    info 0x208014 0 (64 <<< 10) 16 0, info 0x208015 0 (64 <<< 10) 32 ER_4K,
    info 0x207116 0 (64 <<< 10) 64 ER_4K, info 0x207316 0 (64 <<< 10) 64 ER_4K,
    info 0x206316 0 (64 <<< 10) 64 ER_4K, info 0x207117 0 (64 <<< 10) 128 0,
    -- Winbond
    info 0xef3011 0 (64 <<< 10) 2 ER_4K, info 0xef3012 0 (64 <<< 10) 4 ER_4K,
    info 0xef3013 0 (64 <<< 10) 8 ER_4K, info 0xef3014 0 (64 <<< 10) 16 ER_4K,
    info 0xef3015 0 (64 <<< 10) 32 ER_4K, info 0xef3016 0 (64 <<< 10) 64 ER_4K,
    info 0xef4016 0 (64 <<< 10) 64 ER_4K, info 0xef6016 0 (64 <<< 10) 64 ER_4K,
    info 0xef3017 0 (64 <<< 10) 128 ER_4K, info 0xef4017 0 (64 <<< 10) 128 ER_4K,
    info 0xef5014 0 (64 <<< 10) 16 ER_4K, info 0xef4014 0 (64 <<< 10) 16 ER_4K,
    info 0xef4019 0 (64 <<< 10) 512 ER_4K
  ]

inductive Manufacturer where
  | spansion | macronix | numonyx | winbond | sst | generic
  deriving DecidableEq

/-- `get_man`. -/
def FlashPartInfo.man (p : FlashPartInfo) : Manufacturer :=
  match (p.id.getD 0 0).toNat with
  | 0x20 => .numonyx
  | 0xEF => .winbond
  | 0x01 => .spansion
  | 0xC2 => .macronix
  | 0xBF => .sst
  | _ => .generic

/-! ## Commands and state -/

/-- `FlashCMD`; `unknown` is every byte that it does not name. -/
inductive FlashCMD where
  | NOP | WRSR | WRDI | RDSR | WREN | BRRD | BRWR | JEDEC_READ | BULK_ERASE_60 | BULK_ERASE
  | READ_FSR | RDCR | READ | READ4 | FAST_READ | FAST_READ4 | DOR | DOR4 | QOR | QOR4 | DIOR
  | DIOR4 | QIOR | QIOR4 | PP | PP4 | PP4_4 | DPP | QPP | QPP_4 | RDID_90 | RDID_AB | ERASE_4K
  | ERASE4_4K | ERASE_32K | ERASE4_32K | ERASE_SECTOR | ERASE4_SECTOR | EN_4BYTE_ADDR
  | EX_4BYTE_ADDR | EXTEND_ADDR_READ | EXTEND_ADDR_WRITE | RESET_ENABLE | RESET_MEMORY
  | RDCR_EQIO_CMD | RSTQIO_CMD | RNVCR | WNVCR | RVCR | WVCR | REVCR | WEVCR | DIE_ERASE | unknown
  deriving DecidableEq

def FlashCMD.ofByte (b : BitVec 8) : FlashCMD :=
  match b.toNat with
  | 0x00 => .NOP | 0x01 => .WRSR | 0x04 => .WRDI | 0x05 => .RDSR | 0x06 => .WREN | 0x16 => .BRRD
  | 0x17 => .BRWR | 0x9f => .JEDEC_READ | 0x60 => .BULK_ERASE_60 | 0xc7 => .BULK_ERASE
  | 0x70 => .READ_FSR | 0x15 => .RDCR | 0x03 => .READ | 0x13 => .READ4 | 0x0b => .FAST_READ
  | 0x0c => .FAST_READ4 | 0x3b => .DOR | 0x3c => .DOR4 | 0x6b => .QOR | 0x6c => .QOR4
  | 0xbb => .DIOR | 0xbc => .DIOR4 | 0xeb => .QIOR | 0xec => .QIOR4 | 0x02 => .PP | 0x12 => .PP4
  | 0x3e => .PP4_4 | 0xa2 => .DPP | 0x32 => .QPP | 0x34 => .QPP_4 | 0x90 => .RDID_90
  | 0xab => .RDID_AB | 0x20 => .ERASE_4K | 0x21 => .ERASE4_4K | 0x52 => .ERASE_32K
  | 0x5c => .ERASE4_32K | 0xd8 => .ERASE_SECTOR | 0xdc => .ERASE4_SECTOR | 0xb7 => .EN_4BYTE_ADDR
  | 0xe9 => .EX_4BYTE_ADDR | 0xc8 => .EXTEND_ADDR_READ | 0xc5 => .EXTEND_ADDR_WRITE
  | 0x66 => .RESET_ENABLE | 0x99 => .RESET_MEMORY | 0x35 => .RDCR_EQIO_CMD | 0xf5 => .RSTQIO_CMD
  | 0xb5 => .RNVCR | 0xb1 => .WNVCR | 0x85 => .RVCR | 0x81 => .WVCR | 0x65 => .REVCR
  | 0x61 => .WEVCR | 0xc4 => .DIE_ERASE
  | _ => .unknown

/-- The commands that `flash_erase` is called with; any other would make it `abort()`. -/
inductive EraseCmd where
  | ERASE_4K | ERASE4_4K | ERASE_32K | ERASE4_32K | ERASE_SECTOR | ERASE4_SECTOR | BULK_ERASE
  | DIE_ERASE
  deriving DecidableEq

inductive CMDState where
  | idle
  | pageProgram
  | read
  | collectingData
  | collectingVarLenData
  | readingData
  deriving DecidableEq

/-- A file of the host. -/
structure HostFile where
  size : Nat
  byte : Nat → BitVec 8

/-- Write `len` bytes at `off`; a gap behind the old end reads as 0. -/
def HostFile.pwrite (f : HostFile) (off len : Nat) (buf : Nat → BitVec 8) : HostFile where
  size := if len = 0 then f.size else max f.size (off + len)
  byte i :=
    if off ≤ i ∧ i < off + len then buf i
    else if i < f.size then f.byte i
    else 0

/-- An access to `len` cells of an array, the first at index `first`. -/
inductive Touch where
  | readStorage (first len : Nat)
  | writeStorage (first len : Nat) (writeEnable : Bool)
  | data (first len : Nat)
  deriving DecidableEq

structure Flash where
  storage : Nat → BitVec 8
  size : Word
  state : CMDState
  data : Nat → BitVec 8
  len : Nat
  pos : Nat
  dataReadLoop : Bool
  neededBytes : Nat
  cmdInProgress : FlashCMD
  curAddr : Word
  nonvolatileCfg : Word
  volatileCfg : Word
  enhVolatileCfg : Word
  spansionCr1nv : BitVec 8
  spansionCr2nv : BitVec 8
  spansionCr3nv : BitVec 8
  spansionCr4nv : BitVec 8
  spansionCr1v : BitVec 8
  spansionCr2v : BitVec 8
  spansionCr3v : BitVec 8
  spansionCr4v : BitVec 8
  writeEnable : Bool
  fourBytesAddressMode : Bool
  resetEnable : Bool
  quadEnable : Bool
  ear : BitVec 8
  /-- `dirty_page`, `none` for -1. -/
  dirtyPage : Option Nat
  blkioFile : Option HostFile
  pi : FlashPartInfo
  touched : List Touch

/-- `extract32`; its assertion holds at every call. -/
def extract32 (value : Word) (start length : Nat) : Word :=
  (value >>> start) &&& (BitVec.allOnes 32 >>> (32 - length))

/-- `deposit32`. -/
def deposit32 (value : Word) (start length : Nat) (fieldval : Word) : Word :=
  let mask : Word := (BitVec.allOnes 32 >>> (32 - length)) <<< start
  (value &&& ~~~mask) ||| ((fieldval <<< start) &&& mask)

namespace Flash

def touch (s : Flash) (t : Touch) : Flash := { s with touched := t :: s.touched }

def setData (s : Flash) (i : Nat) (b : BitVec 8) : Flash :=
  { s with data := Function.update s.data i b }

/-! ## Write-back -/

/-- `flash_sync_area`. -/
def syncArea (s : Flash) (off len : Nat) : Flash :=
  match s.blkioFile with
  | none => s
  | some f => { s with blkioFile := some (f.pwrite off len s.storage) }.touch (.readStorage off len)

/-- `flash_sync_page`. -/
def syncPage (s : Flash) (page : Nat) : Flash :=
  s.syncArea (page * s.pi.pageSize.toNat) s.pi.pageSize.toNat

/-- `flash_sync_dirty`. -/
def syncDirty (s : Flash) (newpage : Option Nat) : Flash :=
  match s.dirtyPage with
  | none => s
  | some d => if newpage = some d then s else { s.syncPage d with dirtyPage := newpage }

/-! ## Erase and program -/

/-- `memset(s->storage + first, 0xff, len)`. -/
def fill (s : Flash) (first len : Nat) : Flash :=
  { s with storage := fun i => if first ≤ i ∧ i < first + len then 0xff else s.storage i }.touch
    (.writeStorage first len s.writeEnable)

/-- The offset and length that `flash_erase` erases, `none` for a die erase of a part that has
    no dies. -/
def eraseArea (s : Flash) (offset : Word) : EraseCmd → Option (Word × Word)
  | .ERASE_4K | .ERASE4_4K => some (offset, 4 * 1024)
  | .ERASE_32K | .ERASE4_32K => some (offset, 32 * 1024)
  | .ERASE_SECTOR | .ERASE4_SECTOR => some (offset, s.pi.sectorSize)
  | .BULK_ERASE => some (offset, s.size)
  | .DIE_ERASE =>
    if s.pi.dieCnt = 0 then none
    else
      let len := s.size / s.pi.dieCnt.setWidth 32
      some (offset &&& ~~~(len - 1), len)

/-- `flash_erase`. -/
def erase (s : Flash) (offset : Word) (cmd : EraseCmd) : Flash :=
  match s.eraseArea offset cmd with
  | none => s
  | some (off, len) =>
    if s.writeEnable then (s.fill off.toNat len.toNat).syncArea off.toNat len.toNat else s

/-- The store of `flash_write8`: an EEPROM takes the byte, a flash can only clear bits. -/
def program (s : Flash) (data : BitVec 8) : Flash :=
  let prev := s.storage s.curAddr.toNat
  let s := s.touch (.readStorage s.curAddr.toNat 1)
  let new := if s.pi.flags &&& EEPROM ≠ 0 then data else prev &&& data
  { s with storage := Function.update s.storage s.curAddr.toNat new }.touch
    (.writeStorage s.curAddr.toNat 1 s.writeEnable)

/-- `flash_write8`. -/
def write8 (s : Flash) (addr : Word) (data : BitVec 8) : Flash :=
  let page := (addr / s.pi.pageSize).toNat
  { (s.program data).syncDirty (some page) with dirtyPage := some page }

/-! ## Collected addresses -/

/-- `get_addr_length`. -/
def addrLength (s : Flash) : Nat :=
  if s.pi.flags = EEPROM then 2
  else
    match s.cmdInProgress with
    | .PP4 | .PP4_4 | .QPP_4 | .READ4 | .QIOR4 | .ERASE4_4K | .ERASE4_32K | .ERASE4_SECTOR
    | .FAST_READ4 | .DOR4 | .QOR4 | .DIOR4 => 4
    | _ => if s.fourBytesAddressMode then 4 else 3

/-- The address in `data`, masked to the part. -/
def collectedAddr (s : Flash) : Word :=
  let n := s.addrLength
  let first : Word := if n = 3 then s.ear.setWidth 32 else 0
  let addr := (List.range n).foldl (fun (a : Word) i => (a <<< 8) ||| (s.data i).setWidth 32) first
  addr &&& (s.size - 1)

/-- The `WRSR` case of `complete_collecting_data`. -/
def completeWrsr (s : Flash) : Flash :=
  let s :=
    match s.pi.man with
    | .spansion => { s with quadEnable := s.data 1 &&& 0x02 != 0 }
    | .macronix =>
      let s := { s with quadEnable := extract32 ((s.data 0).setWidth 32) 6 1 != 0 }
      if s.len > 1 then
        { s with
          volatileCfg := (s.data 1).setWidth 32
          fourBytesAddressMode := extract32 ((s.data 1).setWidth 32) 5 1 != 0 }
      else s
    | _ => s
  { s with writeEnable := false }

/-- The `RDID_90` and `RDID_AB` cases of `complete_collecting_data`. -/
def completeRdid (s : Flash) : Flash :=
  if s.pi.man = .sst then
    if s.curAddr ≤ 1 then
      let id0 := s.pi.id.getD 0 0
      let id2 := s.pi.id.getD 2 0
      let s := if s.curAddr ≠ 0 then (s.setData 0 id2).setData 1 id0
        else (s.setData 0 id0).setData 1 id2
      { s with pos := 0, len := 2, dataReadLoop := true, state := .readingData }
    else s
  else s

/-- The chip with the collected address in `cur_addr`. -/
def addressed (s : Flash) : Flash :=
  { s with curAddr := s.collectedAddr, state := .idle }.touch (.data 0 s.addrLength)

/-- The `switch` of `complete_collecting_data`. -/
def completeCmd (s : Flash) : FlashCMD → Flash
  | .DPP | .QPP | .QPP_4 | .PP | .PP4 | .PP4_4 => { s with state := .pageProgram }
  | .READ | .READ4 | .FAST_READ | .FAST_READ4 | .DOR | .DOR4 | .QOR | .QOR4 | .DIOR | .DIOR4
  | .QIOR | .QIOR4 => { s with state := .read }
  | .ERASE_4K => s.erase s.curAddr .ERASE_4K
  | .ERASE4_4K => s.erase s.curAddr .ERASE4_4K
  | .ERASE_32K => s.erase s.curAddr .ERASE_32K
  | .ERASE4_32K => s.erase s.curAddr .ERASE4_32K
  | .ERASE_SECTOR => s.erase s.curAddr .ERASE_SECTOR
  | .ERASE4_SECTOR => s.erase s.curAddr .ERASE4_SECTOR
  | .DIE_ERASE => s.erase s.curAddr .DIE_ERASE
  | .WRSR => s.completeWrsr
  | .BRWR | .EXTEND_ADDR_WRITE => { s with ear := s.data 0 }
  | .WNVCR =>
    { s with nonvolatileCfg := (s.data 0).setWidth 32 ||| ((s.data 1).setWidth 32 <<< 8) }
  | .WVCR => { s with volatileCfg := (s.data 0).setWidth 32 }
  | .WEVCR => { s with enhVolatileCfg := (s.data 0).setWidth 32 }
  | .RDID_90 | .RDID_AB => s.completeRdid
  | _ => s

/-- `complete_collecting_data`. -/
def completeCollectingData (s : Flash) : Flash := s.addressed.completeCmd s.cmdInProgress

/-! ## Commands -/

/-- The `MAN_NUMONYX` case of `reset_memory`. -/
def resetNumonyx (s : Flash) : Flash :=
  let v : Word := 0x1 ||| 0x2
  let v := if s.nonvolatileCfg &&& (7 <<< 9) ≠ 7 <<< 9 then v ||| (1 <<< 3) else v
  let v := v ||| deposit32 v 4 4 (extract32 s.nonvolatileCfg 12 4)
  let e : Word := 7 ||| (1 <<< 3) ||| (1 <<< 4)
  let e := if s.nonvolatileCfg &&& (1 <<< 2) ≠ 0 then e ||| (1 <<< 6) else e
  let e := if s.nonvolatileCfg &&& (1 <<< 3) ≠ 0 then e ||| (1 <<< 7) else e
  { s with
    volatileCfg := v
    enhVolatileCfg := e
    fourBytesAddressMode := s.fourBytesAddressMode || s.nonvolatileCfg &&& (1 <<< 0) == 0
    ear := if s.nonvolatileCfg &&& (1 <<< 1) = 0 then (s.size / 0x1000000 - 1).setWidth 8
      else s.ear }

/-- The `MAN_SPANSION` case of `reset_memory`. -/
def resetSpansion (s : Flash) : Flash :=
  { s with
    spansionCr1v := s.spansionCr1nv
    spansionCr2v := s.spansionCr2nv
    spansionCr3v := s.spansionCr3nv
    spansionCr4v := s.spansionCr4nv
    quadEnable := extract32 (s.spansionCr1nv.setWidth 32) 0 1 != 0
    fourBytesAddressMode := extract32 (s.spansionCr2nv.setWidth 32) 7 1 != 0 }

/-- `reset_memory`. -/
def resetMemory (s : Flash) : Flash :=
  let s := { s with
    cmdInProgress := .NOP
    curAddr := 0
    ear := 0
    fourBytesAddressMode := false
    len := 0
    neededBytes := 0
    pos := 0
    state := .idle
    writeEnable := false
    resetEnable := false
    quadEnable := false }
  match s.pi.man with
  | .numonyx => s.resetNumonyx
  | .macronix => { s with volatileCfg := 0x7 }
  | .spansion => s.resetSpansion
  | _ => s

/-- Wait for `n` bytes from the first cell of `data` on. -/
def collect (s : Flash) (n : Nat) : Flash :=
  { s with neededBytes := n, pos := 0, len := 0, state := .collectingData }

/-- Answer with the first `n` bytes of `data`. -/
def answer (s : Flash) (n : Nat) : Flash := { s with pos := 0, len := n, state := .readingData }

/-- The dummy bytes of `decode_fast_read_cmd`. -/
def fastReadDummy (s : Flash) : Nat :=
  match s.pi.man with
  | .winbond => 8
  | .numonyx => (extract32 s.volatileCfg 4 4).toNat
  | .macronix => if extract32 s.volatileCfg 6 2 = 1 then 6 else 8
  | .spansion => (extract32 (s.spansionCr2v.setWidth 32) 0 4).toNat
  | _ => 0

/-- The dummy bytes of `decode_dio_read_cmd`. -/
def dioReadDummy (s : Flash) : Nat :=
  match s.pi.man with
  | .winbond => 1
  | .spansion => 1 + (extract32 (s.spansionCr2v.setWidth 32) 0 4).toNat
  | .numonyx => (extract32 s.volatileCfg 4 4).toNat
  | .macronix =>
    match (extract32 s.volatileCfg 6 2).toNat with
    | 1 => 6
    | 2 => 8
    | _ => 4
  | _ => 0

/-- The dummy bytes of `decode_qio_read_cmd`. -/
def qioReadDummy (s : Flash) : Nat :=
  match s.pi.man with
  | .winbond => 1 + 4
  | .spansion => 1 + (extract32 (s.spansionCr2v.setWidth 32) 0 4).toNat
  | .numonyx => (extract32 s.volatileCfg 4 4).toNat
  | .macronix =>
    match (extract32 s.volatileCfg 6 2).toNat with
    | 1 => 4
    | 2 => 8
    | _ => 6
  | _ => 0

/-- The `WRSR` case of `decode_new_cmd`; unlike the others it keeps `len`. -/
def decodeWrsr (s : Flash) : Flash :=
  if s.writeEnable then
    match s.pi.man with
    | .spansion => { s with neededBytes := 2, state := .collectingData, pos := 0 }
    | .macronix => { s with neededBytes := 2, state := .collectingVarLenData, pos := 0 }
    | _ => { s with neededBytes := 1, state := .collectingData, pos := 0 }
  else s

/-- The command byte is noted before it is looked at; only a reset keeps `reset_enable`. -/
def noted (s : Flash) (cmd : FlashCMD) : Flash :=
  { s with cmdInProgress := cmd, resetEnable := cmd = .RESET_MEMORY && s.resetEnable }

/-- The `switch` of `decode_new_cmd`. -/
def decodeCmd (s : Flash) : FlashCMD → Flash
  | .ERASE_4K | .ERASE4_4K | .ERASE_32K | .ERASE4_32K | .ERASE_SECTOR | .ERASE4_SECTOR | .READ
  | .READ4 | .DPP | .QPP | .QPP_4 | .PP | .PP4 | .PP4_4 | .DIE_ERASE | .RDID_90 | .RDID_AB =>
    s.collect s.addrLength
  | .FAST_READ | .FAST_READ4 | .DOR | .DOR4 | .QOR | .QOR4 =>
    s.collect (s.addrLength + s.fastReadDummy)
  | .DIOR | .DIOR4 => s.collect (s.addrLength + s.dioReadDummy)
  | .QIOR | .QIOR4 => s.collect (s.addrLength + s.qioReadDummy)
  | .WRSR => s.decodeWrsr
  | .WRDI => { s with writeEnable := false }
  | .WREN => { s with writeEnable := true }
  | .RDSR =>
    let d : BitVec 8 := if s.writeEnable then 1 <<< 1 else 0
    let q : BitVec 8 := if s.pi.man = .macronix ∧ s.quadEnable then 1 <<< 6 else 0
    { (s.setData 0 (d ||| q)).answer 1 with dataReadLoop := true }
  | .READ_FSR =>
    let d : BitVec 8 := (1 <<< 7) ||| (if s.fourBytesAddressMode then 0x1 else 0)
    { (s.setData 0 d).answer 1 with dataReadLoop := true }
  | .JEDEC_READ =>
    { s with data := fun i => if i < s.pi.idLen then s.pi.id.getD i 0 else s.data i }.touch
      (.data 0 s.pi.idLen) |>.answer s.pi.idLen
  | .RDCR =>
    let d : BitVec 8 := s.volatileCfg.setWidth 8 ||| (if s.fourBytesAddressMode then 1 <<< 5 else 0)
    (s.setData 0 d).answer 1
  | .BULK_ERASE_60 | .BULK_ERASE => if s.writeEnable then s.erase 0 .BULK_ERASE else s
  | .NOP => s
  | .EN_4BYTE_ADDR => { s with fourBytesAddressMode := true }
  | .EX_4BYTE_ADDR => { s with fourBytesAddressMode := false }
  | .BRRD | .EXTEND_ADDR_READ => (s.setData 0 s.ear).answer 1
  | .BRWR | .EXTEND_ADDR_WRITE => if s.writeEnable then s.collect 1 else s
  | .RNVCR =>
    ((s.setData 0 (s.nonvolatileCfg.setWidth 8)).setData 1
      ((s.nonvolatileCfg >>> 8).setWidth 8)).answer 2
  | .WNVCR => if s.writeEnable && s.pi.man = .numonyx then s.collect 2 else s
  | .RVCR => (s.setData 0 (s.volatileCfg.setWidth 8)).answer 1
  | .WVCR => if s.writeEnable then s.collect 1 else s
  | .REVCR => (s.setData 0 (s.enhVolatileCfg.setWidth 8)).answer 1
  | .WEVCR => if s.writeEnable then s.collect 1 else s
  | .RESET_ENABLE => { s with resetEnable := true }
  | .RESET_MEMORY => if s.resetEnable then s.resetMemory else s
  | .RDCR_EQIO_CMD =>
    match s.pi.man with
    | .spansion => (s.setData 0 (if s.quadEnable then 1 <<< 1 else 0)).answer 1
    | .macronix => { s with quadEnable := true }
    | _ => s
  | .RSTQIO_CMD => { s with quadEnable := false }
  | .unknown => s

/-- `decode_new_cmd`. -/
def decodeNewCmd (s : Flash) (value : BitVec 8) : Flash :=
  (s.noted (.ofByte value)).decodeCmd (.ofByte value)

/-! ## The bus -/

/-- `s->len = s->pos = 0; s->state = STATE_IDLE`. -/
def toIdle (s : Flash) : Flash := { s with len := 0, pos := 0, state := .idle }

/-- `m25p80_cs`. -/
def cs (s : Flash) (select : Bool) : Flash :=
  if select then
    let s := if s.state = .collectingVarLenData then s.completeCollectingData else s
    { s.toIdle.syncDirty none with dataReadLoop := false }
  else s

/-- `(s->cur_addr + 1) & (s->size - 1)`. -/
def nextAddr (s : Flash) : Word := (s.curAddr + 1) &&& (s.size - 1)

/-- The collecting states of `m25p80_transfer8`. -/
def collectByte (s : Flash) (tx : BitVec 8) : Flash :=
  if s.len ≥ 16 then s.toIdle
  else
    let s := (s.setData s.len tx).touch (.data s.len 1)
    let s := { s with len := s.len + 1 }
    if s.len = s.neededBytes then s.completeCollectingData else s

/-- The reading state of `m25p80_transfer8`. -/
def answerByte (s : Flash) : Word × Flash :=
  if s.pos ≥ 16 then (0, s.toIdle)
  else
    let r := (s.data s.pos).setWidth 32
    let s := s.touch (.data s.pos 1)
    let s := { s with pos := s.pos + 1 }
    if s.pos = s.len then
      (r, { s with pos := 0, state := if s.dataReadLoop then s.state else .idle })
    else (r, s)

/-- `m25p80_transfer8`. -/
def transfer8 (s : Flash) (tx : Word) : Word × Flash :=
  match s.state with
  | .pageProgram =>
    (0, { s.write8 s.curAddr (tx.setWidth 8) with curAddr := s.nextAddr })
  | .read =>
    ((s.storage s.curAddr.toNat).setWidth 32,
      { s.touch (.readStorage s.curAddr.toNat 1) with curAddr := s.nextAddr })
  | .collectingData | .collectingVarLenData => (0, s.collectByte (tx.setWidth 8))
  | .readingData => s.answerByte
  | .idle => (0, s.decodeNewCmd (tx.setWidth 8))

end Flash

/-! ## flash_init -/

/-- `read_s`; the kernel refuses a count above `SSIZE_MAX`. -/
def readS (f : HostFile) (buf : Nat → BitVec 8) (count : BitVec 64) : Nat → BitVec 8 :=
  if 2 ^ 63 ≤ count.toNat then buf
  else fun i => if i < count.toNat then f.byte i else buf i

/-- The storage that `flash_init` fills: 0xFF, then the file, whose size goes through an `int`.
    `mem` is what lies behind the block. -/
def initStorage (mem : Nat → BitVec 8) (size : Word) (file : Option HostFile) :
    Nat → BitVec 8 :=
  let storage := fun i => if i < size.toNat then 0xff else mem i
  match file with
  | none => storage
  | some f =>
    let fsize : Word := BitVec.ofNat 32 f.size
    let fsize := if fsize > size then size else fsize
    readS f storage (fsize.signExtend 64)

/-- `s->size >= blkio_size`. -/
def fitsPart (file : Option HostFile) (p : FlashPartInfo) : Bool :=
  match file with
  | none => true
  | some f => f.size ≤ p.size.toNat

/-- The loop of `flash_init` over the parts. -/
def selectPart (file : Option HostFile) : Option FlashPartInfo :=
  knownDevices.find? (fitsPart file)

/-- `flash_init` on the zeroed `Flash`; `none` is its panic. -/
def flashInit (mem : Nat → BitVec 8) (file : Option HostFile) : Option Flash :=
  (selectPart file).map fun p =>
    { storage := initStorage mem p.size file
      size := p.size
      state := .idle
      data := fun _ => 0
      len := 0
      pos := 0
      dataReadLoop := false
      neededBytes := 0
      cmdInProgress := .NOP
      curAddr := 0
      nonvolatileCfg := 0
      volatileCfg := 0
      enhVolatileCfg := 0
      spansionCr1nv := 0
      spansionCr2nv := 0
      spansionCr3nv := 0
      spansionCr4nv := 0
      spansionCr1v := 0
      spansionCr2v := 0
      spansionCr3v := 0
      spansionCr4v := 0
      writeEnable := false
      fourBytesAddressMode := false
      resetEnable := false
      quadEnable := false
      ear := 0
      dirtyPage := none
      blkioFile := file
      pi := p
      touched := [] }

end NemuMips32
