/-
  Exceptions (`raise_exception`, `check_intrs` of `cpu.c`), the TLB (`mmu.c`), address
  translation (`include/cpu/memory.h`) and the memory accesses of the CPU with their MMU
  cache (`vaddr_read`, `vaddr_write`, `mmu-cache.h`).

  `raise_exception` does not leave the handler that calls it: it moves the CP0 state, sets
  `has_exception` and the vector, flushes both caches and returns. A faulting translation
  returns the address of the black hole device, whose `read` returns 0.
-/
import NemuMips32.Machine

namespace NemuMips32

variable {D : Type}

/-! ## Exceptions -/

/-- `HAS_CONFIG(MARCH_NOOP) || cpu.cp0.status.EXL == 0`: the exception is recorded in EPC
    and Cause.BD. -/
def CpuState.recordsEpc (cfg : Config) (c : CpuState) : Bool :=
  cfg.march == .noop || !c.cp0.status.EXL

def CpuState.vecOff (cfg : Config) (e : Exception) (c : CpuState) : Word :=
  if c.recordsEpc cfg then
    if e.extra = .tlbRefill then 0x000
    else if e.code = .INTR ∧ c.cp0.cause.IV = true then 0x200
    else 0x180
  else 0x180

/-- What `raise_exception` does to the CPU. -/
def CpuState.raise (cfg : Config) (e : Exception) (c : CpuState) : CpuState :=
  let first := c.recordsEpc cfg
  let slot := cfg.delayslot && c.isDelayslot
  { c with
    hasException := true
    isDelayslot := if first && slot then false else c.isDelayslot
    brTarget := (if c.cp0.status.BEV then 0xbfc00200 else 0x80000000) + c.vecOff cfg e
    cp0 :=
      { c.cp0 with
        epc := if first then (if slot then c.pc - 4 else c.pc) else c.cp0.epc
        cause := { c.cp0.cause with
          BD := if first then slot else c.cp0.cause.BD
          ExcCode := e.code.num }
        status := { c.cp0.status with EXL := true } } }

/-- The ghost record of an entry of `raise_exception` that left the CPU in state `c`. -/
def Raised.of (e : Exception) (c : CpuState) : Raised :=
  { exc := e
    epc := c.cp0.epc
    bd := c.cp0.cause.BD
    badvaddr := c.cp0.badvaddr
    vector := c.brTarget }

def Arch.raise (cfg : Config) (e : Exception) (a : Arch D) : Arch D :=
  { a with cpu := a.cpu.raise cfg e, raised := a.raised ++ [Raised.of e (a.cpu.raise cfg e)] }

/-- `raise_exception`. A trap panics. -/
def raiseException (P : Platform D) (e : Exception) : Exec D Unit := do
  if e.code = .TRAP then
    modifyArch fun a => { a with raised := a.raised ++ [Raised.of e a.cpu] }
    halt .panic
  modifyArch fun a => a.raise P.cfg e
  clearMmuCache
  clearDecodeCache

/-- The timer part of `check_intrs`. -/
def Cp0.tick (c : Cp0) : Cp0 :=
  let c := { c with count := c.count + 1 }
  if c.count = c.compare then nemuSetIrq 7 true c else c

/-- `ie && (cpu.cp0.status.IM & cpu.cp0.cause.IP)`. -/
def Cp0.takesIntr (c : Cp0) : Bool :=
  !c.status.ERL && !c.status.EXL && c.status.IE && (c.status.IM &&& c.cause.IP != 0)

/-- `check_intrs`. -/
def checkIntrs (P : Platform D) : Exec D Unit := do
  if P.cfg.intr then modifyCp0 Cp0.tick
  if (← getCpu).cp0.takesIntr then raiseException P ⟨.none, .INTR⟩

/-! ## TLB -/

/-- `mask == 0 || (mask | (mask + 1)) == 0`, on the mask as a 32-bit value. -/
def pagemaskOk (m : BitVec 16) : Bool :=
  let mask : Word := m.setWidth 32
  mask == 0 || (mask ||| (mask + 1)) == 0

/-- The match test of `tlb_present` and `page_translate`, for a virtual page number `vpn`. -/
def TlbEntry.matches (e : TlbEntry) (vpn : Word) (asid : BitVec 8) : Bool :=
  let mask : Word := e.pagemask.setWidth 32
  (e.vpn.setWidth 32 &&& ~~~mask) == (vpn &&& ~~~mask) && (e.g || e.asid == asid)

/-- The loop of `tlb_present`. -/
def tlbPresentFrom : List (Fin 32) → Exec D Unit
  | [] => modifyCp0 fun c => { c with index := { c.index with p := true } }
  | i :: is => do
    let s ← get
    unless pagemaskOk (s.tlb i).pagemask do halt .assert
    if (s.tlb i).matches (s.cpu.cp0.entryHi.vpn.setWidth 32) s.cpu.cp0.entryHi.asid then
      modifyCp0 fun c => { c with index := { p := false, idx := BitVec.ofNat 5 i.val } }
    else
      tlbPresentFrom is

def tlbPresent : Exec D Unit := tlbPresentFrom (List.finRange 32)

def readPhyn (p : TlbPhyn) (g : Bool) (mask : BitVec 16) : Cp0EntryLo where
  pfn := (p.pfn &&& ~~~(mask.setWidth 24)).setWidth 20
  c := p.c
  d := p.d
  v := p.v
  g := g

/-- `tlb_read`. -/
def tlbRead (e : TlbEntry) (c : Cp0) : Cp0 :=
  { c with
    pagemask := e.pagemask
    entryHi := { vpn := e.vpn &&& ~~~(e.pagemask.setWidth 19), asid := e.asid }
    entryLo0 := readPhyn e.p0 e.g e.pagemask
    entryLo1 := readPhyn e.p1 e.g e.pagemask }

def writePhyn (lo : Cp0EntryLo) (mask : BitVec 16) : TlbPhyn where
  pfn := lo.pfn.setWidth 24 &&& ~~~(mask.setWidth 24)
  c := lo.c
  d := lo.d
  v := lo.v

/-- The entry that `tlb_write` stores. -/
def tlbEntryOf (c : Cp0) : TlbEntry where
  pagemask := c.pagemask
  vpn := c.entryHi.vpn &&& ~~~(c.pagemask.setWidth 19)
  asid := c.entryHi.asid
  g := c.entryLo0.g && c.entryLo1.g
  p0 := writePhyn c.entryLo0 c.pagemask
  p1 := writePhyn c.entryLo1 c.pagemask

/-- `tlb_write`. -/
def tlbWrite (i : Fin 32) : Exec D Unit :=
  modifyArch fun a => { a with tlb := Function.update a.tlb i (tlbEntryOf a.cpu.cp0) }

/-- The CP0 registers that `tlb_exception` sets before it raises. -/
def Cp0.setFault (c : Cp0) (vaddr : Word) (asid : BitVec 8) : Cp0 :=
  { c with
    badvaddr := vaddr
    context := { c.context with BadVPN2 := vaddr.extractLsb' 13 19 }
    entryHi := { vpn := vaddr.extractLsb' 13 19, asid := asid } }

/-- `tlb_exception`. -/
def tlbException (P : Platform D) (ex : ExKind) (code : ExcCode) (vaddr : Word)
    (asid : BitVec 8) : Exec D Unit := do
  modifyCp0 fun c => c.setFault vaddr asid
  raiseException P ⟨ex, code⟩

/-! ## Translation -/

/-- `MMU_LOAD`, `MMU_STORE`. -/
inductive Access where
  | load
  | store
  deriving DecidableEq

structure MmuAttr where
  rwbit : Access
  exbit : Bool
  dirty : Bool
  miss : Bool
  deriving DecidableEq

/-- `{.rwbit = rwbit, .exbit = exbit}`. -/
def MmuAttr.init (rwbit : Access) (exbit : Bool) : MmuAttr := ⟨rwbit, exbit, false, false⟩

/-- `attr->rwbit == MMU_LOAD ? EXC_TLBL : EXC_TLBS`. -/
def Access.exccode : Access → ExcCode
  | .load => .TLBL
  | .store => .TLBS

/-- The physical page of an entry that covers `vaddr`, by `EvenOddBit`. -/
def TlbEntry.phyn (e : TlbEntry) (vaddr : Word) : TlbPhyn :=
  if vaddr &&& ((e.pagemask.setWidth 32 + 1) <<< 12) ≠ 0 then e.p1 else e.p0

/-- `highbits | lowbits`. -/
def TlbEntry.paddr (e : TlbEntry) (vaddr : Word) : Word :=
  let mask : Word := e.pagemask.setWidth 32
  (((e.phyn vaddr).pfn.setWidth 32 &&& ~~~mask) <<< 12) |||
    (vaddr &&& (((mask + 1) <<< 12) - 1))

/-- The loop of `page_translate`. -/
def pageTranslateFrom (P : Platform D) (vaddr : Word) (attr : MmuAttr) :
    List (Fin 32) → Exec D (Word × MmuAttr)
  | [] => do
    if attr.exbit then
      tlbException P .tlbRefill attr.rwbit.exccode vaddr (← getCpu).cp0.entryHi.asid
    return (blackholeDev.start, { attr with miss := true })
  | i :: is => do
    let s ← get
    let e := s.tlb i
    unless pagemaskOk e.pagemask do halt .assert
    if e.matches (vaddr >>> 13) s.cpu.cp0.entryHi.asid then
      let phyn := e.phyn vaddr
      if phyn.v = false then
        if attr.exbit then tlbException P .tlbInvalid attr.rwbit.exccode vaddr e.asid
        return (blackholeDev.start, attr)
      else if phyn.d = false ∧ attr.rwbit = .store then
        if attr.exbit then tlbException P .tlbModified .TLBM vaddr e.asid
        return (blackholeDev.start, { attr with dirty := phyn.d })
      else
        return (e.paddr vaddr, { attr with dirty := phyn.d })
    else
      pageTranslateFrom P vaddr attr is

/-- `page_translate`. -/
def pageTranslate (P : Platform D) (vaddr : Word) (attr : MmuAttr) : Exec D (Word × MmuAttr) :=
  pageTranslateFrom P vaddr attr (List.finRange 32)

/-- `prot_addr_with_attr`. -/
def protAddrWithAttr (P : Platform D) (addr : Word) (attr : MmuAttr) :
    Exec D (Word × MmuAttr) := do
  let mapped : Exec D (Word × MmuAttr) := do
    let (paddr, attr) ← pageTranslate P addr attr
    return (ioremap paddr, attr)
  match (addr >>> 29).toNat with
  | 4 => return (ioremap addr, attr)
  | 5 => return (ioremap addr, attr)
  | 7 => halt .panic
  | 6 => if !P.cfg.paging then return (addr, attr) else mapped
  | _ =>
    if !P.cfg.paging || (← getCpu).cp0.status.ERL then return (addr, attr) else mapped

/-! ## MMU cache -/

def mmuCacheIndex (vaddr : Word) : BitVec 12 := (vaddr >>> 12).setWidth 12

def mmuCacheId (vaddr : Word) : Word := vaddr >>> 24

/-- `dev->map(addr, 0)`. -/
def devMap (r : Ram) (addr : Word) : Exec D (Ram × Word) := do
  unless checkIoaddr addr 0 r.size do halt .cpuAssert
  return (r, addr)

/-- `update_mmu_cache`. It runs in every build; `CONFIG_MMU_CACHE` only guards the lookups. -/
def updateMmuCache (vaddr paddr : Word) (dev : Device) (canWrite : Bool) : Exec D Unit := do
  if (← getCpu).hasException then return
  match dev.name.ram with
  | none => return
  | some r => do
    let ptr ← devMap r ((paddr &&& ~~~0xFFF) - dev.start)
    modify fun s =>
      { s with
        mmuCache := Function.update s.mmuCache (mmuCacheIndex vaddr)
          { id := mmuCacheId vaddr, ptr := some ptr, canWrite := canWrite } }

/-- `len` bytes at `ptr + off` lie inside the array; outside it the access is undefined. -/
def hostInBounds (r : Ram) (addr : Word) (len : Nat) : Bool := checkIoaddr addr len r.size

/-- `*((uint32_t *)&ptr[off])`, masked to `len` bytes. -/
def hostRead (ptr : Option (Ram × Word)) (off : Word) (len : Nat) : Exec D Word :=
  match ptr with
  | none => halt .undefined
  | some (r, base) => do
    unless hostInBounds r (base + off) len do halt .undefined
    return loadBytes ((← get).ram r) (base + off) len

/-- `memcpy(&ptr[off], &data, len)`. -/
def hostWrite (ptr : Option (Ram × Word)) (off : Word) (len : Nat) (data : Word) :
    Exec D Unit :=
  match ptr with
  | none => halt .undefined
  | some (r, base) => do
    unless hostInBounds r (base + off) len do halt .undefined
    modifyArch fun a => { a with ram := a.ram.store r (base + off) len data }

/-- `vaddr_read`. -/
def vaddrRead (P : Platform D) (addr : Word) (len : Nat) : Exec D Word := do
  let e := (← get).mmuCache (mmuCacheIndex addr)
  if P.cfg.mmuCache = true ∧ e.id = mmuCacheId addr then
    hostRead e.ptr (addr &&& 0xFFF) len
  else
    let (paddr, attr) ← protAddrWithAttr P addr (.init .load true)
    match P.findDevice paddr with
    | none => halt .cpuAssert
    | some dev =>
      match P.devRead dev.name with
      | none => halt .cpuAssert
      | some read =>
        updateMmuCache addr paddr dev attr.dirty
        read (paddr - dev.start) len

/-- `vaddr_write`. -/
def vaddrWrite (P : Platform D) (addr : Word) (len : Nat) (data : Word) : Exec D Unit := do
  let e := (← get).mmuCache (mmuCacheIndex addr)
  if P.cfg.mmuCache = true ∧ e.id = mmuCacheId addr ∧ e.canWrite = true then
    hostWrite e.ptr (addr &&& 0xFFF) len data
  else
    let (paddr, _) ← protAddrWithAttr P addr (.init .store true)
    match P.findDevice paddr with
    | none => halt .cpuAssert
    | some dev =>
      match P.devWrite dev.name with
      | none => halt .cpuAssert
      | some write =>
        updateMmuCache addr paddr dev true
        write (paddr - dev.start) len data

end NemuMips32
