/-
  The emulated machine: CPU, TLB, RAM and devices (`Arch`), the two caches the emulator
  keeps beside them (`Machine`), and the programs that run on it (`Exec`).

  A handler is a program over the machine. Falling off its end is the `goto inst_end` of
  `make_exec_handler`; `Stop.exit` is the `goto exit` of a failed check, `Stop.delayslot`
  the one of `prepare_delayslot`; `Stop.halt` ends the emulator (a failed assertion, a
  panic, `exit`, or behaviour that C leaves undefined).

  RAM (`bram.c`, `ddr.c`) and the black hole device are modelled. The memory-mapped devices
  behind the other addresses are a parameter (`Mmio`): their accesses may change their own
  state, drive interrupt lines, stop the emulator and, for a write (`nemu-disk.c`), fill
  RAM, but they reach nothing else. Likewise the softfloat and host floating point routines
  (`Fpu`), `rand()` and the contents of fresh `malloc` blocks.

  `Arch.raised` is ghost state: it records every entry of `raise_exception` with the EPC,
  Cause.BD, BadVAddr and vector it left behind.
-/
import NemuMips32.Lib.StateExcept
import NemuMips32.Decode

namespace NemuMips32

/-! ## Devices -/

/-- Why the emulator stopped for good. -/
inductive Halt where
  | assert
  | cpuAssert
  | panic
  | exit
  | undefined
  deriving DecidableEq

inductive NemuState where
  | stop
  | running
  | ended
  deriving DecidableEq

/-- The devices with a `map` function, backed by a byte array. -/
inductive Ram where
  | bram
  | ddr
  deriving DecidableEq

inductive DevName where
  | bram
  | ddr
  | blackhole
  | nemuTrap
  | nemuKeyboard
  | nemuClock
  | nemuPmu
  | nemuVgaCtrl
  | nemuVga
  | nemuDisk
  | xlnxUlite
  | xlnxSpi
  | xlnxElite
  deriving DecidableEq

structure Device where
  name : DevName
  start : Word
  size : Word
  deriving DecidableEq

abbrev Memory := Ram → Word → BitVec 8

def Ram.size : Ram → Word
  | .bram => 0x100000
  | .ddr => 0x10000000

/-- The queues of the devices have 1024 cells. -/
theorem fifoLen_pos : 0 < 1024 := by decide

/-- What a device callback sees of the emulator. -/
structure DevCtx (D : Type) where
  dev : D
  ip : BitVec 8
  nemuState : NemuState

/-- The `read` and `write` members of the memory-mapped devices, `none` where the device
    has no such member. -/
structure Mmio (D : Type) where
  read : DevName → Option (Word → Nat → DevCtx D → Except Halt (Word × DevCtx D))
  write : DevName →
    Option (Word → Nat → Word → DevCtx D → Memory → Except Halt (DevCtx D × Memory))

/-- `BLACKHOLE_ADDR`. -/
def blackholeDev : Device := { name := .blackhole, start := 0x1fe96000, size := 0x1000 }

def ioremap (vaddr : Word) : Word := vaddr &&& 0x1FFFFFFF

def mrIndex (addr : Word) : Word := addr / 4096

/-- `memory_regions` after `init_mmio`. The black hole is always linked in, and
    `realize_device` asserts that no other device takes its page. -/
structure Board where
  regions : Word → Option Device
  blackhole_realized : regions (mrIndex (ioremap blackholeDev.start)) = some blackholeDev

/-- Softfloat (`float32_add` ...) and the host's float conversions and comparisons, on bit
    patterns. -/
structure Fpu where
  float32Add : Word → Word → Word
  float64Add : BitVec 64 → BitVec 64 → BitVec 64
  float32Sub : Word → Word → Word
  float64Sub : BitVec 64 → BitVec 64 → BitVec 64
  float32Mul : Word → Word → Word
  float64Mul : BitVec 64 → BitVec 64 → BitVec 64
  float32Div : Word → Word → Word
  float64Div : BitVec 64 → BitVec 64 → BitVec 64
  float32Sqrt : Word → Word
  float64Sqrt : BitVec 64 → BitVec 64
  float32ToInt32 : Word → Word
  float64ToInt32 : BitVec 64 → Word
  hostDoubleOfFloat : Word → BitVec 64
  hostFloatOfDouble : BitVec 64 → Word
  hostIntOfFloat : Word → Word
  hostIntOfDouble : BitVec 64 → Word
  hostFloatOfInt : Word → Word
  hostDoubleOfInt : Word → BitVec 64
  hostEq32 : Word → Word → Bool
  hostLt32 : Word → Word → Bool
  hostLe32 : Word → Word → Bool
  hostEq64 : BitVec 64 → BitVec 64 → Bool
  hostLt64 : BitVec 64 → BitVec 64 → Bool
  hostLe64 : BitVec 64 → BitVec 64 → Bool

/-- Everything a run of the emulator takes as given. `malloc n` is what the `n`-th fresh
    `decode_state_t` contains before it is filled, `rand n` the `n`-th value of `rand()`. -/
structure Platform (D : Type) where
  cfg : Config
  board : Board
  mmio : Mmio D
  fpu : Fpu
  rand : Nat → Nat
  malloc : Nat → DecodeState

/-! ## Machine state -/

structure TlbPhyn where
  pfn : BitVec 24
  c : BitVec 3
  d : Bool
  v : Bool
  deriving Inhabited

structure TlbEntry where
  pagemask : BitVec 16
  vpn : BitVec 19
  g : Bool
  asid : BitVec 8
  p0 : TlbPhyn
  p1 : TlbPhyn
  deriving Inhabited

/-- One entry of `raise_exception`: its argument, and the EPC, Cause.BD, BadVAddr and vector
    that hold when it returns. -/
structure Raised where
  exc : Exception
  epc : Word
  bd : Bool
  badvaddr : Word
  vector : Word

/-- The architectural state, with the emulator's run state and the ghost record of
    exceptions. -/
structure Arch (D : Type) where
  cpu : CpuState
  tlb : Fin 32 → TlbEntry
  ram : Memory
  dev : D
  nemuState : NemuState
  randPos : Nat
  raised : List Raised

/-- `struct mmu_cache_t`. The host pointer is a byte of a RAM array. -/
structure MmuCacheEntry where
  id : Word
  ptr : Option (Ram × Word)
  canWrite : Bool
  deriving Inhabited

/-- The `decode_state_t *` values: an entry of the array `decode_cache`, or a malloc'd one. -/
inductive Ptr where
  | head (i : BitVec 12)
  | node (n : Nat)
  deriving DecidableEq

/-- The array `decode_cache`, the malloc'd decode states (`none` once freed), the number of
    states allocated so far, and the local variable `ds` of `cpu_exec`. -/
structure DecodeCache where
  heads : BitVec 12 → DecodeState
  heap : Nat → Option DecodeState
  brk : Nat
  ds : Ptr

structure Machine (D : Type) extends Arch D where
  mmuCache : BitVec 12 → MmuCacheEntry
  dc : DecodeCache

/-! ## Programs -/

inductive Stop where
  | exit
  | delayslot
  | halt (why : Halt)
  deriving DecidableEq

abbrev Exec (D : Type) := EStateM Stop (Machine D)

variable {D : Type}

def halt {α : Type} (why : Halt) : Exec D α := throw (.halt why)

def modifyArch (f : Arch D → Arch D) : Exec D Unit :=
  modify fun s => { s with toArch := f s.toArch }

def modifyCpu (f : CpuState → CpuState) : Exec D Unit :=
  modifyArch fun a => { a with cpu := f a.cpu }

def modifyRegs (f : CpuState → Regs) : Exec D Unit :=
  modifyCpu fun c => { c with toRegs := f c }

def modifyCp0 (f : Cp0 → Cp0) : Exec D Unit :=
  modifyCpu fun c => { c with cp0 := f c.cp0 }

def getCpu : Exec D CpuState := do return (← get).cpu

section Apply

variable (s : Machine D)

@[simp] theorem halt_apply {α : Type} (why : Halt) :
    (halt why : Exec D α) s = .error (.halt why) s := rfl

@[simp] theorem halt_bind_apply {α β : Type} (why : Halt) (f : α → Exec D β) :
    ((halt why : Exec D α) >>= f) s = .error (.halt why) s := rfl

@[simp] theorem modifyArch_apply (f : Arch D → Arch D) :
    modifyArch f s = .ok () { s with toArch := f s.toArch } := rfl

@[simp] theorem modifyCpu_apply (f : CpuState → CpuState) :
    modifyCpu f s = .ok () { s with cpu := f s.cpu } := rfl

@[simp] theorem modifyRegs_apply (f : CpuState → Regs) :
    modifyRegs f s = .ok () { s with cpu := { s.cpu with toRegs := f s.cpu } } := rfl

@[simp] theorem modifyCp0_apply (f : Cp0 → Cp0) :
    modifyCp0 f s = .ok () { s with cpu := { s.cpu with cp0 := f s.cpu.cp0 } } := rfl

@[simp] theorem getCpu_apply : getCpu s = .ok s.cpu s := rfl

end Apply

/-! ## Devices on the machine -/

def Arch.devCtx (a : Arch D) : DevCtx D :=
  { dev := a.dev, ip := a.cpu.cp0.cause.IP, nemuState := a.nemuState }

def Cp0.setIP (c : Cp0) (ip : BitVec 8) : Cp0 := { c with cause := { c.cause with IP := ip } }

/-- The machine after a device callback: its own state, the interrupt lines it drove with
    `nemu_set_irq`, and the run state. -/
def Arch.putDev (a : Arch D) (x : DevCtx D) : Arch D :=
  { a with
    dev := x.dev
    nemuState := x.nemuState
    cpu := { a.cpu with cp0 := a.cpu.cp0.setIP x.ip } }

/-- `nemu_set_irq` on the interrupt lines alone. -/
def setIrq (irqno : Nat) (val : Bool) (ip : BitVec 8) : BitVec 8 :=
  if val then ip ||| (1#8 <<< irqno) else ip &&& ~~~(1#8 <<< irqno)

/-- `nemu_set_irq`. -/
def nemuSetIrq (irqno : Nat) (val : Bool) (c : Cp0) : Cp0 :=
  c.setIP (if val then c.cause.IP ||| (1#8 <<< irqno) else c.cause.IP &&& ~~~(1#8 <<< irqno))

/-- `check_ioaddr`. -/
def checkIoaddr (addr : Word) (len : Nat) (size : Word) : Bool :=
  addr ≤ size && BitVec.ofNat 32 len ≤ size && addr + BitVec.ofNat 32 len ≤ size

/-- The little-endian word at `addr`, masked to `len` bytes. -/
def loadBytes (m : Word → BitVec 8) (addr : Word) (len : Nat) : Word :=
  (m (addr + 3) ++ m (addr + 2) ++ m (addr + 1) ++ m addr) &&&
    (0xFFFFFFFF#32 >>> ((4 - len) * 8))

/-- `memcpy(m + addr, &data, len)`. -/
def storeBytes (m : Word → BitVec 8) (addr : Word) (len : Nat) (data : Word) : Word → BitVec 8 :=
  fun x => if (x - addr).toNat < len then data.extractLsb' ((x - addr).toNat * 8) 8 else m x

def Memory.store (m : Memory) (r : Ram) (addr : Word) (len : Nat) (data : Word) : Memory :=
  Function.update m r (storeBytes (m r) addr len data)

/-- `bram_read`, `ddr_read`. -/
def ramRead (r : Ram) (addr : Word) (len : Nat) : Exec D Word := do
  unless checkIoaddr addr len r.size do halt .cpuAssert
  return loadBytes ((← get).ram r) addr len

/-- `bram_write`, `ddr_write`. -/
def ramWrite (r : Ram) (addr : Word) (len : Nat) (data : Word) : Exec D Unit := do
  unless checkIoaddr addr len r.size do halt .cpuAssert
  modifyArch fun a => { a with ram := a.ram.store r addr len data }

/-- The RAM array behind a device, for the devices with a `map` member. -/
def DevName.ram : DevName → Option Ram
  | .bram => some .bram
  | .ddr => some .ddr
  | _ => none

def mmioRead (f : Word → Nat → DevCtx D → Except Halt (Word × DevCtx D)) (addr : Word)
    (len : Nat) : Exec D Word := fun s =>
  match f addr len s.devCtx with
  | .ok (v, x) => .ok v { s with toArch := s.putDev x }
  | .error h => .error (.halt h) s

def mmioWrite
    (f : Word → Nat → Word → DevCtx D → Memory → Except Halt (DevCtx D × Memory))
    (addr : Word) (len : Nat) (data : Word) : Exec D Unit := fun s =>
  match f addr len data s.devCtx s.ram with
  | .ok (x, m) => .ok () { s with toArch := { s.putDev x with ram := m } }
  | .error h => .error (.halt h) s

/-- `dev->read`. -/
def Platform.devRead (P : Platform D) (d : DevName) : Option (Word → Nat → Exec D Word) :=
  match d.ram with
  | some r => some (ramRead r)
  | none =>
    if d = .blackhole then some fun _ _ => pure 0
    else (P.mmio.read d).map mmioRead

/-- `dev->write`. -/
def Platform.devWrite (P : Platform D) (d : DevName) :
    Option (Word → Nat → Word → Exec D Unit) :=
  match d.ram with
  | some r => some (ramWrite r)
  | none =>
    if d = .blackhole then some fun _ _ _ => pure ()
    else (P.mmio.write d).map mmioWrite

/-- `find_device`. -/
def Platform.findDevice (P : Platform D) (addr : Word) : Option Device :=
  P.board.regions (mrIndex (ioremap addr))

theorem findDevice_blackhole (P : Platform D) :
    P.findDevice (ioremap blackholeDev.start) = some blackholeDev :=
  P.board.blackhole_realized

/-! ## Decode cache primitives -/

/-- `clear_decode_cache`: the array entries lose their handler and successor; the malloc'd
    states, and `ds`, stay as they are. -/
def DecodeCache.clear (c : DecodeCache) : DecodeCache :=
  { c with heads := fun i => { c.heads i with handler := none, next := none } }

def clearDecodeCache : Exec D Unit := modify fun s => { s with dc := s.dc.clear }

/-- `clear_mmu_cache`; `can_write` is left alone. -/
def clearMmu (m : BitVec 12 → MmuCacheEntry) : BitVec 12 → MmuCacheEntry :=
  fun i => { m i with id := 0xFFFFFFFF, ptr := none }

def clearMmuCache : Exec D Unit := modify fun s => { s with mmuCache := clearMmu s.mmuCache }

@[simp] theorem clearDecodeCache_apply (s : Machine D) :
    clearDecodeCache s = .ok () { s with dc := s.dc.clear } := rfl

@[simp] theorem clearMmuCache_apply (s : Machine D) :
    clearMmuCache s = .ok () { s with mmuCache := clearMmu s.mmuCache } := rfl

end NemuMips32
