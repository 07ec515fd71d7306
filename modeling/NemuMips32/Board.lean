/-
  A board with the two RAMs of `mips32r1_defconfig` (DDR at 0, BRAM at 0x1fc00000), the
  black hole and no memory-mapped device. It makes the model executable on concrete
  programs; nothing general depends on it.
-/
import NemuMips32.CpuExec

namespace NemuMips32

def ddrDev : Device := { name := .ddr, start := 0, size := 0x10000000 }
def bramDev : Device := { name := .bram, start := 0x1fc00000, size := 0x100000 }

def ramBoard : Board where
  regions i :=
    if i < 0x10000 then some ddrDev
    else if 0x1fc00 ≤ i ∧ i < 0x1fd00 then some bramDev
    else if i = 0x1fe96 then some blackholeDev
    else none
  blackhole_realized := by decide

/-- Stands in for the FPU where no floating point instruction runs. -/
def noFpu : Fpu where
  float32Add _ _ := 0
  float64Add _ _ := 0
  float32Sub _ _ := 0
  float64Sub _ _ := 0
  float32Mul _ _ := 0
  float64Mul _ _ := 0
  float32Div _ _ := 0
  float64Div _ _ := 0
  float32Sqrt _ := 0
  float64Sqrt _ := 0
  float32ToInt32 _ := 0
  float64ToInt32 _ := 0
  hostDoubleOfFloat _ := 0
  hostFloatOfDouble _ := 0
  hostIntOfFloat _ := 0
  hostIntOfDouble _ := 0
  hostFloatOfInt _ := 0
  hostDoubleOfInt _ := 0
  hostEq32 _ _ := false
  hostLt32 _ _ := false
  hostLe32 _ _ := false
  hostEq64 _ _ := false
  hostLt64 _ _ := false
  hostLe64 _ _ := false

def ramPlatform (cfg : Config) : Platform Unit where
  cfg := cfg
  board := ramBoard
  mmio := { read := fun _ => none, write := fun _ => none }
  fpu := noFpu
  rand _ := 0
  malloc _ := default

/-- A build of `MARCH_MIPS32_R1` or `MARCH_NOOP` with the given caches. -/
def buildOf (march : March) (mmuCache decodeCache : Bool) : Config where
  march := march
  mmuCache := mmuCache
  decodeCache := decodeCache
  diffWithQemu := false
  cmdlineAddr := 0xbfc10000
  workMode := .batch

/-- RAM that holds the given words at the given DDR addresses. -/
def ddrOf (words : List (Word × Word)) : Memory :=
  words.foldl (fun m (a, w) => m.store .ddr a 4 w) fun _ _ => 0

/-- `mips32r1_defconfig`, without its memory-mapped devices. -/
def mips32r1 : Platform Unit := ramPlatform (buildOf .mips32R1 false false)

/-- RAM with the program `code` at 0x80001000. -/
def image (code : List Word) : Memory :=
  ddrOf (code.zipIdx.map fun (w, i) => (0x1000 + 4 * BitVec.ofNat 32 i, w))

/-- A machine about to run the program `code` with the given registers. -/
def loaded (code : List Word) (regs : List (BitVec 5 × Word)) : Machine Unit :=
  let s := Machine.boot (image code) ()
  { s with cpu := { s.cpu with
      pc := 0x80001000
      toRegs := regs.foldl (fun r (i, v) => r.setGpr i v) s.cpu.toRegs } }

/-- A machine that `init_cpu` has set up to run the program `code`. -/
def started (P : Platform Unit) (code : List Word) : Machine Unit :=
  StateExcept.final (initCpu P 0x80001000 [] (Machine.boot (image code) ()))

end NemuMips32
