/-
  Processor state (`include/cpu/reg.h`): CP0 registers as the bit-field structs of the
  `cp0_t` union, the register files, and the build configuration of `Kconfig`.

  A 1-bit field is a `Bool`, an `n`-bit field a `BitVec n`. The `ofWord` functions read a
  register word through the bit-field struct (what `MTC0` does with `newVal`); the `toWord`
  functions are the union's other view, `cp0.cpr[reg][sel]`. Padding bits of the structs
  are never written and read as 0.

  `Regs` collects the registers an ordinary instruction writes. `CpuState` extends it with
  what only control flow and exceptions touch, so that a body of type `CpuState → Regs`
  cannot reach `pc` or CP0.
-/
import Mathlib.Data.BitVec
import Mathlib.Logic.Function.Basic

namespace NemuMips32

abbrev Word := BitVec 32

/-! ## Configuration -/

/-- The machine selections of `Kconfig`. -/
inductive March where
  | bench
  | mips32R1
  | noop
  deriving DecidableEq

inductive WorkMode where
  | gdb
  | batch
  | diff
  | log
  deriving DecidableEq

/-- A build: the machine selection and the two optional caches, with the work mode the
    binary was started in. `MARCH_BENCH` selects both caches. -/
structure Config where
  march : March
  mmuCache : Bool
  decodeCache : Bool
  diffWithQemu : Bool
  cmdlineAddr : Word
  workMode : WorkMode

/-- `MARCH_MIPS32_R1` and `MARCH_NOOP` select `DELAYSLOT`, `EXCEPTION` and `PAGING`;
    `MARCH_BENCH` leaves them out. -/
def Config.delayslot (c : Config) : Bool := c.march != .bench
def Config.exception (c : Config) : Bool := c.march != .bench
def Config.paging (c : Config) : Bool := c.march != .bench

/-- `INTR` is selected by `MARCH_MIPS32_R1` and depends on `!MARCH_NOOP`. -/
def Config.intr (c : Config) : Bool := c.march == .mips32R1

/-! ## CP0 -/

structure Cp0Status where
  IE : Bool
  EXL : Bool
  ERL : Bool
  R0 : Bool
  UM : Bool
  UX : Bool
  SX : Bool
  KX : Bool
  IM : BitVec 8
  Impl : BitVec 2
  NMI : Bool
  SR : Bool
  TS : Bool
  BEV : Bool
  PX : Bool
  MX : Bool
  RE : Bool
  FR : Bool
  RP : Bool
  CU : BitVec 4
  deriving Inhabited

def Cp0Status.ofWord (w : Word) : Cp0Status where
  IE := w.getLsbD 0
  EXL := w.getLsbD 1
  ERL := w.getLsbD 2
  R0 := w.getLsbD 3
  UM := w.getLsbD 4
  UX := w.getLsbD 5
  SX := w.getLsbD 6
  KX := w.getLsbD 7
  IM := w.extractLsb' 8 8
  Impl := w.extractLsb' 16 2
  NMI := w.getLsbD 19
  SR := w.getLsbD 20
  TS := w.getLsbD 21
  BEV := w.getLsbD 22
  PX := w.getLsbD 23
  MX := w.getLsbD 24
  RE := w.getLsbD 25
  FR := w.getLsbD 26
  RP := w.getLsbD 27
  CU := w.extractLsb' 28 4

private def bit (b : Bool) : BitVec 1 := BitVec.ofBool b

def Cp0Status.toWord (s : Cp0Status) : Word :=
  s.CU ++ bit s.RP ++ bit s.FR ++ bit s.RE ++ bit s.MX ++ bit s.PX ++ bit s.BEV ++
    bit s.TS ++ bit s.SR ++ bit s.NMI ++ 0#1 ++ s.Impl ++ s.IM ++ bit s.KX ++ bit s.SX ++
    bit s.UX ++ bit s.UM ++ bit s.R0 ++ bit s.ERL ++ bit s.EXL ++ bit s.IE

structure Cp0Cause where
  ExcCode : BitVec 5
  IP : BitVec 8
  WP : Bool
  IV : Bool
  PCI : Bool
  DC : Bool
  CE : BitVec 2
  TI : Bool
  BD : Bool
  deriving Inhabited

def Cp0Cause.ofWord (w : Word) : Cp0Cause where
  ExcCode := w.extractLsb' 2 5
  IP := w.extractLsb' 8 8
  WP := w.getLsbD 22
  IV := w.getLsbD 23
  PCI := w.getLsbD 26
  DC := w.getLsbD 27
  CE := w.extractLsb' 28 2
  TI := w.getLsbD 30
  BD := w.getLsbD 31

def Cp0Cause.toWord (c : Cp0Cause) : Word :=
  bit c.BD ++ bit c.TI ++ c.CE ++ bit c.DC ++ bit c.PCI ++ 0#2 ++ bit c.IV ++ bit c.WP ++
    0#6 ++ c.IP ++ 0#1 ++ c.ExcCode ++ 0#2

structure Cp0Config where
  K0 : BitVec 3
  MT : BitVec 3
  AR : BitVec 3
  AT : BitVec 2
  BE : Bool
  Impl : BitVec 15
  M : Bool
  deriving Inhabited

def Cp0Config.toWord (c : Cp0Config) : Word :=
  bit c.M ++ c.Impl ++ bit c.BE ++ c.AT ++ c.AR ++ c.MT ++ 0#4 ++ c.K0

structure Cp0EntryHi where
  asid : BitVec 8
  vpn : BitVec 19
  deriving Inhabited

def Cp0EntryHi.ofWord (w : Word) : Cp0EntryHi where
  asid := w.extractLsb' 0 8
  vpn := w.extractLsb' 13 19

def Cp0EntryHi.toWord (e : Cp0EntryHi) : Word := e.vpn ++ 0#5 ++ e.asid

structure Cp0EntryLo where
  g : Bool
  v : Bool
  d : Bool
  c : BitVec 3
  pfn : BitVec 20
  deriving Inhabited

def Cp0EntryLo.ofWord (w : Word) : Cp0EntryLo where
  g := w.getLsbD 0
  v := w.getLsbD 1
  d := w.getLsbD 2
  c := w.extractLsb' 3 3
  pfn := w.extractLsb' 6 20

def Cp0EntryLo.toWord (e : Cp0EntryLo) : Word :=
  0#6 ++ e.pfn ++ e.c ++ bit e.d ++ bit e.v ++ bit e.g

structure Cp0Context where
  BadVPN2 : BitVec 19
  PTEBase : BitVec 9
  deriving Inhabited

def Cp0Context.toWord (c : Cp0Context) : Word := c.PTEBase ++ c.BadVPN2 ++ 0#4

structure Cp0Index where
  idx : BitVec 5
  p : Bool
  deriving Inhabited

def Cp0Index.toWord (i : Cp0Index) : Word := bit i.p ++ 0#26 ++ i.idx

/-- The named registers of `cp0_t`. `unnamed` holds the words of `cpr[32][8]` that no
    member of the struct view names (`ErrorEPC` among them). -/
structure Cp0 where
  index : Cp0Index
  random : Word
  entryLo0 : Cp0EntryLo
  entryLo1 : Cp0EntryLo
  context : Cp0Context
  pagemask : BitVec 16
  wired : Word
  badvaddr : Word
  count : Word
  entryHi : Cp0EntryHi
  compare : Word
  status : Cp0Status
  cause : Cp0Cause
  epc : Word
  prid : Word
  ebase : Word
  config : Cp0Config
  config1 : Word
  unnamed : BitVec 5 → BitVec 3 → Word
  deriving Inhabited

/-- `cp0.cpr[reg][sel]`. -/
def Cp0.cpr (c : Cp0) (reg : BitVec 5) (sel : BitVec 3) : Word :=
  if sel = 0 then
    match reg.toNat with
    | 0 => c.index.toWord
    | 1 => c.random
    | 2 => c.entryLo0.toWord
    | 3 => c.entryLo1.toWord
    | 4 => c.context.toWord
    | 5 => 0#3 ++ c.pagemask ++ 0#13
    | 6 => c.wired
    | 8 => c.badvaddr
    | 9 => c.count
    | 10 => c.entryHi.toWord
    | 11 => c.compare
    | 12 => c.status.toWord
    | 13 => c.cause.toWord
    | 14 => c.epc
    | 15 => c.prid
    | 16 => c.config.toWord
    | _ => c.unnamed reg sel
  else if sel = 1 ∧ reg = 15 then c.ebase
  else if sel = 1 ∧ reg = 16 then c.config1
  else c.unnamed reg sel

/-- `cpr[CP0_ErrorEPC][0]`. -/
def Cp0.errorEpc (c : Cp0) : Word := c.cpr 30 0

/-! ## Exception codes -/

/-- `EXC_*`. -/
inductive ExcCode where
  | INTR
  | TLBM
  | TLBL
  | TLBS
  | AdEL
  | AdES
  | SYSCALL
  | BP
  | RI
  | OV
  | TRAP
  deriving DecidableEq

def ExcCode.num : ExcCode → BitVec 5
  | .INTR => 0
  | .TLBM => 1
  | .TLBL => 2
  | .TLBS => 3
  | .AdEL => 4
  | .AdES => 5
  | .SYSCALL => 8
  | .BP => 9
  | .RI => 10
  | .OV => 12
  | .TRAP => 13

/-- The `EX_*` kinds passed in the upper half of the argument of `raise_exception`; the
    callers that pass a bare `EXC_*` code pass `none`. -/
inductive ExKind where
  | none
  | tlbRefill
  | tlbInvalid
  | tlbModified
  deriving DecidableEq

/-- `MAKE_EX(EX, CODE)`. -/
structure Exception where
  extra : ExKind
  code : ExcCode
  deriving DecidableEq

/-! ## Registers -/

/-- The registers an instruction may write without touching control flow. -/
structure Regs where
  gpr : BitVec 5 → Word
  hi : Word
  lo : Word
  fpr32i : BitVec 5 → Word
  fcsr : Word
  deriving Inhabited

structure CpuState extends Regs where
  cp0 : Cp0
  pc : Word
  brTarget : Word
  isDelayslot : Bool
  hasException : Bool
  deriving Inhabited

def Regs.setGpr (r : Regs) (i : BitVec 5) (v : Word) : Regs :=
  { r with gpr := Function.update r.gpr i v }

def Regs.setFpr (r : Regs) (i : BitVec 5) (v : Word) : Regs :=
  { r with fpr32i := Function.update r.fpr32i i v }

/-- `fpr64i[k]`: the 64-bit view of the pair `fpr32i[2k]`, `fpr32i[2k + 1]`. -/
def Regs.fpr64 (r : Regs) (k : BitVec 4) : BitVec 64 :=
  r.fpr32i (k ++ 1#1) ++ r.fpr32i (k ++ 0#1)

def Regs.setFpr64 (r : Regs) (k : BitVec 4) (v : BitVec 64) : Regs :=
  (r.setFpr (k ++ 0#1) (v.extractLsb' 0 32)).setFpr (k ++ 1#1) (v.extractLsb' 32 32)

/-- Bits `lo .. lo + n - 1` of a register word. -/
def field (w : Word) (lo n : Nat) : BitVec n := w.extractLsb' lo n

/-- `w` with bits `lo .. lo + n - 1` replaced by `v`. -/
def setField (w : Word) (lo : Nat) {n : Nat} (v : BitVec n) : Word :=
  (w &&& ~~~((BitVec.allOnes n).setWidth 32 <<< lo)) ||| (v.setWidth 32 <<< lo)

/-- `getFPCondCode`: condition code 0 is bit 23 of FCSR, codes 1..7 are bits 25..31. -/
def Regs.getFPCondCode (r : Regs) (cc : BitVec 3) : Bool :=
  if cc = 0 then r.fcsr.getLsbD 23 else (field r.fcsr 25 7 >>> (cc.toNat - 1)).getLsbD 0

/-- `setFPCondCode`. -/
def Regs.setFPCondCode (r : Regs) (cc : BitVec 3) (v : Bool) : Regs :=
  if cc = 0 then { r with fcsr := setField r.fcsr 23 (BitVec.ofBool v) }
  else
    let mask : BitVec 7 := ~~~(1#7 <<< (cc.toNat - 1))
    let fcc := (field r.fcsr 25 7 &&& mask) ||| ((BitVec.ofBool v).setWidth 7 <<< (cc.toNat - 1))
    { r with fcsr := setField r.fcsr 25 fcc }

/-! ## Simp set -/

section Simp

variable (r : Regs) (i j : BitVec 5) (v : Word)

@[simp] theorem gpr_setGpr : (r.setGpr i v).gpr j = if j = i then v else r.gpr j := by
  simp [Regs.setGpr, Function.update_apply]

@[simp] theorem hi_setGpr : (r.setGpr i v).hi = r.hi := rfl
@[simp] theorem lo_setGpr : (r.setGpr i v).lo = r.lo := rfl
@[simp] theorem fpr_setGpr : (r.setGpr i v).fpr32i = r.fpr32i := rfl
@[simp] theorem fcsr_setGpr : (r.setGpr i v).fcsr = r.fcsr := rfl

end Simp

end NemuMips32
