/-
  The integer handlers: `arith.h`, `arith-ex.h`, `setcc.h`, `shift.h`, `mdu.h` and `trap.h`.

  Handlers are named after their labels. Most of them are one check of must-be-zero fields
  followed by an update of the register files (`regsOp`); the overflow-checked ones and the
  conditional traps are families of their own. Arithmetic on unsigned words wraps around, and
  the shift of a promoted immediate in `lui` is the one GNU C defines. What the host traps on
  or leaves undefined ends the emulator: the divisions by 0 and of `INT_MIN` by -1, a signed
  64-bit sum that does not fit, and the shift by 32 of a rotate by 0.
-/
import NemuMips32.Exec.Body

namespace NemuMips32

/-! ## Families -/

/-- `R_SIMPLE`. -/
def rSimple (op : Word → Word → Word) (o : Ops) : Body :=
  regsOp (o.shamt == 0) fun c => c.setGpr o.rd (op (c.gpr o.rs) (c.gpr o.rt))

/-- A 64-bit result whose bits 32 and 31 differ does not fit: `(ret.hi & 0x1) !=
    ((ret.lo >> 31) & 1)`. -/
def overflows (ret : BitVec 64) : Bool := ret.getLsbD 32 != ret.getLsbD 31

/-- The conditional traps. -/
def trapIf (cond : CpuState → Bool) : Body := .raiseIf cond ⟨.none, .TRAP⟩

/-- A C truth value. -/
def ofCond (b : Bool) : Word := if b then 1 else 0

section Handlers

variable (o : Ops)

/-! ## arith-ex.h -/

def clz : Body :=
  .ofRegs fun c => c.setGpr o.rd (if c.gpr o.rs = 0 then 32 else (c.gpr o.rs).clz)

/-- The loop of `clo`, which stops at the latest when `b` has been shifted out. -/
def cloLoop (x : Word) : Nat → Word → Word → Word
  | 0, _, cnt => cnt
  | n + 1, b, cnt => if x &&& b ≠ 0 then cloLoop x n (b >>> 1) (cnt + 1) else cnt

def clo : Body :=
  .ofRegs fun c => c.setGpr o.rd (cloLoop (c.gpr o.rs) 32 0x80000000 0)

def seb : Body :=
  .ofRegs fun c => c.setGpr o.rd (((c.gpr o.rt).setWidth 8).signExtend 32)

def seh : Body :=
  .ofRegs fun c => c.setGpr o.rd (((c.gpr o.rt).setWidth 16).signExtend 32)

def wsbh : Body :=
  .ofRegs fun c =>
    let rtVal := c.gpr o.rt
    c.setGpr o.rd (((rtVal &&& 0x00FF0000) <<< 8) ||| ((rtVal &&& 0xFF000000) >>> 8) |||
      ((rtVal &&& 0x000000FF) <<< 8) ||| ((rtVal &&& 0x0000FF00) >>> 8))

/-- `(1ull << n) - 1`, cut to a word. -/
def lowMask (n : Nat) : Word := ((1#64 <<< n) - 1).setWidth 32

/-- The handler asserts that the field is not empty. -/
def ins : Body :=
  let lsb := o.shamt.toNat
  let msb := o.rd.toNat
  .regs true (fun _ => if lsb ≤ msb then none else some .assert) fun c =>
    let mask := lowMask (msb - lsb + 1)
    c.setGpr o.rt ((c.gpr o.rt &&& ~~~(mask <<< lsb)) ||| ((c.gpr o.rs &&& mask) <<< lsb))

def ext : Body :=
  .ofRegs fun c =>
    let lsb := o.shamt.toNat
    let mask := lowMask (o.rd.toNat + 1)
    c.setGpr o.rt ((c.gpr o.rs &&& (mask <<< lsb)) >>> lsb)

/-! ## arith.h -/

def or : Body := rSimple (· ||| ·) o
def xor : Body := rSimple (· ^^^ ·) o
def and : Body := rSimple (· &&& ·) o
def addu : Body := rSimple (· + ·) o
def subu : Body := rSimple (· - ·) o
def mul : Body := rSimple (· * ·) o

def lui : Body :=
  regsOp (o.rs == 0) fun c => c.setGpr o.rt (o.uimm.setWidth 32 <<< 16)

def addi : Body :=
  .addOv true o.rt fun c => (c.gpr o.rs).signExtend 64 + o.simm.signExtend 64

def addiu : Body := .ofRegs fun c => c.setGpr o.rt (c.gpr o.rs + o.simm)
def andi : Body :=
  .ofRegs fun c => c.setGpr o.rt (c.gpr o.rs &&& o.uimm.setWidth 32)
def ori : Body :=
  .ofRegs fun c => c.setGpr o.rt (c.gpr o.rs ||| o.uimm.setWidth 32)
def xori : Body :=
  .ofRegs fun c => c.setGpr o.rt (c.gpr o.rs ^^^ o.uimm.setWidth 32)

def add : Body :=
  .addOv (o.shamt == 0) o.rd fun c =>
    (c.gpr o.rs).signExtend 64 + (c.gpr o.rt).signExtend 64

def sub : Body :=
  .addOv (o.shamt == 0) o.rd fun c =>
    (c.gpr o.rs).signExtend 64 - (c.gpr o.rt).signExtend 64

def nor : Body := rSimple (fun a b => ~~~(a ||| b)) o

/-! ## setcc.h -/

def sltiu : Body :=
  .ofRegs fun c => c.setGpr o.rt (ofCond ((c.gpr o.rs).ult o.simm))
def slti : Body :=
  .ofRegs fun c => c.setGpr o.rt (ofCond ((c.gpr o.rs).slt o.simm))

def slt : Body := rSimple (fun a b => ofCond (a.slt b)) o
def sltu : Body := rSimple (fun a b => ofCond (a.ult b)) o

def movn : Body :=
  regsOp (o.shamt == 0) fun c =>
    if c.gpr o.rt ≠ 0 then c.setGpr o.rd (c.gpr o.rs) else c.toRegs

def movz : Body :=
  regsOp (o.shamt == 0) fun c =>
    if c.gpr o.rt = 0 then c.setGpr o.rd (c.gpr o.rs) else c.toRegs

/-! ## shift.h -/

/-- `GR_SV & 0x1f`. -/
def shiftAmount (x : Word) : Nat := (x &&& 0x1f).toNat

/-- `(x >> sa) | (x << (32 - sa))`. -/
def rotr (x : Word) (sa : Nat) : Word := (x >>> sa) ||| (x <<< (32 - sa))

def sll : Body :=
  regsOp (o.rs == 0) fun c => c.setGpr o.rd (c.gpr o.rt <<< o.shamt.toNat)
def sllv : Body :=
  regsOp (o.shamt == 0) fun c => c.setGpr o.rd (c.gpr o.rt <<< shiftAmount (c.gpr o.rs))
def sra : Body :=
  regsOp (o.rs == 0) fun c => c.setGpr o.rd ((c.gpr o.rt).sshiftRight o.shamt.toNat)
def srav : Body :=
  regsOp (o.shamt == 0) fun c =>
    c.setGpr o.rd ((c.gpr o.rt).sshiftRight (shiftAmount (c.gpr o.rs)))

/-- `x << (32 - sa)` is undefined for `sa = 0`. -/
def rotrTraps (sa : Nat) : Option Halt := if sa = 0 then some .undefined else none

def srl : Body :=
  if o.rs &&& 1 = 1 then
    .regs true (fun _ => rotrTraps o.shamt.toNat) fun c =>
      c.setGpr o.rd (rotr (c.gpr o.rt) o.shamt.toNat)
  else
    regsOp (o.rs == 0) fun c => c.setGpr o.rd (c.gpr o.rt >>> o.shamt.toNat)

def srlv : Body :=
  if o.shamt &&& 1 = 1 then
    .regs true (fun c => rotrTraps (shiftAmount (c.gpr o.rs))) fun c =>
      c.setGpr o.rd (rotr (c.gpr o.rt) (shiftAmount (c.gpr o.rs)))
  else
    regsOp (o.shamt == 0) fun c => c.setGpr o.rd (c.gpr o.rt >>> shiftAmount (c.gpr o.rs))

/-! ## mdu.h -/

/-- `GR_D == 0 && I_SA == 0`. -/
def mduMbz (o : Ops) : Bool := o.rd == 0 && o.shamt == 0

def Regs.setHilo (r : Regs) (v : BitVec 64) : Regs :=
  { r with hi := v.extractLsb' 32 32, lo := v.extractLsb' 0 32 }

/-- `(int64_t)(int32_t)GR_SV * (int64_t)(int32_t)GR_TV`. -/
def sprod (r : Regs) (o : Ops) : BitVec 64 :=
  (r.gpr o.rs).signExtend 64 * (r.gpr o.rt).signExtend 64

/-- `(uint64_t)GR_SV * (uint64_t)GR_TV`. -/
def uprod (r : Regs) (o : Ops) : BitVec 64 :=
  (r.gpr o.rs).setWidth 64 * (r.gpr o.rt).setWidth 64

/-- `hilo.sval += ...` is undefined where the sum does not fit. -/
def madd : Body :=
  .regs (mduMbz o)
    (fun c => if (c.hi ++ c.lo).saddOverflow (sprod c.toRegs o) then some .undefined else none)
    fun c => c.setHilo ((c.hi ++ c.lo) + sprod c.toRegs o)
def maddu : Body :=
  regsOp (mduMbz o) fun c => c.setHilo ((c.hi ++ c.lo) + uprod c.toRegs o)
def msub : Body :=
  .regs (mduMbz o)
    (fun c => if (c.hi ++ c.lo).ssubOverflow (sprod c.toRegs o) then some .undefined else none)
    fun c => c.setHilo ((c.hi ++ c.lo) - sprod c.toRegs o)
def msubu : Body :=
  regsOp (mduMbz o) fun c => c.setHilo ((c.hi ++ c.lo) - uprod c.toRegs o)
def mult : Body := regsOp (mduMbz o) fun c => c.setHilo (sprod c.toRegs o)
def multu : Body := regsOp (mduMbz o) fun c => c.setHilo (uprod c.toRegs o)

/-- The host traps on a zero divisor and on `INT_MIN / -1`. -/
def divTraps (c : CpuState) (o : Ops) : Bool :=
  c.gpr o.rt == 0 || (c.gpr o.rs == 0x80000000 && c.gpr o.rt == 0xFFFFFFFF)

def divide : Body :=
  .regs (mduMbz o) (fun c => if divTraps c o then some .undefined else none) fun c =>
    { c.toRegs with
      lo := (c.gpr o.rs).sdiv (c.gpr o.rt)
      hi := (c.gpr o.rs).srem (c.gpr o.rt) }

def divu : Body :=
  .regs (mduMbz o) (fun c => if c.gpr o.rt = 0 then some .undefined else none) fun c =>
    { c.toRegs with lo := c.gpr o.rs / c.gpr o.rt, hi := c.gpr o.rs % c.gpr o.rt }

def mfhi : Body :=
  regsOp (o.rs == 0 && o.rt == 0 && o.shamt == 0) fun c => c.setGpr o.rd c.hi
def mthi : Body :=
  regsOp (o.rt == 0 && o.rd == 0 && o.shamt == 0) fun c =>
    { c.toRegs with hi := c.gpr o.rs }
def mflo : Body :=
  regsOp (o.rs == 0 && o.rt == 0 && o.shamt == 0) fun c => c.setGpr o.rd c.lo
def mtlo : Body :=
  regsOp (o.rt == 0 && o.rd == 0 && o.shamt == 0) fun c =>
    { c.toRegs with lo := c.gpr o.rs }

/-! ## trap.h -/

def teq : Body := trapIf fun c => c.gpr o.rs == c.gpr o.rt
def teqi : Body := trapIf fun c => c.gpr o.rs == o.simm
def tge : Body := trapIf fun c => !(c.gpr o.rs).slt (c.gpr o.rt)
def tgei : Body := trapIf fun c => !(c.gpr o.rs).slt o.simm
def tgeiu : Body := trapIf fun c => !(c.gpr o.rs).ult o.simm
def tgeu : Body := trapIf fun c => !(c.gpr o.rs).ult (c.gpr o.rt)
def tlt : Body := trapIf fun c => (c.gpr o.rs).slt (c.gpr o.rt)
def tlti : Body := trapIf fun c => (c.gpr o.rs).slt o.simm
def tltiu : Body := trapIf fun c => (c.gpr o.rs).ult o.simm
def tltu : Body := trapIf fun c => (c.gpr o.rs).ult (c.gpr o.rt)
def tne : Body := trapIf fun c => c.gpr o.rs != c.gpr o.rt
def tnei : Body := trapIf fun c => c.gpr o.rs != o.simm

end Handlers

end NemuMips32
