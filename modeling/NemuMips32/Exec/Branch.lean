/-
  The branch and jump handlers of `branch.h` and `bc1` of `float.h`.

  Each ends in `prepare_delayslot`, except a likely branch that is not taken: that one
  moves `pc` past its slot and falls through to `inst_end`. A linking form writes its link
  register before it reads the condition or the target, so the families take the register
  update first and read the registers after it.
-/
import NemuMips32.Exec.Body

namespace NemuMips32

variable {D : Type}

/-- `prepare_delayslot`; the rest of the macro is in `cpu_exec`. -/
def prepareDelayslot : Exec D Unit := throw .delayslot

/-! ## Families -/

/-- `pc + (I_SI << 2) + 4` if the condition holds, `pc + 8` otherwise. -/
def branchTarget (o : Ops) (taken : Bool) (pc : Word) : Word :=
  if taken then pc + (o.simm <<< 2) + 4 else pc + 8

def setBrTarget (f : CpuState → Word) : Exec D Unit :=
  modifyCpu fun c => { c with brTarget := f c }

/-- `Body.branch`. -/
def jump (P : Platform D) (mbz : Bool) (link : CpuState → Regs) (target : CpuState → Word) :
    Exec D Unit := do
  instAssert P mbz
  modifyRegs link
  setBrTarget target
  prepareDelayslot

/-- `Body.branchLikely`. A branch that is not taken moves past its slot. -/
def branchLikely (P : Platform D) (mbz : Bool) (link : CpuState → Regs) (cond : Regs → Bool)
    (o : Ops) : Exec D Unit := do
  instAssert P mbz
  modifyRegs link
  if cond (← getCpu).toRegs then
    setBrTarget fun c => branchTarget o true c.pc
    prepareDelayslot
  else
    modifyCpu fun c => { c with brTarget := c.pc + 8, pc := c.pc + 4 }

/-- A conditional branch. -/
def branch (mbz : Bool) (link : CpuState → Regs) (cond : Regs → Bool) (o : Ops) : Body :=
  .branch mbz link fun c => branchTarget o (cond c.toRegs) c.pc

/-- No link register is written. -/
def noLink (c : CpuState) : Regs := c.toRegs

/-- `cpu.gpr[r] = cpu.pc + 8`. -/
def linkReg (r : BitVec 5) (c : CpuState) : Regs := c.setGpr r (c.pc + 8)

/-! ## Conditions -/

def condEq (o : Ops) (r : Regs) : Bool := r.gpr o.rs == r.gpr o.rt
def condNe (o : Ops) (r : Regs) : Bool := r.gpr o.rs != r.gpr o.rt
def condLez (o : Ops) (r : Regs) : Bool := (r.gpr o.rs).sle 0
def condGtz (o : Ops) (r : Regs) : Bool := BitVec.slt 0 (r.gpr o.rs)
def condLtz (o : Ops) (r : Regs) : Bool := (r.gpr o.rs).slt 0
def condGez (o : Ops) (r : Regs) : Bool := BitVec.sle 0 (r.gpr o.rs)

/-- `(cpu.pc & 0xf0000000) | (ops->addr << 2)`. -/
def jumpTarget (o : Ops) (pc : Word) : Word :=
  (pc &&& 0xf0000000) ||| (o.addr.setWidth 32 <<< 2)

section Handlers

variable (o : Ops)

/-! ## Branches and jumps -/

def beq : Body := branch true noLink (condEq o) o
def bne : Body := branch true noLink (condNe o) o
def blez : Body := branch (o.rt == 0) noLink (condLez o) o
def bgtz : Body := branch true noLink (condGtz o) o
def bltz : Body := branch true noLink (condLtz o) o
def bgez : Body := branch true noLink (condGez o) o
def bgezal : Body := branch true (linkReg 31) (condGez o) o
def bltzal : Body := branch true (linkReg 31) (condLtz o) o

def jal : Body := .branch true (linkReg 31) fun c => jumpTarget o c.pc
def jalr : Body :=
  .branch (o.rt == 0 && o.shamt == 0) (linkReg o.rd) fun c => c.gpr o.rs
def j : Body := .branch true noLink fun c => jumpTarget o c.pc
def jr : Body := .branch (o.rt == 0 && o.rd == 0) noLink fun c => c.gpr o.rs

def bc1 : Body :=
  branch (o.nd == 0) noLink (fun r => r.getFPCondCode o.cc2 == (o.tf == 1)) o

/-! ## Likely branches -/

def beql : Body := .branchLikely true noLink (condEq o) o
def bnel : Body := .branchLikely true noLink (condNe o) o
def blezl : Body := .branchLikely (o.rt == 0) noLink (condLez o) o
def bgtzl : Body := .branchLikely true noLink (condGtz o) o
def bltzl : Body := .branchLikely true noLink (condLtz o) o
def bgezl : Body := .branchLikely true noLink (condGez o) o
def bgezall : Body := .branchLikely true (linkReg 31) (condGez o) o
def bltzall : Body := .branchLikely true (linkReg 31) (condLtz o) o

end Handlers

end NemuMips32
