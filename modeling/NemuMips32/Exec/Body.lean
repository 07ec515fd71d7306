/-
  What a handler is. The labels of `exec.h` run some twenty programs that differ in the
  registers, checks and functions they are given. A `Body` names the program with its
  parameters; the handlers of the other modules are bodies, one for each label, and
  `Body.run` (in `Exec.System`) is the program itself.
-/
import NemuMips32.Mmu

namespace NemuMips32

variable {D : Type}

/-! ## Check macros -/

/-- `InstAssert`: `InstAssert_Ex` with `CONFIG_EXCEPTION`, `assert` without. -/
def instAssert (P : Platform D) (cond : Bool) : Exec D Unit := do
  unless cond do
    if P.cfg.exception then
      modifyCpu fun c => { c with cp0 := { c.cp0 with badvaddr := c.pc } }
      raiseException P ⟨.none, .RI⟩
      throw .exit
    else
      halt .assert

/-- `CHECK_ALIGNED_ADDR`, with the exception code it raises. -/
def checkAlignedAddr (P : Platform D) (code : ExcCode) (align addr : Word) : Exec D Unit := do
  unless addr &&& (align - 1) = 0 do
    if P.cfg.exception then
      modifyCp0 fun c => { c with badvaddr := addr }
      raiseException P ⟨.none, code⟩
      throw .exit
    else
      halt .cpuAssert

/-! ## Bodies -/

/-- A memory access of a handler: `CHECK_ALIGNED_ADDR` with `align`, if there is one, then
    `len` bytes at `addr`. Where `badvaddr` is given, the handler rewrites BadVAddr with it
    after a fault. -/
structure AccessOp where
  align : Option Word
  addr : CpuState → Word
  len : CpuState → Nat
  badvaddr : Option (CpuState → Word)

inductive Body where
  /-- must-be-zero check, host trap, register update -/
  | regs (mbz : Bool) (bad : CpuState → Option Halt) (f : CpuState → Regs)
  /-- must-be-zero check, then a sum that raises Ov when it does not fit -/
  | addOv (mbz : Bool) (dst : BitVec 5) (ret : CpuState → BitVec 64)
  | raiseIf (cond : CpuState → Bool) (e : Exception)
  /-- must-be-zero check, link, target, `prepare_delayslot` -/
  | branch (mbz : Bool) (link : CpuState → Regs) (target : CpuState → Word)
  /-- the same, but the slot is skipped unless `cond` holds after the link -/
  | branchLikely (mbz : Bool) (link : CpuState → Regs) (cond : Regs → Bool) (o : Ops)
  /-- `put` stores what was read unless the access faulted -/
  | read (a : AccessOp) (put : CpuState → Word → CpuState → Regs)
  /-- `put` follows the access unless it faulted -/
  | write (a : AccessOp) (data : CpuState → Word) (put : CpuState → Regs)
  /-- a CP0 update; `flush` says when both caches are cleared with it -/
  | cp0 (f : CpuState → (Fin 32 → TlbEntry) → Cp0) (flush : CpuState → Bool)
  | halt (why : Halt)
  /-- the handlers with a program of their own -/
  | cfc1Bad (rt : BitVec 5)
  | ll (o : Ops)
  | ldc1 (o : Ops)
  | sdc1 (o : Ops)
  | cache
  | tlbp
  | tlbwi
  | tlbwr
  | eret
  | gdbStop
  | invEnd

/-- A register update behind a must-be-zero check. -/
def regsOp (mbz : Bool) (f : CpuState → Regs) : Body := .regs mbz (fun _ => none) f

/-- A register update. -/
def Body.ofRegs (f : CpuState → Regs) : Body := regsOp true f

def nop : Body := .ofRegs fun c => c.toRegs

end NemuMips32
