/-
  The system handlers of `system.h`, the `inv` handler and the unreachable stubs of
  `special.h`, and the dispatch from labels to handlers.

  `MTC0` reads its operand through the bit-field struct of the register it writes, and only
  copies the writable fields. Output of the debug registers is not modelled; the one that
  reports the end of a test (`CP0_RESERVED_HIT_TRAP`) exits.
-/
import NemuMips32.Exec.Arith
import NemuMips32.Exec.Branch
import NemuMips32.Exec.Float
import NemuMips32.Exec.Memory

namespace NemuMips32

variable {D : Type}

section Handlers

variable (P : Platform D) (o : Ops)

/-! ## Caches and TLB -/

def cache : Exec D Unit := clearDecodeCache
def sync : Body := nop
def synci : Body := nop

def tlbp : Exec D Unit := tlbPresent

/-- `tlbr` changes EntryHi and flushes nothing. -/
def tlbr : Body := .cp0 (fun c tlb => tlbRead (tlb c.cp0.index.idx.toFin) c.cp0) fun _ => false

def tlbwi : Exec D Unit := do
  tlbWrite (← getCpu).cp0.index.idx.toFin
  clearMmuCache
  clearDecodeCache

/-- `rand() % NR_TLB_ENTRY`. -/
def nextRandom : Exec D (Fin 32) := do
  let i := P.rand (← get).randPos % 32
  modifyArch fun a => { a with randPos := a.randPos + 1 }
  return ⟨i, Nat.mod_lt _ (by decide)⟩

/-- With `MARCH_NOOP`, Random is used before it is stepped and is not reduced first. -/
def tlbwr : Exec D Unit := do
  if P.cfg.march = .noop then
    let r := (← getCpu).cp0.random
    if h : r.toNat < 32 then tlbWrite ⟨r.toNat, h⟩ else halt .undefined
    modifyCp0 fun c => { c with random := (c.random + 1) % 32 }
  else
    let i ← nextRandom P
    modifyCp0 fun c => { c with random := BitVec.ofNat 32 i.val }
    tlbWrite i
  clearMmuCache
  clearDecodeCache

/-! ## Exceptions -/

def always (_ : CpuState) : Bool := true

def syscall : Body := .raiseIf always ⟨.none, .SYSCALL⟩

def breakpoint : Body :=
  if P.cfg.workMode = .gdb then .gdbStop else .raiseIf always ⟨.none, .BP⟩

def wait : Body := nop

/-- What `eret` does to the CPU. -/
def CpuState.eret (c : CpuState) : CpuState :=
  if c.cp0.status.ERL then
    { c with
      hasException := true
      brTarget := c.cp0.errorEpc
      cp0 := { c.cp0 with status := { c.cp0.status with ERL := false } } }
  else
    { c with
      hasException := true
      brTarget := c.cp0.epc
      cp0 := { c.cp0 with status := { c.cp0.status with EXL := false } } }

def eret : Exec D Unit := do
  modifyCpu CpuState.eret
  clearMmuCache
  clearDecodeCache

/-! ## CP0 moves -/

def mfc0 : Body :=
  .ofRegs fun c => c.setGpr o.rt (if o.rd = 9 then c.cp0.count else c.cp0.cpr o.rd o.sel)

/-- The Status bits that `MTC0` copies. -/
def Cp0Status.mtc0 (s new : Cp0Status) : Cp0Status :=
  { s with
    CU := new.CU &&& 3
    RP := new.RP
    RE := new.RE
    BEV := new.BEV
    TS := new.TS
    SR := new.SR
    NMI := new.NMI
    IM := new.IM
    UM := new.UM
    ERL := new.ERL
    EXL := new.EXL
    IE := new.IE }

/-- `MTC0` to Cause: IV, WP and the two software interrupt bits. -/
def Cp0.mtc0Cause (c : Cp0) (w : Word) : Cp0 :=
  let new := Cp0Cause.ofWord w
  nemuSetIrq 1 (new.IP.getLsbD 1) (nemuSetIrq 0 (new.IP.getLsbD 0)
    { c with cause := { c.cause with IV := new.IV, WP := new.WP } })

/-- A CP0 register that takes the value of `rt` without a flush. -/
def mtc0Reg (f : Word → Cp0 → Cp0) : Body :=
  .cp0 (fun c _ => f (c.gpr o.rt) c.cp0) fun _ => false

def mtc0 : Body :=
  match o.rd.toNat, o.sel.toNat with
  | 15, 1 => mtc0Reg o fun v c => { c with ebase := v }
  | 9, 0 => mtc0Reg o fun v c => { c with count := v }
  | 14, 0 => mtc0Reg o fun v c => { c with epc := v }
  | 8, 0 => nop
  | 4, 0 => mtc0Reg o fun v c => { c with context := { c.context with PTEBase := field v 23 9 } }
  | 16, 0 => mtc0Reg o fun v c => { c with config := { c.config with K0 := field v 0 3 } }
  | 12, 0 =>
    .cp0
      (fun c _ => { c.cp0 with status := c.cp0.status.mtc0 (Cp0Status.ofWord (c.gpr o.rt)) })
      fun c => c.cp0.status.ERL != (Cp0Status.ofWord (c.gpr o.rt)).ERL
  | 11, 0 => mtc0Reg o fun v c => nemuSetIrq 7 false { c with compare := v }
  | 13, 0 => mtc0Reg o fun v c => c.mtc0Cause v
  | 5, 0 => mtc0Reg o fun v c => { c with pagemask := field v 13 16 }
  | 2, 0 => mtc0Reg o fun v c => { c with entryLo0 := .ofWord v }
  | 3, 0 => mtc0Reg o fun v c => { c with entryLo1 := .ofWord v }
  | 10, 0 => .cp0 (fun c _ => { c.cp0 with entryHi := .ofWord (c.gpr o.rt) }) fun _ => true
  | 0, 0 => mtc0Reg o fun v c => { c with index := { c.index with idx := field v 0 5 } }
  | 7, 6 => .halt .exit
  | _, _ => nop

/-! ## special.h -/

def inv : Body := if P.cfg.exception then .raiseIf always ⟨.none, .RI⟩ else .invEnd

/-- The labels of the dispatched opcodes: `panic("should not reach here !")`. -/
def unreachable : Body := .halt .panic

/-! ## Dispatch -/

/-- The body of each label. -/
def body : Handler → Body
  | .clz => clz o | .clo => clo o | .seb => seb o | .seh => seh o | .wsbh => wsbh o
  | .ins => ins o | .ext => ext o
  | .or => or o | .xor => xor o | .and => and o | .addu => addu o
  | .subu => subu o | .mul => mul o | .lui => lui o | .addi => addi o
  | .addiu => addiu o | .andi => andi o | .ori => ori o | .xori => xori o
  | .add => add o | .sub => sub o | .nor => nor o
  | .beq => beq o | .bne => bne o | .blez => blez o | .bgtz => bgtz o
  | .bltz => bltz o | .bgez => bgez o | .bgezal => bgezal o | .bltzal => bltzal o
  | .jal => jal o | .jalr => jalr o | .j => j o | .jr => jr o
  | .beql => beql o | .bnel => bnel o | .blezl => blezl o | .bgtzl => bgtzl o
  | .bltzl => bltzl o | .bgezl => bgezl o | .bgezall => bgezall o
  | .bltzall => bltzall o
  | .mfc1 => mfc1 o | .cfc1 => cfc1 o | .mfhc1 => mfhc1 o | .mtc1 => mtc1 o
  | .ctc1 => ctc1 o | .mthc1 => mthc1 o | .bc1 => bc1 o
  | .addS => addS P o | .addD => addD P o | .subS => subS P o | .subD => subD P o
  | .mulS => mulS P o | .mulD => mulD P o | .divS => divS P o | .divD => divD P o
  | .sqrtS => sqrtS P o | .sqrtD => sqrtD P o | .absS => absS o | .absD => absD o
  | .movS => movS o | .movD => movD o | .negS => negS o | .negD => negD o
  | .truncWS => truncWS P o | .truncWD => truncWD P o
  | .movci => movci o | .movcfS => movcfS o | .movcfD => movcfD o | .movzS => movzS o
  | .movzD => movzD o | .movnS => movnS o | .movnD => movnD o
  | .cvtDS => cvtDS P o | .cvtWS => cvtWS P o | .cvtSD => cvtSD P o | .cvtWD => cvtWD P o
  | .cvtSW => cvtSW P o | .cvtDW => cvtDW P o
  | .cUnS => cUnS o | .cUnD => cUnD o | .cEqS => cEqS P o | .cEqD => cEqD P o
  | .cUeqS => cUeqS P o | .cUeqD => cUeqD P o | .cOltS => cOltS P o | .cOltD => cOltD P o
  | .cUltS => cUltS P o | .cUltD => cUltD P o | .cOleS => cOleS P o | .cOleD => cOleD P o
  | .cUleS => cUleS P o | .cUleD => cUleD P o | .cLtS => cLtS P o | .cLtD => cLtD P o
  | .cLeS => cLeS P o | .cLeD => cLeD P o
  | .lwc1 => lwc1 o | .swc1 => swc1 o | .ldc1 => .ldc1 o | .sdc1 => .sdc1 o
  | .madd => madd o | .maddu => maddu o | .msub => msub o | .msubu => msubu o
  | .mult => mult o | .multu => multu o | .divide => divide o | .divu => divu o
  | .mfhi => mfhi o | .mthi => mthi o | .mflo => mflo o | .mtlo => mtlo o
  | .lw => lw o | .lb => lb o | .lbu => lbu o | .lh => lh o | .lhu => lhu o
  | .sw => sw o | .sh => sh o | .sb => sb o | .swl => swl o | .swr => swr o
  | .lwl => lwl o | .lwr => lwr o | .pref => pref | .ll => .ll o | .sc => sc o
  | .sltiu => sltiu o | .slti => slti o | .slt => slt o | .sltu => sltu o
  | .movn => movn o | .movz => movz o
  | .sll => sll o | .sllv => sllv o | .sra => sra o | .srav => srav o
  | .srl => srl o | .srlv => srlv o
  | .execSpecial | .execSpecial2 | .execSpecial3 | .execBshfl | .execRegimm | .execCop0
  | .execCop1 => unreachable
  | .inv => inv P
  | .cache => .cache | .sync => sync | .synci => synci | .tlbp => .tlbp | .tlbr => tlbr
  | .tlbwi => .tlbwi | .tlbwr => .tlbwr | .syscall => syscall
  | .breakpoint => breakpoint P | .wait => wait | .eret => .eret | .mfc0 => mfc0 o
  | .mtc0 => mtc0 o
  | .teq => teq o | .teqi => teqi o | .tge => tge o | .tgei => tgei o
  | .tgeiu => tgeiu o | .tgeu => tgeu o | .tlt => tlt o | .tlti => tlti o
  | .tltiu => tltiu o | .tltu => tltu o | .tne => tne o | .tnei => tnei o

end Handlers

def flushCaches : Exec D Unit := do
  clearMmuCache
  clearDecodeCache

/-- The program of a body. -/
def Body.run (P : Platform D) : Body → Exec D Unit
  | .regs mbz bad f => do
    instAssert P mbz
    match bad (← getCpu) with
    | some why => NemuMips32.halt why
    | none => modifyRegs f
  | .addOv mbz dst ret => do
    instAssert P mbz
    let r := ret (← getCpu)
    if overflows r then
      if P.cfg.exception then raiseException P ⟨.none, .OV⟩ else NemuMips32.halt .cpuAssert
    else
      modifyRegs fun c => c.setGpr dst (r.extractLsb' 0 32)
  | .raiseIf cond e => do
    if cond (← getCpu) then raiseException P e
  | .branch mbz link target => jump P mbz link target
  | .branchLikely mbz link cond o => NemuMips32.branchLikely P mbz link cond o
  | .read a put => readOp P a put
  | .write a data put => writeOp P a data put
  | .cp0 f flush => do
    let s ← get
    modifyCp0 fun _ => f s.cpu s.tlb
    if flush s.cpu then flushCaches
  | .halt why => NemuMips32.halt why
  | .cfc1Bad rt => NemuMips32.cfc1Bad P rt
  | .ll o => NemuMips32.ll P o
  | .ldc1 o => NemuMips32.ldc1 P o
  | .sdc1 o => NemuMips32.sdc1 P o
  | .cache => NemuMips32.cache
  | .tlbp => NemuMips32.tlbp
  | .tlbwi => NemuMips32.tlbwi
  | .tlbwr => NemuMips32.tlbwr P
  | .eret => NemuMips32.eret
  | .gdbStop => modifyArch fun a => { a with nemuState := .stop }
  | .invEnd => do
    let _ ← vaddrRead P (← getCpu).pc 4
    modifyArch fun a => { a with nemuState := .ended }

/-- `goto *handler`. -/
def exec (P : Platform D) (o : Ops) (h : Handler) : Exec D Unit := (body P o h).run P

end NemuMips32
