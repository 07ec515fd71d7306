/-
  The floating point handlers of `float.h` that neither branch nor access memory. Their
  must-be-zero fields are not checked, so each is one update of the register files; `cfc1`
  is the exception, which clears its destination before it rejects control register 0.
-/
import NemuMips32.Exec.Body

namespace NemuMips32

variable {D : Type}

/-- `ops->fd >> 1`. -/
def half (r : BitVec 5) : BitVec 4 := r.extractLsb' 1 4

/-! ## Families -/

/-- `cpu.fpr32i[ops->fd] = f(cpu.fpr32i[ops->fs], cpu.fpr32i[ops->ft])`. -/
def binS (o : Ops) (f : Word → Word → Word) : Body :=
  .ofRegs fun c => c.setFpr o.fd (f (c.fpr32i o.fs) (c.fpr32i o.ft))

def binD (o : Ops) (f : BitVec 64 → BitVec 64 → BitVec 64) : Body :=
  .ofRegs fun c => c.setFpr64 (half o.fd) (f (c.fpr64 (half o.fs)) (c.fpr64 (half o.ft)))

def unS (o : Ops) (f : Word → Word) : Body :=
  .ofRegs fun c => c.setFpr o.fd (f (c.fpr32i o.fs))

def unD (o : Ops) (f : BitVec 64 → BitVec 64) : Body :=
  .ofRegs fun c => c.setFpr64 (half o.fd) (f (c.fpr64 (half o.fs)))

/-- The comparisons, on `fpr32f[fs]` and `fpr32f[ft]`. -/
def cmpS (o : Ops) (f : Word → Word → Bool) : Body :=
  .ofRegs fun c => c.setFPCondCode o.cc1 (f (c.fpr32i o.fs) (c.fpr32i o.ft))

def cmpD (o : Ops) (f : BitVec 64 → BitVec 64 → Bool) : Body :=
  .ofRegs fun c => c.setFPCondCode o.cc1 (f (c.fpr64 o.fs64) (c.fpr64 o.ft64))

section Handlers

variable (P : Platform D) (o : Ops)

/-! ## Moves to and from the FPU -/

def mfc1 : Body := .ofRegs fun c => c.setGpr o.rt (c.fpr32i o.fs)

/-- The control register views of `cfc1`, as built in the cleared destination. -/
def cfc1Value (fcsr : Word) (fs : BitVec 5) : Word :=
  match fs.toNat with
  | 25 => setField (setField 0 25 (field fcsr 25 7)) 23 (field fcsr 23 1)
  | 26 => setField (setField 0 2 (field fcsr 2 5)) 12 (field fcsr 12 6)
  | 28 =>
    setField (setField (setField 0 0 (field fcsr 0 2)) 2 ((field fcsr 23 1).setWidth 5)) 7
      (field fcsr 7 5)
  | 31 => fcsr
  | _ => 0

def cfc1 : Body :=
  if o.fs = 0 then .cfc1Bad o.rt
  else .ofRegs fun c => (c.setGpr o.rt 0).setGpr o.rt (cfc1Value c.fcsr o.fs)

/-- `cfc1` of control register 0. -/
def cfc1Bad (P : Platform D) (rt : BitVec 5) : Exec D Unit := do
  modifyRegs fun c => c.setGpr rt 0
  instAssert P false

def mfhc1 : Body := .ofRegs fun c => c.setGpr o.rt (c.fpr32i (o.fs ||| 1))
def mtc1 : Body := .ofRegs fun c => c.setFpr o.fs (c.gpr o.rt)

/-- FCSR after `ctc1` of `rtVal` to control register `fs`. -/
def ctc1Value (fcsr : Word) (fs : BitVec 5) (rtVal : Word) : Word :=
  match fs.toNat with
  | 25 => setField (setField fcsr 23 (field rtVal 0 1)) 25 (field rtVal 1 7)
  | 26 => setField (setField fcsr 2 (field rtVal 2 5)) 12 (field rtVal 12 6)
  | 28 =>
    setField (setField (setField fcsr 0 (field rtVal 0 2)) 7 (field rtVal 7 5)) 24
      (field rtVal 2 1)
  | 31 => rtVal
  | _ => fcsr

def ctc1 : Body :=
  .ofRegs fun c => { c.toRegs with fcsr := ctc1Value c.fcsr o.fs (c.gpr o.rt) }

def mthc1 : Body := .ofRegs fun c => c.setFpr (o.fs ||| 1) (c.gpr o.rt)

/-! ## Arithmetic -/

def addS : Body := binS o P.fpu.float32Add
def addD : Body := binD o P.fpu.float64Add
def subS : Body := binS o P.fpu.float32Sub
def subD : Body := binD o P.fpu.float64Sub
def mulS : Body := binS o P.fpu.float32Mul
def mulD : Body := binD o P.fpu.float64Mul
def divS : Body := binS o P.fpu.float32Div
def divD : Body := binD o P.fpu.float64Div
def sqrtS : Body := unS o P.fpu.float32Sqrt
def sqrtD : Body := unD o P.fpu.float64Sqrt
def absS : Body := unS o (· &&& 0x7fffffff)
def absD : Body := unD o (· &&& 0x7fffffffffffffff)
def movS : Body := unS o id
def movD : Body := unD o id
def negS : Body := unS o (· ^^^ 0x80000000)
def negD : Body := unD o (· ^^^ 0x8000000000000000)
def truncWS : Body := unS o P.fpu.float32ToInt32
def truncWD : Body :=
  .ofRegs fun c => c.setFpr o.fd (P.fpu.float64ToInt32 (c.fpr64 (half o.fs)))

/-! ## Conditional moves -/

def movci : Body :=
  .ofRegs fun c =>
    if c.getFPCondCode o.cc2 = (o.tf == 1) then c.setGpr o.rd (c.gpr o.rs) else c.toRegs

/-- `movcf_s` tests for a clear condition code whatever `tf` is. -/
def movcfS : Body :=
  .ofRegs fun c =>
    if c.getFPCondCode o.cc2 = false then c.setFpr o.fd (c.fpr32i o.fs) else c.toRegs

/-- `movcf_d` reads `fpr32i` with the 64-bit register number. -/
def movcfD : Body :=
  .ofRegs fun c =>
    if c.getFPCondCode o.cc2 = false then
      c.setFpr64 o.fd64 ((c.fpr32i (o.fs64.setWidth 5)).setWidth 64)
    else c.toRegs

def movzS : Body :=
  .ofRegs fun c => if c.gpr o.rt = 0 then c.setFpr o.fd (c.fpr32i o.fs) else c.toRegs
def movzD : Body :=
  .ofRegs fun c => if c.gpr o.rt = 0 then c.setFpr64 o.fd64 (c.fpr64 o.fs64) else c.toRegs
def movnS : Body :=
  .ofRegs fun c => if c.gpr o.rt ≠ 0 then c.setFpr o.fd (c.fpr32i o.fs) else c.toRegs
def movnD : Body :=
  .ofRegs fun c =>
    if c.gpr o.rt ≠ 0 then c.setFpr64 (half o.fd) (c.fpr64 (half o.fs)) else c.toRegs

/-! ## Conversions -/

def cvtDS : Body :=
  .ofRegs fun c => c.setFpr64 (half o.fd) (P.fpu.hostDoubleOfFloat (c.fpr32i o.fs))
def cvtWS : Body := unS o P.fpu.hostIntOfFloat
def cvtSD : Body :=
  .ofRegs fun c => c.setFpr o.fd (P.fpu.hostFloatOfDouble (c.fpr64 (half o.fs)))
def cvtWD : Body :=
  .ofRegs fun c => c.setFpr o.fd (P.fpu.hostIntOfDouble (c.fpr64 (half o.fs)))
def cvtSW : Body := unS o P.fpu.hostFloatOfInt
def cvtDW : Body :=
  .ofRegs fun c => c.setFpr64 (half o.fd) (P.fpu.hostDoubleOfInt (c.fpr32i o.fs))

/-! ## Comparisons -/

def cUnS : Body := cmpS o fun _ _ => false
def cUnD : Body := cmpD o fun _ _ => false
def cEqS : Body := cmpS o P.fpu.hostEq32
def cEqD : Body := cmpD o P.fpu.hostEq64
def cUeqS : Body := cmpS o P.fpu.hostEq32
def cUeqD : Body := cmpD o P.fpu.hostEq64
def cOltS : Body := cmpS o P.fpu.hostLt32
def cOltD : Body := cmpD o P.fpu.hostLt64
def cUltS : Body := cmpS o P.fpu.hostLt32
def cUltD : Body := cmpD o P.fpu.hostLt64
def cOleS : Body := cmpS o P.fpu.hostLe32
def cOleD : Body := cmpD o P.fpu.hostLe64
def cUleS : Body := cmpS o P.fpu.hostLe32
def cUleD : Body := cmpD o P.fpu.hostLe64
def cLtS : Body := cmpS o P.fpu.hostLt32
def cLtD : Body := cmpD o P.fpu.hostLt64
def cLeS : Body := cmpS o P.fpu.hostLe32
def cLeD : Body := cmpD o P.fpu.hostLe64

end Handlers

end NemuMips32
