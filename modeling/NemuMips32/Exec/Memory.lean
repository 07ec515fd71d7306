/-
  The load and store handlers of `memory.h` and `float.h`.

  One access between an optional alignment check and a guarded register update is the body
  of most of them. `ll` is unguarded, and `ldc1` and `sdc1` make two accesses; they keep a
  program of their own.
-/
import NemuMips32.Exec.Body

namespace NemuMips32

variable {D : Type}

/-- `GR_SV + I_SI`. -/
def effAddr (o : Ops) (c : CpuState) : Word := c.gpr o.rs + o.simm

/-! ## Families -/

def AccessOp.check (P : Platform D) (code : ExcCode) (a : AccessOp) (c : CpuState) :
    Exec D Unit :=
  match a.align with
  | none => pure ()
  | some align => checkAlignedAddr P code align (a.addr c)

def AccessOp.fixBadvaddr (a : AccessOp) (c : CpuState) (c0 : Cp0) : Cp0 :=
  match a.badvaddr with
  | none => c0
  | some f => { c0 with badvaddr := f c }

/-- `Body.read`. -/
def readOp (P : Platform D) (a : AccessOp) (put : CpuState → Word → CpuState → Regs) :
    Exec D Unit := do
  let c ← getCpu
  a.check P .AdEL c
  let rdata ← vaddrRead P (a.addr c) (a.len c)
  if !(← getCpu).hasException then modifyRegs (put c rdata)
  else modifyCp0 (a.fixBadvaddr c)

/-- `Body.write`. -/
def writeOp (P : Platform D) (a : AccessOp) (data : CpuState → Word) (put : CpuState → Regs) :
    Exec D Unit := do
  let c ← getCpu
  a.check P .AdES c
  vaddrWrite P (a.addr c) (a.len c) (data c)
  if !(← getCpu).hasException then modifyRegs put
  else modifyCp0 (a.fixBadvaddr c)

/-- `len` bytes at `GR_SV + I_SI`, which must be aligned. -/
def alignedOp (len : Nat) (o : Ops) : AccessOp where
  align := some (BitVec.ofNat 32 len)
  addr := effAddr o
  len _ := len
  badvaddr := none

/-- An aligned load. -/
def load (len : Nat) (put : Word → CpuState → Regs) (o : Ops) : Body :=
  .read (alignedOp len o) fun _ => put

/-- An aligned store of the low `len` bytes of `GR_TV`. -/
def store (len : Nat) (o : Ops) : Body :=
  .write (alignedOp len o) (fun c => c.gpr o.rt) fun c => c.toRegs

section Handlers

variable (P : Platform D) (o : Ops)

/-! ## Aligned accesses -/

def lw : Body := load 4 (fun v c => c.setGpr o.rt v) o
def lb : Body := load 1 (fun v c => c.setGpr o.rt ((v.setWidth 8).signExtend 32)) o
def lbu : Body := load 1 (fun v c => c.setGpr o.rt v) o
def lh : Body := load 2 (fun v c => c.setGpr o.rt ((v.setWidth 16).signExtend 32)) o
def lhu : Body := load 2 (fun v c => c.setGpr o.rt v) o
def lwc1 : Body := load 4 (fun v c => c.setFpr o.rt v) o

def sw : Body := store 4 o
def sh : Body := store 2 o
def sb : Body := store 1 o

/-- `sc` always reports success. -/
def sc : Body :=
  .write (alignedOp 4 o) (fun c => c.gpr o.rt) fun c => c.setGpr o.rt 1

/-! ## Unaligned accesses -/

/-- `(waddr >> 2) << 2`. -/
def wordAddr (a : Word) : Word := (a >>> 2) <<< 2

/-- `waddr & 0x3`. -/
def byteIdx (o : Ops) (c : CpuState) : Nat := (effAddr o c &&& 3).toNat

/-- The bytes of `lwl` and `swl`: from the start of the word up to the address. -/
def leftOp (o : Ops) : AccessOp where
  align := none
  addr c := wordAddr (effAddr o c)
  len c := byteIdx o c + 1
  badvaddr := some (effAddr o)

/-- The bytes of `lwr` and `swr`: from the address to the end of the word. -/
def rightOp (o : Ops) : AccessOp where
  align := none
  addr := effAddr o
  len c := 4 - byteIdx o c
  badvaddr := none

def swl : Body :=
  .write (leftOp o) (fun c => c.gpr o.rt >>> ((3 - byteIdx o c) * 8)) fun c => c.toRegs

def swr : Body := .write (rightOp o) (fun c => c.gpr o.rt) fun c => c.toRegs

/-- What `lwl` leaves in `rt`, having read `len` bytes. -/
def lwlMerge (len : Nat) (rdata old : Word) : Word :=
  if len < 4 then (rdata <<< ((4 - len) * 8)) ||| ((old <<< (len * 8)) >>> (len * 8)) else rdata

def lwl : Body :=
  .read (leftOp o) fun c0 rdata c =>
    c.setGpr o.rt (lwlMerge (byteIdx o c0 + 1) rdata (c.gpr o.rt))

/-- What `lwr` leaves in `rt`, having read `len = 4 - idx` bytes. -/
def lwrMerge (idx : Nat) (rdata old : Word) : Word :=
  let len := 4 - idx
  let low := (rdata <<< (idx * 8)) >>> (idx * 8)
  if len < 4 then low ||| ((old >>> (len * 8)) <<< (len * 8)) else low

def lwr : Body :=
  .read (rightOp o) fun c0 rdata c =>
    c.setGpr o.rt (lwrMerge (byteIdx o c0) rdata (c.gpr o.rt))

def pref : Body := nop

/-- `swc1` does not check the alignment. -/
def swc1 : Body :=
  .write { align := none, addr := effAddr o, len := fun _ => 4, badvaddr := none }
    (fun c => c.fpr32i o.ft) fun c => c.toRegs

/-! ## Accesses with a program of their own -/

/-- `ll` writes its destination without looking at `has_exception`. -/
def ll : Exec D Unit := do
  let addr := effAddr o (← getCpu)
  checkAlignedAddr P .AdEL 4 addr
  let rdata ← vaddrRead P addr 4
  modifyRegs fun c => c.setGpr o.rt rdata

/-- `GR_T & ~1` and `GR_T | 1`. -/
def evenReg (r : BitVec 5) : BitVec 5 := r &&& ~~~1
def oddReg (r : BitVec 5) : BitVec 5 := r ||| 1

def ldc1 : Exec D Unit := do
  let raddr := effAddr o (← getCpu)
  checkAlignedAddr P .AdEL 8 raddr
  let rdataL ← vaddrRead P raddr 4
  let rdataH ← vaddrRead P (raddr + 4) 4
  unless (← getCpu).hasException do
    modifyRegs fun c => (c.setFpr (evenReg o.rt) rdataL).setFpr (oddReg o.rt) rdataH

def sdc1 : Exec D Unit := do
  let waddr := effAddr o (← getCpu)
  checkAlignedAddr P .AdES 8 waddr
  vaddrWrite P waddr 4 ((← getCpu).fpr32i (evenReg o.ft))
  vaddrWrite P (waddr + 4) 4 ((← getCpu).fpr32i (oddReg o.ft))

end Handlers

end NemuMips32
