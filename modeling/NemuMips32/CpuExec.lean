/-
  `cpu_exec` (`cpu.c`, `exec.h`): the decode cache, one iteration of the loop, the loop
  itself, and `init_cpu`.

  One iteration is `make_entry` (fetch and decode, or the next cached decode state), the
  handler, what follows its last label (`inst_end`, `exit` or the rest of
  `prepare_delayslot`), and the exception check. An iteration that throws has ended the
  emulator.

  The host side acts between iterations: `Input.host` is a device callback run from the
  `SIGVTALRM` handler, `Input.enter` the preamble of a `cpu_exec` call.
-/
import NemuMips32.Exec.System

namespace NemuMips32

variable {D : Type}

/-! ## Decode cache -/

def decodeCacheIndex (vaddr : Word) : BitVec 12 := (vaddr >>> 2).setWidth 12

/-- `*p`; `none` if `p` was freed. -/
def DecodeCache.deref (c : DecodeCache) : Ptr → Option DecodeState
  | .head i => some (c.heads i)
  | .node n => c.heap n

/-- `*p = d`. -/
def DecodeCache.assign (c : DecodeCache) (p : Ptr) (d : DecodeState) : DecodeCache :=
  match p with
  | .head i => { c with heads := Function.update c.heads i d }
  | .node n => { c with heap := Function.update c.heap n (some d) }

/-- `free_decode_state_chain`; `none` is a use after free. A chain has at most `brk` states
    that are still allocated, so the fuel `brk + 1` is never the reason to stop. -/
def DecodeCache.freeChain (c : DecodeCache) : Nat → Option Nat → Option DecodeCache
  | _, none => some c
  | 0, some _ => none
  | fuel + 1, some n =>
    match c.heap n with
    | none => none
    | some d => freeChain { c with heap := Function.update c.heap n none } fuel d.next

/-- `ds = decode_cache_fetch(pc)`. -/
def DecodeCache.fetch (c : DecodeCache) (pc : Word) : Option DecodeCache :=
  let i := decodeCacheIndex pc
  if (c.heads i).pc = pc then some { c with ds := .head i }
  else
    (c.freeChain (c.brk + 1) (c.heads i).next).map fun c =>
      { c with
        heads := Function.update c.heads i
          { c.heads i with handler := none, next := none, pc := pc }
        ds := .head i }

/-- A decode cache step that is undefined where `f` gives `none`. -/
def onDecodeCache {α : Type} (f : DecodeCache → Option (α × DecodeCache)) : Exec D α := fun s =>
  match f s.dc with
  | some (a, c) => .ok a { s with dc := c }
  | none => .error (.halt .undefined) s

def decodeCacheFetch (pc : Word) : Exec D Unit :=
  onDecodeCache fun c => (c.fetch pc).map fun c => ((), c)

/-- `if (ds->next) ds = ds->next`, with the state it then points to. -/
def DecodeCache.follow (c : DecodeCache) : Option (Option DecodeState × DecodeCache) :=
  match c.deref c.ds with
  | none => none
  | some d =>
    match d.next with
    | none => some (none, c)
    | some n => (c.heap n).map fun d => (some d, { c with ds := .node n })

/-- `ds->next = malloc(...); ds = ds->next; ds->next = NULL`. -/
def DecodeCache.grow (c : DecodeCache) (fresh : DecodeState) : Option (Unit × DecodeCache) :=
  match c.deref c.ds with
  | none => none
  | some d =>
    let c := c.assign c.ds { d with next := some c.brk }
    let c := c.assign (.node c.brk) { fresh with next := none }
    some ((), { c with ds := .node c.brk, brk := c.brk + 1 })

/-- `decoder_set_state(ds, inst); ds->handler = handler`, with the operands `ds` then holds. -/
def DecodeCache.fill (c : DecodeCache) (w : Word) : Option (Ops × DecodeCache) :=
  match c.deref c.ds with
  | none => none
  | some d =>
    let d := { decoderSetState d w with handler := some (decoderGetHandler w) }
    some (d.ops, c.assign c.ds d)

/-! ## One iteration -/

/-- The fetch of the uncached build. -/
def fetchInst (P : Platform D) : Exec D Word := do
  vaddrRead P (← getCpu).pc 4

/-- The handler to go to, with its operands, from the decode cache. -/
def makeEntryCached (P : Platform D) : Exec D (Handler × Ops) := do
  match ← onDecodeCache DecodeCache.follow with
  | some d =>
    match d.handler with
    | some h => return (h, d.ops)
    | none => halt .undefined
  | none =>
    onDecodeCache fun c => c.grow (P.malloc c.brk)
    let w ← fetchInst P
    let o ← onDecodeCache fun c => c.fill w
    return (decoderGetHandler w, o)

/-- `make_entry`: the handler to go to, with its operands. -/
def makeEntry (P : Platform D) : Exec D (Handler × Ops) := do
  modifyRegs fun c => c.setGpr 0 0
  if P.cfg.decodeCache then
    makeEntryCached P
  else
    let w ← fetchInst P
    return (decoderGetHandler w, Inst.ops w)

/-- What follows a handler that falls off its end: `inst_end` with `CONFIG_DELAYSLOT`.
    Without it `make_exec_handler` advances `pc` before the label of the next handler, and
    the last handler of the file has no next one. -/
def instEnd (P : Platform D) (h : Handler) : Exec D Unit := do
  if P.cfg.delayslot then
    if (← getCpu).isDelayslot then
      modifyCpu fun c => { c with pc := c.brTarget }
      if P.cfg.decodeCache then decodeCacheFetch (← getCpu).pc
      modifyCpu fun c => { c with isDelayslot := false }
    else
      modifyCpu fun c => { c with pc := c.pc + 4 }
  else if h = .tnei then
    return
  else
    modifyCpu fun c => { c with pc := c.pc + 4 }

/-- The macro `prepare_delayslot`, up to its `goto exit`. -/
def enterDelayslot (P : Platform D) : Exec D Unit := do
  if P.cfg.delayslot then
    modifyCpu fun c => { c with isDelayslot := true, pc := c.pc + 4 }
  else if P.cfg.decodeCache then
    modifyCpu fun c => { c with pc := c.brTarget }
    decodeCacheFetch (← getCpu).pc

/-- `goto *handler`, up to the label `exit`. -/
def dispatch (P : Platform D) (h : Handler) (o : Ops) : Exec D Unit := fun s =>
  match exec P o h s with
  | .ok _ s => instEnd P h s
  | .error .exit s => .ok () s
  | .error .delayslot s => enterDelayslot P s
  | .error (.halt why) s => .error (.halt why) s

/-- The loop body up to the label `check_exception`. -/
def execInst (P : Platform D) : Exec D Unit := do
  let pc := (← getCpu).pc
  if P.cfg.exception = true ∧ pc &&& 3 ≠ 0 then
    modifyCp0 fun c => { c with badvaddr := pc }
    raiseException P ⟨.none, .AdEL⟩
  else
    let (h, o) ← makeEntry P
    dispatch P h o

/-- The code at the label `check_exception`. -/
def checkException (P : Platform D) : Exec D Unit := do
  if P.cfg.exception || P.cfg.intr then
    unless (← getCpu).hasException do checkIntrs P
    if (← getCpu).hasException then
      modifyCpu fun c => { c with hasException := false, pc := c.brTarget }

/-- One iteration of the loop of `cpu_exec`. -/
def iteration (P : Platform D) : Exec D Unit := do
  execInst P
  checkException P

/-! ## The loop -/

def setNemuState (n : NemuState) : Exec D Unit := modifyArch fun a => { a with nemuState := n }

/-- The preamble of `cpu_exec`. -/
def enterLoop (P : Platform D) : Exec D Unit := do
  setNemuState .running
  if P.cfg.decodeCache then decodeCacheFetch (← getCpu).pc

def loop (P : Platform D) : Nat → Exec D Unit
  | 0 => pure ()
  | n + 1 => do
    iteration P
    if (← get).nemuState = .running then loop P n

/-- `cpu_exec`. -/
def cpuExec (P : Platform D) (n : Nat) : Exec D Unit := do
  if (← get).nemuState = .ended then return
  enterLoop P
  loop P n
  if (← get).nemuState = .running then setNemuState .stop

/-- What happens to a machine between two looks at it. -/
inductive Input (D : Type) where
  | iterate
  | host (f : DevCtx D → DevCtx D)
  | enter

/-- One step of a run; `none` once the emulator has ended. -/
def step (P : Platform D) (s : Machine D) : Input D → Option (Machine D)
  | .iterate => StateExcept.okState (iteration P s)
  | .host f => some { s with toArch := s.putDev (f s.devCtx) }
  | .enter => StateExcept.okState (enterLoop P s)

/-- How the step ends the emulator, if it does. -/
def stop (P : Platform D) (s : Machine D) : Input D → Option Stop
  | .iterate => StateExcept.thrown (iteration P s)
  | .host _ => none
  | .enter => StateExcept.thrown (enterLoop P s)

/-! ## Reset -/

/-- The machine before `init_cpu`: static storage is zero, RAM holds the loaded image. -/
def Machine.boot (ram : Memory) (dev : D) : Machine D where
  cpu := default
  tlb := default
  ram := ram
  dev := dev
  nemuState := .stop
  randPos := 0
  raised := []
  mmuCache := default
  dc := { heads := default, heap := fun _ => none, brk := 0, ds := .head 0 }

/-- The CP0 fields that `init_cpu` sets. -/
def Cp0.init (cfg : Config) (c : Cp0) : Cp0 :=
  { c with
    count := 0
    compare := 0xFFFFFFFF
    status := { c.status with
      CU := if cfg.diffWithQemu then c.status.CU else 1
      ERL := false
      BEV := true
      IM := 0 }
    cause := { c.cause with IV := false }
    prid := 0x00018000
    config := { c.config with MT := 1, BE := false, M := true }
    config1 :=
      setField (setField (setField (setField (setField (setField (setField c.config1
        7 3#3) 10 3#3) 13 2#3) 16 3#3) 19 3#3) 22 2#3) 25 31#6 }

/-- The loop that stores `boot_cmdline`, and its final zero byte. -/
def storeCmdline (P : Platform D) (addr : Word) : List (BitVec 8) → Exec D Unit
  | [] => vaddrWrite P addr 1 0
  | b :: bs => do
    vaddrWrite P addr 1 (b.setWidth 32)
    storeCmdline P (addr + 1) bs

/-- `init_cpu`. -/
def initCpu (P : Platform D) (entry : Word) (cmdline : List (BitVec 8)) : Exec D Unit := do
  modifyCpu fun c => { c with cp0 := c.cp0.init P.cfg, pc := entry }
  clearMmuCache
  clearDecodeCache
  if cmdline ≠ [] then
    let st := P.cfg.cmdlineAddr + 8
    vaddrWrite P P.cfg.cmdlineAddr 4 st
    vaddrWrite P (P.cfg.cmdlineAddr + 4) 4 0
    storeCmdline P st cmdline
    modifyRegs fun c => (c.setGpr 4 1).setGpr 5 P.cfg.cmdlineAddr

end NemuMips32
