/-
  Instruction words, the decode tables (`exec-handlers.h`), `decoder_get_handler` and
  `decoder_set_state` (`cpu.c`), and the two ways a handler reaches its operands.

  A handler reads its operands through the macro `ops`: the bit-fields of the word
  (`Inst.ops`) without `CONFIG_DECODE_CACHE`, the `decode_state_t` filled by
  `decoder_set_state` (`DecodeState.ops`) with it. `decode_state_t` overlays its members
  in unions, so it is kept as the raw words of the struct: `addr` is the word of `rs`,
  `ft` that of `rt`, `fs` that of `rd`, `fd` that of `shamt`, the immediate the low half of
  `rd`, and the seven members of the last union are one word.
-/
import NemuMips32.Reg

namespace NemuMips32

/-! ## Handlers and tables -/

/-- The labels of the computed goto, by the file that defines them. -/
inductive Handler where
  -- arith-ex.h
  | clz | clo | seb | seh | wsbh | ins | ext
  -- arith.h
  | or | xor | and | addu | subu | mul | lui | addi | addiu | andi | ori | xori | add | sub
  | nor
  -- branch.h
  | beq | bne | blez | bgtz | bltz | bgez | bgezal | bltzal | jal | jalr | j | jr | beql | bnel
  | blezl | bgtzl | bltzl | bgezl | bgezall | bltzall
  -- float.h
  | mfc1 | cfc1 | mfhc1 | mtc1 | ctc1 | mthc1 | bc1 | addS | addD | subS | subD | mulS | mulD
  | divS | divD | sqrtS | sqrtD | absS | absD | movS | movD | negS | negD | truncWS | truncWD
  | movci | movcfS | movcfD | movzS | movzD | movnS | movnD | cvtDS | cvtWS | cvtSD | cvtWD
  | cvtSW | cvtDW | cUnS | cUnD | cEqS | cEqD | cUeqS | cUeqD | cOltS | cOltD | cUltS | cUltD
  | cOleS | cOleD | cUleS | cUleD | cLtS | cLtD | cLeS | cLeD | lwc1 | swc1 | ldc1 | sdc1
  -- mdu.h
  | madd | maddu | msub | msubu | mult | multu | divide | divu | mfhi | mthi | mflo | mtlo
  -- memory.h
  | lw | lb | lbu | lh | lhu | sw | sh | sb | swl | swr | lwl | lwr | pref | ll | sc
  -- setcc.h
  | sltiu | slti | slt | sltu | movn | movz
  -- shift.h
  | sll | sllv | sra | srav | srl | srlv
  -- special.h
  | execSpecial | execSpecial2 | execSpecial3 | execBshfl | execRegimm | execCop0 | execCop1
  | inv
  -- system.h
  | cache | sync | synci | tlbp | tlbr | tlbwi | tlbwr | syscall | breakpoint | wait | eret
  | mfc0 | mtc0
  -- trap.h
  | teq | teqi | tge | tgei | tgeiu | tgeu | tlt | tlti | tltiu | tltu | tne | tnei
  deriving DecidableEq

def specialTable : List Handler :=
  [.sll, .movci, .srl, .sra, .sllv, .inv, .srlv, .srav,
   .jr, .jalr, .movz, .movn, .syscall, .breakpoint, .inv, .sync,
   .mfhi, .mthi, .mflo, .mtlo, .inv, .inv, .inv, .inv,
   .mult, .multu, .divide, .divu, .inv, .inv, .inv, .inv,
   .add, .addu, .sub, .subu, .and, .or, .xor, .nor,
   .inv, .inv, .slt, .sltu, .inv, .inv, .inv, .inv,
   .tge, .tgeu, .tlt, .tltu, .teq, .inv, .tne, .inv,
   .inv, .inv, .inv, .inv, .inv, .inv, .inv, .inv]

def special2Table : List Handler :=
  [.madd, .maddu, .mul, .inv, .msub, .msubu, .inv, .inv,
   .inv, .inv, .inv, .inv, .inv, .inv, .inv, .inv,
   .inv, .inv, .inv, .inv, .inv, .inv, .inv, .inv,
   .inv, .inv, .inv, .inv, .inv, .inv, .inv, .inv,
   .clz, .clo, .inv, .inv, .inv, .inv, .inv, .inv,
   .inv, .inv, .inv, .inv, .inv, .inv, .inv, .inv,
   .inv, .inv, .inv, .inv, .inv, .inv, .inv, .inv,
   .inv, .inv, .inv, .inv, .inv, .inv, .inv, .inv]

def special3Table : List Handler :=
  [.ext, .inv, .mul, .inv, .ins, .inv, .inv, .inv,
   .inv, .inv, .inv, .inv, .inv, .inv, .inv, .inv,
   .inv, .inv, .inv, .inv, .inv, .inv, .inv, .inv,
   .inv, .inv, .inv, .inv, .inv, .inv, .inv, .inv,
   .execBshfl, .inv, .inv, .inv, .inv, .inv, .inv, .inv,
   .inv, .inv, .inv, .inv, .inv, .inv, .inv, .inv,
   .inv, .inv, .inv, .inv, .inv, .inv, .inv, .inv,
   .inv, .inv, .inv, .inv, .inv, .inv, .inv, .inv]

def bshflTable : List Handler :=
  [.inv, .inv, .wsbh, .inv, .inv, .inv, .inv, .inv,
   .inv, .inv, .inv, .inv, .inv, .inv, .inv, .inv,
   .seb, .inv, .inv, .inv, .inv, .inv, .inv, .inv,
   .seh, .inv, .inv, .inv, .inv, .inv, .inv, .inv]

def regimmTable : List Handler :=
  [.bltz, .bgez, .bltzl, .bgezl, .inv, .inv, .inv, .inv,
   .tgei, .tgeiu, .tlti, .tltiu, .teqi, .inv, .tnei, .inv,
   .bltzal, .bgezal, .bltzall, .bgezall, .inv, .inv, .inv, .inv,
   .inv, .inv, .inv, .inv, .inv, .inv, .inv, .synci]

def cop0TableRs : List Handler :=
  [.mfc0, .inv, .inv, .inv, .mtc0, .inv, .inv, .inv,
   .inv, .inv, .inv, .inv, .inv, .inv, .inv, .inv,
   .inv, .inv, .inv, .inv, .inv, .inv, .inv, .inv,
   .inv, .inv, .inv, .inv, .inv, .inv, .inv, .inv]

def cop0TableFunc : List Handler :=
  [.inv, .tlbr, .tlbwi, .inv, .inv, .inv, .tlbwr, .inv,
   .tlbp, .inv, .inv, .inv, .inv, .inv, .inv, .inv,
   .inv, .inv, .inv, .inv, .inv, .inv, .inv, .inv,
   .eret, .inv, .inv, .inv, .inv, .inv, .inv, .inv,
   .wait, .inv, .inv, .inv, .inv, .inv, .inv, .inv,
   .inv, .inv, .inv, .inv, .inv, .inv, .inv, .inv,
   .inv, .inv, .inv, .inv, .inv, .inv, .inv, .inv,
   .inv, .inv, .inv, .inv, .inv, .inv, .inv, .inv]

def cop1TableRs : List Handler :=
  [.mfc1, .inv, .cfc1, .mfhc1, .mtc1, .inv, .ctc1, .mthc1,
   .bc1, .inv, .inv, .inv, .inv, .inv, .inv, .inv,
   .inv, .inv, .inv, .inv, .inv, .inv, .inv, .inv,
   .inv, .inv, .inv, .inv, .inv, .inv, .inv, .inv]

def cop1TableRsS : List Handler :=
  [.addS, .subS, .mulS, .divS, .sqrtS, .absS, .movS, .negS,
   .inv, .inv, .inv, .inv, .inv, .truncWS, .inv, .inv,
   .inv, .movcfS, .movzS, .movnS, .inv, .inv, .inv, .inv,
   .inv, .inv, .inv, .inv, .inv, .inv, .inv, .inv,
   .inv, .cvtDS, .inv, .inv, .inv, .cvtWS, .inv, .inv,
   .inv, .inv, .inv, .inv, .inv, .inv, .inv, .inv,
   .inv, .cUnS, .cEqS, .cUeqS, .cOltS, .cUltS, .cOleS, .cUleS,
   .inv, .inv, .inv, .inv, .cLtS, .inv, .cLeS, .inv]

def cop1TableRsD : List Handler :=
  [.addD, .subD, .mulD, .divD, .sqrtD, .absD, .movD, .negD,
   .inv, .inv, .inv, .inv, .inv, .truncWD, .inv, .inv,
   .inv, .movcfD, .movzD, .movnD, .inv, .inv, .inv, .inv,
   .inv, .inv, .inv, .inv, .inv, .inv, .inv, .inv,
   .cvtSD, .inv, .inv, .inv, .inv, .cvtWD, .inv, .inv,
   .inv, .inv, .inv, .inv, .inv, .inv, .inv, .inv,
   .inv, .cUnD, .cEqD, .cUeqD, .cOltD, .cUltD, .cOleD, .cUleD,
   .inv, .inv, .inv, .inv, .cLtD, .inv, .cLeD, .inv]

def cop1TableRsW : List Handler :=
  [.inv, .inv, .inv, .inv, .inv, .inv, .inv, .inv,
   .inv, .inv, .inv, .inv, .inv, .inv, .inv, .inv,
   .inv, .inv, .inv, .inv, .inv, .inv, .inv, .inv,
   .inv, .inv, .inv, .inv, .inv, .inv, .inv, .inv,
   .cvtSW, .cvtDW, .inv, .inv, .inv, .inv, .inv, .inv,
   .inv, .inv, .inv, .inv, .inv, .inv, .inv, .inv,
   .inv, .inv, .inv, .inv, .inv, .inv, .inv, .inv,
   .inv, .inv, .inv, .inv, .inv, .inv, .inv, .inv]

def opcodeTable : List Handler :=
  [.execSpecial, .execRegimm, .j, .jal, .beq, .bne, .blez, .bgtz,
   .addi, .addiu, .slti, .sltiu, .andi, .ori, .xori, .lui,
   .execCop0, .execCop1, .inv, .inv, .beql, .bnel, .blezl, .bgtzl,
   .inv, .inv, .inv, .inv, .execSpecial2, .inv, .inv, .execSpecial3,
   .lb, .lh, .lwl, .lw, .lbu, .lhu, .lwr, .inv,
   .sb, .sh, .swl, .sw, .inv, .inv, .swr, .cache,
   .ll, .lwc1, .inv, .pref, .inv, .ldc1, .inv, .inv,
   .sc, .swc1, .inv, .inv, .inv, .sdc1, .inv, .inv]

/-! ## Instruction words -/

def Inst.op (w : Word) : BitVec 6 := w.extractLsb' 26 6
def Inst.rs (w : Word) : BitVec 5 := w.extractLsb' 21 5
def Inst.rt (w : Word) : BitVec 5 := w.extractLsb' 16 5
def Inst.rd (w : Word) : BitVec 5 := w.extractLsb' 11 5
def Inst.shamt (w : Word) : BitVec 5 := w.extractLsb' 6 5
def Inst.func (w : Word) : BitVec 6 := w.extractLsb' 0 6
def Inst.uimm (w : Word) : BitVec 16 := w.extractLsb' 0 16
def Inst.addr (w : Word) : BitVec 26 := w.extractLsb' 0 26
def Inst.sel (w : Word) : BitVec 3 := w.extractLsb' 0 3

/-- The operands of an instruction, as the handlers read them. -/
structure Ops where
  rs : BitVec 5
  rt : BitVec 5
  rd : BitVec 5
  shamt : BitVec 5
  func : BitVec 6
  uimm : BitVec 16
  addr : BitVec 26
  sel : BitVec 3
  fs : BitVec 5
  ft : BitVec 5
  fd : BitVec 5
  fs64 : BitVec 4
  ft64 : BitVec 4
  fd64 : BitVec 4
  cc1 : BitVec 3
  cc2 : BitVec 3
  nd : BitVec 1
  tf : BitVec 1
  deriving DecidableEq

/-- `I_SI`, the immediate sign-extended to a word. -/
def Ops.simm (o : Ops) : Word := o.uimm.signExtend 32

/-- The operands of the uncached build, `ops = &inst`. -/
def Inst.ops (w : Word) : Ops where
  rs := Inst.rs w
  rt := Inst.rt w
  rd := Inst.rd w
  shamt := Inst.shamt w
  func := Inst.func w
  uimm := Inst.uimm w
  addr := Inst.addr w
  sel := Inst.sel w
  fs := w.extractLsb' 11 5
  ft := w.extractLsb' 16 5
  fd := w.extractLsb' 6 5
  fs64 := w.extractLsb' 12 4
  ft64 := w.extractLsb' 17 4
  fd64 := w.extractLsb' 7 4
  cc1 := w.extractLsb' 8 3
  cc2 := w.extractLsb' 18 3
  nd := w.extractLsb' 17 1
  tf := w.extractLsb' 16 1

def tableEntry (table : List Handler) {n : Nat} (i : BitVec n) : Handler :=
  table.getD i.toNat .inv

/-- `decoder_get_handler`. -/
def decoderGetHandler (w : Word) : Handler :=
  match (Inst.op w).toNat with
  | 0x00 => tableEntry specialTable (Inst.func w)
  | 0x01 => tableEntry regimmTable (Inst.rt w)
  | 0x10 =>
    if Inst.rs w &&& 0x10 ≠ 0 then tableEntry cop0TableFunc (Inst.func w)
    else tableEntry cop0TableRs (Inst.rs w)
  | 0x11 =>
    match (Inst.rs w).toNat with
    | 16 => tableEntry cop1TableRsS (Inst.func w)
    | 17 => tableEntry cop1TableRsD (Inst.func w)
    | 20 => tableEntry cop1TableRsW (Inst.func w)
    | _ => tableEntry cop1TableRs (Inst.rs w)
  | 0x1c => tableEntry special2Table (Inst.func w)
  | 0x1f =>
    if Inst.func w = 0x20 then tableEntry bshflTable (Inst.shamt w)
    else tableEntry special3Table (Inst.func w)
  | _ => tableEntry opcodeTable (Inst.op w)

/-! ## Decode states -/

/-- `decode_state_t`, word by word. `next` names a malloc'd state. -/
structure DecodeState where
  handler : Option Handler
  next : Option Nat
  pc : Word
  rs : Word
  rt : Word
  rd : Word
  shamt : Word
  func : Word
  sel : Word
  misc : Word
  deriving Inhabited

/-- The operands of the cached build, `ops = ds`. -/
def DecodeState.ops (d : DecodeState) : Ops where
  rs := d.rs.setWidth 5
  rt := d.rt.setWidth 5
  rd := d.rd.setWidth 5
  shamt := d.shamt.setWidth 5
  func := d.func.setWidth 6
  uimm := d.rd.setWidth 16
  addr := d.rs.setWidth 26
  sel := d.sel.setWidth 3
  fs := d.rd.setWidth 5
  ft := d.rt.setWidth 5
  fd := d.shamt.setWidth 5
  fs64 := d.misc.setWidth 4
  ft64 := d.misc.setWidth 4
  fd64 := d.misc.setWidth 4
  cc1 := d.misc.setWidth 3
  cc2 := d.misc.setWidth 3
  nd := d.misc.setWidth 1
  tf := d.misc.setWidth 1

/-- Storing a half-word into the union leaves the upper half of the word alone. -/
def storeUimm (old : Word) (imm : BitVec 16) : Word := old.extractLsb' 16 16 ++ imm

/-- The instruction classes of `decoder_set_state`. -/
inductive OpClass where
  | rtype
  | itype
  | jtype
  | cop0Type
  | handler
  | s3type
  | bshflType
  deriving DecidableEq

/-- The `switch` of `decoder_set_state`. `S2type` falls through to `S3type`. -/
def opClass (w : Word) : OpClass :=
  match (Inst.op w).toNat with
  | 0x00 => .rtype
  | 0x01 => .itype
  | 0x02 => .jtype
  | 0x03 => .jtype
  | 0x10 => if Inst.rs w &&& 0x10 ≠ 0 then .handler else .cop0Type
  | 0x1c => .s3type
  | 0x1f => if Inst.func w = 0x20 then .bshflType else .s3type
  | _ => .itype

/-- `decoder_set_state`: each class stores its own members and leaves the rest as they were. -/
def decoderSetState (ds : DecodeState) (w : Word) : DecodeState :=
  match opClass w with
  | .rtype =>
    { ds with
      rs := (Inst.rs w).setWidth 32
      rt := (Inst.rt w).setWidth 32
      rd := (Inst.rd w).setWidth 32
      shamt := (Inst.shamt w).setWidth 32
      func := (Inst.func w).setWidth 32 }
  | .itype =>
    { ds with
      rs := (Inst.rs w).setWidth 32
      rt := (Inst.rt w).setWidth 32
      rd := storeUimm ds.rd (Inst.uimm w) }
  | .jtype => { ds with rs := (Inst.addr w).setWidth 32 }
  | .cop0Type =>
    { ds with
      rt := (Inst.rt w).setWidth 32
      rd := (Inst.rd w).setWidth 32
      sel := (Inst.sel w).setWidth 32 }
  | .handler => ds
  | .s3type =>
    { ds with
      rs := (Inst.rs w).setWidth 32
      rt := (Inst.rt w).setWidth 32
      rd := (Inst.rd w).setWidth 32
      shamt := (Inst.shamt w).setWidth 32 }
  | .bshflType =>
    { ds with
      rt := (Inst.rt w).setWidth 32
      rd := (Inst.rd w).setWidth 32 }

end NemuMips32
