/-
  The operands of the two builds. Without `CONFIG_DECODE_CACHE` a handler reads the bit-fields
  of the instruction word, with it the members of a `decode_state_t` that `decoder_set_state`
  filled by instruction class. `Handler.reads` lists the members each label reads through
  `ops`, and `exec_restrict` is the check of that list: a handler does not depend on the others.

  * `decoderGetHandler_slot`, `decoderGetHandler_not_stub`: every word selects an entry of a
    table, and never one of the `should not reach here` labels.
  * `set_get`: a class stores the members of `OpClass.stores` as the bit-fields have them.
  * `sameOperands_iff`: the class of a word stores everything its handler reads, except for
    `movci` and the floating point handlers, which read members that no class stores.
-/
import NemuMips32.Board

namespace NemuMips32

variable {D : Type}

/-! ## Members -/

/-- The members that the handlers read through `ops`. -/
inductive Operand where
  | rs | rt | rd | shamt | func | uimm | simm | addr | sel
  | fs | ft | fd | fs64 | ft64 | fd64 | cc1 | cc2 | nd | tf
  deriving DecidableEq

/-- The value of a member in an expression: the immediate `simm` is signed, the others are
    not. -/
def Ops.get (o : Ops) : Operand → Word
  | .rs => o.rs.setWidth 32
  | .rt => o.rt.setWidth 32
  | .rd => o.rd.setWidth 32
  | .shamt => o.shamt.setWidth 32
  | .func => o.func.setWidth 32
  | .uimm => o.uimm.setWidth 32
  | .simm => o.simm
  | .addr => o.addr.setWidth 32
  | .sel => o.sel.setWidth 32
  | .fs => o.fs.setWidth 32
  | .ft => o.ft.setWidth 32
  | .fd => o.fd.setWidth 32
  | .fs64 => o.fs64.setWidth 32
  | .ft64 => o.ft64.setWidth 32
  | .fd64 => o.fd64.setWidth 32
  | .cc1 => o.cc1.setWidth 32
  | .cc2 => o.cc2.setWidth 32
  | .nd => o.nd.setWidth 32
  | .tf => o.tf.setWidth 32

/-- A bit-field of the instruction word. -/
def Inst.get (w : Word) (f : Operand) : Word := (Inst.ops w).get f

/-- A member of a decode state, as the whole `int` it is. -/
def DecodeState.get (d : DecodeState) : Operand → Word
  | .rs => d.rs
  | .rt => d.rt
  | .rd => d.rd
  | .shamt => d.shamt
  | .func => d.func
  | .uimm => (d.rd.setWidth 16).setWidth 32
  | .simm => (d.rd.setWidth 16).signExtend 32
  | .addr => d.rs
  | .sel => d.sel
  | .fs => d.rd
  | .ft => d.rt
  | .fd => d.shamt
  | .fs64 => d.misc
  | .ft64 => d.misc
  | .fd64 => d.misc
  | .cc1 => d.misc
  | .cc2 => d.misc
  | .nd => d.misc
  | .tf => d.misc

/-- The members that each label reads, in the order of the source. -/
def Handler.reads : Handler → List Operand
  | .clz | .clo => [.rs, .rd]
  | .seb | .seh | .wsbh => [.rt, .rd]
  | .ins | .ext => [.shamt, .rd, .rs, .rt]
  | .or | .xor | .and | .addu | .subu | .mul | .add | .sub | .nor | .slt | .sltu | .movn
  | .movz => [.shamt, .rs, .rt, .rd]
  | .lui => [.rs, .uimm, .rt]
  | .addi | .addiu | .slti | .sltiu => [.rs, .simm, .rt]
  | .andi | .ori | .xori => [.rs, .uimm, .rt]
  | .beq | .bne | .beql | .bnel => [.rs, .rt, .simm]
  | .blez | .blezl => [.rt, .rs, .simm]
  | .bgtz | .bltz | .bgez | .bgezal | .bltzal | .bgtzl | .bltzl | .bgezl | .bgezall
  | .bltzall => [.rs, .simm]
  | .jal | .j => [.addr]
  | .jalr => [.rt, .shamt, .rd, .rs]
  | .jr => [.rt, .rd, .rs]
  | .mfc1 | .cfc1 | .mfhc1 | .mtc1 | .ctc1 | .mthc1 => [.fs, .rt]
  | .bc1 => [.nd, .tf, .cc2, .simm]
  | .addS | .addD | .subS | .subD | .mulS | .mulD | .divS | .divD => [.fs, .ft, .fd]
  | .sqrtS | .sqrtD | .absS | .absD | .movS | .movD | .negS | .negD | .truncWS | .truncWD
  | .cvtDS | .cvtWS | .cvtSD | .cvtWD | .cvtSW | .cvtDW => [.fs, .fd]
  | .movci => [.tf, .cc2, .rs, .rd]
  | .movcfS => [.cc2, .fs, .fd]
  | .movcfD => [.cc2, .fs64, .fd64]
  | .movzS | .movnS | .movnD => [.rt, .fs, .fd]
  | .movzD => [.rt, .fs64, .fd64]
  | .cUnS | .cUnD => [.cc1]
  | .cEqS | .cUeqS | .cOltS | .cUltS | .cOleS | .cUleS | .cLtS | .cLeS => [.cc1, .fs, .ft]
  | .cEqD | .cUeqD | .cOltD | .cUltD | .cOleD | .cUleD | .cLtD | .cLeD => [.cc1, .fs64, .ft64]
  | .lwc1 | .ldc1 => [.rs, .simm, .rt]
  | .swc1 | .sdc1 => [.rs, .simm, .ft]
  | .madd | .maddu | .msub | .msubu | .mult | .multu | .divide | .divu =>
    [.rd, .shamt, .rs, .rt]
  | .mfhi | .mflo => [.rs, .rt, .shamt, .rd]
  | .mthi | .mtlo => [.rt, .rd, .shamt, .rs]
  | .lw | .lb | .lbu | .lh | .lhu | .sw | .sh | .sb | .swl | .swr | .lwl | .lwr | .ll
  | .sc => [.rs, .simm, .rt]
  | .pref => []
  | .sll | .sra | .srl => [.rs, .rt, .shamt, .rd]
  | .sllv | .srav | .srlv => [.shamt, .rt, .rs, .rd]
  | .execSpecial | .execSpecial2 | .execSpecial3 | .execBshfl | .execRegimm | .execCop0
  | .execCop1 | .inv => []
  | .cache | .sync | .synci | .tlbp | .tlbr | .tlbwi | .tlbwr | .syscall | .breakpoint | .wait
  | .eret => []
  | .mfc0 | .mtc0 => [.rd, .sel, .rt]
  | .teq | .tge | .tgeu | .tlt | .tltu | .tne => [.rs, .rt]
  | .teqi | .tgei | .tgeiu | .tlti | .tltiu | .tnei => [.rs, .simm]

/-- The operands with everything outside `l` blanked. -/
def Ops.restrict (l : List Operand) (o : Ops) : Ops where
  rs := bif l.contains .rs then o.rs else 0
  rt := bif l.contains .rt then o.rt else 0
  rd := bif l.contains .rd then o.rd else 0
  shamt := bif l.contains .shamt then o.shamt else 0
  func := bif l.contains .func then o.func else 0
  uimm := bif l.contains .uimm || l.contains .simm then o.uimm else 0
  addr := bif l.contains .addr then o.addr else 0
  sel := bif l.contains .sel then o.sel else 0
  fs := bif l.contains .fs then o.fs else 0
  ft := bif l.contains .ft then o.ft else 0
  fd := bif l.contains .fd then o.fd else 0
  fs64 := bif l.contains .fs64 then o.fs64 else 0
  ft64 := bif l.contains .ft64 then o.ft64 else 0
  fd64 := bif l.contains .fd64 then o.fd64 else 0
  cc1 := bif l.contains .cc1 then o.cc1 else 0
  cc2 := bif l.contains .cc2 then o.cc2 else 0
  nd := bif l.contains .nd then o.nd else 0
  tf := bif l.contains .tf then o.tf else 0

/-- A handler depends on nothing but the members it reads. -/
theorem exec_restrict (P : Platform D) (o : Ops) (h : Handler) :
    exec P o h = exec P (o.restrict h.reads) h := by
  cases h <;> rfl

theorem setWidth_inj {n : Nat} (hn : n ≤ 32) {x y : BitVec n}
    (h : x.setWidth 32 = y.setWidth 32) : x = y := by
  have hx := congrArg (BitVec.setWidth n) h
  rwa [BitVec.setWidth_setWidth_of_le _ hn, BitVec.setWidth_setWidth_of_le _ hn,
    BitVec.setWidth_eq, BitVec.setWidth_eq] at hx

theorem signExtend_inj {x y : BitVec 16} (h : x.signExtend 32 = y.signExtend 32) : x = y := by
  have hx := congrArg BitVec.toInt h
  rw [BitVec.toInt_signExtend_of_le (by decide), BitVec.toInt_signExtend_of_le (by decide)] at hx
  exact BitVec.eq_of_toInt_eq hx

theorem bif_contains_congr {n : Nat} {l : List Operand} {f : Operand} {x y : BitVec n}
    (h : f ∈ l → x = y) :
    (bif l.contains f then x else 0) = bif l.contains f then y else 0 := by
  cases hc : l.contains f with
  | true => exact h (List.contains_iff_mem.1 hc)
  | false => rfl

theorem restrict_congr {l : List Operand} {o o' : Ops} (hr : ∀ f ∈ l, o.get f = o'.get f) :
    o.restrict l = o'.restrict l := by
  have huimm : (l.contains .uimm || l.contains .simm) = true → o.uimm = o'.uimm := by
    intro h
    rw [Bool.or_eq_true, List.contains_iff_mem, List.contains_iff_mem] at h
    obtain h | h := h
    · exact setWidth_inj (by decide) (hr _ h)
    · exact signExtend_inj (hr _ h)
  unfold Ops.restrict
  congr 1
  case e_uimm =>
    cases hc : (l.contains .uimm || l.contains .simm) with
    | true => exact huimm hc
    | false => rfl
  all_goals exact bif_contains_congr fun h => setWidth_inj (by decide) (hr _ h)

/-- Handlers that read the same values do the same. -/
theorem exec_congr (P : Platform D) {o o' : Ops} {h : Handler}
    (hr : ∀ f ∈ h.reads, o.get f = o'.get f) : exec P o h = exec P o' h := by
  rw [exec_restrict, restrict_congr hr, ← exec_restrict]

/-! ## What a class stores -/

/-- The members that a class of `decoder_set_state` stores. A member of a union is stored with
    the one it overlays. -/
def OpClass.stores : OpClass → List Operand
  | .rtype => [.rs, .rt, .ft, .rd, .fs, .shamt, .fd, .func]
  | .itype => [.rs, .rt, .ft, .uimm, .simm]
  | .jtype => [.addr]
  | .cop0Type => [.rt, .ft, .rd, .fs, .sel]
  | .handler => []
  | .s3type => [.rs, .rt, .ft, .rd, .fs, .shamt, .fd]
  | .bshflType => [.rt, .ft, .rd, .fs]

theorem setWidth_storeUimm (old : Word) (imm : BitVec 16) :
    (storeUimm old imm).setWidth 16 = imm := by
  rw [storeUimm, BitVec.setWidth_append]
  simp

/-- A stored member has the value of the bit-field. -/
theorem set_get (d : DecodeState) (w : Word) {f : Operand} (hf : f ∈ (opClass w).stores) :
    (decoderSetState d w).get f = Inst.get w f := by
  unfold decoderSetState
  cases hc : opClass w <;> rw [hc] at hf <;> cases f <;>
    first
      | rfl
      | exact absurd hf (by decide)
      | simp [DecodeState.get, Inst.get, Ops.get, Ops.simm, Inst.ops, setWidth_storeUimm]

/-! ## What a word selects -/

/-- The table and the index that `decoder_get_handler` looks at. -/
def decoderSlot (w : Word) : List Handler × Nat :=
  match (Inst.op w).toNat with
  | 0x00 => (specialTable, (Inst.func w).toNat)
  | 0x01 => (regimmTable, (Inst.rt w).toNat)
  | 0x10 =>
    if Inst.rs w &&& 0x10 ≠ 0 then (cop0TableFunc, (Inst.func w).toNat)
    else (cop0TableRs, (Inst.rs w).toNat)
  | 0x11 =>
    match (Inst.rs w).toNat with
    | 16 => (cop1TableRsS, (Inst.func w).toNat)
    | 17 => (cop1TableRsD, (Inst.func w).toNat)
    | 20 => (cop1TableRsW, (Inst.func w).toNat)
    | _ => (cop1TableRs, (Inst.rs w).toNat)
  | 0x1c => (special2Table, (Inst.func w).toNat)
  | 0x1f =>
    if Inst.func w = 0x20 then (bshflTable, (Inst.shamt w).toNat)
    else (special3Table, (Inst.func w).toNat)
  | _ => (opcodeTable, (Inst.op w).toNat)

theorem decoderGetHandler_eq (w : Word) :
    decoderGetHandler w = (decoderSlot w).1.getD (decoderSlot w).2 .inv := by
  unfold decoderGetHandler decoderSlot tableEntry
  generalize (Inst.op w).toNat = n
  split
  · rfl
  · rfl
  · split <;> rfl
  · generalize (Inst.rs w).toNat = m
    split <;> simp_all
  · rfl
  · split <;> rfl
  · simp_all

theorem decoderSlot_lt (w : Word) : (decoderSlot w).2 < (decoderSlot w).1.length := by
  have hfunc := (Inst.func w).isLt
  have hrt := (Inst.rt w).isLt
  have hrs := (Inst.rs w).isLt
  have hsa := (Inst.shamt w).isLt
  have hop := (Inst.op w).isLt
  unfold decoderSlot
  split
  · exact hfunc
  · exact hrt
  · split
    · exact hfunc
    · exact hrs
  · split
    · exact hfunc
    · exact hfunc
    · exact hfunc
    · exact hrs
  · exact hfunc
  · split
    · exact hsa
    · exact hfunc
  · exact hop

/-- Every word selects an entry of a table: the handler is never null. -/
theorem decoderGetHandler_slot (w : Word) :
    (decoderSlot w).1[(decoderSlot w).2]? = some (decoderGetHandler w) := by
  rw [decoderGetHandler_eq, List.getD_eq_getElem?_getD,
    List.getElem?_eq_getElem (decoderSlot_lt w), Option.getD_some]

/-- The labels that `panic("should not reach here !")`. -/
def Handler.isStub : Handler → Bool
  | .execSpecial | .execSpecial2 | .execSpecial3 | .execBshfl | .execRegimm | .execCop0
  | .execCop1 => true
  | _ => false

/-- The ways a word is decoded: the table that holds its handler, and its class. -/
inductive Decoded (w : Word) : Handler → OpClass → Prop where
  | special {h} (hop : Inst.op w = 0x00) (hm : h ∈ specialTable) : Decoded w h .rtype
  | regimm {h} (hop : Inst.op w = 0x01) (hm : h ∈ regimmTable) : Decoded w h .itype
  | jump {h} (hop : Inst.op w = 0x02 ∨ Inst.op w = 0x03) (hm : h ∈ [Handler.j, .jal]) :
    Decoded w h .jtype
  | cop0Func {h} (hop : Inst.op w = 0x10) (hm : h ∈ cop0TableFunc) : Decoded w h .handler
  | cop0Rs {h} (hop : Inst.op w = 0x10) (hm : h ∈ cop0TableRs) : Decoded w h .cop0Type
  | cop1 {h} (hop : Inst.op w = 0x11)
    (hm : h ∈ cop1TableRsS ∨ h ∈ cop1TableRsD ∨ h ∈ cop1TableRsW ∨ h ∈ cop1TableRs) :
    Decoded w h .itype
  | special2 {h} (hop : Inst.op w = 0x1c) (hm : h ∈ special2Table) : Decoded w h .s3type
  | bshfl {h} (hop : Inst.op w = 0x1f) (hm : h ∈ bshflTable) : Decoded w h .bshflType
  | special3 {h} (hop : Inst.op w = 0x1f) (hm : h ∈ special3Table.erase .execBshfl) :
    Decoded w h .s3type
  | opcode {h} (hop : Inst.op w ≠ 0x11)
    (hm : h ∈ opcodeTable.filter fun h => !h.isStub && h != .j && h != .jal) :
    Decoded w h .itype

theorem getD_mem {t : List Handler} {n : Nat} (h : n < t.length) : t.getD n .inv ∈ t := by
  rw [List.getD_eq_getElem?_getD, List.getElem?_eq_getElem h, Option.getD_some]
  exact List.getElem_mem h

theorem decoded (w : Word) : Decoded w (decoderGetHandler w) (opClass w) := by
  have hs3 : ∀ func : BitVec 6, func ≠ 0x20 →
      special3Table.getD func.toNat .inv ∈ special3Table.erase .execBshfl := by
    decide
  have hop : ∀ op : BitVec 6, op ∉ [0x00, 0x01, 0x02, 0x03, 0x10, 0x11, 0x1c, 0x1f] →
      opcodeTable.getD op.toNat .inv ∈
        opcodeTable.filter fun h => !h.isStub && h != .j && h != .jal := by
    decide
  have hfunc := (Inst.func w).isLt
  have hrs := (Inst.rs w).isLt
  have eq {n : Nat} (hn : n < 64) (h : (Inst.op w).toNat = n) :
      Inst.op w = BitVec.ofNat 6 n := by
    apply BitVec.eq_of_toNat_eq
    rw [h, BitVec.toNat_ofNat, Nat.mod_eq_of_lt hn]
  unfold decoderGetHandler opClass tableEntry
  split
  case h_1 h => simp only [h]; exact .special (eq (by decide) h) (getD_mem hfunc)
  case h_2 h => simp only [h]; exact .regimm (eq (by decide) h) (getD_mem (Inst.rt w).isLt)
  case h_3 h =>
    simp only [h]
    split
    · exact .cop0Func (eq (by decide) h) (getD_mem hfunc)
    · exact .cop0Rs (eq (by decide) h) (getD_mem hrs)
  case h_4 h =>
    simp only [h]
    refine .cop1 (eq (by decide) h) ?_
    split
    · exact .inl (getD_mem hfunc)
    · exact .inr (.inl (getD_mem hfunc))
    · exact .inr (.inr (.inl (getD_mem hfunc)))
    · exact .inr (.inr (.inr (getD_mem hrs)))
  case h_5 h => simp only [h]; exact .special2 (eq (by decide) h) (getD_mem hfunc)
  case h_6 h =>
    simp only [h]
    split
    · exact .bshfl (eq (by decide) h) (getD_mem (Inst.shamt w).isLt)
    · exact .special3 (eq (by decide) h) (hs3 _ ‹_›)
  case h_7 h0 h1 h10 h11 h1c h1f =>
    by_cases h2 : (Inst.op w).toNat = 2
    · simp only [h2]
      exact .jump (.inl (eq (by decide) h2)) (by decide)
    · by_cases h3 : (Inst.op w).toNat = 3
      · simp only [h3]
        exact .jump (.inr (eq (by decide) h3)) (by decide)
      · have hm := hop (Inst.op w) (by
          intro hm
          simp only [List.mem_cons, List.not_mem_nil, or_false] at hm
          rcases hm with h | h | h | h | h | h | h | h <;> simp_all)
        simp only []
        exact .opcode (fun h => h11 (by rw [h]; rfl)) hm

theorem decoderGetHandler_not_stub (w : Word) : (decoderGetHandler w).isStub = false := by
  have hd := decoded w
  generalize decoderGetHandler w = h, opClass w = c at hd
  have of_mem {t : List Handler} (ht : ∀ h ∈ t, h.isStub = false) (hm : h ∈ t) :
      h.isStub = false := ht h hm
  cases hd with
  | special _ hm => exact of_mem (by decide) hm
  | regimm _ hm => exact of_mem (by decide) hm
  | jump _ hm => exact of_mem (by decide) hm
  | cop0Func _ hm => exact of_mem (by decide) hm
  | cop0Rs _ hm => exact of_mem (by decide) hm
  | cop1 _ hm => rcases hm with hm | hm | hm | hm <;> exact of_mem (by decide) hm
  | special2 _ hm => exact of_mem (by decide) hm
  | bshfl _ hm => exact of_mem (by decide) hm
  | special3 _ hm => exact of_mem (by decide) hm
  | opcode _ hm => exact of_mem (by decide) hm

/-- The class of a word stores everything its handler reads, unless that is `movci` or a
    floating point handler. -/
theorem reads_stored {w : Word} (hn : decoderGetHandler w ≠ .movci)
    (hf : Inst.op w = 0x11 → decoderGetHandler w = .inv) :
    ∀ f ∈ (decoderGetHandler w).reads, f ∈ (opClass w).stores := by
  have hd := decoded w
  generalize decoderGetHandler w = h, opClass w = c at hd hn hf
  have of_mem {t : List Handler} {c : OpClass}
      (ht : ∀ h ∈ t, h ≠ .movci → ∀ f ∈ h.reads, f ∈ c.stores) (hm : h ∈ t) :
      ∀ f ∈ h.reads, f ∈ c.stores := ht h hm hn
  cases hd with
  | special _ hm => exact of_mem (by decide) hm
  | regimm _ hm => exact of_mem (by decide) hm
  | jump _ hm => exact of_mem (by decide) hm
  | cop0Func _ hm => exact of_mem (by decide) hm
  | cop0Rs _ hm => exact of_mem (by decide) hm
  | cop1 hop _ =>
    rw [hf hop]
    exact nofun
  | special2 _ hm => exact of_mem (by decide) hm
  | bshfl _ hm => exact of_mem (by decide) hm
  | special3 _ hm => exact of_mem (by decide) hm
  | opcode _ hm => exact of_mem (by decide) hm

/-! ## Members that no class stores -/

/-- What a fresh `malloc` block may hold. -/
def junk : DecodeState where
  handler := none
  next := none
  pc := 0xFFFFFFFF
  rs := 0xFFFFFFFF
  rt := 0xFFFFFFFF
  rd := 0xFFFFFFFF
  shamt := 0xFFFFFFFF
  func := 0xFFFFFFFF
  sel := 0xFFFFFFFF
  misc := 0xFFFFFFFF

/-- The members that the class of the floating point words does not store: the immediate
    overwrites the lower half of `fs`, the others are left as they were. -/
def fpuMembers : List Operand := [.fs, .fd, .fs64, .ft64, .fd64, .cc1, .cc2, .nd, .tf]

/-- A bit-field is narrow. -/
theorem get_narrow (w : Word) {f : Operand} (hf : f ∈ fpuMembers) :
    (Inst.get w f).getLsbD 31 = false := by
  cases f <;>
    first
      | exact absurd hf (by decide)
      | simp [Inst.get, Ops.get]

/-- The immediate leaves the sign bit of the word it is stored into. -/
theorem msb_storeUimm (old : Word) (imm : BitVec 16) :
    (storeUimm old imm).getLsbD 31 = old.getLsbD 31 := by
  unfold storeUimm
  rw [BitVec.getLsbD_append, BitVec.getLsbD_extractLsb']
  rfl

theorem junk_itype {w : Word} (hc : opClass w = .itype) {f : Operand} (hf : f ∈ fpuMembers) :
    ((decoderSetState junk w).get f).getLsbD 31 = true := by
  unfold decoderSetState
  rw [hc]
  cases f
  case fs => exact msb_storeUimm junk.rd (Inst.uimm w)
  all_goals
    first
      | exact absurd hf (by decide)
      | simp [DecodeState.get, junk]

/-- No class stores the condition code and its sense. -/
theorem misc_decoderSetState (d : DecodeState) (w : Word) :
    (decoderSetState d w).misc = d.misc := by
  unfold decoderSetState
  split <;> rfl

theorem fpu_reads {w : Word} (hop : Inst.op w = 0x11) (hi : decoderGetHandler w ≠ .inv) :
    opClass w = .itype ∧ ∃ f ∈ (decoderGetHandler w).reads, f ∈ fpuMembers := by
  have hd := decoded w
  generalize decoderGetHandler w = h, opClass w = c at hd hi
  have of_mem {t : List Handler}
      (ht : ∀ h ∈ t, h ≠ .inv → ∃ f ∈ h.reads, f ∈ fpuMembers) (hm : h ∈ t) :
      ∃ f ∈ h.reads, f ∈ fpuMembers := ht h hm hi
  cases hd with
  | cop1 _ hm => exact ⟨rfl, by rcases hm with hm | hm | hm | hm <;> exact of_mem (by decide) hm⟩
  | opcode hne _ => exact absurd hop hne
  | jump hop' _ => rcases hop' with h | h <;> rw [hop] at h <;> cases h
  | _ hop' _ => rw [hop] at hop'; cases hop'

/-! ## The two builds -/

theorem ops_get {d : DecodeState} {w : Word} {f : Operand} (h : d.get f = Inst.get w f) :
    d.ops.get f = (Inst.ops w).get f := by
  cases f <;> simp_all [DecodeState.get, DecodeState.ops, Inst.get, Ops.get, Ops.simm]

/-- The operands that a build may hand to the handler of `w`. -/
def OperandsOf (P : Platform D) (w : Word) (o : Ops) : Prop :=
  if P.cfg.decodeCache then ∃ d, o = (decoderSetState d w).ops else o = Inst.ops w

/-- A handler that reads none of the floating point members does the same in both builds. -/
theorem OperandsOf.exec_eq {P : Platform D} {w : Word} {o : Ops} (ho : OperandsOf P w o)
    (hf : ∀ f ∈ (decoderGetHandler w).reads, f ∉ fpuMembers) :
    exec P o (decoderGetHandler w) = exec P (Inst.ops w) (decoderGetHandler w) := by
  unfold OperandsOf at ho
  split at ho
  · obtain ⟨d, rfl⟩ := ho
    refine exec_congr P fun f hr => ops_get (set_get d w (reads_stored ?_ ?_ f hr))
    · intro hm
      exact hf .tf (by rw [hm]; decide) (by decide)
    · intro hop
      by_contra hi
      obtain ⟨-, f, hr, hm⟩ := fpu_reads hop hi
      exact hf f hr hm
  · rw [ho]

/-- The cached build of the handler of `w` computes on the operands of the uncached one,
    whatever the decode state held before. -/
structure SameOperands (P : Platform D) (w : Word) : Prop where
  slot : (decoderSlot w).1[(decoderSlot w).2]? = some (decoderGetHandler w)
  reached : (decoderGetHandler w).isStub = false
  stored : ∀ d, ∀ f ∈ (decoderGetHandler w).reads, (decoderSetState d w).get f = Inst.get w f
  exec : ∀ d, exec P (decoderSetState d w).ops (decoderGetHandler w) =
    exec P (Inst.ops w) (decoderGetHandler w)

/-- The decode state of a word holds what its handler reads exactly if that is neither `movci`
    nor a floating point handler. -/
theorem sameOperands_iff (P : Platform D) (w : Word) :
    SameOperands P w ↔
      decoderGetHandler w ≠ .movci ∧ (Inst.op w = 0x11 → decoderGetHandler w = .inv) := by
  constructor
  · intro h
    refine ⟨fun hm => ?_, fun hop => ?_⟩
    · have ht := h.stored junk .tf (by rw [hm]; decide)
      have hj : ((decoderSetState junk w).get .tf).getLsbD 31 = true := by
        change ((decoderSetState junk w).misc).getLsbD 31 = true
        rw [misc_decoderSetState]
        rfl
      rw [ht, get_narrow w (by decide)] at hj
      cases hj
    · by_contra hi
      obtain ⟨hc, f, hr, hf⟩ := fpu_reads hop hi
      have hj := junk_itype hc hf
      rw [h.stored junk f hr, get_narrow w hf] at hj
      cases hj
  · rintro ⟨hm, hf⟩
    have hs : ∀ d, ∀ f ∈ (decoderGetHandler w).reads,
        (decoderSetState d w).get f = Inst.get w f :=
      fun d f hr => set_get d w (reads_stored hm hf f hr)
    exact ⟨decoderGetHandler_slot w, decoderGetHandler_not_stub w, hs,
      fun d => exec_congr P fun f hr => ops_get (hs d f hr)⟩

/-- `mfc1 $1, $f1` in a cached build, on a decode state that held zeros: `fs` reads 0x800. -/
theorem sameOperands_mfc1 :
    ¬ SameOperands (ramPlatform (buildOf .mips32R1 false true)) 0x44010800 := by
  intro h
  exact absurd (h.stored default .fs (by decide)) (by decide)

end NemuMips32
