/-
  The accumulator HI:LO (`mdu.h`). MULT and MULTU set it, MADD, MADDU, MSUB and MSUBU add to it
  and subtract from it, through the two 64-bit views of `L64_t`.

  Signed overflow of `hilo.sval` is undefined in C, and the bodies stop there. `Body.wrapping`
  is the same program on a host that wraps around; the two differ nowhere else
  (`execWrapping_eq`). `exactHilo` is the value that a sequence of these instructions stands for,
  in unbounded integers; `hilo_exact` says that HI:LO holds it modulo 2^64.
-/
import NemuMips32.Integer

namespace NemuMips32

open StateExcept

variable {D : Type}

/-! ## A host that wraps around -/

/-- The body without the stops for what C leaves undefined. -/
def Body.wrapping : Body → Body
  | .regs mbz bad f =>
    .regs mbz (fun c => if bad c = some .undefined then none else bad c) f
  | b => b

def execWrapping (P : Platform D) (o : Ops) (h : Handler) : Exec D Unit :=
  (body P o h).wrapping.run P

/-- Where the host operations are defined, the host need not wrap. -/
theorem execWrapping_eq (P : Platform D) {o : Ops} {h : Handler} (hh : h ∈ hostHandlers)
    {s : Machine D} (hdef : HostDefined h o s.cpu.toRegs) :
    execWrapping P o h s = exec P o h s := by
  obtain ⟨bad, f, hb, hbad⟩ := host_body P o hh
  have hnone : bad s.cpu = none := (hbad s.cpu).2 hdef
  rw [execWrapping, exec, hb, Body.wrapping]
  cases hm : mbzOk h o with
  | true =>
    rw [regs_of_none P bad f hnone, regs_of_none P _ f (by simp [hnone])]
  | false =>
    by_cases hx : P.cfg.exception = true
    · rw [regs_of_mbz bad f hx, regs_of_mbz _ f hx]
    · rw [regs_of_assert bad f hx, regs_of_assert _ f hx]

/-! ## Instructions -/

inductive MduOp where
  | mult
  | multu
  | madd
  | maddu
  | msub
  | msubu
  deriving DecidableEq

namespace MduOp

def handler : MduOp → Handler
  | mult => .mult
  | multu => .multu
  | madd => .madd
  | maddu => .maddu
  | msub => .msub
  | msubu => .msubu

def opcode : MduOp → BitVec 6
  | mult | multu => 0x00
  | madd | maddu | msub | msubu => 0x1c

def func : MduOp → BitVec 6
  | mult => 0x18
  | multu => 0x19
  | madd => 0x00
  | maddu => 0x01
  | msub => 0x04
  | msubu => 0x05

/-- The operands are two's-complement numbers. -/
def signed : MduOp → Bool
  | mult | madd | msub => true
  | multu | maddu | msubu => false

/-- The accumulator is set, not added to. -/
def isMult : MduOp → Bool
  | mult | multu => true
  | _ => false

def isAdd : MduOp → Bool
  | madd | maddu => true
  | _ => false

def isSub : MduOp → Bool
  | msub | msubu => true
  | _ => false

end MduOp

/-- One instruction of a sequence, with the registers at that point. -/
structure MduStep where
  op : MduOp
  rs : BitVec 5
  rt : BitVec 5
  gpr : BitVec 5 → Word

/-- The word of a register instruction. -/
def rtypeWord (op : BitVec 6) (rs rt rd shamt : BitVec 5) (func : BitVec 6) : Word :=
  op ++ rs ++ rt ++ rd ++ shamt ++ func

section Rtype

variable (op : BitVec 6) (rs rt rd shamt : BitVec 5) (func : BitVec 6)

theorem getLsbD_rtypeWord (i : Nat) :
    (rtypeWord op rs rt rd shamt func).getLsbD i =
      if i < 6 then func.getLsbD i
      else if i < 11 then shamt.getLsbD (i - 6)
      else if i < 16 then rd.getLsbD (i - 11)
      else if i < 21 then rt.getLsbD (i - 16)
      else if i < 26 then rs.getLsbD (i - 21)
      else op.getLsbD (i - 26) := by
  rw [rtypeWord, BitVec.getLsbD_append, BitVec.getLsbD_append, BitVec.getLsbD_append,
    BitVec.getLsbD_append, BitVec.getLsbD_append]
  simp only [Nat.sub_sub, Nat.reduceAdd]
  split_ifs <;> first | rfl | omega

/-- The fields of the word are what it was made of. -/
theorem fields_rtypeWord :
    let w := rtypeWord op rs rt rd shamt func
    Inst.op w = op ∧ Inst.rs w = rs ∧ Inst.rt w = rt ∧ Inst.rd w = rd ∧ Inst.shamt w = shamt ∧
      Inst.func w = func := by
  refine ⟨?_, ?_, ?_, ?_, ?_, ?_⟩ <;>
  · apply BitVec.eq_of_getLsbD_eq
    intro i hi
    simp only [Inst.op, Inst.rs, Inst.rt, Inst.rd, Inst.shamt, Inst.func,
      BitVec.getLsbD_extractLsb', getLsbD_rtypeWord, Nat.zero_add, hi, decide_true,
      Bool.true_and, Nat.add_sub_cancel_left]
    split_ifs <;> first | rfl | omega

@[simp] theorem op_rtypeWord : Inst.op (rtypeWord op rs rt rd shamt func) = op :=
  (fields_rtypeWord op rs rt rd shamt func).1

@[simp] theorem rs_rtypeWord : Inst.rs (rtypeWord op rs rt rd shamt func) = rs :=
  (fields_rtypeWord op rs rt rd shamt func).2.1

@[simp] theorem rt_rtypeWord : Inst.rt (rtypeWord op rs rt rd shamt func) = rt :=
  (fields_rtypeWord op rs rt rd shamt func).2.2.1

@[simp] theorem rd_rtypeWord : Inst.rd (rtypeWord op rs rt rd shamt func) = rd :=
  (fields_rtypeWord op rs rt rd shamt func).2.2.2.1

@[simp] theorem shamt_rtypeWord : Inst.shamt (rtypeWord op rs rt rd shamt func) = shamt :=
  (fields_rtypeWord op rs rt rd shamt func).2.2.2.2.1

@[simp] theorem func_rtypeWord : Inst.func (rtypeWord op rs rt rd shamt func) = func :=
  (fields_rtypeWord op rs rt rd shamt func).2.2.2.2.2

end Rtype

/-- The instruction word; the fields `rd` and `shamt` have to be zero. -/
def MduStep.word (x : MduStep) : Word := rtypeWord x.op.opcode x.rs x.rt 0 0 x.op.func

namespace MduStep

variable (x : MduStep)

theorem decoderGetHandler_word : decoderGetHandler x.word = x.op.handler := by
  rw [decoderGetHandler, MduStep.word, op_rtypeWord, func_rtypeWord]
  cases x.op <;> rfl

theorem mbz_word : mduMbz (Inst.ops x.word) = true := by
  simp [mduMbz, Inst.ops, MduStep.word]

theorem rs_word : (Inst.ops x.word).rs = x.rs := rs_rtypeWord ..

theorem rt_word : (Inst.ops x.word).rt = x.rt := rt_rtypeWord ..

/-- The product of the operands, as an integer. -/
def product : Int :=
  if x.op.signed then (x.gpr x.rs).toInt * (x.gpr x.rt).toInt
  else (x.gpr x.rs).toNat * (x.gpr x.rt).toNat

/-- HI:LO after the instruction. -/
def accumulate (acc : BitVec 64) : BitVec 64 :=
  if x.op.isMult then BitVec.ofInt 64 x.product
  else if x.op.isAdd then acc + BitVec.ofInt 64 x.product
  else acc - BitVec.ofInt 64 x.product

end MduStep

/-! ## One instruction -/

/-- The 64-bit accumulator. -/
def Regs.hilo (r : Regs) : BitVec 64 := r.hi ++ r.lo

@[simp] theorem hilo_setHilo (r : Regs) (v : BitVec 64) : (r.setHilo v).hilo = v :=
  @BitVec.extractLsb'_append_extractLsb' 32 32 v

theorem sprod_eq_ofInt (r : Regs) (o : Ops) :
    sprod r o = BitVec.ofInt 64 ((r.gpr o.rs).toInt * (r.gpr o.rt).toInt) :=
  Words.mul_signExtend_eq_ofInt _ _

theorem uprod_eq_ofInt (r : Regs) (o : Ops) :
    uprod r o = BitVec.ofInt 64 ((r.gpr o.rs).toNat * (r.gpr o.rt).toNat) := by
  rw [uprod, Words.mul_setWidth_eq_ofNat, ← Int.natCast_mul, BitVec.ofInt_natCast]

/-- Each of the six bodies updates HI:LO by its product, and on a host that wraps around nothing
    stops it. -/
theorem wrapping_body (P : Platform D) (x : MduStep) :
    ∃ bad f, (body P (Inst.ops x.word) x.op.handler).wrapping = .regs true bad f ∧
      (∀ c, bad c = none) ∧
      ∀ c : CpuState, c.gpr = x.gpr → f c = c.setHilo (x.accumulate c.hilo) := by
  have hm := x.mbz_word
  have hrs := x.rs_word
  have hrt := x.rt_word
  have hs : ∀ c : CpuState, c.gpr = x.gpr → sprod c.toRegs (Inst.ops x.word) =
      BitVec.ofInt 64 ((x.gpr x.rs).toInt * (x.gpr x.rt).toInt) := by
    intro c hc
    rw [sprod_eq_ofInt, hrs, hrt, hc]
  have hu : ∀ c : CpuState, c.gpr = x.gpr → uprod c.toRegs (Inst.ops x.word) =
      BitVec.ofInt 64 ((x.gpr x.rs).toNat * (x.gpr x.rt).toNat) := by
    intro c hc
    rw [uprod_eq_ofInt, hrs, hrt, hc]
  have hbad : ∀ b : Bool, (if (if b then some Halt.undefined else none) = some Halt.undefined
      then none else if b then some Halt.undefined else none) = none := by
    intro b
    cases b <;> rfl
  obtain ⟨op, rs, rt, gpr⟩ := x
  cases op with
  | mult =>
    refine ⟨_, _, congrArg (Body.regs · _ _) hm, fun c => rfl, fun c hc => ?_⟩
    rw [hs c hc]
    rfl
  | multu =>
    refine ⟨_, _, congrArg (Body.regs · _ _) hm, fun c => rfl, fun c hc => ?_⟩
    rw [hu c hc]
    rfl
  | madd =>
    refine ⟨_, _, congrArg (Body.regs · _ _) hm, fun c => hbad _, fun c hc => ?_⟩
    rw [hs c hc]
    rfl
  | maddu =>
    refine ⟨_, _, congrArg (Body.regs · _ _) hm, fun c => rfl, fun c hc => ?_⟩
    rw [hu c hc]
    rfl
  | msub =>
    refine ⟨_, _, congrArg (Body.regs · _ _) hm, fun c => hbad _, fun c hc => ?_⟩
    rw [hs c hc]
    rfl
  | msubu =>
    refine ⟨_, _, congrArg (Body.regs · _ _) hm, fun c => rfl, fun c hc => ?_⟩
    rw [hu c hc]
    rfl

/-- The instruction with the registers it runs on. -/
def MduStep.exec (P : Platform D) (x : MduStep) : Exec D Unit := do
  modifyRegs fun c => { c.toRegs with gpr := x.gpr }
  execWrapping P (Inst.ops x.word) (decoderGetHandler x.word)

theorem MduStep.exec_apply (P : Platform D) (x : MduStep) (s : Machine D) :
    ∃ t, x.exec P s = .ok () t ∧ t.cpu.hilo = x.accumulate s.cpu.hilo := by
  have hm : modifyRegs (fun c => { c.toRegs with gpr := x.gpr }) s =
      .ok () (s.setRegs { s.cpu.toRegs with gpr := x.gpr }) := rfl
  obtain ⟨bad, f, hb, hbad, hf⟩ := wrapping_body P x
  rw [MduStep.exec, bind_of_ok hm, x.decoderGetHandler_word, execWrapping, hb,
    regs_of_none P bad f (hbad _), hf _ rfl]
  exact ⟨_, rfl, hilo_setHilo _ _⟩

/-! ## Sequences -/

/-- The instructions of a sequence, one after the other. -/
def execAll (P : Platform D) : List MduStep → Exec D Unit
  | [] => pure ()
  | x :: xs => do
    x.exec P
    execAll P xs

/-- The product of the last multiplication; `init` if there is none. -/
def lastProduct (init : Int) (xs : List MduStep) : Int :=
  ((xs.reverse.find? fun x => x.op.isMult).map MduStep.product).getD init

/-- The instructions after the last multiplication, in reverse order. -/
def sinceMult (xs : List MduStep) : List MduStep := xs.reverse.takeWhile fun x => !x.op.isMult

def sumProducts (xs : List MduStep) : Int := (xs.map MduStep.product).sum

/-- The last product, plus what was added to it since, minus what was subtracted. -/
def exactHilo (init : Int) (xs : List MduStep) : Int :=
  lastProduct init xs + sumProducts ((sinceMult xs).filter fun x => x.op.isAdd)
    - sumProducts ((sinceMult xs).filter fun x => x.op.isSub)

theorem exactHilo_nil (init : Int) : exactHilo init [] = init := by
  simp [exactHilo, lastProduct, sinceMult, sumProducts]

/-- What one more instruction does to the exact value. -/
theorem exactHilo_snoc (init : Int) (xs : List MduStep) (x : MduStep) :
    exactHilo init (xs ++ [x]) =
      if x.op.isMult then x.product
      else if x.op.isAdd then exactHilo init xs + x.product
      else exactHilo init xs - x.product := by
  obtain ⟨op, rs, rt, gpr⟩ := x
  cases op <;>
    simp [exactHilo, lastProduct, sinceMult, sumProducts, MduOp.isMult, MduOp.isAdd,
      MduOp.isSub] <;>
    omega

theorem execAll_snoc (P : Platform D) (xs : List MduStep) (x : MduStep) (s : Machine D) :
    execAll P (xs ++ [x]) s = (execAll P xs >>= fun _ => x.exec P) s := by
  induction xs generalizing s with
  | nil =>
    change (x.exec P >>= fun _ => pure ()) s = x.exec P s
    rw [bind_apply]
    cases x.exec P s <;> rfl
  | cons y ys ih =>
    obtain ⟨t, ht, -⟩ := y.exec_apply P s
    have hl : execAll P (y :: ys ++ [x]) s = execAll P (ys ++ [x]) t := bind_of_ok ht _
    have hr : execAll P (y :: ys) s = execAll P ys t := bind_of_ok ht _
    rw [hl, ih, bind_apply, bind_apply, hr]

/-- The accumulator follows the exact value modulo 2^64. -/
theorem execAll_hilo (P : Platform D) (xs : List MduStep) (s : Machine D) :
    ∃ t, execAll P xs s = .ok () t ∧
      t.cpu.hilo = BitVec.ofInt 64 (exactHilo s.cpu.hilo.toNat xs) := by
  induction xs using List.reverseRecOn with
  | nil =>
    refine ⟨s, rfl, ?_⟩
    rw [exactHilo_nil, BitVec.ofInt_natCast, BitVec.ofNat_toNat, BitVec.setWidth_eq]
  | append_singleton xs x ih =>
    obtain ⟨t, ht, hacc⟩ := ih
    obtain ⟨u, hu, hstep⟩ := x.exec_apply P t
    refine ⟨u, by rw [execAll_snoc, bind_of_ok ht, hu], ?_⟩
    rw [hstep, hacc, exactHilo_snoc, MduStep.accumulate]
    split
    · rfl
    · split
      · rw [BitVec.ofInt_add]
      · rw [Int.sub_eq_add_neg, BitVec.ofInt_add, BitVec.ofInt_neg, ← BitVec.sub_eq_add_neg]

/-! ## Reading the halves -/

def mfhiWord (rd : BitVec 5) : Word := rtypeWord 0 0 0 rd 0 0x10
def mfloWord (rd : BitVec 5) : Word := rtypeWord 0 0 0 rd 0 0x12

theorem exec_mfhi (P : Platform D) (rd : BitVec 5) (s : Machine D) :
    exec P (Inst.ops (mfhiWord rd)) (decoderGetHandler (mfhiWord rd)) s =
      .ok () (s.setRegs (s.cpu.setGpr rd s.cpu.hi)) := by
  have hh : decoderGetHandler (mfhiWord rd) = .mfhi := by
    rw [decoderGetHandler, mfhiWord, op_rtypeWord, func_rtypeWord]
    rfl
  have hb : body P (Inst.ops (mfhiWord rd)) .mfhi =
      .regs true (fun _ => none) fun c => c.setGpr rd c.hi := by
    simp [body, mfhi, regsOp, Inst.ops, mfhiWord]
  rw [hh, exec, hb, regs_of_none P _ _ rfl]

theorem exec_mflo (P : Platform D) (rd : BitVec 5) (s : Machine D) :
    exec P (Inst.ops (mfloWord rd)) (decoderGetHandler (mfloWord rd)) s =
      .ok () (s.setRegs (s.cpu.setGpr rd s.cpu.lo)) := by
  have hh : decoderGetHandler (mfloWord rd) = .mflo := by
    rw [decoderGetHandler, mfloWord, op_rtypeWord, func_rtypeWord]
    rfl
  have hb : body P (Inst.ops (mfloWord rd)) .mflo =
      .regs true (fun _ => none) fun c => c.setGpr rd c.lo := by
    simp [body, mflo, regsOp, Inst.ops, mfloWord]
  rw [hh, exec, hb, regs_of_none P _ _ rfl]

theorem toNat_hilo (r : Regs) : r.hilo.toNat = r.hi.toNat * 2 ^ 32 + r.lo.toNat := by
  rw [Regs.hilo, BitVec.toNat_append, ← Nat.shiftLeft_add_eq_or_of_lt r.lo.isLt,
    Nat.shiftLeft_eq]

/-- After any sequence of multiplications and accumulations, HI:LO holds the exact value modulo
    2^64, MFHI reads its upper half and MFLO its lower half. -/
theorem hilo_exact (P : Platform D) (xs : List MduStep) (s : Machine D) :
    ∃ t, execAll P xs s = .ok () t ∧
      (t.cpu.hilo.toNat : Int) = exactHilo s.cpu.hilo.toNat xs % 2 ^ 64 ∧
      (∀ rd, ∃ u, exec P (Inst.ops (mfhiWord rd)) (decoderGetHandler (mfhiWord rd)) t = .ok () u ∧
        ((u.cpu.gpr rd).toNat : Int) = exactHilo s.cpu.hilo.toNat xs % 2 ^ 64 / 2 ^ 32) ∧
      (∀ rd, ∃ u, exec P (Inst.ops (mfloWord rd)) (decoderGetHandler (mfloWord rd)) t = .ok () u ∧
        ((u.cpu.gpr rd).toNat : Int) = exactHilo s.cpu.hilo.toNat xs % 2 ^ 32) := by
  obtain ⟨t, ht, hacc⟩ := execAll_hilo P xs s
  have hnat : (t.cpu.hilo.toNat : Int) = exactHilo s.cpu.hilo.toNat xs % 2 ^ 64 := by
    rw [hacc, BitVec.toNat_ofInt, Int.toNat_of_nonneg (Int.emod_nonneg _ (by decide))]
    rfl
  have hsplit := toNat_hilo t.cpu.toRegs
  have hlo := t.cpu.lo.isLt
  refine ⟨t, ht, hnat, fun rd => ⟨_, exec_mfhi P rd t, ?_⟩, fun rd => ⟨_, exec_mflo P rd t, ?_⟩⟩
  · have hg : (t.setRegs (t.cpu.setGpr rd t.cpu.hi)).cpu.gpr rd = t.cpu.hi := by
      simp [Machine.setRegs]
    rw [hg, ← hnat]
    omega
  · have hg : (t.setRegs (t.cpu.setGpr rd t.cpu.lo)).cpu.gpr rd = t.cpu.lo := by
      simp [Machine.setRegs]
    rw [hg]
    omega

/-- `mult $1, $2; madd $1, $2; msubu $1, $2` with $1 = -1 and $2 = 3: -6 less 3 * (2^32 - 1). -/
example : exactHilo 0 [⟨.mult, 1, 2, fun i => if i = 1 then 0xFFFFFFFF else 3⟩,
    ⟨.madd, 1, 2, fun i => if i = 1 then 0xFFFFFFFF else 3⟩,
    ⟨.msubu, 1, 2, fun i => if i = 1 then 0xFFFFFFFF else 3⟩] = -6 - 3 * (2 ^ 32 - 1) := by
  decide

end NemuMips32
