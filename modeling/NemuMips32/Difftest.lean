/-
  The branch classifier of differential testing (`difftest.c`). `difftest_body` steps NEMU and
  QEMU together and lets NEMU run one instruction more where the one it executed was a branch,
  so `inst_is_branch` and `inst_branch_taken` classify the word a second time, without the
  tables of the decoder.

  The two classifications are compared with the handler that `decoder_get_handler` selects: it
  `delays` if it can end in `prepare_delayslot`, and `exec_delays` is what it does then. They
  agree on every word except BC1F and BC1T, which `difftest.c` does not know.
-/
import NemuMips32.Branching

namespace NemuMips32

open StateExcept

variable {D : Type}

/-! ## The classifier -/

/-- `inst_is_branch`. -/
def instIsBranch (w : Word) : Bool :=
  if 0x02 ≤ Inst.op w ∧ Inst.op w ≤ 0x07 then true
  else if 0x14 ≤ Inst.op w ∧ Inst.op w ≤ 0x17 then true
  else if Inst.op w = 0x00 then
    -- special table
    if Inst.func w = 0x08 ∨ Inst.func w = 0x09 then true else false
  else if Inst.op w = 0x01 then
    -- regimm table
    if 0x00 ≤ Inst.rt w ∧ Inst.rt w ≤ 0x03 then true
    else if 0x10 ≤ Inst.rt w ∧ Inst.rt w ≤ 0x13 then true
    else false
  else false

/-- `inst_branch_taken`, with `r` the registers of `cpu`. -/
def instBranchTaken (r : Regs) (w : Word) : Bool :=
  let rs := r.gpr (Inst.rs w)
  let rt := r.gpr (Inst.rt w)
  match (Inst.op w).toNat with
  | 0x01 =>
    match (Inst.rt w).toNat with
    | 0x00 | 0x10 => rs.slt 0
    | 0x01 | 0x11 => BitVec.sle 0 rs
    | 0x02 | 0x12 => rs.slt 0
    | 0x03 | 0x13 => BitVec.sle 0 rs
    -- any other `rt` falls through to `beq`
    | _ => rs == rt
  | 0x04 | 0x14 => rs == rt
  | 0x05 | 0x15 => rs != rt
  | 0x06 | 0x16 => rs.sle 0
  | 0x07 | 0x17 => BitVec.slt 0 rs
  | _ => instIsBranch w

/-! ## The handlers -/

/-- The handlers that can end in `prepare_delayslot`. -/
def delays (h : Handler) : Bool := h == .bc1 || isBranch h

/-- The condition a branch tests; jumps are always taken. -/
def branchCond (o : Ops) (r : Regs) : Handler → Bool
  | .bc1 => r.getFPCondCode o.cc2 == (o.tf == 1)
  | h => taken o r h

theorem delays_iff {h : Handler} : delays h = true ↔ h = .bc1 ∨ isBranch h = true := by
  rw [delays, Bool.or_eq_true, beq_iff_eq]

theorem body_bc1 (P : Platform D) (o : Ops) : body P o .bc1 =
    .branch (o.nd == 0) (linked o .bc1)
      fun c => branchTarget o (branchCond o c.toRegs .bc1) c.pc := rfl

/-- Two kinds of branches. -/
theorem body_of_delays (P : Platform D) (o : Ops) {h : Handler} (hd : delays h = true) :
    (∃ mbz link target, body P o h = .branch mbz link target) ∨
      ∃ mbz link cond, body P o h = .branchLikely mbz link cond o := by
  obtain rfl | hb := delays_iff.1 hd
  · exact .inl ⟨_, _, _, body_bc1 P o⟩
  · cases hl : isLikely h with
    | false =>
      obtain ⟨mbz, target, hbody, -⟩ := body_of_branch P o hb hl
      exact .inl ⟨_, _, _, hbody⟩
    | true =>
      obtain ⟨mbz, cond, hbody, -⟩ := body_of_likely P o hb hl
      exact .inr ⟨_, _, _, hbody⟩

theorem branchCond_of_isBranch {h : Handler} (hb : isBranch h = true) (o : Ops) (r : Regs) :
    branchCond o r h = taken o r h := by
  cases h
  case bc1 => exact absurd hb (by decide)
  all_goals rfl

/-- A branch that passes its checks writes its link register, tests its condition on what the
    registers are then, and goes to its slot, which a likely branch skips if it is not taken. -/
theorem exec_delays (P : Platform D) (o : Ops) {h : Handler} (t : Machine D)
    (hd : delays h = true) (hm : (body P o h).rejects t.cpu = false) :
    exec P o h t =
      if branchCond o (linked o h t.cpu) h then
        .error .delayslot (t.branchTo (linked o h t.cpu)
          (codeTarget o (linked o h t.cpu) t.cpu.pc h))
      else if isLikely h then .ok () (t.setRegs (linked o h t.cpu)).annul
      else .error .delayslot (t.branchTo (linked o h t.cpu) (t.cpu.pc + 8)) := by
  unfold exec
  obtain rfl | hb := delays_iff.1 hd
  · rw [body_bc1] at hm ⊢
    have hmbz : (o.nd == 0) = true := by simpa [Body.rejects] using hm
    rw [hmbz, run_branch]
    dsimp only
    cases branchCond o (linked o .bc1 t.cpu) .bc1 <;> rfl
  · rw [branchCond_of_isBranch hb]
    cases hl : isLikely h with
    | false =>
      obtain ⟨mbz, target, hbody, ht⟩ := body_of_branch P o hb hl
      rw [hbody] at hm ⊢
      obtain rfl : mbz = true := by simpa [Body.rejects] using hm
      rw [run_branch, ht]
      cases taken o (linked o h t.cpu) h <;> rfl
    | true =>
      obtain ⟨mbz, cond, hbody, hcond, ht⟩ := body_of_likely P o hb hl
      rw [hbody] at hm ⊢
      obtain rfl : mbz = true := by simpa [Body.rejects] using hm
      rw [run_likely, hcond, ht]
      cases taken o (linked o h t.cpu) h <;> rfl

theorem delays_of_transfers {P : Platform D} {o : Ops} {h : Handler}
    (hb : (body P o h).transfers = true) : delays h = true ∨ h = .eret := by
  cases h
  case inv | breakpoint | cfc1 | srl | srlv | mtc0 =>
    simp only [body, inv, breakpoint, cfc1, srl, srlv, mtc0] at hb
    split at hb <;> exact absurd hb Bool.false_ne_true
  all_goals first | exact .inl rfl | exact .inr rfl | exact absurd hb Bool.false_ne_true

theorem exec_eret (P : Platform D) (o : Ops) (t : Machine D) :
    exec P o .eret t = .ok () t.eret := rfl

/-- The must-be-zero check comes first, and raises RI. -/
theorem exec_rejected {P : Platform D} (hx : P.cfg.exception = true) {o : Ops} {h : Handler}
    (hd : delays h = true) {t : Machine D} (hm : (body P o h).rejects t.cpu = true) :
    exec P o h t = .error .exit ((t.setBadvaddr t.cpu.pc).raise P ⟨.none, .RI⟩) := by
  unfold exec
  obtain ⟨mbz, link, target, hb⟩ | ⟨mbz, link, cond, hb⟩ := body_of_delays P o hd
  · rw [hb] at hm ⊢
    obtain rfl : mbz = false := by simpa [Body.rejects] using hm
    exact bind_of_error (instAssert_false hx t) _
  · rw [hb] at hm ⊢
    obtain rfl : mbz = false := by simpa [Body.rejects] using hm
    exact bind_of_error (instAssert_false hx t) _

/-- A run of a handler ends in `prepare_delayslot` if it is a branch that passes its checks
    and, where it is likely, is taken. -/
theorem exec_delayslot_iff {P : Platform D} (hx : P.cfg.exception = true) {t : Machine D}
    (ht : t.cpu.hasException = false) (o : Ops) (h : Handler) :
    (∃ u, exec P o h t = .error .delayslot u) ↔
      delays h = true ∧ (body P o h).rejects t.cpu = false ∧
        (isLikely h = true → branchCond o (linked o h t.cpu) h = true) := by
  constructor
  · rintro ⟨u, hu⟩
    have hst := run_stopsBy hx ht (body_isInvEnd hx o h)
    change StopsBy P _ t (exec P o h t) at hst
    rw [hu] at hst
    obtain hd | rfl := delays_of_transfers hst.1
    · cases hm : (body P o h).rejects t.cpu with
      | true =>
        rw [exec_rejected hx hd hm] at hu
        cases hu
      | false =>
        refine ⟨hd, rfl, fun hl => ?_⟩
        rw [exec_delays P o t hd hm, hl] at hu
        by_contra hc
        rw [if_neg hc] at hu
        cases hu
    · rw [exec_eret] at hu
      cases hu
  · rintro ⟨hd, hm, hl⟩
    rw [exec_delays P o t hd hm]
    by_cases hc : branchCond o (linked o h t.cpu) h = true
    · exact ⟨_, if_pos hc⟩
    · rw [if_neg hc, if_neg fun h' => hc (hl h')]
      exact ⟨_, rfl⟩

/-! ## Decoding -/

theorem isBranch_special : ∀ i : BitVec 6,
    isBranch (tableEntry specialTable i) = decide (i = 0x08 ∨ i = 0x09) := by decide

theorem isBranch_regimm : ∀ i : BitVec 5, isBranch (tableEntry regimmTable i) =
    decide (0x00 ≤ i ∧ i ≤ 0x03 ∨ 0x10 ≤ i ∧ i ≤ 0x13) := by decide

theorem isBranch_opcode : ∀ i : BitVec 6, isBranch (tableEntry opcodeTable i) =
    decide (0x02 ≤ i ∧ i ≤ 0x07 ∨ 0x14 ≤ i ∧ i ≤ 0x17) := by decide

theorem tableEntry_of_all {p : Handler → Prop} {table : List Handler} (ht : ∀ h ∈ table, p h)
    (hinv : p .inv) {n : Nat} (i : BitVec n) : p (tableEntry table i) := by
  unfold tableEntry
  rw [List.getD_eq_getElem?_getD]
  cases hi : table[i.toNat]? with
  | none => exact hinv
  | some h => exact ht h (List.mem_of_getElem? hi)

/-- The other tables hold no branch but `bc1`. -/
theorem isBranch_tableEntry {table : List Handler} (ht : ∀ h ∈ table, isBranch h = false)
    {n : Nat} (i : BitVec n) : isBranch (tableEntry table i) = false :=
  tableEntry_of_all ht rfl i

theorem tableEntry_ne_bc1 {table : List Handler} (ht : ∀ h ∈ table, h ≠ .bc1) {n : Nat}
    (i : BitVec n) : tableEntry table i ≠ .bc1 :=
  tableEntry_of_all ht (by decide) i

/-- An opcode with a table of its own. -/
def subTable (op : BitVec 6) : Prop :=
  op = 0x00 ∨ op = 0x01 ∨ op = 0x10 ∨ op = 0x11 ∨ op = 0x1c ∨ op = 0x1f

theorem decoderGetHandler_opcode {w : Word} (h : ¬ subTable (Inst.op w)) :
    decoderGetHandler w = tableEntry opcodeTable (Inst.op w) := by
  unfold decoderGetHandler
  split
  case h_7 => rfl
  all_goals
    rename_i hop
    refine absurd ?_ h
    simp only [subTable, ← BitVec.toNat_inj, hop]
    decide

theorem decoderGetHandler_special {w : Word} (h : Inst.op w = 0x00) :
    decoderGetHandler w = tableEntry specialTable (Inst.func w) := by
  unfold decoderGetHandler
  rw [h]
  rfl

theorem decoderGetHandler_regimm {w : Word} (h : Inst.op w = 0x01) :
    decoderGetHandler w = tableEntry regimmTable (Inst.rt w) := by
  unfold decoderGetHandler
  rw [h]
  rfl

/-- The coprocessors and the two other special opcodes have no branch but `bc1`. -/
theorem isBranch_subTable {w : Word}
    (h : Inst.op w = 0x10 ∨ Inst.op w = 0x11 ∨ Inst.op w = 0x1c ∨ Inst.op w = 0x1f) :
    isBranch (decoderGetHandler w) = false := by
  unfold decoderGetHandler
  obtain h | h | h | h := h <;> rw [h] <;> simp only [BitVec.reduceToNat]
  · split <;> exact isBranch_tableEntry (by decide) _
  · split <;> exact isBranch_tableEntry (by decide) _
  · exact isBranch_tableEntry (by decide) _
  · split <;> exact isBranch_tableEntry (by decide) _

theorem instIsBranch_eq (w : Word) : instIsBranch w = isBranch (decoderGetHandler w) := by
  unfold instIsBranch
  by_cases h : subTable (Inst.op w)
  · obtain h | h | h := h
    · rw [decoderGetHandler_special h, isBranch_special, h]
      simp
    · rw [decoderGetHandler_regimm h, isBranch_regimm, h]
      simp
    · rw [isBranch_subTable h]
      obtain h | h | h | h := h <;> rw [h] <;> rfl
  · rw [decoderGetHandler_opcode h, isBranch_opcode]
    obtain ⟨h0, h1, -⟩ := not_or.1 h |>.imp_right not_or.1
    by_cases hl : 0x02 ≤ Inst.op w ∧ Inst.op w ≤ 0x07
    · rw [if_pos hl, decide_eq_true (.inl hl)]
    · by_cases hh : 0x14 ≤ Inst.op w ∧ Inst.op w ≤ 0x17
      · rw [if_neg hl, if_pos hh, decide_eq_true (.inr hh)]
      · rw [if_neg hl, if_neg hh, if_neg h0, if_neg h1, decide_eq_false (not_or.2 ⟨hl, hh⟩)]

theorem opcode_of_isBranch : ∀ i : BitVec 6, isBranch (tableEntry opcodeTable i) = true →
    (i = 0x02 ∨ i = 0x03) ∨ (i = 0x04 ∨ i = 0x06 ∨ i = 0x07 ∨ i = 0x14 ∨ i = 0x16 ∨ i = 0x17) ∨
      (i = 0x05 ∨ i = 0x15) := by
  decide

theorem func_of_isBranch : ∀ i : BitVec 6, isBranch (tableEntry specialTable i) = true →
    i = 0x08 ∨ i = 0x09 := by decide

theorem rt_of_isBranch : ∀ i : BitVec 5, isBranch (tableEntry regimmTable i) = true →
    i = 0x00 ∨ i = 0x01 ∨ i = 0x02 ∨ i = 0x03 ∨ i = 0x10 ∨ i = 0x11 ∨ i = 0x12 ∨ i = 0x13 := by
  decide

/-- `inst_branch_taken` tests what the handlers test. -/
theorem instBranchTaken_eq (r : Regs) {w : Word} (hb : instIsBranch w = true) :
    instBranchTaken r w = taken (Inst.ops w) r (decoderGetHandler w) := by
  have hh := (instIsBranch_eq w).symm.trans hb
  unfold instBranchTaken
  by_cases h : subTable (Inst.op w)
  · obtain h | h | h := h
    · rw [decoderGetHandler_special h] at hh ⊢
      rw [h, hb]
      obtain hf | hf := func_of_isBranch _ hh <;> rw [hf] <;> rfl
    · rw [decoderGetHandler_regimm h] at hh ⊢
      rw [h]
      obtain ht | ht | ht | ht | ht | ht | ht | ht := rt_of_isBranch _ hh <;> rw [ht] <;> rfl
    · exact absurd ((isBranch_subTable h).symm.trans hh) (by decide)
  · rw [decoderGetHandler_opcode h] at hh ⊢
    obtain ho | ho | ho := opcode_of_isBranch _ hh
    · -- jumps reach the last line of the function
      obtain ho | ho := ho <;> rw [ho, hb] <;> rfl
    · obtain ho | ho | ho | ho | ho | ho := ho <;> rw [ho] <;> rfl
    · obtain ho | ho := ho <;> rw [ho] <;> exact decide_not.symm

/-! ## Agreement -/

/-- `inst_is_branch` knows the handlers that can end in `prepare_delayslot`. -/
def KnowsBranch (w : Word) : Prop :=
  instIsBranch w = true ↔ delays (decoderGetHandler w) = true

/-- For a branch that passes its must-be-zero checks, `inst_branch_taken` is its condition in
    the registers `r'`. -/
def KnowsTaken (P : Platform D) (c : CpuState) (r' : Regs) (w : Word) : Prop :=
  delays (decoderGetHandler w) = true →
    (body P (Inst.ops w) (decoderGetHandler w)).rejects c = false →
      (instBranchTaken c.toRegs w = true ↔
        branchCond (Inst.ops w) r' (decoderGetHandler w) = true)

theorem op_of_bc1 {w : Word} (h : decoderGetHandler w = .bc1) : Inst.op w = 0x11 := by
  unfold decoderGetHandler at h
  split at h
  case h_4 hop => exact BitVec.eq_of_toNat_eq hop
  case h_3 => split at h <;> exact absurd h (tableEntry_ne_bc1 (by decide) _)
  case h_6 => split at h <;> exact absurd h (tableEntry_ne_bc1 (by decide) _)
  all_goals exact absurd h (tableEntry_ne_bc1 (by decide) _)

theorem knowsBranch_iff (w : Word) : KnowsBranch w ↔ decoderGetHandler w ≠ .bc1 := by
  unfold KnowsBranch
  rw [instIsBranch_eq, delays_iff]
  constructor
  · intro h hbc
    have hb := h.2 (.inl hbc)
    rw [hbc] at hb
    exact absurd hb (by decide)
  · exact fun hbc => ⟨.inr, fun hd => hd.resolve_left hbc⟩

theorem instBranchTaken_bc1 (r : Regs) {w : Word} (h : decoderGetHandler w = .bc1) :
    instBranchTaken r w = false := by
  have hb : instIsBranch w = false := by
    rw [instIsBranch_eq, h]
    rfl
  unfold instBranchTaken
  rw [op_of_bc1 h, hb]
  rfl

/-- Of the branches, only a taken `bc1` is missed; the others are judged by the registers of
    `c`. -/
theorem knowsTaken_iff (P : Platform D) (c : CpuState) (r' : Regs) (w : Word) :
    KnowsTaken P c r' w ↔
      ¬ (decoderGetHandler w = .bc1 ∧ (body P (Inst.ops w) .bc1).rejects c = false ∧
        branchCond (Inst.ops w) r' .bc1 = true) ∧
      (isBranch (decoderGetHandler w) = true →
        (body P (Inst.ops w) (decoderGetHandler w)).rejects c = false →
          taken (Inst.ops w) r' (decoderGetHandler w) =
            taken (Inst.ops w) c.toRegs (decoderGetHandler w)) := by
  unfold KnowsTaken
  by_cases hbc : decoderGetHandler w = .bc1
  · rw [instBranchTaken_bc1 c.toRegs hbc, hbc]
    constructor
    · intro h
      refine ⟨?_, fun hb => absurd hb (by decide)⟩
      rintro ⟨-, hm, hc⟩
      exact absurd ((h rfl hm).2 hc) (by decide)
    · rintro ⟨h, -⟩ - hm
      exact ⟨fun h' => absurd h' (by decide), fun hc => absurd ⟨rfl, hm, hc⟩ h⟩
  · constructor
    · intro h
      refine ⟨fun h' => hbc h'.1, fun hb hm => ?_⟩
      have ht := h (delays_iff.2 (.inr hb)) hm
      rw [instBranchTaken_eq _ ((instIsBranch_eq w).trans hb), branchCond_of_isBranch hb] at ht
      exact (Bool.eq_iff_iff.2 ht).symm
    · rintro ⟨-, h⟩ hd hm
      have hb := (delays_iff.1 hd).resolve_left hbc
      rw [instBranchTaken_eq _ ((instIsBranch_eq w).trans hb), branchCond_of_isBranch hb, h hb hm]

/-- The link makes no difference to the condition unless it is what the condition is on. -/
theorem taken_linked (o : Ops) (c : CpuState) {h : Handler}
    (hrs : linkOf o h = some 31 → o.rs ≠ 31) : taken o (linked o h c) h = taken o c.toRegs h := by
  cases h
  case bgezal | bltzal | bgezall | bltzall =>
    have hg := gpr_setGpr_of_ne (r := c.toRegs) (hrs rfl) (c.pc + 8)
    simp only [taken, linked, linkOf, hg]
  all_goals rfl

/-- `difftest.c` judges a word as the emulator does. -/
structure BranchKnown (P : Platform D) (c : CpuState) (w : Word) : Prop where
  isBranch : KnowsBranch w
  taken : KnowsTaken P c c.toRegs w

/-- Only BC1F and BC1T are missed. Of them, those that are not taken are at least said to be
    not taken. What a handler then does follows its condition as it was before, unless it
    writes the link register 31 over the register it tests. -/
theorem branchKnown_iff (P : Platform D) (c : CpuState) (w : Word) :
    (BranchKnown P c w ↔ decoderGetHandler w ≠ .bc1) ∧
      (KnowsTaken P c c.toRegs w ↔
        ¬ (decoderGetHandler w = .bc1 ∧ (body P (Inst.ops w) .bc1).rejects c = false ∧
          branchCond (Inst.ops w) c.toRegs .bc1 = true)) ∧
      (KnowsTaken P c (linked (Inst.ops w) (decoderGetHandler w) c) w ↔
        ¬ (decoderGetHandler w = .bc1 ∧ (body P (Inst.ops w) .bc1).rejects c = false ∧
          branchCond (Inst.ops w) c.toRegs .bc1 = true) ∧
        (linkOf (Inst.ops w) (decoderGetHandler w) = some 31 → Inst.rs w = 31 →
          taken (Inst.ops w) (c.setGpr 31 (c.pc + 8)) (decoderGetHandler w) =
            taken (Inst.ops w) c.toRegs (decoderGetHandler w))) := by
  refine ⟨?_, ?_, ?_⟩
  · constructor
    · exact fun h => (knowsBranch_iff w).1 h.isBranch
    · intro h
      exact ⟨(knowsBranch_iff w).2 h, (knowsTaken_iff ..).2 ⟨fun h' => h h'.1, fun _ _ => rfl⟩⟩
  · rw [knowsTaken_iff]
    exact and_iff_left fun _ _ => rfl
  · rw [knowsTaken_iff]
    refine and_congr (not_congr (and_congr_right fun hbc => ?_)) ⟨?_, ?_⟩
    · rw [hbc]
      rfl
    · intro h hl hrs
      cases hh : decoderGetHandler w
      case bgezal | bltzal | bgezall | bltzall =>
        rw [hh] at h
        exact h rfl rfl
      case jal | jalr => rfl
      all_goals
        rw [hh] at hl
        cases hl
    · intro h hb hm
      by_cases hl : linkOf (Inst.ops w) (decoderGetHandler w) = some 31 ∧ Inst.rs w = 31
      · rw [← h hl.1 hl.2, linked, hl.1]
      · exact taken_linked _ c fun hl' hrs => hl ⟨hl', hrs⟩

/-- `bc1t 4` with condition code 0 set: the branch is taken, and `difftest.c` sees none. -/
def bc1tDemo : CpuState :=
  let c := (loaded [] []).cpu
  { c with fcsr := 0x00800000 }

theorem bc1t_missed : ¬ ∀ (c : CpuState) (w : Word), BranchKnown mips32r1 c w := by
  intro h
  have hb := (h bc1tDemo 0x45010004).isBranch
  exact absurd (hb.2 (by decide)) (by decide)

end NemuMips32
