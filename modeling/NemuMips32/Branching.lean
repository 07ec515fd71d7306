/-
  Branch and jump semantics. `BranchRun` is the execution of a branch and then of its slot,
  over two iterations of the loop through `br_target` and `is_delayslot`; `BranchSpec` is what
  it should come to, with the condition, the target and the link register of each
  instruction read off the register values before it.

  The handlers agree with it except in three corners, which `BranchExact` names:

  * `j` and `jal` take the region bits from the address of the jump, not of its slot;
  * `jalr` writes its link register before it reads its source;
  * so do the linking conditional branches, with register 31.
-/
import NemuMips32.DelaySlot

namespace NemuMips32

open StateExcept

variable {D : Type}

/-! ## The instructions -/

def isBranch : Handler → Bool
  | .beq | .bne | .blez | .bgtz | .bltz | .bgez | .bgezal | .bltzal
  | .beql | .bnel | .blezl | .bgtzl | .bltzl | .bgezl | .bgezall | .bltzall
  | .j | .jal | .jr | .jalr => true
  | _ => false

/-- The slot is skipped unless the branch is taken. -/
def isLikely : Handler → Bool
  | .beql | .bnel | .blezl | .bgtzl | .bltzl | .bgezl | .bgezall | .bltzall => true
  | _ => false

/-- The condition of a branch; jumps are always taken. -/
def taken (o : Ops) (r : Regs) : Handler → Bool
  | .beq | .beql => decide (r.gpr o.rs = r.gpr o.rt)
  | .bne | .bnel => decide (r.gpr o.rs ≠ r.gpr o.rt)
  | .blez | .blezl => decide ((r.gpr o.rs).toInt ≤ 0)
  | .bgtz | .bgtzl => decide (0 < (r.gpr o.rs).toInt)
  | .bltz | .bltzl | .bltzal | .bltzall => decide ((r.gpr o.rs).toInt < 0)
  | .bgez | .bgezl | .bgezal | .bgezall => decide (0 ≤ (r.gpr o.rs).toInt)
  | _ => true

/-- Where a taken branch goes. A jump keeps the 256 MB region of its slot. -/
def targetOf (o : Ops) (r : Regs) (pc : Word) : Handler → Word
  | .j | .jal => ((pc + 4) &&& 0xF0000000#32) ||| (o.addr.setWidth 32 <<< 2)
  | .jr | .jalr => r.gpr o.rs
  | _ => pc + 4 + 4 * o.simm

/-- The register a linking form writes. -/
def linkOf (o : Ops) : Handler → Option (BitVec 5)
  | .bgezal | .bltzal | .bgezall | .bltzall | .jal => some 31
  | .jalr => some o.rd
  | _ => none

/-! ## Execution -/

/-- The slot at `s` is executed and raises nothing; its instruction is no branch, jump or
    `eret`. -/
def SlotRun (P : Platform D) (s s' : Machine D) : Prop :=
  ∃ h o t, Entered P s h o t ∧ (body P o h).transfers = false ∧
    iteration P s = .ok () s' ∧ newRaised s s' = []

/-- A branch that passes its must-be-zero checks is executed at `s`, and then its slot, if
    it asks for it. Neither iteration takes an exception or interrupt. -/
structure BranchRun (P : Platform D) (h : Handler) (o : Ops) (s s₁ s₂ : Machine D) : Prop where
  isBranch : isBranch h = true
  entered : ∃ t, Entered P s h o t ∧ (body P o h).rejects t.cpu = false
  branch : iteration P s = .ok () s₁
  quiet : newRaised s s₁ = []
  slot : if s₁.cpu.isDelayslot then SlotRun P s₁ s₂ else s₂ = s₁

/-- What it should come to, with `r` the registers before the branch. -/
structure BranchSpec (h : Handler) (o : Ops) (r : Regs) (s s₁ s₂ : Machine D) : Prop where
  pc : s₂.cpu.pc = if taken o r h then targetOf o r s.cpu.pc h else s.cpu.pc + 8
  link : ∀ l, linkOf o h = some l → l ≠ 0 → s₁.cpu.gpr l = s.cpu.pc + 8
  slot : s₁.cpu.isDelayslot = !(isLikely h && !taken o r h)
  slotPc : s₁.cpu.isDelayslot = true → s₁.cpu.pc = s.cpu.pc + 4

/-- The branch is outside the corners where the handlers go wrong. -/
def BranchExact (o : Ops) (r : Regs) (pc : Word) : Handler → Prop
  | .j | .jal => pc &&& 0xF0000000#32 = (pc + 4) &&& 0xF0000000#32
  | .jalr => o.rd = o.rs → r.gpr o.rs = pc + 8
  | .bgezal => o.rs = 31 → taken o r .bgezal = taken o (r.setGpr 31 (pc + 8)) .bgezal ∨ o.simm = 1
  | .bltzal => o.rs = 31 → taken o r .bltzal = taken o (r.setGpr 31 (pc + 8)) .bltzal ∨ o.simm = 1
  | .bgezall => o.rs = 31 → taken o r .bgezall = taken o (r.setGpr 31 (pc + 8)) .bgezall
  | .bltzall => o.rs = 31 → taken o r .bltzall = taken o (r.setGpr 31 (pc + 8)) .bltzall
  | _ => True

/-! ## Target arithmetic -/

theorem getLsbD_region (i : Nat) : (0xF0000000#32).getLsbD i = decide (28 ≤ i ∧ i < 32) := by
  by_cases h : i < 32
  · revert i
    decide
  · rw [BitVec.getLsbD_of_ge _ _ (by omega)]
    simp; omega

/-- The index of a jump does not reach the region bits. -/
theorem region_or_iff (a b : Word) (x : BitVec 26) :
    (a &&& 0xF0000000#32) ||| (x.setWidth 32 <<< 2) =
        (b &&& 0xF0000000#32) ||| (x.setWidth 32 <<< 2) ↔
      a &&& 0xF0000000#32 = b &&& 0xF0000000#32 := by
  constructor
  · intro h
    apply BitVec.eq_of_getLsbD_eq
    intro i hi
    by_cases hr : 28 ≤ i
    · have hb := congrArg (fun w : Word => w.getLsbD i) h
      have hx : (x.setWidth 32 <<< 2 : Word).getLsbD i = false := by
        rw [BitVec.getLsbD_shiftLeft, BitVec.getLsbD_setWidth, BitVec.getLsbD_of_ge x _ (by omega)]
        simp
      simpa only [BitVec.getLsbD_or, hx, Bool.or_false] using hb
    · have hm := getLsbD_region i
      rw [BitVec.getLsbD_and, BitVec.getLsbD_and, hm, decide_eq_false (by omega),
        Bool.and_false, Bool.and_false]
  · intro h
    rw [h]

theorem shiftLeft_two (x : Word) : x <<< 2 = 4 * x := by
  apply BitVec.eq_of_toNat_eq
  rw [BitVec.toNat_shiftLeft, BitVec.toNat_mul, Nat.shiftLeft_eq, Nat.mul_comm]
  rfl

theorem branchTarget_eq (o : Ops) (pc : Word) : branchTarget o true pc = pc + 4 + 4 * o.simm := by
  have h : branchTarget o true pc = pc + o.simm <<< 2 + 4 := rfl
  rw [h, shiftLeft_two, BitVec.add_assoc, BitVec.add_comm (4 * o.simm), ← BitVec.add_assoc]

/-- An immediate is 1 if the offset it makes is 4: its upper bits are copies of one bit. -/
theorem signExtend_eq_one {u : BitVec 16} (h : (u.signExtend 32 <<< 2 : Word) = 4) :
    u.signExtend 32 = (1 : Word) := by
  have hbit : ∀ i < 30, (u.signExtend 32 : Word).getLsbD i = (1 : Word).getLsbD i := by
    intro i hi
    have h4 : ∀ i < 30, (4 : Word).getLsbD (i + 2) = (1 : Word).getLsbD i := by decide
    have hb := congrArg (fun w : Word => w.getLsbD (i + 2)) h
    simp only [BitVec.getLsbD_shiftLeft] at hb
    rw [← h4 i hi, ← hb]
    simp; omega
  apply BitVec.eq_of_getLsbD_eq
  intro i hi
  by_cases h30 : i < 30
  · exact hbit i h30
  · have h1 : ∀ i < 32, ¬ i < 30 → (1 : Word).getLsbD i = false := by decide
    have h16 := hbit 16 (by omega)
    rw [h1 i hi h30]
    rw [BitVec.getLsbD_signExtend] at h16 ⊢
    simp only [show ¬ (16 < 16) by decide, show ¬ i < 16 by omega, if_false] at h16 ⊢
    rw [show u.msb = false by simpa using h16, Bool.and_false]

theorem add_eq_add_eight_iff (o : Ops) (pc : Word) :
    pc + 4 + 4 * o.simm = pc + 8 ↔ o.simm = 1 := by
  constructor
  · intro h
    have h8 : pc + 8 = pc + 4 + 4 := by rw [BitVec.add_assoc]; rfl
    rw [h8, ← shiftLeft_two] at h
    exact signExtend_eq_one ((BitVec.add_right_inj _).1 h)
  · intro h
    rw [h, BitVec.add_assoc]
    rfl

/-! ## What the handlers do -/

/-- The registers after the link was written. -/
def linked (o : Ops) (h : Handler) (c : CpuState) : Regs :=
  match linkOf o h with
  | none => c.toRegs
  | some l => c.setGpr l (c.pc + 8)

/-- The target the handlers compute, from the registers after the link. -/
def codeTarget (o : Ops) (r : Regs) (pc : Word) : Handler → Word
  | .j | .jal => jumpTarget o pc
  | .jr | .jalr => r.gpr o.rs
  | _ => branchTarget o true pc

/-- A branch that always executes its slot chooses its target by its condition. -/
theorem body_of_branch (P : Platform D) (o : Ops) {h : Handler} (hb : isBranch h = true)
    (hl : isLikely h = false) : ∃ mbz target, body P o h = .branch mbz (linked o h) target ∧
      ∀ c, target c = if taken o c.toRegs h then codeTarget o c.toRegs c.pc h else c.pc + 8 := by
  cases h
  case bne => exact ⟨_, _, rfl, fun c => by simp [condNe, branchTarget, taken, codeTarget]⟩
  case beq | blez | bgtz | bltz | bgez | bgezal | bltzal | j | jal | jr | jalr =>
    exact ⟨_, _, rfl, fun c => rfl⟩
  all_goals first | exact absurd hb (by decide) | exact absurd hl (by decide)

/-- A likely branch goes to its slot if its condition holds. -/
theorem body_of_likely (P : Platform D) (o : Ops) {h : Handler} (hb : isBranch h = true)
    (hl : isLikely h = true) : ∃ mbz cond, body P o h = .branchLikely mbz (linked o h) cond o ∧
      (∀ r, cond r = taken o r h) ∧ ∀ r pc, codeTarget o r pc h = branchTarget o true pc := by
  cases h
  case bnel => exact ⟨_, _, rfl, fun r => decide_not.symm, fun _ _ => rfl⟩
  case beql | blezl | bgtzl | bltzl | bgezl | bgezall | bltzall =>
    exact ⟨_, _, rfl, fun _ => rfl, fun _ _ => rfl⟩
  all_goals first | exact absurd hb (by decide) | exact absurd hl (by decide)

theorem run_branch (P : Platform D) (link : CpuState → Regs) (target : CpuState → Word)
    (t : Machine D) : (Body.branch true link target).run P t =
      .error .delayslot (t.branchTo (link t.cpu) (target { t.cpu with toRegs := link t.cpu })) :=
  rfl

theorem run_likely (P : Platform D) (link : CpuState → Regs) (cond : Regs → Bool) (o : Ops)
    (t : Machine D) : (Body.branchLikely true link cond o).run P t =
      if cond (link t.cpu) then
        .error .delayslot (t.branchTo (link t.cpu) (branchTarget o true t.cpu.pc))
      else .ok () (t.setRegs (link t.cpu)).annul := by
  have h : (Body.branchLikely true link cond o).run P t =
      (if cond (link t.cpu) then
        (setBrTarget (fun c => branchTarget o true c.pc) >>= fun _ => prepareDelayslot : Exec D Unit)
      else modifyCpu fun c => { c with brTarget := c.pc + 8, pc := c.pc + 4 })
      (t.setRegs (link t.cpu)) := rfl
  rw [h]
  split <;> rfl

/-! ## A branch and its slot -/

section Runs

variable {P : Platform D} (hx : P.cfg.exception = true) {h : Handler} {o : Ops}
  {s s₁ s₂ : Machine D}
include hx

/-- The slot ends at the target. -/
theorem pc_slotRun (hs : s₁.cpu.hasException = false) (hd : s₁.cpu.isDelayslot = true)
    (hr : SlotRun P s₁ s₂) : s₂.cpu.pc = s₁.cpu.brTarget := by
  obtain ⟨h, o, t, hf, ht, hi, hn⟩ := hr
  obtain ⟨u, c, hp, rfl⟩ := iteration_plain hx hs hf hi hn ht
  have htb : t.cpu.brTarget = s₁.cpu.brTarget := by
    obtain ⟨x, mc, c, rfl⟩ := hf.access
    rfl
  rw [pc_tick]
  change u.instEnd.cpu.pc = _
  rw [pc_instEnd_of_slot (hp.isDelayslot.trans (hf.cpu.2.1.trans hd)), hp.brTarget, htb]

/-- A branch and its slot, as the handlers execute them: everything is read off the
    registers `r'` after the link. -/
structure CodeRun (h : Handler) (o : Ops) (s s₁ s₂ : Machine D) (r' : Regs) : Prop where
  regs : s₁.cpu.toRegs = r'
  flag : s₁.cpu.isDelayslot = !(isLikely h && !taken o r' h)
  slotPc : s₁.cpu.isDelayslot = true → s₁.cpu.pc = s.cpu.pc + 4
  pc : s₂.cpu.pc = if taken o r' h then codeTarget o r' s.cpu.pc h else s.cpu.pc + 8

omit hx in
@[simp] theorem toRegs_tick (P : Platform D) (s : Machine D) :
    (s.tick P).cpu.toRegs = s.cpu.toRegs := by
  unfold Machine.tick
  split <;> rfl

omit hx in
@[simp] theorem brTarget_tick (P : Platform D) (s : Machine D) :
    (s.tick P).cpu.brTarget = s.cpu.brTarget := by
  unfold Machine.tick
  split <;> rfl

/-- A branch that goes to its slot. -/
theorem codeRun_of_slot {t : Machine D} {r' : Regs} {a : Word}
    (hs : s.cpu.hasException = false) (hf : Entered P s h o t)
    (hr : exec P o h t = .error .delayslot (t.branchTo r' a)) (hb : BranchRun P h o s s₁ s₂)
    (hl : isLikely h = true → taken o r' h = true)
    (ha : a = if taken o r' h then codeTarget o r' s.cpu.pc h else s.cpu.pc + 8) :
    CodeRun h o s s₁ s₂ r' := by
  have hs₁ := hasException_iteration hx hb.branch
  have h₁ := iteration_slot hx hs hf hb.branch hb.quiet hr
  have hflag : s₁.cpu.isDelayslot = true := by
    rw [h₁, isDelayslot_tick]
    rfl
  have hslot := hb.slot
  rw [if_pos hflag] at hslot
  refine ⟨?_, ?_, ?_, ?_⟩
  · rw [h₁, toRegs_tick]
    rfl
  · rw [hflag]
    cases hlk : isLikely h with
    | false => rfl
    | true => rw [hl hlk]; rfl
  · intro _
    rw [h₁, pc_tick]
    change t.cpu.pc + 4 = _
    rw [hf.cpu.1]
  · rw [pc_slotRun hx hs₁ hflag hslot, h₁, brTarget_tick]
    exact ha

/-- A likely branch that is not taken moves past its slot, also when it sits in a delay slot
    itself. -/
theorem codeRun_of_annul {t : Machine D} {r' : Regs} (hs : s.cpu.hasException = false)
    (hf : Entered P s h o t) (hr : exec P o h t = .ok () (t.setRegs r').annul)
    (hb : BranchRun P h o s s₁ s₂) (hl : isLikely h = true) (hn : taken o r' h = false) :
    CodeRun h o s s₁ s₂ r' := by
  obtain ⟨c, h₁⟩ := iteration_end hx hf hb.branch hb.quiet hr (hf.hasException.trans hs) rfl
  have hflag : s₁.cpu.isDelayslot = false := by
    rw [h₁, isDelayslot_tick]
    exact isDelayslot_instEnd _
  have hslot := hb.slot
  rw [if_neg (by simp [hflag])] at hslot
  refine ⟨?_, ?_, ?_, ?_⟩
  · rw [h₁, toRegs_tick]
    exact toRegs_instEnd _
  · rw [hflag, hl, hn]
    rfl
  · intro hc
    exact absurd (hflag.symm.trans hc) (by decide)
  · rw [hslot, hn, h₁, pc_tick]
    change (t.setRegs r').annul.instEnd.cpu.pc = s.cpu.pc + 8
    rw [← hf.cpu.1]
    by_cases hd : t.cpu.isDelayslot = true
    · exact pc_instEnd_of_slot (s := (t.setRegs r').annul) hd
    · rw [pc_instEnd_of_not_slot (s := (t.setRegs r').annul) (Bool.eq_false_iff.2 hd)]
      change t.cpu.pc + 4 + 4 = t.cpu.pc + 8
      rw [BitVec.add_assoc]
      rfl

theorem codeRun (hs : s.cpu.hasException = false) (hb : BranchRun P h o s s₁ s₂) :
    CodeRun h o s s₁ s₂ (linked o h { s.cpu with toRegs := s.cpu.setGpr 0 0 }) := by
  obtain ⟨t, hf, hm⟩ := hb.entered
  have hlink : linked o h t.cpu = linked o h { s.cpu with toRegs := s.cpu.setGpr 0 0 } := by
    obtain ⟨x, mc, c, rfl⟩ := hf.access
    rfl
  rw [← hlink]
  cases hl : isLikely h with
  | false =>
    obtain ⟨mbz, target, hbody, ht⟩ := body_of_branch P o hb.isBranch hl
    rw [hbody] at hm
    obtain rfl : mbz = true := by simpa [Body.rejects] using hm
    have hrun : exec P o h t = .error .delayslot (t.branchTo (linked o h t.cpu)
        (target { t.cpu with toRegs := linked o h t.cpu })) := by
      unfold exec
      rw [hbody, run_branch]
    refine codeRun_of_slot hx hs hf hrun hb (fun h' => absurd (hl.symm.trans h') (by decide)) ?_
    rw [ht, ← hf.cpu.1]
  | true =>
    obtain ⟨mbz, cond, hbody, hc, ht⟩ := body_of_likely P o hb.isBranch hl
    rw [hbody] at hm
    obtain rfl : mbz = true := by simpa [Body.rejects] using hm
    have hrun : exec P o h t = if taken o (linked o h t.cpu) h then
        .error .delayslot (t.branchTo (linked o h t.cpu) (branchTarget o true t.cpu.pc))
      else .ok () (t.setRegs (linked o h t.cpu)).annul := by
      unfold exec
      rw [hbody, run_likely, hc]
    cases htk : taken o (linked o h t.cpu) h with
    | true =>
      rw [htk, if_pos rfl] at hrun
      refine codeRun_of_slot hx hs hf hrun hb (fun _ => htk) ?_
      rw [htk, if_pos rfl, ht, hf.cpu.1]
    | false =>
      rw [htk, if_neg (by decide)] at hrun
      exact codeRun_of_annul hx hs hf hrun hb hl htk

end Runs

/-! ## Agreement -/

/-- The handlers, with the registers `r'` after the link, and the specification come to the
    same. -/
def Agree (o : Ops) (r r' : Regs) (pc : Word) (h : Handler) : Prop :=
  (if taken o r' h then codeTarget o r' pc h else pc + 8) =
      (if taken o r h then targetOf o r pc h else pc + 8) ∧
    (isLikely h && !taken o r' h) = (isLikely h && !taken o r h)

/-- Reading the registers after the link is no different unless the link register is a
    source. -/
theorem agree_of_taken {o : Ops} {r r' : Regs} {pc : Word} {h : Handler}
    (ht : taken o r' h = taken o r h) (hg : codeTarget o r' pc h = targetOf o r pc h) :
    Agree o r r' pc h := by
  unfold Agree
  rw [ht, hg]
  exact ⟨rfl, rfl⟩

theorem gpr_setGpr_of_ne {r : Regs} {l i : BitVec 5} (h : i ≠ l) (v : Word) :
    (r.setGpr l v).gpr i = r.gpr i := by
  rw [gpr_setGpr, if_neg h]

/-- A linking conditional branch. Where the link changes its condition, the two targets may
    still be the same, but a likely form is taken or not. -/
theorem agree_al_iff {o : Ops} {r : Regs} {pc : Word} {h : Handler}
    (hc : ∀ r, codeTarget o r pc h = pc + 4 + 4 * o.simm)
    (ht : ∀ r, targetOf o r pc h = pc + 4 + 4 * o.simm)
    (hr : ∀ r r' : Regs, r.gpr o.rs = r'.gpr o.rs → taken o r h = taken o r' h) :
    Agree o r (r.setGpr 31 (pc + 8)) pc h ↔
      (o.rs = 31 → taken o r h = taken o (r.setGpr 31 (pc + 8)) h ∨
        isLikely h = false ∧ o.simm = 1) := by
  by_cases h31 : o.rs = 31
  · unfold Agree
    rw [hc, ht]
    have hiff := add_eq_add_eight_iff o pc
    generalize taken o (r.setGpr 31 (pc + 8)) h = b'
    generalize pc + 4 + 4 * o.simm = a, pc + 8 = n at hiff
    generalize taken o r h = b, isLikely h = l
    rw [← hiff]
    cases b <;> cases b' <;> cases l <;> simp [h31, eq_comm]
  · refine ⟨fun _ h => absurd h h31, fun _ => agree_of_taken ?_ ((hc _).trans (ht _).symm)⟩
    exact hr _ _ (gpr_setGpr_of_ne h31 _)

theorem agree_jump_iff (o : Ops) (r r' : Regs) (pc : Word) {h : Handler}
    (hj : h = .j ∨ h = .jal) :
    Agree o r r' pc h ↔ pc &&& 0xF0000000#32 = (pc + 4) &&& 0xF0000000#32 := by
  have hiff := region_or_iff pc (pc + 4) o.addr
  obtain rfl | rfl := hj
  · exact ⟨fun h => hiff.1 h.1, fun h => ⟨hiff.2 h, rfl⟩⟩
  · exact ⟨fun h => hiff.1 h.1, fun h => ⟨hiff.2 h, rfl⟩⟩

theorem agree_jalr_iff (o : Ops) (r : Regs) (pc : Word) :
    Agree o r (r.setGpr o.rd (pc + 8)) pc .jalr ↔ (o.rd = o.rs → r.gpr o.rs = pc + 8) := by
  have hiff : Agree o r (r.setGpr o.rd (pc + 8)) pc .jalr ↔
      (r.setGpr o.rd (pc + 8)).gpr o.rs = r.gpr o.rs :=
    ⟨fun h => h.1, fun h => ⟨h, rfl⟩⟩
  rw [hiff, gpr_setGpr]
  by_cases h : o.rs = o.rd
  · rw [if_pos h]
    exact ⟨fun h' _ => h'.symm, fun h' => (h' h.symm).symm⟩
  · rw [if_neg h]
    exact ⟨fun _ h' => absurd h'.symm h, fun _ => rfl⟩

theorem agree_iff (o : Ops) (c : CpuState) {h : Handler} (hb : isBranch h = true) :
    Agree o c.toRegs (linked o h c) c.pc h ↔ BranchExact o c.toRegs c.pc h := by
  have hc := branchTarget_eq o c.pc
  cases h
  case j => exact agree_jump_iff o _ _ c.pc (.inl rfl)
  case jal => exact agree_jump_iff o _ _ c.pc (.inr rfl)
  case jr => exact ⟨fun _ => trivial, fun _ => agree_of_taken rfl rfl⟩
  case jalr => exact agree_jalr_iff o c.toRegs c.pc
  case bgezal | bltzal | bgezall | bltzall =>
    refine Iff.trans (agree_al_iff ?_ ?_ ?_) ?_
    · exact fun _ => hc
    · exact fun _ => rfl
    · intro r r' h
      simp only [taken, h]
    · simp only [BranchExact, isLikely, true_and, reduceCtorEq, false_and, or_false]
  case beq | bne | blez | bgtz | bltz | bgez | beql | bnel | blezl | bgtzl | bltzl | bgezl =>
    exact ⟨fun _ => trivial, fun _ => agree_of_taken rfl hc⟩
  all_goals exact absurd hb (by decide)

theorem CodeRun.spec_iff_agree {h : Handler} {o : Ops} {c : CpuState} {s s₁ s₂ : Machine D}
    (hr : CodeRun h o s s₁ s₂ (linked o h c)) (hpc : c.pc = s.cpu.pc) :
    BranchSpec h o c.toRegs s s₁ s₂ ↔ Agree o c.toRegs (linked o h c) c.pc h := by
  rw [hpc]
  constructor
  · intro hs
    refine ⟨hr.pc.symm.trans hs.pc, ?_⟩
    have := hr.flag.symm.trans hs.slot
    exact Bool.not_inj this
  · rintro ⟨ha, hl⟩
    refine ⟨hr.pc.trans ha, fun l hlk _ => ?_, ?_, hr.slotPc⟩
    · have hg : s₁.cpu.gpr l = (linked o h c).gpr l := congrFun (congrArg Regs.gpr hr.regs) l
      rw [hg, linked, hlk, ← hpc]
      exact (gpr_setGpr ..).trans (if_pos rfl)
    · rw [hr.flag, hl]

/-- A branch and its slot do what the specification says exactly outside the corners. -/
theorem branchSpec_iff {P : Platform D} (hx : P.cfg.exception = true) {h : Handler} {o : Ops}
    {s s₁ s₂ : Machine D} (hs : s.cpu.hasException = false) (hb : BranchRun P h o s s₁ s₂) :
    BranchSpec h o (s.cpu.setGpr 0 0) s s₁ s₂ ↔
      BranchExact o (s.cpu.setGpr 0 0) s.cpu.pc h :=
  ((codeRun hx hs hb).spec_iff_agree rfl).trans (agree_iff o _ hb.isBranch)

/-- `j 0` in the last word of a 256 MB region, with a `nop` in its slot. The TLB maps the two
    pages to DDR. -/
def regionDemo : Machine Unit :=
  let s := Machine.boot (ddrOf [(0x1FFC, 0x08000000), (0x2000, 0)]) ()
  let page : TlbPhyn := { pfn := 0, c := 0, d := false, v := true }
  { s with
    cpu := { s.cpu with pc := 0x0FFFFFFC }
    tlb := fun i =>
      if i = 0 then { pagemask := 0, vpn := 0x7FFF, g := true, asid := 0, p0 := page,
                      p1 := { page with pfn := 1 } }
      else { pagemask := 0, vpn := 0x8000, g := true, asid := 0, p0 := { page with pfn := 2 },
             p1 := page } }

theorem branchRun_regionDemo : BranchRun mips32r1 .j (Inst.ops 0x08000000) regionDemo
    (after mips32r1 1 regionDemo) (after mips32r1 2 regionDemo) where
  isBranch := rfl
  entered := ⟨_, entered_of_returned (by decide +kernel) (by decide +kernel)
    (by decide +kernel), rfl⟩
  branch := eq_ok_of_isOk (by decide +kernel)
  quiet := List.eq_nil_of_length_eq_zero (by decide +kernel)
  slot := by
    have hd : (after mips32r1 1 regionDemo).cpu.isDelayslot = true := by decide +kernel
    rw [if_pos hd]
    exact ⟨.sll, Inst.ops 0, _, entered_of_returned (by decide +kernel) (by decide +kernel)
      (by decide +kernel), rfl, eq_ok_of_isOk (by decide +kernel),
      List.eq_nil_of_length_eq_zero (by decide +kernel)⟩

theorem branchSpec_iff_regionDemo :
    BranchSpec .j (Inst.ops 0x08000000) (regionDemo.cpu.setGpr 0 0) regionDemo
        (after mips32r1 1 regionDemo) (after mips32r1 2 regionDemo) ↔
      BranchExact (Inst.ops 0x08000000) (regionDemo.cpu.setGpr 0 0) regionDemo.cpu.pc .j :=
  branchSpec_iff rfl rfl branchRun_regionDemo

/-- The jump goes to 0, in the region of the jump and not in that of its slot. -/
theorem not_branchSpec_regionDemo : ¬ ∀ (h : Handler) (o : Ops) (s s₁ s₂ : Machine Unit),
    s.cpu.hasException = false → BranchRun mips32r1 h o s s₁ s₂ →
      BranchSpec h o (s.cpu.setGpr 0 0) s s₁ s₂ := by
  intro h
  have hpc := (h _ _ _ _ _ rfl branchRun_regionDemo).pc
  exact absurd hpc (by decide +kernel)

end NemuMips32
