/-
  CP0 and the TLB over whole runs. Six handlers act on them (`Acted`); with the frame rules
  that leaves, for every property of CP0, one check per register that MTC0 writes and one for
  each of the other five.

  `cp0_run` collects what holds of every run from `init_cpu`: the read-only registers and bits
  keep their reset values, the fields that software does write stay in their range, and the
  entries of the TLB are stored with the bits under their page mask cleared.
-/
import NemuMips32.Board
import NemuMips32.Frame
import NemuMips32.Run

namespace NemuMips32

open StateExcept

variable {D : Type}

/-! ## MTC0 as a function -/

/-- CP0 after MTC0 of `v` to register `rd`, select `sel`. -/
def Cp0.mtc0 (rd : BitVec 5) (sel : BitVec 3) (v : Word) (c : Cp0) : Cp0 :=
  match rd.toNat, sel.toNat with
  | 15, 1 => { c with ebase := v }
  | 9, 0 => { c with count := v }
  | 14, 0 => { c with epc := v }
  | 4, 0 => { c with context := { c.context with PTEBase := field v 23 9 } }
  | 16, 0 => { c with config := { c.config with K0 := field v 0 3 } }
  | 12, 0 => { c with status := c.status.mtc0 (Cp0Status.ofWord v) }
  | 11, 0 => nemuSetIrq 7 false { c with compare := v }
  | 13, 0 => c.mtc0Cause v
  | 5, 0 => { c with pagemask := field v 13 16 }
  | 2, 0 => { c with entryLo0 := .ofWord v }
  | 3, 0 => { c with entryLo1 := .ofWord v }
  | 10, 0 => { c with entryHi := .ofWord v }
  | 0, 0 => { c with index := { c.index with idx := field v 0 5 } }
  | _, _ => c

theorem mtc0_acts {o : Ops} {s t : Machine D} (h : (mtc0 o).Acts s t) :
    t = s.setCp0 (s.cpu.cp0.mtc0 o.rd o.sel (s.cpu.gpr o.rt)) := by
  unfold mtc0 at h
  split at h
  case h_4 | h_15 | h_16 => exact h.elim
  all_goals
    rename_i hrd hsel
    unfold Cp0.mtc0
    rw [hrd, hsel]
    exact h

/-! ## The handlers that act -/

/-- What the handlers for CP0 and the TLB leave behind. -/
inductive Acted (o : Ops) (s : Machine D) : Handler → Machine D → Prop where
  | mtc0 : Acted o s .mtc0 (s.setCp0 (s.cpu.cp0.mtc0 o.rd o.sel (s.cpu.gpr o.rt)))
  | tlbr : Acted o s .tlbr (s.setCp0 (tlbRead (s.tlb s.cpu.cp0.index.idx.toFin) s.cpu.cp0))
  | tlbp (i : Cp0Index) : Acted o s .tlbp (s.setCp0 { s.cpu.cp0 with index := i })
  | tlbwi (i : Fin 32) : Acted o s .tlbwi (s.writeTlb i)
  | tlbwr (i : Fin 32) (r : Word) (hr : r.toNat < 32) :
    Acted o s .tlbwr ((s.writeTlb i).setCp0 { s.cpu.cp0 with random := r })
  | eret : Acted o s .eret { s with cpu := s.cpu.eret }

theorem acted_of_acts {P : Platform D} {o : Ops} {h : Handler} {s t : Machine D}
    (ha : (body P o h).Acts s t) : Acted o s h t := by
  cases h
  case mtc0 =>
    rw [mtc0_acts ha]
    exact .mtc0
  case tlbr =>
    rw [show t = _ from ha]
    exact .tlbr
  case tlbp =>
    obtain ⟨i, rfl⟩ := ha
    exact .tlbp i
  case tlbwi =>
    obtain ⟨i, rfl⟩ := ha
    exact .tlbwi i
  case tlbwr =>
    obtain ⟨i, r, hr, rfl⟩ := ha
    exact .tlbwr i r hr
  case eret =>
    rw [show t = _ from ha]
    exact .eret
  case inv =>
    simp only [body, inv] at ha
    split at ha <;> exact ha.elim
  case breakpoint =>
    simp only [body, breakpoint] at ha
    split at ha <;> exact ha.elim
  case cfc1 =>
    simp only [body, cfc1] at ha
    split at ha <;> exact ha.elim
  case srl =>
    simp only [body, srl] at ha
    split at ha <;> exact ha.elim
  case srlv =>
    simp only [body, srlv] at ha
    split at ha <;> exact ha.elim
  all_goals exact ha.elim

/-! ## Read-only registers and bits -/

/-- What no instruction can change: PRId, Config1, Config but for K0, Wired, and eight fields
    of Status. -/
structure ReadOnly (c c' : Cp0) : Prop where
  prid : c'.prid = c.prid
  config1 : c'.config1 = c.config1
  config : { c'.config with K0 := 0 } = { c.config with K0 := 0 }
  wired : c'.wired = c.wired
  FR : c'.status.FR = c.status.FR
  MX : c'.status.MX = c.status.MX
  PX : c'.status.PX = c.status.PX
  KX : c'.status.KX = c.status.KX
  SX : c'.status.SX = c.status.SX
  UX : c'.status.UX = c.status.UX
  R0 : c'.status.R0 = c.status.R0
  Impl : c'.status.Impl = c.status.Impl

theorem ReadOnly.refl (c : Cp0) : ReadOnly c c := by
  constructor <;> rfl

theorem ReadOnly.trans {c c' c'' : Cp0} (h : ReadOnly c c') (h' : ReadOnly c' c'') :
    ReadOnly c c'' where
  prid := h'.prid.trans h.prid
  config1 := h'.config1.trans h.config1
  config := h'.config.trans h.config
  wired := h'.wired.trans h.wired
  FR := h'.FR.trans h.FR
  MX := h'.MX.trans h.MX
  PX := h'.PX.trans h.PX
  KX := h'.KX.trans h.KX
  SX := h'.SX.trans h.SX
  UX := h'.UX.trans h.UX
  R0 := h'.R0.trans h.R0
  Impl := h'.Impl.trans h.Impl

theorem readOnly_mtc0 (rd : BitVec 5) (sel : BitVec 3) (v : Word) (c : Cp0) :
    ReadOnly c (c.mtc0 rd sel v) := by
  unfold Cp0.mtc0
  split <;> constructor <;> rfl

theorem readOnly_eret (c : CpuState) : ReadOnly c.cp0 c.eret.cp0 := by
  unfold CpuState.eret
  split <;> constructor <;> rfl

theorem readOnly_tick (c : Cp0) : ReadOnly c c.tick := by
  unfold Cp0.tick
  dsimp only
  split <;> constructor <;> rfl

/-! ## Fields in range -/

/-- The bits under the page mask are cleared. -/
structure TlbEntry.Masked (e : TlbEntry) : Prop where
  vpn : e.vpn &&& e.pagemask.setWidth 19 = 0
  pfn0 : e.p0.pfn &&& e.pagemask.setWidth 24 = 0
  pfn1 : e.p1.pfn &&& e.pagemask.setWidth 24 = 0
  pfn0_lt : e.p0.pfn.toNat < 2 ^ 20
  pfn1_lt : e.p1.pfn.toNat < 2 ^ 20

/-- Status.CU, Random and the TLB hold values the hardware could hold. -/
structure InRange (s : Machine D) : Prop where
  cu : s.cpu.cp0.status.CU.toNat ≤ 3
  random : s.cpu.cp0.random.toNat < 32
  tlb : ∀ i, (s.tlb i).Masked

theorem and_not_and {w : Nat} (x m : BitVec w) : x &&& ~~~m &&& m = 0 := by
  rw [BitVec.and_assoc, BitVec.and_comm (~~~m), BitVec.and_not_self]
  exact BitVec.and_zero

theorem writePhyn_masked (lo : Cp0EntryLo) (m : BitVec 16) :
    (writePhyn lo m).pfn &&& m.setWidth 24 = 0 ∧ (writePhyn lo m).pfn.toNat < 2 ^ 20 := by
  refine ⟨and_not_and _ _, ?_⟩
  have hle : (lo.pfn.setWidth 24 &&& ~~~(m.setWidth 24)).toNat ≤ (lo.pfn.setWidth 24).toNat := by
    rw [BitVec.toNat_and]
    exact Nat.and_le_left
  have hlt : (lo.pfn.setWidth 24).toNat < 2 ^ 20 := by
    rw [BitVec.toNat_setWidth]
    have := lo.pfn.isLt
    omega
  exact Nat.lt_of_le_of_lt hle hlt

/-- `tlb_write` stores entries with their masked bits cleared. -/
theorem masked_tlbEntryOf (c : Cp0) : (tlbEntryOf c).Masked where
  vpn := and_not_and _ _
  pfn0 := (writePhyn_masked c.entryLo0 c.pagemask).1
  pfn1 := (writePhyn_masked c.entryLo1 c.pagemask).1
  pfn0_lt := (writePhyn_masked c.entryLo0 c.pagemask).2
  pfn1_lt := (writePhyn_masked c.entryLo1 c.pagemask).2

theorem masked_writeTlb {s : Machine D} (h : ∀ i, (s.tlb i).Masked) (j i : Fin 32) :
    ((s.writeTlb j).tlb i).Masked := by
  unfold Machine.writeTlb
  by_cases hi : i = j
  · rw [hi]
    simp only [Function.update_self]
    exact masked_tlbEntryOf _
  · simp only [Function.update_of_ne hi]
    exact h i

theorem cu_mtc0 (rd : BitVec 5) (sel : BitVec 3) (v : Word) (c : Cp0)
    (h : c.status.CU.toNat ≤ 3) : (c.mtc0 rd sel v).status.CU.toNat ≤ 3 := by
  unfold Cp0.mtc0
  split
  case h_6 =>
    change ((Cp0Status.ofWord v).CU &&& 3).toNat ≤ 3
    rw [BitVec.toNat_and]
    exact Nat.and_le_right
  all_goals exact h

theorem random_mtc0 (rd : BitVec 5) (sel : BitVec 3) (v : Word) (c : Cp0) :
    (c.mtc0 rd sel v).random = c.random := by
  unfold Cp0.mtc0
  split <;> rfl

/-! ## Runs -/

/-- The relation that `cp0_run` carries through a run. -/
structure Kept (s t : Machine D) : Prop where
  readOnly : ReadOnly s.cpu.cp0 t.cpu.cp0
  inRange : InRange s → InRange t

theorem Kept.trans {s t u : Machine D} (h : Kept s t) (h' : Kept t u) : Kept s u :=
  ⟨h.readOnly.trans h'.readOnly, fun hs => h'.inRange (h.inRange hs)⟩

/-- A change of CP0 that leaves CU and Random alone. -/
theorem kept_setCp0 {s : Machine D} {c : Cp0} (hr : ReadOnly s.cpu.cp0 c)
    (hcu : s.cpu.cp0.status.CU.toNat ≤ 3 → c.status.CU.toNat ≤ 3)
    (hrand : c.random = s.cpu.cp0.random) : Kept s (s.setCp0 c) :=
  ⟨hr, fun h => ⟨hcu h.cu, (congrArg BitVec.toNat hrand).trans_lt h.random, h.tlb⟩⟩

theorem kept_frame (P : Platform D) : Frame P (Kept (D := D)) where
  trans _ _ _ h h' := h.trans h'
  silent s t hc ht _ := by
    refine ⟨by rw [hc]; exact .refl _, fun h => ⟨?_, ?_, ?_⟩⟩
    · rw [hc]
      exact h.cu
    · rw [hc]
      exact h.random
    · rw [ht]
      exact h.tlb
  irq s x _ := ⟨by constructor <;> rfl, fun h => ⟨h.cu, h.random, h.tlb⟩⟩
  fault s rw v f _ := ⟨by constructor <;> rfl, fun h => ⟨h.cu, h.random, h.tlb⟩⟩
  badvaddr s v := ⟨by constructor <;> rfl, fun h => ⟨h.cu, h.random, h.tlb⟩⟩
  raise s e := ⟨by constructor <;> rfl, fun h => ⟨h.cu, h.random, h.tlb⟩⟩
  panic s r := ⟨.refl _, fun h => ⟨h.cu, h.random, h.tlb⟩⟩

theorem kept_acted {o : Ops} {h : Handler} {s t : Machine D} (ha : Acted o s h t) : Kept s t := by
  cases ha with
  | mtc0 => exact kept_setCp0 (readOnly_mtc0 ..) (cu_mtc0 _ _ _ _) (random_mtc0 ..)
  | tlbr => exact kept_setCp0 (by constructor <;> rfl) id rfl
  | tlbp i => exact kept_setCp0 (by constructor <;> rfl) id rfl
  | tlbwi i => exact ⟨.refl _, fun h => ⟨h.cu, h.random, masked_writeTlb h.tlb i⟩⟩
  | tlbwr i r hr =>
    exact ⟨by constructor <;> rfl, fun h => ⟨h.cu, hr, masked_writeTlb h.tlb i⟩⟩
  | eret =>
    refine ⟨readOnly_eret s.cpu, fun h => ⟨?_, ?_, h.tlb⟩⟩
    · unfold CpuState.eret
      split <;> exact h.cu
    · unfold CpuState.eret
      split <;> exact h.random

theorem kept_tick (s : Machine D) : Kept s (s.setCp0 s.cpu.cp0.tick) := by
  refine kept_setCp0 (readOnly_tick _) ?_ ?_
  · unfold Cp0.tick
    dsimp only
    split <;> exact id
  · unfold Cp0.tick
    dsimp only
    split <;> rfl

theorem kept_step {P : Platform D} {s s' : Machine D} {i : Input D} (h : step P s i = some s') :
    Kept s s' := by
  refine (kept_frame P).step (fun _ => kept_tick) (fun f _ => ?_) (fun _ h o t _ u hu => ?_) h
  · exact ⟨by constructor <;> rfl, fun h => ⟨h.cu, h.random, h.tlb⟩⟩
  · exact kept_acted (acted_of_acts hu)

theorem masked_default : (default : TlbEntry).Masked := by
  constructor <;> decide

theorem kept_boot {P : Platform D} {s : Machine D} (h : Booted P s) : InRange s := by
  obtain ⟨ram, dev, entry, cmdline, -, hi⟩ := h
  have hk := (kept_frame P).initCpu entry cmdline (Machine.boot ram dev)
  rw [hi] at hk
  refine hk.inRange ⟨?_, ?_, fun i => masked_default⟩
  · change (if P.cfg.diffWithQemu then (default : Cp0Status).CU else 1).toNat ≤ 3
    split <;> decide
  · change (default : Word).toNat < 32
    decide

/-! ## Context and Cause -/

theorem pteBase_mtc0 {rd : BitVec 5} {sel : BitVec 3} (h : ¬(rd = 4 ∧ sel = 0)) (v : Word)
    (c : Cp0) : (c.mtc0 rd sel v).context.PTEBase = c.context.PTEBase := by
  unfold Cp0.mtc0
  split
  case h_4 hrd hsel => exact absurd ⟨BitVec.eq_of_toNat_eq hrd, BitVec.eq_of_toNat_eq hsel⟩ h
  all_goals rfl

theorem badVPN2_mtc0 (rd : BitVec 5) (sel : BitVec 3) (v : Word) (c : Cp0) :
    (c.mtc0 rd sel v).context.BadVPN2 = c.context.BadVPN2 := by
  unfold Cp0.mtc0
  split <;> rfl

/-- MTC0 to Cause reaches the two software interrupt bits only. -/
theorem ip_mtc0Cause (c : Cp0) (w : Word) {i : Nat} (hi : 2 ≤ i) :
    (c.mtc0Cause w).cause.IP.getLsbD i = c.cause.IP.getLsbD i := by
  have hset : ∀ (n : Nat) (b : Bool) (c : Cp0), n < 2 →
      (nemuSetIrq n b c).cause.IP.getLsbD i = c.cause.IP.getLsbD i := by
    intro n b c hn
    simp only [nemuSetIrq, Cp0.setIP]
    split
    · simp only [BitVec.getLsbD_or, BitVec.getLsbD_shiftLeft, BitVec.getLsbD_one]
      simp [show ¬(i - n = 0) by omega]
    · simp only [BitVec.getLsbD_and, BitVec.getLsbD_not, BitVec.getLsbD_shiftLeft,
        BitVec.getLsbD_one]
      by_cases h8 : i < 8
      · simp [h8, show ¬(i - n = 0) by omega]
      · rw [BitVec.getLsbD_of_ge c.cause.IP i (by omega)]
        simp
  unfold Cp0.mtc0Cause
  rw [hset 1 _ _ (by decide), hset 0 _ _ (by decide)]

/-- Context.BadVPN2 is kept, or a TLB exception was raised. -/
def BadVPN2Kept (s t : Machine D) : Prop :=
  ∃ l, t.raised = s.raised ++ l ∧
    (t.cpu.cp0.context.BadVPN2 = s.cpu.cp0.context.BadVPN2 ∨ ∃ r ∈ l, r.exc.extra ≠ .none)

theorem BadVPN2Kept.of_eq {s t : Machine D} (hr : t.raised = s.raised)
    (hb : t.cpu.cp0.context.BadVPN2 = s.cpu.cp0.context.BadVPN2) : BadVPN2Kept s t :=
  ⟨[], by rw [hr, List.append_nil], .inl hb⟩

theorem BadVPN2Kept.trans {s t u : Machine D} (h : BadVPN2Kept s t) (h' : BadVPN2Kept t u) :
    BadVPN2Kept s u := by
  obtain ⟨l, hl, hb⟩ := h
  obtain ⟨l', hl', hb'⟩ := h'
  refine ⟨l ++ l', by rw [hl', hl, List.append_assoc], ?_⟩
  rcases hb with hb | ⟨r, hr, he⟩
  · rcases hb' with hb' | ⟨r, hr, he⟩
    · exact .inl (hb'.trans hb)
    · exact .inr ⟨r, List.mem_append_right l hr, he⟩
  · exact .inr ⟨r, List.mem_append_left l' hr, he⟩

theorem badVPN2_frame (P : Platform D) : Frame P (BadVPN2Kept (D := D)) where
  trans _ _ _ h h' := h.trans h'
  silent s t hc _ hr := .of_eq hr (by rw [hc])
  irq s x _ := .of_eq rfl rfl
  fault s rw v f h := ⟨_, rfl, .inr ⟨_, List.mem_singleton_self _, translate_ex h⟩⟩
  badvaddr s v := .of_eq rfl rfl
  raise s e := ⟨_, rfl, .inl rfl⟩
  panic s r := ⟨_, rfl, .inl rfl⟩

theorem badVPN2_acted {o : Ops} {h : Handler} {s t : Machine D} (ha : Acted o s h t) :
    BadVPN2Kept s t := by
  cases ha with
  | mtc0 => exact .of_eq rfl (badVPN2_mtc0 ..)
  | tlbr => exact .of_eq rfl rfl
  | tlbp i => exact .of_eq rfl rfl
  | tlbwi i => exact .of_eq rfl rfl
  | tlbwr i r hr => exact .of_eq rfl rfl
  | eret =>
    refine .of_eq rfl ?_
    unfold CpuState.eret
    split <;> rfl

theorem badVPN2_step {P : Platform D} {s s' : Machine D} {i : Input D}
    (h : step P s i = some s') : BadVPN2Kept s s' := by
  refine (badVPN2_frame P).step (fun _ s => .of_eq rfl ?_) (fun f _ => .of_eq rfl rfl)
    (fun _ h o t _ u hu => badVPN2_acted (acted_of_acts hu)) h
  unfold Cp0.tick
  dsimp only
  split <;> rfl

/-- Context.PTEBase is kept. -/
def PTEBaseKept (s t : Machine D) : Prop :=
  t.cpu.cp0.context.PTEBase = s.cpu.cp0.context.PTEBase

theorem pteBase_frame (P : Platform D) : Frame P (PTEBaseKept (D := D)) where
  trans _ _ _ h h' := h'.trans h
  silent s t hc _ _ := by rw [PTEBaseKept, hc]
  irq _ _ _ := rfl
  fault _ _ _ _ _ := rfl
  badvaddr _ _ := rfl
  raise _ _ := rfl
  panic _ _ := rfl

theorem pteBase_acted {o : Ops} {h : Handler} {s t : Machine D} (ha : Acted o s h t)
    (hn : ¬(h = .mtc0 ∧ o.rd = 4 ∧ o.sel = 0)) : PTEBaseKept s t := by
  cases ha with
  | mtc0 => exact pteBase_mtc0 (fun h => hn ⟨rfl, h⟩) _ _
  | eret =>
    unfold PTEBaseKept CpuState.eret
    split <;> rfl
  | _ => rfl

theorem pteBase_step {P : Platform D} {s s' : Machine D} {i : Input D} (h : step P s i = some s')
    (hn : ¬(i = .iterate ∧ ∃ o t, makeEntry P s = .ok (.mtc0, o) t ∧ o.rd = 4 ∧ o.sel = 0)) :
    PTEBaseKept s s' := by
  refine (pteBase_frame P).step (fun _ s => ?_) (fun _ _ => rfl) (fun hi h o t he u hu => ?_) h
  · unfold PTEBaseKept Machine.setCp0 Cp0.tick
    dsimp only
    split <;> rfl
  · refine pteBase_acted (acted_of_acts hu) ?_
    rintro ⟨rfl, hrd, hsel⟩
    exact hn ⟨hi, o, t, he, hrd, hsel⟩

/-! ## The invariant of a run -/

/-- What holds in a state `s` of a run from `s₀`, and across the next step. -/
structure Cp0Law (P : Platform D) (s₀ s : Machine D) : Prop where
  readOnly : ReadOnly s₀.cpu.cp0 s.cpu.cp0
  inRange : InRange s
  cause : ∀ o t u, makeEntry P s = .ok (.mtc0, o) t → o.rd = 13 → o.sel = 0 →
    exec P o .mtc0 t = .ok () u →
    ∀ i, 2 ≤ i → u.cpu.cp0.cause.IP.getLsbD i = t.cpu.cp0.cause.IP.getLsbD i
  pteBase : ∀ i s', step P s i = some s' →
    s'.cpu.cp0.context.PTEBase = s.cpu.cp0.context.PTEBase ∨
    (i = .iterate ∧ ∃ o t, makeEntry P s = .ok (.mtc0, o) t ∧ o.rd = 4 ∧ o.sel = 0)
  badVPN2 : ∀ i s', step P s i = some s' →
    s'.cpu.cp0.context.BadVPN2 = s.cpu.cp0.context.BadVPN2 ∨
    ∃ r ∈ newRaised s s', r.exc.extra ≠ .none

theorem exec_mtc0Cause {P : Platform D} {o : Ops} (hrd : o.rd = 13) (hsel : o.sel = 0)
    {t u : Machine D} (h : exec P o .mtc0 t = .ok () u) :
    u.cpu.cp0 = t.cpu.cp0.mtc0Cause (t.cpu.gpr o.rt) := by
  have hb : body P o .mtc0 = mtc0Reg o fun v c => c.mtc0Cause v := by
    simp only [body, mtc0, hrd, hsel]
    rfl
  rw [exec, hb] at h
  cases h
  rfl

/-- The steps of a run, one by one. -/
theorem Run.induction {P : Platform D} {ok : Machine D → Prop} {s₀ : Machine D}
    {I : Machine D → Prop} (h0 : I s₀)
    (hstep : ∀ s i s', I s → step P s i = some s' → I s')
    {last : Option (Machine D × Machine D)} {s : Machine D} (h : Run P ok s₀ last s) : I s := by
  induction h with
  | start => exact h0
  | iterate _ _ hi ih => exact hstep _ .iterate _ ih (by rw [step, hi]; rfl)
  | host _ f ih => exact hstep _ (.host f) _ ih rfl
  | enter _ he ih => exact hstep _ .enter _ ih (by rw [step, he]; rfl)

/-- Every run from `init_cpu` keeps the read-only parts of CP0 and the ranges of the others;
    MTC0 to Cause changes no hardware interrupt bit, only MTC0 to Context changes PTEBase, and
    only a TLB exception changes BadVPN2. -/
theorem cp0_run {P : Platform D} {s₀ s : Machine D} {last : Option (Machine D × Machine D)}
    (h0 : Booted P s₀) (h : Run P (fun _ => True) s₀ last s) : Cp0Law P s₀ s := by
  have hk : Kept s₀ s := by
    refine h.induction (I := Kept s₀) ⟨.refl _, id⟩ fun s i s' hs hi => hs.trans (kept_step hi)
  refine ⟨hk.readOnly, hk.inRange (kept_boot h0), ?_, ?_, ?_⟩
  · intro o t u _ hrd hsel hu i hi
    rw [exec_mtc0Cause hrd hsel hu]
    exact ip_mtc0Cause _ _ hi
  · intro i s' hi
    by_cases hn : i = .iterate ∧ ∃ o t, makeEntry P s = .ok (.mtc0, o) t ∧ o.rd = 4 ∧ o.sel = 0
    · exact .inr hn
    · exact .inl (pteBase_step hi hn)
  · intro i s' hi
    obtain ⟨l, hl, hb⟩ := badVPN2_step hi
    rw [newRaised_of_eq hl]
    exact hb

/-- `ori $2, $0, 2; mtc0 $2, Status; lw $3, 0($0)`. -/
def cp0Demo : Machine Unit := started mips32r1 [0x34020002, 0x40826000, 0x8C030000]

theorem cp0_run_demo : Cp0Law mips32r1 cp0Demo (after mips32r1 3 cp0Demo) := by
  have hb : Booted mips32r1 cp0Demo := booted_started _ (by decide) (by decide +kernel)
  exact cp0_run hb (run_after 2 (fun _ _ => trivial) (by decide +kernel))

end NemuMips32
