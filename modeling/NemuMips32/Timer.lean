/-
  The timer. `check_intrs` steps Count and sets Cause.IP7 when it then equals Compare; only a
  write of Compare clears IP7. `timer_run`: along every run, Count counts the calls of
  `check_intrs`, IP7 records whether one of them met Compare, and it is never lost.
-/
import NemuMips32.Cp0

namespace NemuMips32

open StateExcept

variable {D : Type}

/-! ## Runs with a clock -/

/-- `check_intrs` runs in the iteration from `s`: its instruction leaves no exception pending. -/
def Machine.ticks (P : Platform D) (s : Machine D) : Bool :=
  match execInst P s with
  | .ok _ t => !t.cpu.hasException
  | .error _ _ => false

/-- The calls of `check_intrs` in a step. -/
def Input.calls (P : Platform D) (s : Machine D) : Input D → Nat
  | .iterate => if s.ticks P then 1 else 0
  | _ => 0

/-- A run from `s₀` whose steps are all admitted by `ok`, with the number of times that
    `check_intrs` ran. -/
inductive TimerRun (P : Platform D) (ok : Machine D → Input D → Prop) (s₀ : Machine D) :
    Nat → Machine D → Prop where
  | start : TimerRun P ok s₀ 0 s₀
  | step {k s i s'} (h : TimerRun P ok s₀ k s) (hok : ok s i) (hi : step P s i = some s') :
    TimerRun P ok s₀ (k + i.calls P s) s'

/-- The step is no MTC0 to register `rd`, and no device callback that changes line 7. -/
def Spares (P : Platform D) (rd : BitVec 5) (s : Machine D) : Input D → Prop
  | .iterate => ¬∃ o t, makeEntry P s = .ok (.mtc0, o) t ∧ o.rd = rd ∧ o.sel = 0
  | .host f => (f s.devCtx).ip.getLsbD 7 = s.devCtx.ip.getLsbD 7
  | .enter => True

/-- No memory-mapped device drives line 7. -/
def Platform.SparesTimer (P : Platform D) : Prop :=
  ∀ y x, P.Drives y x → x.ip.getLsbD 7 = y.ip.getLsbD 7

/-! ## What one step does -/

def Cp0.ip7 (c : Cp0) : Bool := c.cause.IP.getLsbD 7

theorem ip7_setIrq (b : Bool) (c : Cp0) : (nemuSetIrq 7 b c).ip7 = b := by
  cases b <;> simp [nemuSetIrq, Cp0.setIP, Cp0.ip7]

/-- IP7 is not lost. -/
def Ip7Kept (s t : Machine D) : Prop := s.cpu.cp0.ip7 = true → t.cpu.cp0.ip7 = true

/-- The timer is left alone. -/
structure SameTimer (s t : Machine D) : Prop where
  count : t.cpu.cp0.count = s.cpu.cp0.count
  compare : t.cpu.cp0.compare = s.cpu.cp0.compare
  ip7 : t.cpu.cp0.ip7 = s.cpu.cp0.ip7

theorem sameTimer_of_eq {s t : Machine D} (h : t.cpu.cp0 = s.cpu.cp0) : SameTimer s t := by
  constructor <;> rw [h]

theorem SameTimer.trans {s t u : Machine D} (h : SameTimer s t) (h' : SameTimer t u) :
    SameTimer s u :=
  ⟨h'.count.trans h.count, h'.compare.trans h.compare, h'.ip7.trans h.ip7⟩

theorem sameTimer_frame {P : Platform D} (hP : P.SparesTimer) :
    Frame P (SameTimer (D := D)) where
  trans _ _ _ h h' := h.trans h'
  silent _ _ hc _ _ := sameTimer_of_eq hc
  irq s x hx := ⟨rfl, rfl, hP s.devCtx x hx⟩
  fault _ _ _ _ _ := ⟨rfl, rfl, rfl⟩
  badvaddr _ _ := ⟨rfl, rfl, rfl⟩
  raise _ _ := ⟨rfl, rfl, rfl⟩
  panic _ _ := ⟨rfl, rfl, rfl⟩

theorem count_mtc0 {rd : BitVec 5} {sel : BitVec 3} (h : ¬(rd = 9 ∧ sel = 0)) (v : Word)
    (c : Cp0) : (c.mtc0 rd sel v).count = c.count := by
  unfold Cp0.mtc0
  split
  case h_2 hrd hsel => exact absurd ⟨BitVec.eq_of_toNat_eq hrd, BitVec.eq_of_toNat_eq hsel⟩ h
  all_goals rfl

theorem compare_mtc0 {rd : BitVec 5} {sel : BitVec 3} (h : ¬(rd = 11 ∧ sel = 0)) (v : Word)
    (c : Cp0) : (c.mtc0 rd sel v).compare = c.compare := by
  unfold Cp0.mtc0
  split
  case h_7 hrd hsel => exact absurd ⟨BitVec.eq_of_toNat_eq hrd, BitVec.eq_of_toNat_eq hsel⟩ h
  all_goals rfl

theorem ip7_mtc0 {rd : BitVec 5} {sel : BitVec 3} (h : ¬(rd = 11 ∧ sel = 0)) (v : Word)
    (c : Cp0) : (c.mtc0 rd sel v).ip7 = c.ip7 := by
  unfold Cp0.mtc0
  split
  case h_7 hrd hsel => exact absurd ⟨BitVec.eq_of_toNat_eq hrd, BitVec.eq_of_toNat_eq hsel⟩ h
  case h_8 => exact ip_mtc0Cause c v (by decide)
  all_goals rfl

theorem eret_cp0 (c : CpuState) : c.eret.cp0.count = c.cp0.count ∧
    c.eret.cp0.compare = c.cp0.compare ∧ c.eret.cp0.ip7 = c.cp0.ip7 := by
  unfold CpuState.eret
  split <;> exact ⟨rfl, rfl, rfl⟩

theorem sameTimer_acted {o : Ops} {h : Handler} {s t : Machine D} (ha : Acted o s h t)
    (h9 : ¬(h = .mtc0 ∧ o.rd = 9 ∧ o.sel = 0)) (h11 : ¬(h = .mtc0 ∧ o.rd = 11 ∧ o.sel = 0)) :
    SameTimer s t := by
  cases ha with
  | mtc0 =>
    exact ⟨count_mtc0 (fun h => h9 ⟨rfl, h⟩) _ _, compare_mtc0 (fun h => h11 ⟨rfl, h⟩) _ _,
      ip7_mtc0 (fun h => h11 ⟨rfl, h⟩) _ _⟩
  | tlbr => exact ⟨rfl, rfl, rfl⟩
  | tlbp i => exact ⟨rfl, rfl, rfl⟩
  | tlbwi i => exact ⟨rfl, rfl, rfl⟩
  | tlbwr i r hr => exact ⟨rfl, rfl, rfl⟩
  | eret =>
    obtain ⟨hc, hm, hi⟩ := eret_cp0 s.cpu
    exact ⟨hc, hm, hi⟩

theorem ip7_tick (c : Cp0) : c.tick.ip7 = (c.ip7 || decide (c.count + 1 = c.compare)) := by
  unfold Cp0.tick
  by_cases h : c.count + 1 = c.compare
  · simp only [h, if_true, decide_true, Bool.or_true]
    exact ip7_setIrq true _
  · simp only [h, if_false, decide_false, Bool.or_false]
    rfl

theorem count_tick (c : Cp0) : c.tick.count = c.count + 1 := by
  unfold Cp0.tick
  dsimp only
  split <;> rfl

theorem compare_tick (c : Cp0) : c.tick.compare = c.compare := by
  unfold Cp0.tick
  dsimp only
  split <;> rfl

/-- The exception check is one tick, or none if an exception is pending. -/
theorem settle_timer {P : Platform D} (hi : P.cfg.intr = true) (s : Machine D) :
    SameTimer (if s.cpu.hasException then s else s.setCp0 s.cpu.cp0.tick) (s.settle P) := by
  have ht : s.tick P = s.setCp0 s.cpu.cp0.tick := by
    unfold Machine.tick
    rw [if_pos hi]
    rfl
  unfold Machine.settle
  split
  · exact ⟨rfl, rfl, rfl⟩
  · rw [ht]
    split <;> exact ⟨rfl, rfl, rfl⟩

theorem exception_of_intr {cfg : Config} (h : cfg.intr = true) : cfg.exception = true := by
  unfold Config.intr at h
  unfold Config.exception
  rw [beq_iff_eq] at h
  rw [h]
  rfl

theorem calls_of_exec {P : Platform D} {s t : Machine D} (h : execInst P s = .ok () t) :
    Input.iterate.calls P s = if t.cpu.hasException then 0 else 1 := by
  have ht : s.ticks P = !t.cpu.hasException := by
    unfold Machine.ticks
    rw [h]
  rw [Input.calls, ht]
  cases t.cpu.hasException <;> rfl

/-- A step moves the timer by its call of `check_intrs`. -/
theorem timer_step {P : Platform D} (hi : P.cfg.intr = true) (hP : P.SparesTimer)
    {s s' : Machine D} {i : Input D} (h9 : Spares P 9 s i) (h11 : Spares P 11 s i)
    (h : step P s i = some s') :
    (i.calls P s = 0 ∧ SameTimer s s') ∨
    (i.calls P s = 1 ∧ SameTimer (s.setCp0 s.cpu.cp0.tick) s') := by
  cases i with
  | host f =>
    cases h
    exact .inl ⟨rfl, rfl, rfl, h9⟩
  | enter =>
    exact .inl ⟨rfl, sameTimer_of_eq (congrArg CpuState.cp0 (enterLoop_cpu (eq_ok_of_okState h)))⟩
  | iterate =>
    have hx := (sameTimer_frame hP).execInst (s := s) fun h o t he u hu => by
      refine sameTimer_acted (acted_of_acts hu) ?_ ?_
      · rintro ⟨rfl, ho⟩
        exact h9 ⟨o, t, he, ho⟩
      · rintro ⟨rfl, ho⟩
        exact h11 ⟨o, t, he, ho⟩
    have hit := eq_ok_of_okState h
    rw [iteration_apply (exception_of_intr hi)] at hit
    cases he : execInst P s with
    | error e t =>
      rw [he] at hit
      cases hit
    | ok a t =>
      rw [he] at hit hx
      rw [final_ok] at hx
      cases hit
      have hs := settle_timer hi t
      rw [calls_of_exec he]
      cases hexc : t.cpu.hasException with
      | true =>
        rw [hexc] at hs
        exact .inl ⟨rfl, hx.trans hs⟩
      | false =>
        rw [hexc] at hs
        refine .inr ⟨rfl, SameTimer.trans ⟨?_, ?_, ?_⟩ hs⟩
        · change t.cpu.cp0.tick.count = s.cpu.cp0.tick.count
          rw [count_tick, count_tick, hx.count]
        · change t.cpu.cp0.tick.compare = s.cpu.cp0.tick.compare
          rw [compare_tick, compare_tick, hx.compare]
        · change t.cpu.cp0.tick.ip7 = s.cpu.cp0.tick.ip7
          rw [ip7_tick, ip7_tick, hx.ip7, hx.count, hx.compare]

/-! ## Runs -/

/-- A call of `check_intrs` among the first `k` after Count was `count` finds it equal to
    `compare`. -/
def CompareMet (count compare : Word) (k : Nat) : Prop :=
  ∃ j, 1 ≤ j ∧ j ≤ k ∧ count + BitVec.ofNat 32 j = compare

theorem timer_law {P : Platform D} (hi : P.cfg.intr = true) (hP : P.SparesTimer)
    {s₀ s : Machine D} {k : Nat}
    (h : TimerRun P (fun s i => Spares P 9 s i ∧ Spares P 11 s i) s₀ k s) :
    s.cpu.cp0.count = s₀.cpu.cp0.count + BitVec.ofNat 32 k ∧
    s.cpu.cp0.compare = s₀.cpu.cp0.compare ∧
    (s.cpu.cp0.ip7 = true ↔
      s₀.cpu.cp0.ip7 = true ∨ CompareMet s₀.cpu.cp0.count s₀.cpu.cp0.compare k) := by
  induction h with
  | start =>
    refine ⟨(BitVec.add_zero _).symm, rfl, Iff.symm (or_iff_left ?_)⟩
    rintro ⟨j, h1, h0, -⟩
    omega
  | @step k s i s' _ hok hstep ih =>
    obtain ⟨hcount, hcompare, hip⟩ := ih
    rcases timer_step hi hP hok.1 hok.2 hstep with ⟨hc, hs⟩ | ⟨hc, hs⟩
    · rw [hc, hs.count, hs.compare, hs.ip7]
      exact ⟨hcount, hcompare, hip⟩
    · have hnext : s.cpu.cp0.count + 1 = s₀.cpu.cp0.count + BitVec.ofNat 32 (k + 1) := by
        rw [hcount, BitVec.add_assoc, BitVec.ofNat_add]
        rfl
      have hcnt := hs.count.trans (count_tick s.cpu.cp0)
      have hcmp := hs.compare.trans (compare_tick s.cpu.cp0)
      have hip' := hs.ip7.trans (ip7_tick s.cpu.cp0)
      rw [hc, hcnt, hcmp, hip', hnext, hcompare]
      refine ⟨rfl, rfl, ?_⟩
      rw [Bool.or_eq_true, hip, decide_eq_true_eq, or_assoc]
      refine or_congr_right ?_
      constructor
      · rintro (⟨j, h1, hj, he⟩ | he)
        · exact ⟨j, h1, by omega, he⟩
        · exact ⟨k + 1, by omega, Nat.le_refl _, he⟩
      · rintro ⟨j, h1, hj, he⟩
        by_cases hk : j = k + 1
        · exact .inr (hk ▸ he)
        · exact .inl ⟨j, h1, by omega, he⟩

/-- The number of steps from `count` to `compare`, a whole turn if they are equal. -/
def toCompare (count compare : Word) : Nat :=
  if (compare - count).toNat = 0 then 2 ^ 32 else (compare - count).toNat

theorem compareMet_iff (count compare : Word) (k : Nat) :
    CompareMet count compare k ↔ 1 ≤ toCompare count compare ∧ toCompare count compare ≤ k := by
  have hsub := BitVec.toNat_sub compare count
  have h1 := count.isLt
  have h2 := compare.isLt
  have hadd : ∀ j, count + BitVec.ofNat 32 j = compare ↔ (count.toNat + j) % 2 ^ 32 = compare.toNat := by
    intro j
    rw [← BitVec.toNat_inj, BitVec.toNat_add, BitVec.toNat_ofNat, Nat.add_mod_mod]
  unfold toCompare
  constructor
  · rintro ⟨j, hj1, hjk, he⟩
    rw [hadd] at he
    split <;> omega
  · rintro ⟨h, hk⟩
    refine ⟨_, h, hk, (hadd _).2 ?_⟩
    split <;> omega

theorem ip7Kept_frame {P : Platform D} (hP : P.SparesTimer) : Frame P (Ip7Kept (D := D)) where
  trans _ _ _ h h' := fun hs => h' (h hs)
  silent s t hc _ _ := by
    intro hs
    rw [hc]
    exact hs
  irq s x hx := fun hs => (hP s.devCtx x hx).trans hs
  fault _ _ _ _ _ := id
  badvaddr _ _ := id
  raise _ _ := id
  panic _ _ := id

theorem ip7Kept_acted {o : Ops} {h : Handler} {s t : Machine D} (ha : Acted o s h t)
    (hn : ¬(h = .mtc0 ∧ o.rd = 11 ∧ o.sel = 0)) : Ip7Kept s t := by
  cases ha with
  | mtc0 => exact (ip7_mtc0 (fun h => hn ⟨rfl, h⟩) _ _).trans
  | eret => exact (eret_cp0 s.cpu).2.2.trans
  | _ => exact id

/-- IP7 stays until Compare is written. -/
theorem ip7Kept_run {P : Platform D} (hP : P.SparesTimer) {s₀ s : Machine D} {k : Nat}
    (h : TimerRun P (Spares P 11) s₀ k s) : Ip7Kept s₀ s := by
  induction h with
  | start => exact id
  | @step k s i s' _ hok hstep ih =>
    refine (ip7Kept_frame hP).trans _ _ _ ih ((ip7Kept_frame hP).step ?_ ?_ ?_ hstep)
    · intro _ s hs
      change s.cpu.cp0.tick.ip7 = true
      rw [ip7_tick, hs]
      rfl
    · rintro f rfl hs
      exact Eq.trans hok hs
    · rintro rfl h o t he u hu
      refine ip7Kept_acted (acted_of_acts hu) ?_
      rintro ⟨rfl, ho⟩
      exact hok ⟨o, t, he, ho⟩

/-- Count counts the calls of `check_intrs`, IP7 is set if it was at the start or Compare was
    met on the way, and once set it stays until Compare is written. -/
theorem timer_run {P : Platform D} (hi : P.cfg.intr = true) (hP : P.SparesTimer)
    (s₀ : Machine D) :
    (∀ k s, TimerRun P (fun s i => Spares P 9 s i ∧ Spares P 11 s i) s₀ k s →
      s.cpu.cp0.count = s₀.cpu.cp0.count + BitVec.ofNat 32 k ∧
      (s.cpu.cp0.ip7 = true ↔ s₀.cpu.cp0.ip7 = true ∨
        (1 ≤ toCompare s₀.cpu.cp0.count s₀.cpu.cp0.compare ∧
          toCompare s₀.cpu.cp0.count s₀.cpu.cp0.compare ≤ k))) ∧
    (∀ k s, TimerRun P (Spares P 11) s₀ k s → s₀.cpu.cp0.ip7 = true → s.cpu.cp0.ip7 = true) := by
  refine ⟨fun k s h => ?_, fun k s h => ip7Kept_run hP h⟩
  obtain ⟨hcount, -, hip⟩ := timer_law hi hP h
  exact ⟨hcount, hip.trans (or_congr_right (compareMet_iff _ _ k))⟩

/-- Two no-ops, with Compare at 2. -/
def timerDemo : Machine Unit :=
  let s := started mips32r1 [0, 0]
  s.setCp0 { s.cpu.cp0 with compare := 2 }

theorem timer_run_demo : (after mips32r1 2 timerDemo).cpu.cp0.ip7 = true := by
  have hP : mips32r1.SparesTimer := by
    rintro y x (rfl | ⟨d, f, a, n, v, h, -⟩ | ⟨d, f, a, n, v, m, m', h, -⟩)
    · rfl
    · cases h
    · cases h
  have hnop : ∀ i < 2, (returned (makeEntry mips32r1 (after mips32r1 i timerDemo))).map
      Prod.fst = some .sll := by decide +kernel
  have hok : ∀ i < 2, Spares mips32r1 9 (after mips32r1 i timerDemo) .iterate ∧
      Spares mips32r1 11 (after mips32r1 i timerDemo) .iterate := by
    intro i hi
    have hn := hnop i hi
    constructor
    all_goals
      rintro ⟨o, t, he, -⟩
      rw [he] at hn
      cases hn
  have hstep : ∀ i < 2, step mips32r1 (after mips32r1 i timerDemo) .iterate =
      some (after mips32r1 (i + 1) timerDemo) := by
    intro i hi
    have hio : ∀ i < 2, isOk (iteration mips32r1 (after mips32r1 i timerDemo)) = true := by
      decide +kernel
    rw [step, eq_ok_of_isOk (hio i hi)]
    rfl
  have h1 : TimerRun mips32r1 (fun s i => Spares mips32r1 9 s i ∧ Spares mips32r1 11 s i)
      timerDemo _ _ := .step .start (hok 0 (by decide)) (hstep 0 (by decide))
  have h2 := h1.step (hok 1 (by decide)) (hstep 1 (by decide))
  have hk : 0 + Input.iterate.calls mips32r1 timerDemo +
      Input.iterate.calls mips32r1 (after mips32r1 1 timerDemo) = 2 := by decide +kernel
  rw [hk] at h2
  exact ((timer_run rfl hP timerDemo).1 2 _ h2).2.2 (.inr (by decide +kernel))

end NemuMips32
