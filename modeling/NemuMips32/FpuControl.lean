/-
  The views of FCSR (`cfc1` and `ctc1`, `float.h`). Control registers 25 (FCCR), 26 (FEXR) and
  28 (FENR) show parts of register 31 (FCSR), each at bit positions of its own; the writer and
  the reader of a view are coded separately.

  For FEXR and FCSR the two agree. `cfc1` of FCCR leaves the condition codes where FCSR has
  them, at bits 23 and 25..31, while `ctc1` takes them from bits 0..7. `cfc1` of FENR shows
  condition code 0 where `ctc1` takes the flush bit. `fpuControl_iff` says for which register
  contents a save and a restore still give the same FCSR.
-/
import NemuMips32.Board
import NemuMips32.Iteration
import NemuMips32.Lib.Words

namespace NemuMips32

open StateExcept

variable {D : Type}

/-! ## Bit-fields -/

theorem getLsbD_zero_word (i : Nat) : (0 : Word).getLsbD i = false := BitVec.getLsbD_zero

theorem getLsbD_field (w : Word) (lo n i : Nat) :
    (field w lo n).getLsbD i = (decide (i < n) && w.getLsbD (lo + i)) :=
  BitVec.getLsbD_extractLsb' ..

theorem getLsbD_ones (lo n i : Nat) (hi : i < 32) :
    ((BitVec.allOnes n).setWidth 32 <<< lo : Word).getLsbD i =
      decide (lo ≤ i ∧ i < lo + n) := by
  rw [BitVec.getLsbD_shiftLeft, BitVec.getLsbD_setWidth, BitVec.getLsbD_allOnes]
  by_cases h : i < lo
  · simp [h, show ¬ lo ≤ i by omega]
  · simp [hi, h, show lo ≤ i by omega, show i - lo < 32 by omega,
      show i - lo < n ↔ i < lo + n by omega]

theorem getLsbD_setField (w : Word) (lo : Nat) {n : Nat} (v : BitVec n) {i : Nat} (hi : i < 32) :
    (setField w lo v).getLsbD i =
      if lo ≤ i ∧ i < lo + n then v.getLsbD (i - lo) else w.getLsbD i := by
  rw [setField, BitVec.getLsbD_or, BitVec.getLsbD_and, BitVec.getLsbD_not, getLsbD_ones lo n i hi,
    BitVec.getLsbD_shiftLeft, BitVec.getLsbD_setWidth]
  by_cases h : lo ≤ i ∧ i < lo + n
  · simp [h, hi, show i - lo < 32 by omega]
  · by_cases hlo : i < lo
    · simp [h, hi, hlo]
    · simp [h, hi, hlo, BitVec.getLsbD_of_ge v (i - lo) (by omega)]

/-- A field of `x` copied into `w`, bit by bit. -/
theorem getLsbD_copyField (w x : Word) (lo lo' n : Nat) {i : Nat} (hi : i < 32) :
    (setField w lo (field x lo' n)).getLsbD i =
      if lo ≤ i ∧ i < lo + n then x.getLsbD (lo' + (i - lo)) else w.getLsbD i := by
  rw [getLsbD_setField _ _ _ hi, getLsbD_field]
  split_ifs with h
  · simp [show i - lo < n by omega]
  · rfl

/-! ## Views -/

/-- The control registers that show FCSR. -/
inductive FpuReg where
  | fccr
  | fexr
  | fenr
  | fcsr
  deriving DecidableEq

namespace FpuReg

def num : FpuReg → BitVec 5
  | fccr => 25
  | fexr => 26
  | fenr => 28
  | fcsr => 31

/-- The bits of its operand that `ctc1` consumes. -/
def consumed : FpuReg → Word
  | fccr => 0x000000FF
  | fexr => 0x0003F07C
  | fenr => 0x00000F87
  | fcsr => 0xFFFFFFFF

def consumes : FpuReg → Nat → Bool
  | fccr, i => i < 8
  | fexr, i => 2 ≤ i && i < 7 || 12 ≤ i && i < 18
  | fenr, i => i < 3 || 7 ≤ i && i < 12
  | fcsr, _ => true

/-- The bits of FCSR that `ctc1` writes. -/
def target : FpuReg → Word
  | fccr => 0xFE800000
  | fexr => 0x0003F07C
  | fenr => 0x01000F83
  | fcsr => 0xFFFFFFFF

def writes : FpuReg → Nat → Bool
  | fccr, i => i == 23 || 25 ≤ i
  | fexr, i => 2 ≤ i && i < 7 || 12 ≤ i && i < 18
  | fenr, i => i < 2 || 7 ≤ i && i < 12 || i == 24
  | fcsr, _ => true

end FpuReg

theorem getLsbD_consumed (n : FpuReg) : ∀ i < 32, n.consumed.getLsbD i = n.consumes i := by
  cases n <;> decide

theorem getLsbD_target (n : FpuReg) : ∀ i < 32, n.target.getLsbD i = n.writes i := by
  cases n <;> decide

/-! ## Bits of the views -/

section Bits

variable (f x : Word) {i : Nat} (hi : i < 32)
include hi

theorem cfc1_fccr :
    (cfc1Value f 25).getLsbD i = if i = 23 ∨ 25 ≤ i then f.getLsbD i else false := by
  change (setField (setField 0 25 (field f 25 7)) 23 (field f 23 1)).getLsbD i = _
  simp only [getLsbD_copyField _ _ _ _ _ hi]
  split_ifs <;>
    first | rfl | omega | exact getLsbD_zero_word i | exact congrArg f.getLsbD (by omega)

theorem cfc1_fexr :
    (cfc1Value f 26).getLsbD i =
      if 2 ≤ i ∧ i < 7 ∨ 12 ≤ i ∧ i < 18 then f.getLsbD i else false := by
  change (setField (setField 0 2 (field f 2 5)) 12 (field f 12 6)).getLsbD i = _
  simp only [getLsbD_copyField _ _ _ _ _ hi]
  split_ifs <;>
    first | rfl | omega | exact getLsbD_zero_word i | exact congrArg f.getLsbD (by omega)

theorem cfc1_fenr :
    (cfc1Value f 28).getLsbD i =
      if i < 2 ∨ 7 ≤ i ∧ i < 12 then f.getLsbD i
      else if i = 2 then f.getLsbD 23 else false := by
  change (setField (setField (setField 0 0 (field f 0 2)) 2 ((field f 23 1).setWidth 5)) 7
    (field f 7 5)).getLsbD i = _
  rw [getLsbD_copyField _ _ _ _ _ hi, getLsbD_setField _ _ _ hi, getLsbD_copyField _ _ _ _ _ hi,
    BitVec.getLsbD_setWidth, getLsbD_field]
  split_ifs with h7 _ _ h2 _ h2 <;>
    try first | rfl | omega | exact getLsbD_zero_word i | exact congrArg f.getLsbD (by omega)
  · subst h2
    rfl
  · simp [show ¬ i - 2 = 0 by omega]

theorem ctc1_fccr :
    (ctc1Value f 25 x).getLsbD i =
      if i = 23 then x.getLsbD 0 else if 25 ≤ i then x.getLsbD (i - 24) else f.getLsbD i := by
  change (setField (setField f 23 (field x 0 1)) 25 (field x 1 7)).getLsbD i = _
  simp only [getLsbD_copyField _ _ _ _ _ hi]
  split_ifs <;> first | rfl | omega | exact congrArg x.getLsbD (by omega)

theorem ctc1_fexr :
    (ctc1Value f 26 x).getLsbD i =
      if 2 ≤ i ∧ i < 7 ∨ 12 ≤ i ∧ i < 18 then x.getLsbD i else f.getLsbD i := by
  change (setField (setField f 2 (field x 2 5)) 12 (field x 12 6)).getLsbD i = _
  simp only [getLsbD_copyField _ _ _ _ _ hi]
  split_ifs <;> first | rfl | omega | exact congrArg x.getLsbD (by omega)

theorem ctc1_fenr :
    (ctc1Value f 28 x).getLsbD i =
      if i < 2 ∨ 7 ≤ i ∧ i < 12 then x.getLsbD i
      else if i = 24 then x.getLsbD 2 else f.getLsbD i := by
  change (setField (setField (setField f 0 (field x 0 2)) 7 (field x 7 5)) 24
    (field x 2 1)).getLsbD i = _
  simp only [getLsbD_copyField _ _ _ _ _ hi]
  split_ifs <;> first | rfl | omega | exact congrArg x.getLsbD (by omega)

end Bits

/-! ## Writing and reading a view -/

/-- `ctc1` changes no bit of FCSR outside its target. -/
theorem ctc1_of_not_writes (n : FpuReg) (f x : Word) {i : Nat} (hi : i < 32)
    (h : n.writes i = false) : (ctc1Value f n.num x).getLsbD i = f.getLsbD i := by
  cases n with
  | fccr =>
    simp only [FpuReg.writes, Bool.or_eq_false_iff, beq_eq_false_iff_ne,
      decide_eq_false_iff_not] at h
    rw [FpuReg.num, ctc1_fccr f x hi, if_neg h.1, if_neg h.2]
  | fexr =>
    simp only [FpuReg.writes, Bool.or_eq_false_iff, Bool.and_eq_false_iff,
      decide_eq_false_iff_not] at h
    rw [FpuReg.num, ctc1_fexr f x hi, if_neg (by omega)]
  | fenr =>
    simp only [FpuReg.writes, Bool.or_eq_false_iff, Bool.and_eq_false_iff, beq_eq_false_iff_ne,
      decide_eq_false_iff_not] at h
    rw [FpuReg.num, ctc1_fenr f x hi, if_neg (by omega), if_neg h.2]
  | fcsr => exact Bool.noConfusion h

/-- `ctc1` of 0 clears its target. -/
theorem ctc1_zero (n : FpuReg) (f : Word) : ctc1Value f n.num 0 = f &&& ~~~n.target := by
  apply BitVec.eq_of_getLsbD_eq
  intro i hi
  rw [BitVec.getLsbD_and, BitVec.getLsbD_not, getLsbD_target n i hi]
  cases hw : n.writes i with
  | false =>
    rw [ctc1_of_not_writes n f 0 hi hw]
    simp [hi]
  | true =>
    cases n with
    | fccr =>
      simp only [FpuReg.writes, Bool.or_eq_true, beq_iff_eq, decide_eq_true_eq] at hw
      rw [FpuReg.num, ctc1_fccr f 0 hi]
      split_ifs <;> first | omega | simp
    | fexr =>
      simp only [FpuReg.writes, Bool.or_eq_true, Bool.and_eq_true, decide_eq_true_eq] at hw
      rw [FpuReg.num, ctc1_fexr f 0 hi, if_pos hw]
      simp
    | fenr =>
      simp only [FpuReg.writes, Bool.or_eq_true, Bool.and_eq_true, beq_iff_eq,
        decide_eq_true_eq] at hw
      rw [FpuReg.num, ctc1_fenr f 0 hi]
      split_ifs <;> first | omega | simp
    | fcsr => simp [FpuReg.num, ctc1Value]

/-- The condition codes that `cfc1` shows in FCCR are not where `ctc1` looks for them. -/
theorem ctc1_cfc1_fccr (f : Word) :
    ctc1Value f 25 (cfc1Value f 25) = f &&& ~~~FpuReg.fccr.target := by
  have hlow : ∀ j < 8, (cfc1Value f 25).getLsbD j = false := by
    intro j hj
    rw [cfc1_fccr f (by omega), if_neg (by omega)]
  rw [← ctc1_zero .fccr f]
  apply BitVec.eq_of_getLsbD_eq
  intro i hi
  rw [FpuReg.num, ctc1_fccr _ _ hi, ctc1_fccr _ _ hi, hlow 0 (by omega), hlow (i - 24) (by omega),
    getLsbD_zero_word, getLsbD_zero_word]

theorem ctc1_cfc1_fexr (f : Word) : ctc1Value f 26 (cfc1Value f 26) = f := by
  apply BitVec.eq_of_getLsbD_eq
  intro i hi
  rw [ctc1_fexr _ _ hi, cfc1_fexr f hi]
  split_ifs <;> rfl

/-- The flush bit of FENR comes back as condition code 0. -/
theorem ctc1_cfc1_fenr (f : Word) :
    ctc1Value f 28 (cfc1Value f 28) = f ↔ f.getLsbD 24 = f.getLsbD 23 := by
  have hbit : ∀ i < 32, (ctc1Value f 28 (cfc1Value f 28)).getLsbD i =
      if i = 24 then f.getLsbD 23 else f.getLsbD i := by
    intro i hi
    rw [ctc1_fenr _ _ hi, cfc1_fenr f hi, cfc1_fenr f (by omega : 2 < 32)]
    split_ifs <;> first | rfl | omega
  constructor
  · intro h
    have h24 := hbit 24 (by omega)
    rwa [h, if_pos rfl] at h24
  · intro h
    apply BitVec.eq_of_getLsbD_eq
    intro i hi
    rw [hbit i hi]
    split_ifs with h24
    · rw [h24, h]
    · rfl

theorem cfc1_ctc1_fccr (f x : Word) :
    cfc1Value (ctc1Value f 25 x) 25 = x &&& FpuReg.fccr.consumed ↔
      x &&& FpuReg.fccr.consumed = 0 := by
  have hbit : ∀ i < 32, (cfc1Value (ctc1Value f 25 x) 25).getLsbD i =
      if i = 23 then x.getLsbD 0 else if 25 ≤ i then x.getLsbD (i - 24) else false := by
    intro i hi
    rw [cfc1_fccr _ hi, ctc1_fccr _ _ hi]
    split_ifs <;> first | rfl | omega
  constructor
  · intro h
    apply BitVec.eq_of_getLsbD_eq
    intro i hi
    by_cases h8 : i < 8
    · rw [← h, hbit i hi, if_neg (by omega), if_neg (by omega), getLsbD_zero_word]
    · rw [BitVec.getLsbD_and, getLsbD_consumed _ i hi]
      simp [FpuReg.consumes, h8]
  · intro h
    have hx : ∀ j < 8, x.getLsbD j = false := by
      intro j hj
      have h0 := congrArg (BitVec.getLsbD · j) h
      simpa [BitVec.getLsbD_and, getLsbD_consumed .fccr j (by omega), FpuReg.consumes, hj] using h0
    rw [h]
    apply BitVec.eq_of_getLsbD_eq
    intro i hi
    rw [hbit i hi, getLsbD_zero_word]
    split_ifs
    · exact hx 0 (by omega)
    · exact hx (i - 24) (by omega)
    · rfl

theorem cfc1_ctc1_fexr (f x : Word) :
    cfc1Value (ctc1Value f 26 x) 26 = x &&& FpuReg.fexr.consumed := by
  apply BitVec.eq_of_getLsbD_eq
  intro i hi
  rw [cfc1_fexr _ hi, ctc1_fexr _ _ hi, BitVec.getLsbD_and, getLsbD_consumed _ i hi]
  split_ifs with h
  · have hc : FpuReg.fexr.consumes i = true := by simpa [FpuReg.consumes] using h
    rw [hc, Bool.and_true]
  · have hc : FpuReg.fexr.consumes i = false := by simp [FpuReg.consumes]; omega
    rw [hc, Bool.and_false]

theorem cfc1_ctc1_fenr (f x : Word) :
    cfc1Value (ctc1Value f 28 x) 28 = x &&& FpuReg.fenr.consumed ↔
      x.getLsbD 2 = f.getLsbD 23 := by
  have hbit : ∀ i < 32, (cfc1Value (ctc1Value f 28 x) 28).getLsbD i =
      if i < 2 ∨ 7 ≤ i ∧ i < 12 then x.getLsbD i
      else if i = 2 then f.getLsbD 23 else false := by
    intro i hi
    rw [cfc1_fenr _ hi, ctc1_fenr _ _ hi, ctc1_fenr _ _ (by omega : 23 < 32)]
    split_ifs <;> first | rfl | omega
  have hmask : ∀ i < 32, (x &&& FpuReg.fenr.consumed).getLsbD i =
      (x.getLsbD i && decide (i < 3 ∨ 7 ≤ i ∧ i < 12)) := by
    intro i hi
    rw [BitVec.getLsbD_and, getLsbD_consumed _ i hi]
    simp [FpuReg.consumes]
  constructor
  · intro h
    have h2 := congrArg (BitVec.getLsbD · 2) h
    rw [hbit 2 (by omega), hmask 2 (by omega)] at h2
    simpa using h2.symm
  · intro h
    apply BitVec.eq_of_getLsbD_eq
    intro i hi
    rw [hbit i hi, hmask i hi]
    split_ifs with h7 h2
    · simp [show i < 3 ∨ 7 ≤ i ∧ i < 12 by omega]
    · rw [h2, h]
      simp
    · simp [show ¬(i < 3 ∨ 7 ≤ i ∧ i < 12) by omega]

/-! ## The instructions -/

/-- CFC1 and then CTC1 of the same register bring FCSR back. Between two instructions GPR 0 is
    cleared. -/
def SavedRestored (P : Platform D) (n : FpuReg) (o : Ops) (s : Machine D) : Prop :=
  ∃ t u, exec P { o with fs := n.num } .cfc1 s.zeroGpr = .ok () t ∧
    exec P { o with fs := n.num } .ctc1 t.zeroGpr = .ok () u ∧ u.cpu.fcsr = s.cpu.fcsr

/-- CTC1 of a register changes what it writes only, and CFC1 then gives what CTC1 consumed. -/
def RestoredSaved (P : Platform D) (n : FpuReg) (o o' : Ops) (s : Machine D) : Prop :=
  ∃ t u, exec P { o with fs := n.num } .ctc1 s.zeroGpr = .ok () t ∧
    exec P { o' with fs := n.num } .cfc1 t.zeroGpr = .ok () u ∧
    (∀ i < 32, n.target.getLsbD i = false → t.cpu.fcsr.getLsbD i = s.cpu.fcsr.getLsbD i) ∧
    u.cpu.gpr o'.rt = s.zeroGpr.cpu.gpr o.rt &&& n.consumed

/-- When saving through `rt` and restoring keeps FCSR `f`. -/
def SaveKeeps (n : FpuReg) (rt : BitVec 5) (f : Word) : Prop :=
  if rt = 0 then f &&& n.target = 0
  else if n = .fccr then f &&& n.target = 0
  else n = .fenr → f.getLsbD 24 = f.getLsbD 23

/-- When `x`, written to FCSR `f` and read again, comes back. -/
def RestoreKeeps (n : FpuReg) (x f : Word) : Prop :=
  if n = .fccr then x &&& n.consumed = 0 else n = .fenr → x.getLsbD 2 = f.getLsbD 23

theorem exec_cfc1 (P : Platform D) (n : FpuReg) (o : Ops) (s : Machine D) :
    ∃ t, exec P { o with fs := n.num } .cfc1 s = .ok () t ∧ t.cpu.fcsr = s.cpu.fcsr ∧
      t.cpu.gpr = Function.update (Function.update s.cpu.gpr o.rt 0) o.rt
        (cfc1Value s.cpu.fcsr n.num) := by
  have hb : body P { o with fs := n.num } .cfc1 =
      .ofRegs fun c => (c.setGpr o.rt 0).setGpr o.rt (cfc1Value c.fcsr n.num) := by
    cases n <;> rfl
  rw [exec, hb]
  exact ⟨_, rfl, rfl, rfl⟩

theorem exec_ctc1 (P : Platform D) (n : FpuReg) (o : Ops) (s : Machine D) :
    ∃ t, exec P { o with fs := n.num } .ctc1 s = .ok () t ∧
      t.cpu.fcsr = ctc1Value s.cpu.fcsr n.num (s.cpu.gpr o.rt) ∧ t.cpu.gpr = s.cpu.gpr :=
  ⟨_, rfl, rfl, rfl⟩

theorem savedRestored_iff (P : Platform D) (n : FpuReg) (o : Ops) (s : Machine D) :
    SavedRestored P n o s ↔ SaveKeeps n o.rt s.cpu.fcsr := by
  obtain ⟨t, ht, hf, hg⟩ := exec_cfc1 P n o s.zeroGpr
  obtain ⟨u, hu, hf', -⟩ := exec_ctc1 P n o t.zeroGpr
  have hval : SavedRestored P n o s ↔ u.cpu.fcsr = s.cpu.fcsr := by
    constructor
    · rintro ⟨t', u', ht', hu', h⟩
      obtain rfl : t = t' := by rw [ht] at ht'; exact (EStateM.Result.ok.inj ht').2
      obtain rfl : u = u' := by rw [hu] at hu'; exact (EStateM.Result.ok.inj hu').2
      exact h
    · exact fun h => ⟨t, u, ht, hu, h⟩
  have hfcsr : t.zeroGpr.cpu.fcsr = s.cpu.fcsr := hf
  rw [hval, hf', hfcsr, SaveKeeps]
  by_cases h0 : o.rt = 0
  · have hz : t.zeroGpr.cpu.gpr o.rt = 0 := by
      change Function.update t.cpu.gpr 0 0 o.rt = 0
      rw [h0, Function.update_self]
    rw [if_pos h0, hz, ctc1_zero, Words.and_not_eq_self_iff]
    rfl
  · have hv : t.zeroGpr.cpu.gpr o.rt = cfc1Value s.cpu.fcsr n.num := by
      change Function.update t.cpu.gpr 0 0 o.rt = _
      rw [Function.update_of_ne h0, hg, Function.update_self]
      rfl
    rw [if_neg h0, hv]
    cases n with
    | fccr =>
      rw [if_pos rfl, FpuReg.num, ctc1_cfc1_fccr, Words.and_not_eq_self_iff]
      rfl
    | fexr =>
      rw [if_neg (by decide)]
      exact iff_of_true (ctc1_cfc1_fexr s.cpu.fcsr) fun h => absurd h (by decide)
    | fenr =>
      rw [if_neg (by decide)]
      exact (ctc1_cfc1_fenr s.cpu.fcsr).trans ⟨fun h _ => h, fun h => h rfl⟩
    | fcsr =>
      rw [if_neg (by decide)]
      exact iff_of_true rfl fun h => absurd h (by decide)

theorem restoredSaved_iff (P : Platform D) (n : FpuReg) (o o' : Ops) (s : Machine D) :
    RestoredSaved P n o o' s ↔ RestoreKeeps n (s.zeroGpr.cpu.gpr o.rt) s.cpu.fcsr := by
  obtain ⟨t, ht, hf, -⟩ := exec_ctc1 P n o s.zeroGpr
  obtain ⟨u, hu, -, hg⟩ := exec_cfc1 P n o' t.zeroGpr
  have hout : ∀ i < 32, n.target.getLsbD i = false →
      t.cpu.fcsr.getLsbD i = s.cpu.fcsr.getLsbD i := by
    intro i hi hn
    rw [getLsbD_target n i hi] at hn
    rw [hf]
    exact ctc1_of_not_writes n _ _ hi hn
  have hv : u.cpu.gpr o'.rt =
      cfc1Value (ctc1Value s.cpu.fcsr n.num (s.zeroGpr.cpu.gpr o.rt)) n.num := by
    rw [hg, Function.update_self]
    exact congrArg (cfc1Value · n.num) hf
  have hval : RestoredSaved P n o o' s ↔
      u.cpu.gpr o'.rt = s.zeroGpr.cpu.gpr o.rt &&& n.consumed := by
    constructor
    · rintro ⟨t', u', ht', hu', -, h⟩
      obtain rfl : t = t' := by rw [ht] at ht'; exact (EStateM.Result.ok.inj ht').2
      obtain rfl : u = u' := by rw [hu] at hu'; exact (EStateM.Result.ok.inj hu').2
      exact h
    · exact fun h => ⟨t, u, ht, hu, hout, h⟩
  rw [hval, hv, RestoreKeeps]
  cases n with
  | fccr =>
    rw [if_pos rfl]
    exact cfc1_ctc1_fccr s.cpu.fcsr _
  | fexr =>
    rw [if_neg (by decide)]
    exact iff_of_true (cfc1_ctc1_fexr s.cpu.fcsr _) fun h => absurd h (by decide)
  | fenr =>
    rw [if_neg (by decide)]
    exact (cfc1_ctc1_fenr s.cpu.fcsr _).trans ⟨fun h _ => h, fun h => h rfl⟩
  | fcsr =>
    rw [if_neg (by decide)]
    exact iff_of_true BitVec.and_allOnes.symm fun h => absurd h (by decide)

/-- A control register is saved and restored through `rt`, or written and read again, without
    loss exactly under these conditions on FCSR and on the operand. -/
theorem fpuControl_iff (P : Platform D) (n : FpuReg) (o o' : Ops) (s : Machine D) :
    (SavedRestored P n o s ↔ SaveKeeps n o.rt s.cpu.fcsr) ∧
      (RestoredSaved P n o o' s ↔ RestoreKeeps n (s.zeroGpr.cpu.gpr o.rt) s.cpu.fcsr) :=
  ⟨savedRestored_iff P n o s, restoredSaved_iff P n o o' s⟩

/-- `cfc1 $1, $25; ctc1 $1, $25` with condition code 0 set clears it. -/
theorem fccr_lost : ¬ SavedRestored mips32r1 .fccr (Inst.ops 0x4441C800)
    ((loaded [] []).setRegs { (loaded [] []).cpu.toRegs with fcsr := 0x00800000 }) := by
  rintro ⟨t, u, ht, hu, h⟩
  cases ht
  cases hu
  exact absurd h (by decide)

end NemuMips32
