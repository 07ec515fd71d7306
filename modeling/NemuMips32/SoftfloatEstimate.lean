/-
  The first bits of a square root (`estimateSqrt32`, `softfloat-macros.h`): a line for each
  sixteenth of the range, with an adjustment from a table, and two steps of Newton's method.

  `estimateSqrt32_within` is what the comment of the source says, the estimate is within 2 of the
  root. What the callers need is finer: of the operand as the last step uses it (`radicand`), the
  estimate is within 1 (`estimateSqrt32_spec`).
-/
import NemuMips32.Lib.Root
import NemuMips32.SoftfloatNan

namespace NemuMips32

namespace Softfloat

/-! ## softfloat-macros.h -/

def sqrtOddAdjustments : List Nat :=
  [0x0004, 0x0022, 0x005D, 0x00B1, 0x011D, 0x019F, 0x0236, 0x02E0,
    0x039C, 0x0468, 0x0545, 0x0631, 0x072B, 0x0832, 0x0946, 0x0A67]

def sqrtEvenAdjustments : List Nat :=
  [0x0A2D, 0x08AF, 0x075A, 0x0629, 0x051A, 0x0429, 0x0356, 0x029E,
    0x0200, 0x0179, 0x0109, 0x00AF, 0x0068, 0x0034, 0x0012, 0x0002]

def estimateSqrt32 (aExp : Int) (a : Nat) : Nat :=
  let index := (a >>> 27) % 16
  if aExp % 2 = 1 then
    let z := (0x4000 + (a >>> 17) + 2 ^ 32 - sqrtOddAdjustments.getD index 0) % 2 ^ 32
    let z := ((a / z) <<< 14 + z <<< 15) % 2 ^ 32
    let a := a >>> 1
    ((a <<< 31) / z % 2 ^ 32 + z >>> 1) % 2 ^ 32
  else
    let z := (0x8000 + (a >>> 17) + 2 ^ 32 - sqrtEvenAdjustments.getD index 0) % 2 ^ 32
    let z := (a / z + z) % 2 ^ 32
    let z := if 0x20000 ≤ z then 0xFFFF8000 else z <<< 15 % 2 ^ 32
    -- the shift is of a signed word
    if z ≤ a then (a >>> 1) ||| (a &&& 2 ^ 31)
    else ((a <<< 31) / z % 2 ^ 32 + z >>> 1) % 2 ^ 32

/-! ## The table -/

/-- On an interval of the table the first estimate is the line `c + j`, and the operand is `A` and
    `j` steps of `2 ^ 17`. The line is near the root of the operand's `m`-th part, if at both ends
    it is, of the chord of the parabola and of its tangent at `p`. -/
def NearRoot (m d p c A : ℤ) : Prop :=
  m * (c * c) ≤ A + d * c ∧
    m * ((c + 1023) * (c + 1023)) ≤ A + 2 ^ 17 * 1023 + d * (c + 1023) ∧
    A + 2 ^ 17 ≤ m * ((c + p) * (c + p) - 2 * (c + p) * p) + d * c ∧
    A + 2 ^ 17 * 1024 ≤ m * ((c + p) * (c + p) + 2 * (c + p) * (1023 - p)) + d * (c + 1023)

instance (m d p c A : ℤ) : Decidable (NearRoot m d p c A) :=
  inferInstanceAs (Decidable (_ ∧ _ ∧ _ ∧ _))

theorem NearRoot.bounds {m d p c A a j : ℤ} (h : NearRoot m d p c A) (hm : 0 ≤ m) (hj : 0 ≤ j)
    (hj' : j ≤ 1023) (ha : A + 2 ^ 17 * j ≤ a) (ha' : a < A + 2 ^ 17 * (j + 1)) :
    m * ((c + j) * (c + j)) ≤ a + d * (c + j) ∧ a ≤ m * ((c + j) * (c + j)) + d * (c + j) := by
  obtain ⟨h0, h1, g0, g1⟩ := h
  have hk : 0 ≤ 1023 - j := by omega
  constructor
  · -- below the chord
    have h2 := mul_le_mul_of_nonneg_left h0 hk
    have h3 := mul_le_mul_of_nonneg_left h1 hj
    have h4 : 0 ≤ m * (j * (1023 - j)) := mul_nonneg hm (mul_nonneg hj hk)
    linarith
  · -- above the tangent
    have h2 := mul_le_mul_of_nonneg_left g0 hk
    have h3 := mul_le_mul_of_nonneg_left g1 hj
    have h4 : 0 ≤ m * ((j - p) * (j - p)) := mul_nonneg hm (mul_self_nonneg _)
    linarith

/-- A table of adjustments to the line that starts at `b`. -/
def GoodTable (b m d p low : Nat) (table : List Nat) : Prop :=
  ∀ i < 16, table.getD i 0 ≤ 0x4000 ∧ low ≤ b + 0x4000 + i * 2 ^ 10 - table.getD i 0 ∧
    NearRoot m d p (b + 0x4000 + i * 2 ^ 10 - table.getD i 0 : ℕ) ((16 + i) * 2 ^ 27 : ℕ)

instance (b m d p low : Nat) (table : List Nat) : Decidable (GoodTable b m d p low table) :=
  inferInstanceAs (Decidable (∀ i < 16, _))

theorem odd_table : GoodTable 0x4000 2 700 0 0x7000 sqrtOddAdjustments := by decide

theorem even_table : GoodTable 0x8000 1 450 1023 46547 sqrtEvenAdjustments := by decide

/-- The first estimate. -/
theorem GoodTable.start {b m d p low : Nat} {table : List Nat} (ht : GoodTable b m d p low table)
    (hb : b ≤ 0x8000) {a : Nat} (ha : 2 ^ 31 ≤ a) (ha' : a < 2 ^ 32) :
    ∃ z, (b + a >>> 17 + 2 ^ 32 - table.getD (a >>> 27 % 16) 0) % 2 ^ 32 = z ∧ low ≤ z ∧
      z < 2 ^ 16 ∧ m * (z * z) ≤ a + d * z ∧ a ≤ m * (z * z) + d * z := by
  have hi : a >>> 27 % 16 < 16 := Nat.mod_lt _ (by decide)
  obtain ⟨h1, h2, hr⟩ := ht _ hi
  have hk : a >>> 17 = 0x4000 + a >>> 27 % 16 * 2 ^ 10 + a / 2 ^ 17 % 2 ^ 10 := by
    rw [Nat.shiftRight_eq_div_pow, Nat.shiftRight_eq_div_pow]
    omega
  have hbase : (16 + a >>> 27 % 16) * 2 ^ 27 + 2 ^ 17 * (a / 2 ^ 17 % 2 ^ 10) ≤ a ∧
      a < (16 + a >>> 27 % 16) * 2 ^ 27 + 2 ^ 17 * (a / 2 ^ 17 % 2 ^ 10 + 1) := by
    rw [Nat.shiftRight_eq_div_pow]
    omega
  have hj : a / 2 ^ 17 % 2 ^ 10 ≤ 1023 := by omega
  rw [hk]
  generalize a / 2 ^ 17 % 2 ^ 10 = j at *
  generalize a >>> 27 % 16 = i at *
  generalize table.getD i 0 = t at *
  have h := hr.bounds (a := (a : ℤ)) (Int.natCast_nonneg m) (Int.natCast_nonneg j)
    (by exact_mod_cast hj) (by exact_mod_cast hbase.1) (by exact_mod_cast hbase.2)
  refine ⟨b + 0x4000 + i * 2 ^ 10 - t + j, ?_, by omega, ?_, by exact_mod_cast h.1,
    by exact_mod_cast h.2⟩
  · omega
  · omega

/-! ## The estimate -/

/-- A step of Newton's method between two bounds, for a square from `2 ^ 62` on. -/
theorem newton_step {m h : Nat} (hm : 2 ^ 61 ≤ m) (hh : 0 < h)
    (hlo : 2 * h * h ≤ m + 2 * h * (3 * 2 ^ 14)) (hhi : m ≤ 2 * h * h + 2 * h * (3 * 2 ^ 14)) :
    2 ^ 31 ≤ m / (2 * h) + h ∧ 2 * m < (m / (2 * h) + h + 1) ^ 2 ∧
      (m / (2 * h) + h - 1) ^ 2 ≤ 2 * m := by
  have hlow := Ieee.newton_lower m hh
  have hroot : 2 ^ 31 ≤ m / (2 * h) + h := by
    by_contra hc
    have : (m / (2 * h) + h + 1) ^ 2 ≤ (2 ^ 31) ^ 2 := Nat.pow_le_pow_left (by omega) 2
    omega
  exact ⟨hroot, hlow, Ieee.newton_upper (Ieee.newton_gap hh hlo hhi) (by omega)⟩

/-- The mean as the source computes it. -/
theorem mean_word {m h : Nat} (hlt : m / (2 * h) + h < 2 ^ 32) :
    (m / (2 * h) % 2 ^ 32 + (2 * h) >>> 1) % 2 ^ 32 = m / (2 * h) + h := by
  have hhalf : (2 * h) >>> 1 = h := by
    rw [Nat.shiftRight_eq_div_pow]
    omega
  rw [hhalf]
  generalize m / (2 * h) = q at *
  omega

/-- A quotient near `k * z`, and what its mean with `k * z` has to do with the dividend. -/
theorem near_mean {a z k d : Nat} (hz : 0 < z) (h1 : k * (z * z) ≤ a + d * z)
    (h2 : a ≤ k * (z * z) + d * z) :
    k * z ≤ a / z + d ∧ a / z ≤ k * z + d ∧
      (a / z + k * z) * (a / z + k * z) ≤ 4 * k * a + d * d ∧
      4 * k * a ≤ (a / z + k * z) * (a / z + k * z) + 4 * k * z := by
  have hdm := Nat.div_add_mod a z
  have hmod := Nat.mod_lt a hz
  have hq : k * z ≤ a / z + d := by
    have : k * z - d ≤ a / z := by
      rw [Nat.le_div_iff_mul_le hz, Nat.sub_mul, Nat.mul_assoc]
      omega
    omega
  have hq' : a / z ≤ k * z + d := by
    have : a / z < k * z + d + 1 := by
      rw [Nat.div_lt_iff_lt_mul hz]
      have : (k * z + d + 1) * z = k * (z * z) + d * z + z := by ring
      omega
    omega
  have hsq : ((a / z : ℕ) - (k * z : ℕ) : ℤ) ^ 2 ≤ d ^ 2 := sq_le_sq' (by omega) (by omega)
  have hk : k * (a % z) ≤ k * z := Nat.mul_le_mul_left k hmod.le
  refine ⟨hq, hq', ?_, ?_⟩
  all_goals
    generalize a / z = q at *
    generalize a % z = r at *
    subst hdm
    zify at hk ⊢
    push_cast at hsq
    nlinarith

theorem and_two_pow_of_bit {x k : Nat} (h : x / 2 ^ k % 2 = 1) : x &&& 2 ^ k = 2 ^ k := by
  apply Nat.eq_of_testBit_eq
  intro i
  rw [Nat.testBit_and, Nat.testBit_two_pow]
  by_cases hi : k = i
  · subst hi
    simp [Nat.testBit_eq_decide_div_mod_eq, h]
  · simp [hi]

/-- Close to `2 ^ 32`, the mean with it is as good an estimate of the root. -/
theorem arithmetic_mean {a : Nat} (ha : 2 ^ 32 ≤ a + 98304) (ha' : a < 2 ^ 32) :
    a * 2 ^ 32 < (a / 2 + 2 ^ 31 + 1) ^ 2 ∧ (a / 2 + 2 ^ 31 - 1) ^ 2 ≤ a * 2 ^ 32 := by
  obtain ⟨b, r, rfl, hr⟩ : ∃ b r, a = 2 * b + r ∧ r < 2 :=
    ⟨a / 2, a % 2, (Nat.div_add_mod a 2).symm, Nat.mod_lt _ (by decide)⟩
  obtain ⟨d, hd⟩ : ∃ d, 2 ^ 31 = b + d := ⟨2 ^ 31 - b, by omega⟩
  have hd2 : d * d ≤ 49152 * 49152 := Nat.mul_le_mul (by omega) (by omega)
  have hrb : r * (b + d) ≤ 1 * (b + d) := Nat.mul_le_mul_right _ (by omega)
  have h32 : 2 ^ 32 = 2 * (b + d) := by omega
  have hprod : (2 * b + r) * 2 ^ 32 = 4 * (b * b) + 4 * (b * d) + 2 * (r * (b + d)) := by
    rw [h32]
    ring
  have hhalf : (2 * b + r) / 2 = b := by omega
  rw [hprod, hhalf, hd]
  constructor
  · have : (b + (b + d) + 1) ^ 2 = 4 * (b * b) + 4 * (b * d) + d * d + 4 * b + 2 * d + 1 := by ring
    omega
  · obtain ⟨c, rfl⟩ : ∃ c, b = c + 1 := ⟨b - 1, by omega⟩
    have : (c + 1 + (c + 1 + d) - 1) ^ 2 =
        4 * (c * c) + 4 * (c * d) + d * d + 4 * c + 2 * d + 1 := by
      rw [show c + 1 + (c + 1 + d) - 1 = 2 * c + d + 1 by omega]
      ring
    have h2 : 4 * ((c + 1) * (c + 1)) + 4 * ((c + 1) * d) =
        4 * (c * c) + 8 * c + 4 + 4 * (c * d) + 4 * d := by ring
    omega

/-- The number whose root is estimated. -/
def radicand (aExp : Int) (a : Nat) : Nat := if aExp % 2 = 1 then a / 2 * 2 ^ 32 else a * 2 ^ 32

theorem estimate_odd {a : Nat} {e : Int} (ha : 2 ^ 31 ≤ a) (ha' : a < 2 ^ 32) (he : e % 2 = 1) :
    2 ^ 31 ≤ estimateSqrt32 e a ∧ estimateSqrt32 e a < 2 ^ 32 ∧
      a / 2 * 2 ^ 32 < (estimateSqrt32 e a + 1) ^ 2 ∧
      (estimateSqrt32 e a - 1) ^ 2 ≤ a / 2 * 2 ^ 32 := by
  obtain ⟨z, hz, hlow, -, h1, h2⟩ := odd_table.start (by decide) ha ha'
  obtain ⟨hq, hq', hw, hw'⟩ := near_mean (by omega) h1 h2
  have hz47 : z < 47000 := by
    by_contra hc
    have := Nat.mul_le_mul_right z (Nat.not_lt.1 hc)
    omega
  -- the second estimate is `2 ^ 14 * w`
  have hword : (a / z) <<< 14 + z <<< 15 = 2 ^ 14 * (a / z + 2 * z) := by
    rw [Nat.shiftLeft_eq, Nat.shiftLeft_eq]
    omega
  unfold estimateSqrt32
  simp only []
  rw [if_pos he, hz, hword, Nat.mod_eq_of_lt (by omega : 2 ^ 14 * (a / z + 2 * z) < 2 ^ 32)]
  generalize a / z + 2 * z = w at *
  have hsq : 2 * (2 ^ 13 * w) * (2 ^ 13 * w) = 2 ^ 27 * (w * w) := by ring
  obtain ⟨h3, h4, h5⟩ := newton_step (m := a / 2 * 2 ^ 31) (h := 2 ^ 13 * w) (by omega) (by omega)
    (by omega) (by omega)
  have hdiv : 2 * (2 ^ 13 * w) = 2 ^ 14 * w := by ring
  have hnum : 2 * (a / 2 * 2 ^ 31) = a / 2 * 2 ^ 32 := by ring
  rw [hdiv, hnum] at h4 h5
  rw [hdiv] at h3
  have hlt : a / 2 * 2 ^ 31 / (2 ^ 14 * w) + 2 ^ 13 * w < 2 ^ 32 := by
    by_contra hc
    have : (2 ^ 32 - 1) ^ 2 ≤ (a / 2 * 2 ^ 31 / (2 ^ 14 * w) + 2 ^ 13 * w - 1) ^ 2 :=
      Nat.pow_le_pow_left (by omega) 2
    omega
  rw [Nat.shiftRight_eq_div_pow, Nat.pow_one, Nat.shiftLeft_eq, ← hdiv, mean_word (by rwa [hdiv]),
    hdiv]
  exact ⟨h3, hlt, h4, h5⟩

theorem estimate_even {a : Nat} {e : Int} (ha : 2 ^ 31 ≤ a) (ha' : a < 2 ^ 32)
    (he : ¬ e % 2 = 1) :
    2 ^ 31 ≤ estimateSqrt32 e a ∧ estimateSqrt32 e a < 2 ^ 32 ∧
      a * 2 ^ 32 < (estimateSqrt32 e a + 1) ^ 2 ∧
      (estimateSqrt32 e a - 1) ^ 2 ≤ a * 2 ^ 32 := by
  obtain ⟨z, hz, hlow, hz16, h1, h2⟩ := even_table.start (by decide) ha ha'
  obtain ⟨hq, hq', hw, hw'⟩ := near_mean (by omega) h1 h2
  rw [Nat.one_mul] at hq hq' hw hw'
  -- the second estimate is `2 ^ 15 * w`, unless that is more than a word
  obtain ⟨w, hword, hw0, hw1, hw2, hw3⟩ : ∃ w,
      (if 0x20000 ≤ a / z + z then 0xFFFF8000 else (a / z + z) <<< 15 % 2 ^ 32) = 2 ^ 15 * w ∧
        92000 ≤ w ∧ w < 2 ^ 17 ∧ w * w ≤ 4 * a + 3 * w ∧ 4 * a ≤ w * w + 3 * w := by
    by_cases hc : 0x20000 ≤ a / z + z
    · have := Nat.mul_le_mul hc hc
      rw [if_pos hc]
      exact ⟨2 ^ 17 - 1, by decide, by decide, by decide, by omega, by omega⟩
    · refine ⟨a / z + z, ?_, by omega, by omega, by omega, by omega⟩
      rw [if_neg hc, Nat.shiftLeft_eq]
      omega
  unfold estimateSqrt32
  simp only []
  rw [if_neg he, hz, Nat.mod_eq_of_lt (by omega : a / z + z < 2 ^ 32), hword]
  by_cases hc : 2 ^ 15 * w ≤ a
  · -- only next to the end of the range, where the root is near the arithmetic mean
    have hmean : 2 ^ 17 ≤ w + 3 := by
      have : w * 2 ^ 17 ≤ w * (w + 3) := by
        rw [Nat.mul_add w w 3]
        omega
      exact Nat.le_of_mul_le_mul_left this (by omega)
    have hor : (a >>> 1) ||| (a &&& 2 ^ 31) = a / 2 + 2 ^ 31 := by
      rw [and_two_pow_of_bit (by omega), Nat.shiftRight_eq_div_pow, Nat.pow_one,
        or_two_pow (by omega)]
    rw [if_pos hc, hor]
    exact ⟨by omega, by omega, arithmetic_mean (by omega) ha'⟩
  · have hsq : 2 * (2 ^ 14 * w) * (2 ^ 14 * w) = 2 ^ 29 * (w * w) := by ring
    obtain ⟨h3, h4, h5⟩ := newton_step (m := a * 2 ^ 31) (h := 2 ^ 14 * w) (by omega) (by omega)
      (by omega) (by omega)
    have hdiv : 2 * (2 ^ 14 * w) = 2 ^ 15 * w := by ring
    have hnum : 2 * (a * 2 ^ 31) = a * 2 ^ 32 := by ring
    rw [hnum] at h4 h5
    have hlt : a * 2 ^ 31 / (2 * (2 ^ 14 * w)) + 2 ^ 14 * w < 2 ^ 32 := by
      have hlow : a < 2 * (2 ^ 14 * w) := by omega
      have := (Nat.div_lt_iff_lt_mul (by omega)).2
        (Nat.mul_lt_mul_of_pos_left hlow (Nat.two_pow_pos 31))
      rw [Nat.mul_comm (2 ^ 31) a] at this
      omega
    rw [if_neg hc, Nat.shiftLeft_eq, ← hdiv, mean_word hlt]
    exact ⟨h3, hlt, h4, h5⟩

theorem estimateSqrt32_spec {a : Nat} (e : Int) (ha : 2 ^ 31 ≤ a) (ha' : a < 2 ^ 32) :
    2 ^ 31 ≤ estimateSqrt32 e a ∧ estimateSqrt32 e a < 2 ^ 32 ∧
      radicand e a < (estimateSqrt32 e a + 1) ^ 2 ∧
      (estimateSqrt32 e a - 1) ^ 2 ≤ radicand e a := by
  unfold radicand
  split_ifs with he
  · exact estimate_odd ha ha' he
  · exact estimate_even ha ha' he

/-! ## The bound of the source -/

/-- The root of `a` over a power of two, in units of `2 ^ -31`. -/
theorem scaled_sqrt (a : Nat) {k : Nat} (hk : k ≤ 62) :
    2 ^ 31 * √((a : ℝ) / 2 ^ k) = √((a * 2 ^ (62 - k) : ℕ) : ℝ) := by
  have hpow : (2 : ℝ) ^ 62 = 2 ^ (62 - k) * 2 ^ k := by
    rw [← pow_add, Nat.sub_add_cancel hk]
  have hcast : ((a * 2 ^ (62 - k) : ℕ) : ℝ) = 2 ^ 31 * 2 ^ 31 * ((a : ℝ) / 2 ^ k) := by
    have h31 : (2 : ℝ) ^ 31 * 2 ^ 31 = 2 ^ 62 := by norm_num
    rw [h31, hpow]
    push_cast
    field_simp
  rw [hcast, Real.sqrt_mul (by positivity), Real.sqrt_mul_self (by positivity)]

/-- In the last step of an odd exponent the lowest bit of the operand is gone, which costs less
    than one more unit. -/
theorem estimateSqrt32_bounds {a : Nat} (e : Int) (ha : 2 ^ 31 ≤ a) (ha' : a < 2 ^ 32) :
    (estimateSqrt32 e a - 1) ^ 2 ≤ a * 2 ^ (62 - if e % 2 = 1 then 31 else 30) ∧
      a * 2 ^ (62 - if e % 2 = 1 then 31 else 30) < (estimateSqrt32 e a + 2) ^ 2 := by
  obtain ⟨h1, -, h2, h3⟩ := estimateSqrt32_spec e ha ha'
  have hnext : (estimateSqrt32 e a + 2) ^ 2 =
      (estimateSqrt32 e a + 1) ^ 2 + 2 * estimateSqrt32 e a + 3 := by ring
  unfold radicand at h2 h3
  rw [hnext]
  generalize estimateSqrt32 e a = E at *
  split_ifs at * with he
  · omega
  · omega

theorem estimateSqrt32_within {a : Nat} (e : Int) (ha : 2 ^ 31 ≤ a) (ha' : a < 2 ^ 32) :
    |(estimateSqrt32 e a : ℝ) - 2 ^ 31 * √((a : ℝ) / 2 ^ (if e % 2 = 1 then 31 else 30))| < 2 := by
  obtain ⟨h1, -⟩ := estimateSqrt32_spec e ha ha'
  obtain ⟨h2, h3⟩ := estimateSqrt32_bounds e ha ha'
  rw [scaled_sqrt a (by split_ifs <;> decide)]
  generalize a * 2 ^ (62 - if e % 2 = 1 then 31 else 30) = n at *
  generalize estimateSqrt32 e a = E at *
  have hlow : ((E - 1 : ℕ) : ℝ) ≤ √n := Real.le_sqrt_of_sq_le (by exact_mod_cast h2)
  have hhigh : √n < ((E + 2 : ℕ) : ℝ) := by
    rw [Real.sqrt_lt' (by positivity)]
    exact_mod_cast h3
  rw [Nat.cast_sub (by omega)] at hlow
  push_cast at hlow hhigh
  rw [abs_lt]
  constructor <;> linarith

/-- The least operand, with either exponent. -/
theorem estimateSqrt32_within_demo :
    |(estimateSqrt32 0 (2 ^ 31) : ℝ) - 2 ^ 31 * √(((2 ^ 31 : ℕ) : ℝ) / 2 ^ 30)| < 2 ∧
      |(estimateSqrt32 1 (2 ^ 31) : ℝ) - 2 ^ 31 * √(((2 ^ 31 : ℕ) : ℝ) / 2 ^ 31)| < 2 :=
  ⟨estimateSqrt32_within 0 le_rfl (by decide), estimateSqrt32_within 1 le_rfl (by decide)⟩

end Softfloat

end NemuMips32
