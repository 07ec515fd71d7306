/-
  Binary floating point formats: the fields of a bit pattern, the number it stands for, and the
  comparison predicates. A pattern is given as a natural number, so that one definition serves
  every width. Nothing here knows about a particular machine.

  * `Format.value`: the exact value of a finite pattern, as a rational.
  * `Format.unordered`, `Format.less`, `Format.equal`: the relations between two patterns, of
    which exactly one of unordered, less, equal, greater holds. Both zeros have value 0.
  * `truncate`: rounding toward zero. `roundQuot`: rounding a quotient to the nearest integer,
    ties to even; `roundQuot_jam` is the reason for a sticky bit.
-/
import Mathlib.Algebra.Order.Field.Rat
import Mathlib.Data.Rat.Floor
import Mathlib.Order.WithBot
import Mathlib.Tactic.Linarith
import Mathlib.Tactic.Ring

namespace Ieee

/-- A format: the widths of the exponent and of the fraction. -/
structure Format where
  expBits : Nat
  fracBits : Nat

def binary32 : Format := ⟨8, 23⟩
def binary64 : Format := ⟨11, 52⟩

namespace Format

variable (F : Format) (x y : Nat)

/-! ## Fields -/

def fraction : Nat := x % 2 ^ F.fracBits
def exponent : Nat := x / 2 ^ F.fracBits % 2 ^ F.expBits
def negative : Bool := x / 2 ^ (F.fracBits + F.expBits) % 2 == 1

def isFinite : Bool := F.exponent x != 2 ^ F.expBits - 1
def isNaN : Bool := !F.isFinite x && F.fraction x != 0

/-! ## Values -/

/-- The fraction, with the hidden bit of a normal number. -/
def significand : Nat :=
  if F.exponent x = 0 then F.fraction x else 2 ^ F.fracBits + F.fraction x

/-- The exponent of the last place; subnormal numbers share it with the smallest normal ones. -/
def scale : Int := max (F.exponent x) 1 - (2 ^ (F.expBits - 1) - 1 + F.fracBits)

def magnitude : ℚ := F.significand x * 2 ^ F.scale x

/-- The exact value of a finite pattern. -/
def value : ℚ := if F.negative x then -F.magnitude x else F.magnitude x

/-- The place of a pattern that is not a NaN in the order of the extended numbers. -/
def extended : WithBot (WithTop ℚ) :=
  if F.isFinite x then ((F.value x : WithTop ℚ) : WithBot (WithTop ℚ))
  else if F.negative x then ⊥ else ((⊤ : WithTop ℚ) : WithBot (WithTop ℚ))

/-! ## Comparisons -/

def unordered : Bool := F.isNaN x || F.isNaN y
def less : Bool := !F.unordered x y && decide (F.extended x < F.extended y)
def equal : Bool := !F.unordered x y && decide (F.extended x = F.extended y)
def lessEqual : Bool := F.less x y || F.equal x y

variable {F x y}

theorem less_of_unordered (h : F.unordered x y = true) : F.less x y = false := by
  rw [less, h]
  rfl

theorem equal_of_unordered (h : F.unordered x y = true) : F.equal x y = false := by
  rw [equal, h]
  rfl

end Format

/-! ## Rounding -/

/-- Rounding toward zero. -/
def truncate (v : ℚ) : ℤ := if v < 0 then ⌈v⌉ else ⌊v⌋

/-- The integer nearest to `n / d`, and the even one of two. -/
def roundQuot (n d : Nat) : Nat :=
  if 2 * (n % d) < d then n / d
  else if d < 2 * (n % d) then n / d + 1
  else n / d + n / d % 2

/-- `n / m`, with bit 0 set if the division left a remainder. -/
def jam (n m : Nat) : Nat := if n % m = 0 then n / m else n / m ||| 1

theorem or_one (n : Nat) : n ||| 1 = n + 1 - n % 2 := by
  have hd : (n ||| 1) / 2 = n / 2 := by rw [Nat.or_div_two]; simp
  have hm : (n ||| 1) % 2 = 1 := by simp [Nat.or_mod_two_eq_one]
  omega

/-- The sticky bit of `jam` is below the bit that decides a rounding to a multiple of 4. -/
theorem roundQuot_jam (n : Nat) {m : Nat} (hm : 0 < m) {d : Nat} (hd : 4 ∣ d) (hpos : 0 < d) :
    roundQuot (jam n m) d = roundQuot n (m * d) := by
  obtain ⟨t, rfl⟩ := hd
  have hq : n / (m * (4 * t)) = n / m / (4 * t) := (Nat.div_div_eq_div_mul n m _).symm
  have hr : n % (m * (4 * t)) = n % m + m * (n / m % (4 * t)) := Nat.mod_mul
  have hrm : n % m < m := Nat.mod_lt _ hm
  have hb : n / m % (4 * t) < 4 * t := Nat.mod_lt _ hpos
  by_cases hs : n % m = 0
  · have hj : jam n m = n / m := if_pos hs
    have h1 : 2 * (m * (n / m % (4 * t))) < m * (4 * t) ↔ 2 * (n / m % (4 * t)) < 4 * t := by
      rw [Nat.mul_left_comm]; exact Nat.mul_lt_mul_left hm
    have h2 : m * (4 * t) < 2 * (m * (n / m % (4 * t))) ↔ 4 * t < 2 * (n / m % (4 * t)) := by
      rw [Nat.mul_left_comm 2]; exact Nat.mul_lt_mul_left hm
    rw [hj, roundQuot, roundQuot, hq, hr, hs, Nat.zero_add]
    simp only [h1, h2]
  · -- The jammed bit makes the remainder odd, so it is never the tie.
    have hj : jam n m = n / m + 1 - n / m % 2 := (if_neg hs).trans (or_one _)
    have hpar : n / m % (4 * t) % 2 = n / m % 2 := Nat.mod_mod_of_dvd _ (by omega)
    have hdm : 4 * t * (n / m / (4 * t)) + n / m % (4 * t) = n / m := Nat.div_add_mod _ _
    generalize n / m % (4 * t) = b at *
    generalize n / m / (4 * t) = k at *
    have hz : jam n m = 4 * t * k + (b + 1 - b % 2) := by omega
    have hlt : b + 1 - b % 2 < 4 * t := by omega
    have hzd : jam n m / (4 * t) = k := by
      rw [hz, Nat.mul_add_div hpos, Nat.div_eq_of_lt hlt, Nat.add_zero]
    have hzm : jam n m % (4 * t) = b + 1 - b % 2 := by
      rw [hz, Nat.mul_add_mod, Nat.mod_eq_of_lt hlt]
    have hm4 : m * (4 * t) = 2 * (m * (2 * t)) := by ring
    rw [roundQuot, roundQuot, hq, hr, hzd, hzm]
    by_cases hbt : b < 2 * t
    · have hle : m * (b + 1) ≤ m * (2 * t) := Nat.mul_le_mul_left m hbt
      rw [Nat.mul_add] at hle
      rw [if_pos (by omega), if_pos (by omega)]
    · have hle : m * (2 * t) ≤ m * b := Nat.mul_le_mul_left m (by omega)
      rw [if_neg (by omega), if_pos (by omega), if_neg (by omega), if_pos (by omega)]

theorem div_le_roundQuot (n d : Nat) : n / d ≤ roundQuot n d := by
  unfold roundQuot
  split_ifs <;> omega

theorem roundQuot_of_small {n d : Nat} (h : 2 * n < d) : roundQuot n d = 0 := by
  have hn : n < d := by omega
  rw [roundQuot, Nat.mod_eq_of_lt hn, if_pos h, Nat.div_eq_of_lt hn]

theorem roundQuot_mul (n d : Nat) {k : Nat} (hk : 0 < k) :
    roundQuot (n * k) (d * k) = roundQuot n d := by
  have h1 : 2 * (n % d * k) < d * k ↔ 2 * (n % d) < d := by
    rw [← Nat.mul_assoc]
    exact Nat.mul_lt_mul_right hk
  have h2 : d * k < 2 * (n % d * k) ↔ d < 2 * (n % d) := by
    rw [← Nat.mul_assoc]
    exact Nat.mul_lt_mul_right hk
  rw [roundQuot, roundQuot, Nat.mul_div_mul_right _ _ hk, Nat.mul_mod_mul_right]
  simp only [h1, h2]

/-- The number of sign `neg` and magnitude `n / d`. -/
def signedQuot (neg : Bool) (n d : Nat) : ℚ := if neg then -((n : ℚ) / d) else (n : ℚ) / d

theorem truncate_signedQuot (neg : Bool) (n : Nat) {d : Nat} (hd : 0 < d) :
    truncate (signedQuot neg n d) = if neg then -((n / d : Nat) : ℤ) else ((n / d : Nat) : ℤ) := by
  have hfloor : ⌊(n : ℚ) / d⌋ = ((n / d : Nat) : ℤ) := Rat.floor_intCast_div_natCast n d
  have hnn : (0 : ℚ) ≤ (n : ℚ) / d := by positivity
  cases neg with
  | false =>
    have hneg : ¬ (n : ℚ) / d < 0 := not_lt.2 hnn
    simpa [truncate, signedQuot, hneg] using hfloor
  | true =>
    have hceil : ⌈-((n : ℚ) / d)⌉ = -((n / d : Nat) : ℤ) := by rw [Int.ceil_neg, hfloor]
    by_cases h0 : (n : ℚ) / d = 0
    · rw [h0, Int.floor_zero] at hfloor
      simp [truncate, signedQuot, h0, ← hfloor]
    · have hneg : -((n : ℚ) / d) < 0 := neg_lt_zero.2 (lt_of_le_of_ne hnn (Ne.symm h0))
      simpa [truncate, signedQuot, hneg] using hceil

/-- What truncation drops. -/
theorem abs_sub_truncate (neg : Bool) (n : Nat) {d : Nat} (hd : 0 < d) :
    |signedQuot neg n d - truncate (signedQuot neg n d)| = ((n % d : Nat) : ℚ) / d := by
  have hd' : (d : ℚ) ≠ 0 := by positivity
  have hsplit : (n : ℚ) / d - ((n / d : Nat) : ℚ) = ((n % d : Nat) : ℚ) / d := by
    rw [eq_div_iff hd', sub_mul, div_mul_cancel₀ _ hd']
    have h : (d * (n / d) + n % d : Nat) = n := Nat.div_add_mod n d
    have hq : ((d * (n / d) + n % d : Nat) : ℚ) = n := by rw [h]
    push_cast at hq
    linarith
  have hnn : (0 : ℚ) ≤ ((n % d : Nat) : ℚ) / d := by positivity
  rw [truncate_signedQuot neg n hd]
  cases neg with
  | false =>
    simp only [signedQuot, Bool.false_eq_true, if_false, Int.cast_natCast]
    rw [hsplit, abs_of_nonneg hnn]
  | true =>
    simp only [signedQuot, if_true, Int.cast_neg, Int.cast_natCast]
    rw [show -((n : ℚ) / d) - -((n / d : Nat) : ℚ) = -((n : ℚ) / d - ((n / d : Nat) : ℚ)) by ring,
      hsplit, abs_neg, abs_of_nonneg hnn]

namespace Format

variable (F : Format) (x : Nat)

theorem fraction_lt : F.fraction x < 2 ^ F.fracBits := Nat.mod_lt _ (Nat.two_pow_pos _)

theorem significand_lt : F.significand x < 2 ^ (F.fracBits + 1) := by
  have h := F.fraction_lt x
  rw [significand, Nat.pow_succ]
  split_ifs <;> omega

/-- The magnitude of a pattern as a quotient of natural numbers. -/
def num : Nat := F.significand x * 2 ^ (F.scale x).toNat
def den : Nat := 2 ^ (-F.scale x).toNat

theorem den_pos : 0 < F.den x := Nat.two_pow_pos _

theorem magnitude_eq : F.magnitude x = (F.num x : ℚ) / F.den x := by
  have hz : (2 : ℚ) ^ F.scale x = 2 ^ (F.scale x).toNat / 2 ^ (-F.scale x).toNat := by
    rw [← zpow_natCast, ← zpow_natCast, ← zpow_sub₀ (by norm_num)]
    congr 1
    omega
  rw [magnitude, hz, num, den]
  push_cast
  ring

theorem value_eq : F.value x = signedQuot (F.negative x) (F.num x) (F.den x) := by
  rw [value, magnitude_eq, signedQuot]

end Format

end Ieee
