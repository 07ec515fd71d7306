/-
  The four operations on binary floating point numbers, as their exact results: a number, an
  infinity, or nothing (`Exact`), for operands that are not NaNs. `Format.Delivers` says when a
  pattern is such a result, rounded. Nothing here knows about a particular machine.
-/
import NemuMips32.Lib.Rounding

namespace Ieee

/-- The result of an operation before it is rounded. A number that is zero still has a sign. -/
inductive Exact where
  | invalid
  | infinite (neg : Bool)
  | number (v : ℚ) (zeroNeg : Bool)

namespace Format

variable (F : Format) (x y : Nat)

def Delivers : Exact → Nat → Prop
  | .invalid, z => F.isNaN z = true
  | .infinite neg, z => z = F.withSign neg F.infinity
  | .number v zeroNeg, z => F.Rounds v z ∧ (v = 0 → z = F.withSign zeroNeg 0)

/-! ## The operations -/

/-- `x + y`, or `x - y`. -/
def sum (minus : Bool) (x y : Nat) : Exact :=
  let negY := F.negative y ^^ minus
  if F.isFinite x then
    if F.isFinite y then
      .number (F.value x + if minus then -F.value y else F.value y) (F.negative x && negY)
    else .infinite negY
  else if F.isFinite y || F.negative x == negY then .infinite (F.negative x)
  else .invalid

def isZero : Bool := F.steps x == 0

def product : Exact :=
  let neg := F.negative x ^^ F.negative y
  if F.isFinite x && F.isFinite y then .number (F.value x * F.value y) neg
  else if F.isZero x || F.isZero y then .invalid
  else .infinite neg

def quotient : Exact :=
  let neg := F.negative x ^^ F.negative y
  if F.isFinite x then
    if F.isFinite y then
      if F.isZero y then if F.isZero x then .invalid else .infinite neg
      else .number (F.value x / F.value y) neg
    else .number 0 neg
  else if F.isFinite y then .infinite neg
  else .invalid

variable {F x y}

theorem isZero_iff : F.isZero x = true ↔ F.exponent x = 0 ∧ F.fraction x = 0 := by
  have hp := Nat.two_pow_pos F.fracBits
  have hq := Nat.two_pow_pos (F.exponent x - 1)
  rw [isZero, beq_iff_eq, steps, Nat.mul_eq_zero, significand]
  split_ifs with h
  · simp [h]
  · omega

/-! ## Words

  A pattern is determined by its low bits. -/

theorem fraction_mod (z : Nat) : F.fraction (z % 2 ^ (F.fracBits + F.expBits + 1)) = F.fraction z :=
  Nat.mod_mod_of_dvd _ (Nat.pow_dvd_pow 2 (by omega))

theorem exponent_mod (z : Nat) : F.exponent (z % 2 ^ (F.fracBits + F.expBits + 1)) = F.exponent z := by
  unfold exponent
  rw [Nat.add_assoc, Nat.pow_add, Nat.mod_mul_right_div_self,
    Nat.mod_mod_of_dvd _ (Nat.pow_dvd_pow 2 (Nat.le_succ _))]

theorem negative_mod (z : Nat) : F.negative (z % 2 ^ (F.fracBits + F.expBits + 1)) = F.negative z := by
  unfold negative
  rw [Nat.pow_succ, Nat.mod_mul_right_div_self, Nat.mod_mod]

theorem isFinite_mod (z : Nat) :
    F.isFinite (z % 2 ^ (F.fracBits + F.expBits + 1)) = F.isFinite z := by
  rw [isFinite, exponent_mod, isFinite]

theorem value_mod (z : Nat) : F.value (z % 2 ^ (F.fracBits + F.expBits + 1)) = F.value z := by
  rw [value_eq_steps, value_eq_steps, steps, steps, significand, significand, negative_mod,
    exponent_mod, fraction_mod]

theorem Delivers.mod {e : Exact} {z : Nat} (h : F.Delivers e z) :
    F.Delivers e (z % 2 ^ (F.fracBits + F.expBits + 1)) := by
  have hword : ∀ neg m, m < 2 ^ (F.fracBits + F.expBits) →
      F.withSign neg m < 2 ^ (F.fracBits + F.expBits + 1) := by
    intro neg m hm
    rw [withSign, Nat.pow_succ]
    split_ifs <;> omega
  cases e with
  | invalid =>
    rw [Delivers, isNaN, isFinite_mod, fraction_mod]
    exact h
  | infinite neg =>
    rw [Delivers] at h ⊢
    rw [h, Nat.mod_eq_of_lt (hword neg _ F.infinity_lt)]
  | number v zeroNeg =>
    obtain ⟨hr, hz⟩ := h
    refine ⟨⟨fun hv => ?_, fun hv => ?_, fun hv => ?_⟩, fun hv => ?_⟩
    · rw [negative_mod]
      exact hr.sign hv
    · rw [isFinite_mod, value_mod, fraction_mod]
      exact hr.nearest hv
    · rw [isFinite_mod, fraction_mod]
      exact hr.infinite hv
    · rw [hz hv, Nat.mod_eq_of_lt (hword zeroNeg 0 (Nat.two_pow_pos _))]

end Format

end Ieee
