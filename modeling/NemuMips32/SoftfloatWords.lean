/-
  The machine arithmetic behind `float32_mul`, `float64_mul`, `float32_div` and `float64_div`:
  products and quotients of two words, from words.

  A 64-bit quotient is estimated digit by digit, with digits of 32 bits (`estimateDiv128To64`).
  A digit estimated from the high half of the divisor is too large by 2 at most (`digit_bounds`);
  the first one is corrected on the spot, and the last one only where rounding could tell
  (`quotient64_spec`).
-/
import NemuMips32.SoftfloatProduct

namespace NemuMips32

namespace Softfloat

open Ieee (Stands jam)

/-! ## Numbers of 128 bits -/

def Pair.val (p : Pair) : Nat := p.hi * 2 ^ 64 + p.lo

theorem mod_word (x : Nat) : x % 2 ^ 128 = x / 2 ^ 64 % 2 ^ 64 * 2 ^ 64 + x % 2 ^ 64 := by omega

theorem add128_val {p q : Pair} (hp : p.lo < 2 ^ 64) (hq : q.lo < 2 ^ 64) :
    (add128 p q).val = (p.val + q.val) % 2 ^ 128 := by
  have hcarry : (p.lo + q.lo) % 2 ^ 64 < p.lo ↔ 2 ^ 64 ≤ p.lo + q.lo := by omega
  have hdiv : (p.val + q.val) / 2 ^ 64 =
      p.hi + q.hi + if (p.lo + q.lo) % 2 ^ 64 < p.lo then 1 else 0 := by
    unfold Pair.val
    simp only [hcarry]
    split_ifs <;> omega
  have hmod : (p.val + q.val) % 2 ^ 64 = (p.lo + q.lo) % 2 ^ 64 := by
    unfold Pair.val
    omega
  rw [mod_word, hdiv, hmod]
  rfl

theorem sub128_val {p q : Pair} (hp : p.lo < 2 ^ 64) (hq : q.lo < 2 ^ 64) (hq' : q.hi < 2 ^ 64) :
    (sub128 p q).val = (p.val + 2 ^ 128 - q.val) % 2 ^ 128 := by
  have hdiv : (p.val + 2 ^ 128 - q.val) / 2 ^ 64 % 2 ^ 64 =
      (p.hi + 2 ^ 64 - q.hi + 2 ^ 64 - if p.lo < q.lo then 1 else 0) % 2 ^ 64 := by
    unfold Pair.val
    split_ifs <;> omega
  have hmod : (p.val + 2 ^ 128 - q.val) % 2 ^ 64 = (p.lo + 2 ^ 64 - q.lo) % 2 ^ 64 := by
    unfold Pair.val
    omega
  rw [mod_word, hdiv, hmod]
  rfl

/-- `p` is the number `r`, modulo `2 ^ 128`. -/
structure Pair.Is (p : Pair) (r : ℤ) : Prop where
  hi : p.hi < 2 ^ 64
  lo : p.lo < 2 ^ 64
  val : (p.val : ℤ) = r % 2 ^ 128

theorem Pair.val_lt {p : Pair} (hi : p.hi < 2 ^ 64) (lo : p.lo < 2 ^ 64) : p.val < 2 ^ 128 := by
  unfold Pair.val
  omega

theorem Pair.is_val {p : Pair} (hi : p.hi < 2 ^ 64) (lo : p.lo < 2 ^ 64) : p.Is p.val := by
  have := val_lt hi lo
  exact ⟨hi, lo, by omega⟩

theorem Pair.is_mk {hi lo : Nat} (h : hi < 2 ^ 64) (l : lo < 2 ^ 64) :
    Pair.Is ⟨hi, lo⟩ (hi * 2 ^ 64 + lo : ℕ) := Pair.is_val h l

theorem add128_is {p q : Pair} {r s : ℤ} (hp : p.Is r) (hq : q.Is s) :
    (add128 p q).Is (r + s) := by
  refine ⟨Nat.mod_lt _ (by decide), Nat.mod_lt _ (by decide), ?_⟩
  have hr := hp.val
  have hs := hq.val
  rw [add128_val hp.lo hq.lo]
  omega

theorem sub128_is {p q : Pair} {r s : ℤ} (hp : p.Is r) (hq : q.Is s) :
    (sub128 p q).Is (r - s) := by
  refine ⟨Nat.mod_lt _ (by decide), Nat.mod_lt _ (by decide), ?_⟩
  have hr := hp.val
  have hs := hq.val
  have hlt := Pair.val_lt hq.hi hq.lo
  rw [sub128_val hp.lo hq.lo hq.hi]
  omega

theorem Pair.Is.neg_iff {p : Pair} {r : ℤ} (h : p.Is r) (hlo : -2 ^ 127 ≤ r) (hhi : r < 2 ^ 127) :
    p.neg = true ↔ r < 0 := by
  obtain ⟨h1, h2, h3⟩ := h
  unfold Pair.val at h3
  unfold Pair.neg
  rw [decide_eq_true_eq]
  omega

/-- A product of words, from the four products of their halves. -/
theorem mul64To128_val {a b : Nat} (ha : a < 2 ^ 64) (hb : b < 2 ^ 64) :
    (mul64To128 a b).hi < 2 ^ 64 ∧ (mul64To128 a b).lo < 2 ^ 64 ∧
      (mul64To128 a b).val = a * b := by
  have hal : a % 2 ^ 32 ≤ 2 ^ 32 - 1 := by omega
  have hah : a / 2 ^ 32 ≤ 2 ^ 32 - 1 := by omega
  have hbl : b % 2 ^ 32 ≤ 2 ^ 32 - 1 := by omega
  have hbh : b / 2 ^ 32 ≤ 2 ^ 32 - 1 := by omega
  have hsplit : a * b = a / 2 ^ 32 * (b / 2 ^ 32) * 2 ^ 64 +
      (a % 2 ^ 32 * (b / 2 ^ 32) + a / 2 ^ 32 * (b % 2 ^ 32)) * 2 ^ 32 +
        a % 2 ^ 32 * (b % 2 ^ 32) := by
    conv_lhs => rw [← Nat.div_add_mod a (2 ^ 32), ← Nat.div_add_mod b (2 ^ 32)]
    ring
  have h1 := Nat.mul_le_mul hal hbl
  have h2 := Nat.mul_le_mul hal hbh
  have h3 := Nat.mul_le_mul hah hbl
  have h4 := Nat.mul_le_mul hah hbh
  have hlt : a * b < 2 ^ 64 * 2 ^ 64 := Nat.mul_lt_mul'' ha hb
  rw [hsplit] at hlt ⊢
  unfold mul64To128 Pair.val
  simp only [Nat.shiftLeft_eq, Nat.shiftRight_eq_div_pow]
  generalize a / 2 ^ 32 * (b / 2 ^ 32) = hh at *
  generalize a % 2 ^ 32 * (b / 2 ^ 32) = lh at *
  generalize a / 2 ^ 32 * (b % 2 ^ 32) = hl at *
  generalize a % 2 ^ 32 * (b % 2 ^ 32) = ll at *
  refine ⟨Nat.mod_lt _ (by decide), Nat.mod_lt _ (by decide), ?_⟩
  split_ifs <;> omega

/-! ## Loops -/

/-- A correction loop lowers the quotient to the exact one, and leaves the remainder. -/
theorem correctLoop_eq {step : Nat} {d : Pair} {A D : Nat} (hd : d.Is D) (hD : 0 < D)
    (hDlt : D < 2 ^ 100) {fuel k : Nat} {rem : Pair} (hk : A / D ≤ k)
    (hk' : k ≤ A / D + 2) (hfuel : k < A / D + fuel) (hword : step * k < 2 ^ 64)
    (hrem : rem.Is ((A : ℤ) - D * k)) :
    ∃ p : Pair, correctLoop step d fuel (step * k) rem = some (step * (A / D), p) ∧
      p.Is (A % D : Nat) := by
  have hdm : ((D * (A / D) + A % D : ℕ) : ℤ) = A := by rw [Nat.div_add_mod]
  have hmod := Nat.mod_lt A hD
  generalize A / D = q at *
  generalize A % D = r at *
  induction fuel generalizing k rem with
  | zero => omega
  | succ fuel ih =>
    have hval : (A : ℤ) - D * k = r - D * (k - q : ℕ) := by
      rw [← hdm]
      push_cast [hk]
      ring
    have hgap : D * (k - q) ≤ D * 2 := Nat.mul_le_mul_left D (by omega)
    have hneg := hrem.neg_iff (by rw [hval]; push_cast; omega) (by rw [hval]; push_cast; omega)
    unfold correctLoop
    by_cases h : k = q
    · subst h
      rw [Nat.sub_self, Nat.cast_zero, mul_zero, sub_zero] at hval
      rw [hval] at hneg hrem
      rw [if_neg (fun hc => absurd (hneg.1 hc) (by omega))]
      exact ⟨rem, rfl, hrem⟩
    · have hone : D * 1 ≤ D * (k - q) := Nat.mul_le_mul_left D (by omega)
      have hlow : step ≤ step * k := Nat.le_mul_of_pos_right _ (by omega)
      have hstep : (step * k + 2 ^ 64 - step) % 2 ^ 64 = step * (k - 1) := by
        rw [Nat.mul_sub_one]
        omega
      rw [if_pos (hneg.2 (by rw [hval]; omega)), hstep]
      refine ih ?_ ?_ (by omega) (by omega) (by omega)
      · exact lt_of_le_of_lt (Nat.mul_le_mul_left _ (Nat.sub_le _ _)) hword
      · have hnext : (A : ℤ) - D * (k - 1 : ℕ) = (A - D * k) + D := by
          rw [Nat.cast_sub (by omega : 1 ≤ k)]
          push_cast
          ring
        rw [hnext]
        exact add128_is hrem hd

/-! ## Quotients -/

/-- One digit of a quotient, estimated from the high half of the divisor. -/
def digit (b r : Nat) : Nat := if b >>> 32 <<< 32 ≤ r then 2 ^ 32 - 1 else r / (b >>> 32)

theorem digit_bounds {b r : Nat} (hb : 2 ^ 63 ≤ b) (hb' : b < 2 ^ 64) (hr : r < b) :
    r * 2 ^ 32 / b ≤ digit b r ∧ digit b r ≤ r * 2 ^ 32 / b + 2 ∧ digit b r < 2 ^ 32 := by
  have hb0 : 0 < b / 2 ^ 32 := by omega
  have hq : r * 2 ^ 32 / b < 2 ^ 32 := by
    rw [Nat.div_lt_iff_lt_mul (by omega)]
    omega
  have hmul := Nat.div_mul_le_self (r * 2 ^ 32) b
  have hnext := Nat.lt_mul_div_succ (r * 2 ^ 32) (by omega : 0 < b)
  generalize r * 2 ^ 32 / b = q at *
  -- the digit times the divisor exceeds the dividend by less than `2 * b`
  have hover : ∀ z, z ≤ 2 ^ 32 → b / 2 ^ 32 * z ≤ r → z ≤ q + 2 := by
    intro z hz hle
    refine Nat.le_of_not_lt fun hc => ?_
    have h1 : b * (q + 1) ≤ b * (z - 2) := Nat.mul_le_mul_left b (by omega)
    have h2 : b * z = b / 2 ^ 32 * z * 2 ^ 32 + b % 2 ^ 32 * z := by
      conv_lhs => rw [← Nat.div_add_mod b (2 ^ 32)]
      ring
    have h3 : b % 2 ^ 32 * z ≤ 2 ^ 32 * 2 ^ 32 := Nat.mul_le_mul (by omega) hz
    rw [Nat.mul_sub] at h1
    omega
  unfold digit
  rw [Nat.shiftRight_eq_div_pow, Nat.shiftLeft_eq]
  split_ifs with h
  · refine ⟨by omega, hover _ (by omega) ?_, by omega⟩
    exact le_trans (Nat.mul_le_mul_left _ (by omega)) h
  · have hlt : r / (b / 2 ^ 32) < 2 ^ 32 := by
      rw [Nat.div_lt_iff_lt_mul hb0]
      omega
    refine ⟨?_, hover _ hlt.le (Nat.mul_div_le _ _), hlt⟩
    rw [Nat.le_div_iff_mul_le hb0]
    have hle : q * (b / 2 ^ 32) * 2 ^ 32 ≤ r * 2 ^ 32 := by
      calc q * (b / 2 ^ 32) * 2 ^ 32 = q * (b / 2 ^ 32 * 2 ^ 32) := Nat.mul_assoc ..
        _ ≤ q * b := Nat.mul_le_mul_left q (Nat.div_mul_le_self b _)
        _ ≤ r * 2 ^ 32 := hmul
    omega

/-- The estimate of a quotient is too large by 2 at most. -/
theorem estimateDiv128To64_spec {fuel a b : Nat} (hfuel : 3 ≤ fuel)
    (hb : 2 ^ 63 ≤ b) (hb' : b < 2 ^ 64) (ha : a < b) :
    ∃ z, estimateDiv128To64 fuel a 0 b = some z ∧ a * 2 ^ 64 / b ≤ z ∧
      z ≤ a * 2 ^ 64 / b + 2 := by
  obtain ⟨h1, h2, h3⟩ := digit_bounds hb hb' ha
  have hz : (if b >>> 32 <<< 32 ≤ a then 0xFFFFFFFF00000000
      else (a / b >>> 32) <<< 32 % 2 ^ 64) = 2 ^ 32 * digit b a := by
    unfold digit at h3 ⊢
    split_ifs at h3 ⊢ with h
    · rfl
    · rw [Nat.shiftLeft_eq, Nat.mul_comm]
      exact Nat.mod_eq_of_lt (by omega)
  have hprod := mul64To128_val hb' (by omega : 2 ^ 32 * digit b a < 2 ^ 64)
  have hd : Pair.Is ⟨b >>> 32, b <<< 32 % 2 ^ 64⟩ (b * 2 ^ 32 : ℕ) := by
    have hval : (b >>> 32) * 2 ^ 64 + b <<< 32 % 2 ^ 64 = b * 2 ^ 32 := by
      rw [Nat.shiftRight_eq_div_pow, Nat.shiftLeft_eq]
      omega
    have hhi : b >>> 32 < 2 ^ 64 := by
      rw [Nat.shiftRight_eq_div_pow]
      omega
    have h := Pair.is_mk hhi (Nat.mod_lt (b <<< 32) (by decide : 0 < 2 ^ 64))
    rwa [hval] at h
  have hrem : (sub128 ⟨a, 0⟩ (mul64To128 b (2 ^ 32 * digit b a))).Is
      ((a * 2 ^ 64 : ℕ) - (b * 2 ^ 32 : ℕ) * digit b a) := by
    have h := sub128_is (Pair.is_mk (ha.trans hb') (Nat.two_pow_pos 64))
      (Pair.is_val hprod.1 hprod.2.1)
    rw [hprod.2.2, Nat.add_zero] at h
    have hcast : ((b * (2 ^ 32 * digit b a) : ℕ) : ℤ) = (b * 2 ^ 32 : ℕ) * digit b a := by
      push_cast
      ring
    rwa [hcast] at h
  have hsq : a * 2 ^ 64 = a * 2 ^ 32 * 2 ^ 32 := by ring
  have hpos : 0 < 2 ^ 32 := Nat.two_pow_pos 32
  have hq : a * 2 ^ 64 / (b * 2 ^ 32) = a * 2 ^ 32 / b := by
    rw [hsq, Nat.mul_div_mul_right _ _ hpos]
  have hk : a * 2 ^ 64 / (b * 2 ^ 32) ≤ digit b a := hq.trans_le h1
  have hk' : digit b a ≤ a * 2 ^ 64 / (b * 2 ^ 32) + 2 := by
    rw [hq]
    exact h2
  have hcount : digit b a < a * 2 ^ 64 / (b * 2 ^ 32) + fuel := by omega
  have hword : 2 ^ 32 * digit b a < 2 ^ 64 := by omega
  obtain ⟨p, hp, hpr⟩ := correctLoop_eq hd (by omega) (by omega) hk hk' hcount hword hrem
  -- the remainder is a multiple of `2 ^ 32`
  have hmod : a * 2 ^ 64 % (b * 2 ^ 32) = a * 2 ^ 32 % b * 2 ^ 32 := by
    rw [hsq, Nat.mul_mod_mul_right]
  rw [hq] at hp
  rw [hmod] at hpr
  have hr : a * 2 ^ 32 % b < b := Nat.mod_lt _ (by omega)
  have hrem0 : (p.hi <<< 32 % 2 ^ 64) ||| (p.lo >>> 32) = a * 2 ^ 32 % b := by
    have hval := hpr.val
    have hlo := hpr.lo
    have hhi := hpr.hi
    unfold Pair.val at hval
    rw [Nat.shiftLeft_eq, Nat.shiftRight_eq_div_pow, Nat.mod_eq_of_lt (by omega), Nat.mul_comm,
      ← Nat.two_pow_add_eq_or_of_lt (by omega)]
    omega
  obtain ⟨g1, g2, g3⟩ := digit_bounds hb hb' hr
  have hzl : (if b >>> 32 <<< 32 ≤ a * 2 ^ 32 % b then 0xFFFFFFFF
      else a * 2 ^ 32 % b / b >>> 32) = digit b (a * 2 ^ 32 % b) := rfl
  have hor : 2 ^ 32 * (a * 2 ^ 32 / b) ||| digit b (a * 2 ^ 32 % b) =
      2 ^ 32 * (a * 2 ^ 32 / b) + digit b (a * 2 ^ 32 % b) :=
    (Nat.two_pow_add_eq_or_of_lt g3 _).symm
  refine ⟨2 ^ 32 * (a * 2 ^ 32 / b) + digit b (a * 2 ^ 32 % b), ?_, ?_⟩
  · unfold estimateDiv128To64 estimateLoop
    simp only []
    rw [if_neg (by omega), hz, hp, Option.map_some, hrem0, hzl, hor]
  · -- the digits of the exact quotient
    have hdigits : a * 2 ^ 64 / b = 2 ^ 32 * (a * 2 ^ 32 / b) + a * 2 ^ 32 % b * 2 ^ 32 / b := by
      have hdm := Nat.div_add_mod (a * 2 ^ 32) b
      have hsplit : a * 2 ^ 64 = b * (2 ^ 32 * (a * 2 ^ 32 / b)) + a * 2 ^ 32 % b * 2 ^ 32 := by
        calc a * 2 ^ 64 = a * 2 ^ 32 * 2 ^ 32 := by ring
          _ = (b * (a * 2 ^ 32 / b) + a * 2 ^ 32 % b) * 2 ^ 32 := by rw [hdm]
          _ = _ := by ring
      rw [hsplit, Nat.mul_add_div (by omega)]
    omega

/-! ## The four operations -/

theorem or_sticky {n m : Nat} (h : n % m = 0 ∨ n % m ≠ 0) :
    (n / m ||| if n % m ≠ 0 then 1 else 0) = jam n m := by
  unfold jam
  rcases h with h | h
  · rw [if_neg (not_not.2 h), if_pos h]
    exact Nat.or_zero _
  · rw [if_pos h, if_neg h]

theorem isMulHigh32 : IsMulHigh Ieee.binary32 mulHigh32 := by
  intro x y hx hy
  change x < 2 ^ 32 at hx
  change y < 2 ^ 32 at hy
  have hxy : x * y < 2 ^ 32 * 2 ^ 32 := Nat.mul_lt_mul'' hx hy
  have hjam : jam (x * y) (2 ^ 32) < 2 * 2 ^ 31 :=
    (jam_lt_iff _ (Nat.two_pow_pos 32)).2 hxy
  unfold mulHigh32
  rw [Nat.mod_eq_of_lt (by omega : x * y < 2 ^ 64), shiftRightJamming_eq (by omega),
    Nat.mod_eq_of_lt (by omega)]
  rfl

theorem isMulHigh64 : IsMulHigh Ieee.binary64 mulHigh64 := by
  intro x y hx hy
  obtain ⟨-, hlo, hval⟩ := mul64To128_val hx hy
  unfold Pair.val at hval
  have hdiv : x * y / 2 ^ 64 = (mul64To128 x y).hi := by omega
  have hmod : x * y % 2 ^ 64 = (mul64To128 x y).lo := by omega
  have h := or_sticky (em (x * y % 2 ^ 64 = 0))
  rw [hdiv, hmod] at h
  exact h

theorem isQuotient32 :
    IsQuotient Ieee.binary32 (fun x y => some (quotient32 x y)) := by
  intro x y hy hy' hxy hxy'
  change 2 ^ 31 ≤ y at hy
  change y < 2 ^ 32 at hy'
  have hy0 : 0 < y := by omega
  refine ⟨_, rfl, ?_⟩
  change Stands 64 (quotient32 x y) (x * 2 ^ 32) y
  have hq : x * 2 ^ 32 / y < 2 ^ 32 := by
    rw [Nat.div_lt_iff_lt_mul hy0]
    omega
  have hdm := Nat.div_add_mod (x * 2 ^ 32) y
  have hmod := Nat.mod_lt (x * 2 ^ 32) hy0
  have hmask : x * 2 ^ 32 / y &&& 0x3F = x * 2 ^ 32 / y % 64 :=
    Nat.and_two_pow_sub_one_eq_mod _ 6
  unfold quotient32
  rw [Nat.shiftLeft_eq, Nat.mod_eq_of_lt hq]
  simp only [hmask]
  by_cases h : x * 2 ^ 32 / y % 64 = 0
  · -- only here could rounding tell
    have hle : y * (x * 2 ^ 32 / y) < 2 ^ 64 := by omega
    have hsticky : y * (x * 2 ^ 32 / y) % 2 ^ 64 ≠ x * 2 ^ 32 ↔ x * 2 ^ 32 % y ≠ 0 := by
      rw [Nat.mod_eq_of_lt hle]
      omega
    have hjam := or_sticky (em (x * 2 ^ 32 % y = 0))
    simp only [hsticky]
    rw [if_pos h, hjam]
    exact Ieee.stands_jam _ hy0 (by decide)
  · rw [if_neg h]
    generalize x * 2 ^ 32 / y = q at *
    generalize x * 2 ^ 32 % y = r at *
    refine Ieee.stands_between (t := q / 64) (by decide) hy0 (by omega) (by omega) ?_ ?_
    · have : y * (64 * (q / 64) + 1) ≤ y * q := Nat.mul_le_mul_left y (by omega)
      rw [Nat.mul_add, ← Nat.mul_assoc] at this
      omega
    · have : y * (q + 1) ≤ y * (64 * (q / 64 + 1)) := Nat.mul_le_mul_left y (by omega)
      rw [Nat.mul_add, ← Nat.mul_assoc] at this
      omega

/-- The 64-bit quotient: the estimate where rounding cannot tell, the exact one with a sticky bit
    elsewhere. -/
theorem isQuotient64 {fuel : Nat} (hfuel : 3 ≤ fuel) :
    IsQuotient Ieee.binary64 (quotient64 fuel) := by
  intro x y hy hy' hxy hxy'
  change 2 ^ 63 ≤ y at hy
  change y < 2 ^ 64 at hy'
  have hy0 : 0 < y := by omega
  change ∃ z, quotient64 fuel x y = some z ∧ Stands 512 z (x * 2 ^ 64) y
  obtain ⟨z, hz, hlo, hhi⟩ := estimateDiv128To64_spec hfuel hy hy' (by omega : x < y)
  have hdm := Nat.div_add_mod (x * 2 ^ 64) y
  have hmod := Nat.mod_lt (x * 2 ^ 64) hy0
  have hq : x * 2 ^ 64 / y < 2 ^ 63 := by
    rw [Nat.div_lt_iff_lt_mul hy0]
    omega
  have hmask : z &&& 0x1FF = z % 512 := Nat.and_two_pow_sub_one_eq_mod _ 9
  have hjam := or_sticky (em (x * 2 ^ 64 % y = 0))
  unfold quotient64
  rw [hz, Option.bind_some, hmask]
  by_cases h : z % 512 ≤ 2
  · rw [if_pos h]
    have hd : Pair.Is ⟨0, y⟩ (y : ℕ) := by
      have := Pair.is_mk (Nat.two_pow_pos 64) hy'
      rwa [Nat.zero_mul, Nat.zero_add] at this
    obtain ⟨h1, h2, h3⟩ := mul64To128_val hy' (by omega : z < 2 ^ 64)
    have hrem : (sub128 ⟨x, 0⟩ (mul64To128 y z)).Is ((x * 2 ^ 64 : ℕ) - (y : ℕ) * z) := by
      have := sub128_is (Pair.is_mk (by omega : x < 2 ^ 64) (Nat.two_pow_pos 64))
        (Pair.is_val h1 h2)
      rwa [h3, Nat.add_zero, Nat.cast_mul y z] at this
    have hcount : z < x * 2 ^ 64 / y + fuel := by omega
    obtain ⟨p, hp, hpr⟩ := correctLoop_eq hd hy0 (by omega) hlo hhi hcount
      (by omega : 1 * z < 2 ^ 64) hrem
    rw [Nat.one_mul, Nat.one_mul] at hp
    have hplo : p.lo = x * 2 ^ 64 % y := by
      have hval := hpr.val
      have hplo := hpr.lo
      unfold Pair.val at hval
      omega
    refine ⟨jam (x * 2 ^ 64) y, ?_, Ieee.stands_jam _ hy0 (by decide)⟩
    unfold quotientLoop
    rw [hp, Option.map_some]
    simp only []
    rw [hplo, hjam]
  · rw [if_neg h]
    refine ⟨z, rfl, ?_⟩
    generalize x * 2 ^ 64 / y = q at *
    generalize x * 2 ^ 64 % y = r at *
    refine Ieee.stands_between (t := z / 512) (by decide) hy0 (by omega) (by omega) ?_ ?_
    · have : y * (512 * (z / 512) + 1) ≤ y * q := Nat.mul_le_mul_left y (by omega)
      rw [Nat.mul_add, ← Nat.mul_assoc] at this
      omega
    · have : y * (q + 1) ≤ y * (512 * (z / 512 + 1)) := Nat.mul_le_mul_left y (by omega)
      rw [Nat.mul_add, ← Nat.mul_assoc] at this
      omega

/-! ## Fuel

  More fuel does not change a result. -/

theorem correctLoop_mono {step : Nat} {d : Pair} {fuel fuel' z : Nat} {rem : Pair} {r : Nat × Pair}
    (hle : fuel ≤ fuel') (h : correctLoop step d fuel z rem = some r) :
    correctLoop step d fuel' z rem = some r := by
  induction fuel generalizing fuel' z rem with
  | zero => exact absurd h (by simp [correctLoop])
  | succ fuel ih =>
    obtain ⟨k, rfl⟩ : ∃ k, fuel' = k + 1 := ⟨fuel' - 1, by omega⟩
    unfold correctLoop at h ⊢
    split_ifs at h ⊢ with hneg
    · exact ih (by omega) h
    · exact h

theorem quotient64_mono {fuel fuel' x y z : Nat} (hle : fuel ≤ fuel')
    (h : quotient64 fuel x y = some z) : quotient64 fuel' x y = some z := by
  unfold quotient64 at h ⊢
  obtain ⟨e, he, h⟩ := Option.bind_eq_some_iff.1 h
  refine Option.bind_eq_some_iff.2 ⟨e, ?_, ?_⟩
  · unfold estimateDiv128To64 at he ⊢
    split_ifs at he ⊢ with hb
    · exact he
    · obtain ⟨r, hr, he⟩ := Option.map_eq_some_iff.1 he
      exact Option.map_eq_some_iff.2 ⟨r, correctLoop_mono hle hr, he⟩
  · split_ifs at h ⊢ with hs
    · obtain ⟨r, hr, h⟩ := Option.map_eq_some_iff.1 h
      exact Option.map_eq_some_iff.2 ⟨r, correctLoop_mono hle hr, h⟩
    · exact h

theorem floatDiv_mono {F : Ieee.Format} {st : ArithStatus} {q q' : Nat → Nat → Option Nat}
    (hq : ∀ x y z, q x y = some z → q' x y = some z) {a b z : Nat}
    (h : floatDiv F st q a b = some z) : floatDiv F st q' a b = some z := by
  unfold floatDiv at h ⊢
  simp only [] at h ⊢
  split_ifs at h ⊢ <;> first
    | exact h
    | (obtain ⟨r, hr, h⟩ := Option.map_eq_some_iff.1 h
       exact Option.map_eq_some_iff.2 ⟨r, hq _ _ _ hr, h⟩)

theorem float64Div_unique {st : ArithStatus} {fuel fuel' : Nat} {x y z z' : BitVec 64}
    (h : float64Div st fuel x y = some z) (h' : float64Div st fuel' x y = some z') : z = z' := by
  have hmono : ∀ {n m w}, n ≤ m → float64Div st n x y = some w → float64Div st m x y = some w := by
    intro n m w hle hw
    unfold float64Div at hw ⊢
    obtain ⟨r, hr, hw⟩ := Option.map_eq_some_iff.1 hw
    exact Option.map_eq_some_iff.2 ⟨r, floatDiv_mono (fun _ _ _ => quotient64_mono hle) hr, hw⟩
  rcases Nat.le_total fuel fuel' with hle | hle
  · exact Option.some.inj ((hmono hle h).symm.trans h')
  · exact Option.some.inj (h.symm.trans (hmono hle h'))

end Softfloat

end NemuMips32
