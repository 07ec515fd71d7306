/-
  Square roots (`float32_sqrt`, `float64_sqrt`) with the zeroed status. The 64-bit root takes a
  third step of Newton's method, and either is corrected only where rounding could tell
  (`isRoot32`, `isRoot64`).

  `floatSqrt_delivers`: what is packed is the real root, rounded once. Of a zero it is that zero,
  of another negative number a NaN.
-/
import NemuMips32.SoftfloatEstimate
import NemuMips32.SoftfloatWords

namespace NemuMips32

namespace Softfloat

open Ieee (Format Stands StandsRoot jam)

/-! ## softfloat.c -/

/-- The loop of `float32_sqrt`. -/
def rootLoop32 : Nat → Nat → Nat → Option (Nat × Nat)
  | 0, _, _ => none
  | fuel + 1, z, rem =>
    if 2 ^ 63 ≤ rem then
      let z := (z + 2 ^ 32 - 1) % 2 ^ 32
      rootLoop32 fuel z ((rem + (z <<< 1 ||| 1)) % 2 ^ 64)
    else some (z, rem)

/-- The significand in `float32_sqrt`. -/
def root32 (fuel : Nat) (aExp : Int) (aSig : Nat) : Option Nat :=
  let aSig := aSig <<< 8
  let zSig := (estimateSqrt32 aExp aSig + 2) % 2 ^ 32
  if zSig &&& 0x7F ≤ 5 then
    if zSig < 2 then some 0x7FFFFFFF
    else
      let aSig := aSig >>> (aExp % 2).toNat
      let term := zSig * zSig
      (rootLoop32 fuel zSig ((aSig <<< 32 + 2 ^ 64 - term) % 2 ^ 64)).map fun r =>
        shiftRightJamming 32 (r.1 ||| (if r.2 ≠ 0 then 1 else 0)) 1
  else some (shiftRightJamming 32 zSig 1)

/-- The loop of `float64_sqrt`. -/
def rootLoop64 : Nat → Nat → Nat → Pair → Option (Nat × Pair)
  | 0, _, _, _ => none
  | fuel + 1, z, doubleZ, rem =>
    if rem.neg then
      let z := (z + 2 ^ 64 - 1) % 2 ^ 64
      let doubleZ := (doubleZ + 2 ^ 64 - 2) % 2 ^ 64
      rootLoop64 fuel z doubleZ (add128 rem ⟨z >>> 63, doubleZ ||| 1⟩)
    else some (z, rem)

/-- The significand in `float64_sqrt`. -/
def root64 (fuel : Nat) (aExp : Int) (aSig : Nat) : Option Nat :=
  let zSig := estimateSqrt32 aExp (aSig >>> 21)
  let aSig := aSig <<< (9 - (aExp % 2).toNat)
  (estimateDiv128To64 fuel aSig 0 (zSig <<< 32)).bind fun q =>
    let zSig := (q + zSig <<< 30) % 2 ^ 64
    if zSig &&& 0x1FF ≤ 5 then
      (rootLoop64 fuel zSig (zSig <<< 1 % 2 ^ 64) (sub128 ⟨aSig, 0⟩ (mul64To128 zSig zSig))).map
        fun r => r.1 ||| (if r.2.hi ||| r.2.lo ≠ 0 then 1 else 0)
    else some zSig

/-- `float32_sqrt`, `float64_sqrt`; a NaN is propagated as if with the operand `other`. -/
def floatSqrt (F : Format) (st : ArithStatus) (other : Nat → Nat)
    (root : Int → Nat → Option Nat) (a : Nat) : Option Nat :=
  let a := squashInputDenormal F st a
  let aSig := F.fraction a
  let aExp := F.exponent a
  if aExp = maxExp F then
    if aSig ≠ 0 then some (propagateNan F st a (other a))
    else if F.negative a then some (defaultNan F)
    else some a
  else if F.negative a then some (if aExp ||| aSig = 0 then a else defaultNan F)
  else if aExp = 0 ∧ aSig = 0 then some 0
  else
    let na := normalized F aSig aExp
    let zExp := (na.2 - bias F) / 2 + (bias F - 1)
    (root na.2 (na.1 ||| 2 ^ F.fracBits)).map (roundAndPackFloat F st false zExp)

def float32Sqrt (st : ArithStatus) (fuel : Nat) (a : BitVec 32) : Option (BitVec 32) :=
  (floatSqrt Ieee.binary32 st (fun _ => 0) (root32 fuel) a.toNat).map (BitVec.ofNat 32)

def float64Sqrt (st : ArithStatus) (fuel : Nat) (a : BitVec 64) : Option (BitVec 64) :=
  (floatSqrt Ieee.binary64 st id (root64 fuel) a.toNat).map (BitVec.ofNat 64)

/-! ## Loops -/

/-- The loop of `float32_sqrt` lowers an estimate to the root, rounded down. -/
theorem rootLoop32_eq {n fuel z : Nat} (hz : Nat.sqrt n ≤ z) (hfuel : z < Nat.sqrt n + fuel)
    (hnear : z ≤ Nat.sqrt n + 5) (hword : z < 2 ^ 32) :
    rootLoop32 fuel z ((n + 2 ^ 64 - z * z) % 2 ^ 64) =
      some (Nat.sqrt n, n - Nat.sqrt n * Nat.sqrt n) := by
  obtain ⟨h1, h2⟩ := Ieee.sqrt_bounds n
  have hs : Nat.sqrt n * Nat.sqrt n ≤ (2 ^ 32 - 1) * (2 ^ 32 - 1) :=
    Nat.mul_le_mul (by omega) (by omega)
  generalize Nat.sqrt n = s at *
  induction fuel generalizing z with
  | zero => omega
  | succ fuel ih =>
    unfold rootLoop32
    rcases Nat.eq_or_lt_of_le hz with rfl | hlt
    · rw [if_neg (by omega)]
      congr 2
      omega
    · obtain ⟨y, rfl⟩ : ∃ y, z = y + 1 := ⟨z - 1, by omega⟩
      have hsq := Ieee.succ_mul_succ y
      have hle : s * s ≤ y * y := Nat.mul_le_mul (by omega) (by omega)
      have hge : (y + 1) * (y + 1) ≤ (s + 5) * (s + 5) := Nat.mul_le_mul (by omega) (by omega)
      have hs5 : (s + 5) * (s + 5) = s * s + 10 * s + 25 := by ring
      have hy : (y + 1 + 2 ^ 32 - 1) % 2 ^ 32 = y := by omega
      have hodd : y <<< 1 ||| 1 = 2 * y + 1 := by
        rw [Ieee.or_one, Nat.shiftLeft_eq]
        omega
      rw [if_pos (by omega)]
      simp only [hy, hodd]
      rw [show ((n + 2 ^ 64 - (y + 1) * (y + 1)) % 2 ^ 64 + (2 * y + 1)) % 2 ^ 64 =
        (n + 2 ^ 64 - y * y) % 2 ^ 64 by omega]
      exact ih (by omega) (by omega) (by omega) (by omega)

/-- The loop of `float64_sqrt`. -/
theorem rootLoop64_eq {n fuel z : Nat} {rem : Pair} (hn : n < 2 ^ 126) (hz : Nat.sqrt n ≤ z)
    (hfuel : z < Nat.sqrt n + fuel) (hnear : z ≤ Nat.sqrt n + 7)
    (hrem : rem.Is ((n : ℤ) - z * z)) :
    ∃ p : Pair, rootLoop64 fuel z (z <<< 1 % 2 ^ 64) rem = some (Nat.sqrt n, p) ∧
      p.Is (n - Nat.sqrt n * Nat.sqrt n : ℕ) := by
  obtain ⟨h1, h2⟩ := Ieee.sqrt_bounds n
  have hs : Nat.sqrt n < 2 ^ 63 := by
    by_contra hc
    have : 2 ^ 63 * 2 ^ 63 ≤ Nat.sqrt n * Nat.sqrt n := Nat.mul_le_mul (by omega) (by omega)
    omega
  generalize Nat.sqrt n = s at *
  induction fuel generalizing z rem with
  | zero => omega
  | succ fuel ih =>
    unfold rootLoop64
    rcases Nat.eq_or_lt_of_le hz with rfl | hlt
    · have hval : (n : ℤ) - s * s = (n - s * s : ℕ) := by
        push_cast [h1]
        rfl
      rw [hval] at hrem
      have hneg := hrem.neg_iff (by omega) (by omega)
      rw [if_neg (fun hc => absurd (hneg.1 hc) (by omega))]
      exact ⟨rem, rfl, hrem⟩
    · obtain ⟨y, rfl⟩ : ∃ y, z = y + 1 := ⟨z - 1, by omega⟩
      have hsq := Ieee.succ_mul_succ y
      have hle : s * s ≤ y * y := Nat.mul_le_mul (by omega) (by omega)
      have hge : (y + 1) * (y + 1) ≤ (s + 7) * (s + 7) := Nat.mul_le_mul (by omega) (by omega)
      have hs7 : (s + 7) * (s + 7) = s * s + 14 * s + 49 := by ring
      have hval : (n : ℤ) - (y + 1 : ℕ) * (y + 1 : ℕ) = n - ((y + 1) * (y + 1) : ℕ) := by
        push_cast
        rfl
      have hneg := hrem.neg_iff (by rw [hval]; omega) (by rw [hval]; omega)
      have hy : (y + 1 + 2 ^ 64 - 1) % 2 ^ 64 = y := by omega
      have hd : ((y + 1) <<< 1 % 2 ^ 64 + 2 ^ 64 - 2) % 2 ^ 64 = y <<< 1 % 2 ^ 64 := by
        rw [Nat.shiftLeft_eq, Nat.shiftLeft_eq]
        omega
      have hpair : Pair.Is ⟨y >>> 63, y <<< 1 % 2 ^ 64 ||| 1⟩ (2 * y + 1 : ℕ) := by
        have hval : (y >>> 63) * 2 ^ 64 + (y <<< 1 % 2 ^ 64 ||| 1) = 2 * y + 1 := by
          rw [Ieee.or_one, Nat.shiftLeft_eq, Nat.shiftRight_eq_div_pow]
          omega
        have h : Pair.Is ⟨y >>> 63, y <<< 1 % 2 ^ 64 ||| 1⟩ _ :=
          Pair.is_mk (by rw [Nat.shiftRight_eq_div_pow]; omega) (by rw [Ieee.or_one]; omega)
        rwa [hval] at h
      rw [if_pos (hneg.2 (by rw [hval]; omega))]
      simp only [hy, hd]
      refine ih ?_ (by omega) (by omega) (by omega)
      have hnext : (n : ℤ) - y * y = n - (y + 1 : ℕ) * (y + 1 : ℕ) + (2 * y + 1 : ℕ) := by
        push_cast
        ring
      rw [hnext]
      exact add128_is hrem hpair

/-! ## The roots -/

/-- `root` finds a word that stands for the root of a significand. -/
def IsRoot (F : Format) (root : Int → Nat → Option Nat) : Prop :=
  ∀ e x, 2 ^ F.fracBits ≤ x → x < 2 ^ (F.fracBits + 1) → ∃ z, root e x = some z ∧
    StandsRoot (2 ^ (guardBits F - 1)) z
      (x * 2 ^ (F.fracBits + 2 * guardBits F + 1 - (e % 2).toNat))

theorem parity (e : Int) : (e % 2 = 1 ∧ (e % 2).toNat = 1) ∨ (¬ e % 2 = 1 ∧ (e % 2).toNat = 0) := by
  omega

/-- The end of `float32_sqrt`: the estimate is corrected where it is close to a multiple of 64,
    which is where rounding could tell. -/
theorem corrected32 {fuel E n : Nat} (hfuel : 6 ≤ fuel) (hword : E + 2 < 2 ^ 32)
    (hlow : (E - 1) * (E - 1) ≤ 4 * n) (hhigh : 4 * n < (E + 1) * (E + 1)) :
    ∃ z, (if (E + 2) % 128 ≤ 5 then
        (rootLoop32 fuel (E + 2) ((4 * n + 2 ^ 64 - (E + 2) * (E + 2)) % 2 ^ 64)).map fun r =>
          shiftRightJamming 32 (r.1 ||| (if r.2 ≠ 0 then 1 else 0)) 1
      else some (shiftRightJamming 32 (E + 2) 1)) = some z ∧ StandsRoot 64 z n := by
  have hjam : ∀ y, y < 2 ^ 32 → shiftRightJamming 32 y 1 = jam y 2 := fun y hy =>
    shiftRightJamming_eq hy 1
  by_cases hc : (E + 2) % 128 ≤ 5
  · have hle : Nat.sqrt (4 * n) ≤ E + 2 := by
      have := Nat.mul_self_lt_mul_self_iff.1 ((Nat.sqrt_le (4 * n)).trans_lt hhigh)
      omega
    have hge : E - 1 ≤ Nat.sqrt (4 * n) := Nat.le_sqrt.2 hlow
    rw [if_pos hc, rootLoop32_eq hle (by omega) (by omega) (by omega), Option.map_some]
    refine ⟨_, rfl, ?_⟩
    have hs := Ieee.standsRoot_sqrt (4 * n) (h := 128) (by decide) (by decide)
    have hsmall : (Nat.sqrt (4 * n) ||| if 4 * n - Nat.sqrt (4 * n) * Nat.sqrt (4 * n) ≠ 0 then 1
        else 0) < 2 ^ 32 :=
      Nat.or_lt_two_pow (by omega) (by split_ifs <;> decide)
    rw [hjam _ hsmall]
    exact StandsRoot.half (by decide) hs
  · rw [if_neg hc, hjam _ hword]
    refine ⟨_, rfl, StandsRoot.half (by decide) ?_⟩
    exact StandsRoot.of_bounds (t := (E + 2) / 128) hlow hhigh (.inl (by omega)) (by omega)
      (by omega) (by omega)

theorem isRoot32 {fuel : Nat} (hfuel : 6 ≤ fuel) : IsRoot Ieee.binary32 (root32 fuel) := by
  intro e x hx hx'
  change 2 ^ 23 ≤ x at hx
  change x < 2 ^ 24 at hx'
  change ∃ z, root32 fuel e x = some z ∧ StandsRoot 64 z (x * 2 ^ (38 - (e % 2).toNat))
  have ha : x <<< 8 = x * 2 ^ 8 := Nat.shiftLeft_eq ..
  obtain ⟨h1, h2, h3, h4⟩ := estimateSqrt32_spec (a := x * 2 ^ 8) e (by omega) (by omega)
  -- the root is that of the shifted significand, halved
  have hrad : radicand e (x * 2 ^ 8) = 4 * (x * 2 ^ (38 - (e % 2).toNat)) ∧
      (x * 2 ^ 8) >>> (e % 2).toNat <<< 32 = radicand e (x * 2 ^ 8) ∧
      x * 2 ^ (38 - (e % 2).toNat) < 2 ^ 62 := by
    unfold radicand
    obtain ⟨he, hp⟩ | ⟨he, hp⟩ := parity e
    · rw [if_pos he, hp, Nat.shiftRight_eq_div_pow, Nat.shiftLeft_eq]
      omega
    · rw [if_neg he, hp, Nat.shiftRight_eq_div_pow, Nat.shiftLeft_eq]
      omega
  obtain ⟨hrad, hshift, hlt⟩ := hrad
  unfold root32
  simp only [ha, hshift]
  rw [hrad] at h3 h4 ⊢
  generalize x * 2 ^ (38 - (e % 2).toNat) = n at *
  generalize estimateSqrt32 e (x * 2 ^ 8) = E at *
  have hmask : (E + 2) % 2 ^ 32 &&& 0x7F = (E + 2) % 2 ^ 32 % 128 :=
    Nat.and_two_pow_sub_one_eq_mod _ 7
  rw [Nat.pow_two] at h3 h4
  rw [hmask]
  by_cases hover : 2 ^ 32 ≤ E + 2
  · -- the estimate wraps around, and the root is next to the end of the range
    have hsq := Nat.mul_self_le_mul_self (show 2 ^ 32 - 3 ≤ E - 1 by omega)
    rw [if_pos (by omega), if_pos (by omega)]
    refine ⟨_, rfl, .between (2 ^ 25 - 1) (by decide) (by decide) ?_ ?_⟩
    · omega
    · omega
  rw [Nat.mod_eq_of_lt (by omega : E + 2 < 2 ^ 32)]
  have hzero : ¬ E + 2 < 2 := by omega
  simp only [if_neg hzero]
  exact corrected32 hfuel (by omega) h4 h3

/-- The third step of Newton's method, from an estimate `E` of the root of `4 * A`. -/
theorem third_step {A E : Nat} (hE : 2 ^ 31 ≤ E) (hlo : (E - 1) * (E - 1) ≤ 4 * A)
    (hhi : 4 * A < (E + 2) * (E + 2)) (hA : 2 ^ 60 ≤ A) :
    2 ^ 62 ≤ A * 2 ^ 63 / (2 * (E * 2 ^ 30)) + E * 2 ^ 30 ∧
      A * 2 ^ 64 < (A * 2 ^ 63 / (2 * (E * 2 ^ 30)) + E * 2 ^ 30 + 1) ^ 2 ∧
      (A * 2 ^ 63 / (2 * (E * 2 ^ 30)) + E * 2 ^ 30 - 3) ^ 2 ≤ A * 2 ^ 64 := by
  have hpos : 0 < E * 2 ^ 30 := by omega
  have hlow := Ieee.newton_lower (A * 2 ^ 63) hpos
  have hnum : 2 * (A * 2 ^ 63) = A * 2 ^ 64 := by ring
  have hroot : 2 ^ 62 ≤ A * 2 ^ 63 / (2 * (E * 2 ^ 30)) + E * 2 ^ 30 := by
    by_contra hc
    have : (A * 2 ^ 63 / (2 * (E * 2 ^ 30)) + E * 2 ^ 30 + 1) ^ 2 ≤ (2 ^ 62) ^ 2 :=
      Nat.pow_le_pow_left (by omega) 2
    omega
  have hsq : 2 * (E * 2 ^ 30) * (E * 2 ^ 30) = 2 ^ 61 * (E * E) := by ring
  have hgap : 2 * (E * 2 ^ 30) * (2 ^ 32 + 4) = 2 ^ 61 * (4 * E) + 2 ^ 33 * E := by ring
  have hE2 : (E + 2) * (E + 2) = E * E + 4 * E + 4 := by ring
  have hE1 : E * E ≤ (E - 1) * (E - 1) + 2 * E := by
    obtain ⟨d, rfl⟩ : ∃ d, E = d + 1 := ⟨E - 1, by omega⟩
    rw [Nat.add_sub_cancel]
    have := Ieee.succ_mul_succ d
    omega
  have hupper := Ieee.newton_upper (k := 3)
    (Ieee.newton_gap (m := A * 2 ^ 63) (c := 2 ^ 32 + 4) hpos (by omega) (by omega)) (by omega)
  rw [hnum] at hlow hupper
  exact ⟨hroot, hlow, hupper⟩

/-- The end of `float64_sqrt`. -/
theorem corrected64 {fuel W A : Nat} (hfuel : 8 ≤ fuel) (hA : A < 2 ^ 62) (hW : W < 2 ^ 64)
    (hpos : 5 < W) (hlow : (W - 5) * (W - 5) ≤ A * 2 ^ 64)
    (hhigh : A * 2 ^ 64 < (W + 1) * (W + 1)) :
    ∃ z, (if W % 512 ≤ 5 then
        (rootLoop64 fuel W (W <<< 1 % 2 ^ 64) (sub128 ⟨A, 0⟩ (mul64To128 W W))).map fun r =>
          r.1 ||| (if r.2.hi ||| r.2.lo ≠ 0 then 1 else 0)
      else some W) = some z ∧ StandsRoot 512 z (A * 2 ^ 64) := by
  by_cases hc : W % 512 ≤ 5
  · have hle : Nat.sqrt (A * 2 ^ 64) ≤ W := by
      have := Nat.mul_self_lt_mul_self_iff.1 ((Nat.sqrt_le (A * 2 ^ 64)).trans_lt hhigh)
      omega
    have hge : W - 5 ≤ Nat.sqrt (A * 2 ^ 64) := Nat.le_sqrt.2 hlow
    obtain ⟨g1, g2, g3⟩ := mul64To128_val hW hW
    have hrem : (sub128 ⟨A, 0⟩ (mul64To128 W W)).Is ((A * 2 ^ 64 : ℕ) - (W : ℤ) * W) := by
      have h := sub128_is (Pair.is_mk (by omega : A < 2 ^ 64) (Nat.two_pow_pos 64))
        (Pair.is_val g1 g2)
      rw [g3, Nat.add_zero] at h
      exact_mod_cast h
    obtain ⟨p, hp, hpr⟩ := rootLoop64_eq (by omega) hle (by omega : W < _ + fuel) (by omega) hrem
    rw [if_pos hc, hp, Option.map_some]
    refine ⟨_, rfl, ?_⟩
    have hsmall := (Ieee.sqrt_bounds (A * 2 ^ 64)).2
    have hzero : p.hi ||| p.lo ≠ 0 ↔
        A * 2 ^ 64 - Nat.sqrt (A * 2 ^ 64) * Nat.sqrt (A * 2 ^ 64) ≠ 0 := by
      have hval := hpr.val
      unfold Pair.val at hval
      rw [not_iff_not, Nat.or_eq_zero_iff]
      omega
    simp only [hzero]
    exact Ieee.standsRoot_sqrt _ (by decide) (by decide)
  · rw [if_neg hc]
    refine ⟨_, rfl, ?_⟩
    exact StandsRoot.of_bounds (t := W / 512) hlow hhigh (.inl (by omega)) (by omega) (by omega)
      (by omega)

theorem isRoot64 {fuel : Nat} (hfuel : 8 ≤ fuel) : IsRoot Ieee.binary64 (root64 fuel) := by
  intro e x hx hx'
  change 2 ^ 52 ≤ x at hx
  change x < 2 ^ 53 at hx'
  change ∃ z, root64 fuel e x = some z ∧ StandsRoot 512 z (x * 2 ^ (73 - (e % 2).toNat))
  obtain ⟨h1, h2, h3, h4⟩ := estimateSqrt32_spec (a := x >>> 21) e
    (by rw [Nat.shiftRight_eq_div_pow]; omega) (by rw [Nat.shiftRight_eq_div_pow]; omega)
  -- the estimate is of the root of the high half
  obtain ⟨A, hA, hroot, hA', hA'', hlo, hhi⟩ : ∃ A, x <<< (9 - (e % 2).toNat) = A ∧
      x * 2 ^ (73 - (e % 2).toNat) = A * 2 ^ 64 ∧ 2 ^ 60 ≤ A ∧ A < 2 ^ 62 ∧
      radicand e (x >>> 21) ≤ 4 * A ∧ 4 * A < radicand e (x >>> 21) + 2 ^ 32 := by
    refine ⟨_, rfl, ?_⟩
    unfold radicand
    rw [Nat.shiftLeft_eq, Nat.shiftRight_eq_div_pow]
    obtain ⟨he, hp⟩ | ⟨he, hp⟩ := parity e
    · rw [if_pos he, hp]
      omega
    · rw [if_neg he, hp]
      omega
  unfold root64
  simp only [hA, hroot]
  rw [Nat.pow_two] at h3 h4
  generalize estimateSqrt32 e (x >>> 21) = E at *
  generalize radicand e (x >>> 21) = r at *
  have hE2 : (E + 2) * (E + 2) = (E + 1) * (E + 1) + 2 * E + 3 := by ring
  have hb : E <<< 32 = E * 2 ^ 32 := Nat.shiftLeft_eq ..
  have hh : E <<< 30 = E * 2 ^ 30 := Nat.shiftLeft_eq ..
  have hfuel3 : 3 ≤ fuel := by omega
  obtain ⟨q, hq, hq1, hq2⟩ := estimateDiv128To64_spec (a := A) (b := E * 2 ^ 32) hfuel3
    (by omega) (by omega) (by omega)
  obtain ⟨k1, k2, k3⟩ := third_step h1 (h4.trans hlo) (by omega) hA'
  have hdiv : A * 2 ^ 64 / (E * 2 ^ 32) = A * 2 ^ 63 / (2 * (E * 2 ^ 30)) := by
    have h2 : A * 2 ^ 64 = A * 2 ^ 63 * 2 := by ring
    have h3 : E * 2 ^ 32 = 2 * (E * 2 ^ 30) * 2 := by ring
    rw [h2, h3, Nat.mul_div_mul_right _ _ Nat.two_pos]
  rw [hdiv] at hq1 hq2
  rw [hb, hh, hq, Option.bind_some]
  clear hdiv
  generalize A * 2 ^ 63 / (2 * (E * 2 ^ 30)) = Q at *
  -- the word, as far as it is known
  have hbig : Q + E * 2 ^ 30 < 2 ^ 63 + 4 := by
    by_contra hc
    have : (2 ^ 63) ^ 2 ≤ (Q + E * 2 ^ 30 - 3) ^ 2 := Nat.pow_le_pow_left (by omega) 2
    omega
  obtain ⟨W, hW, hW1, hW2⟩ : ∃ W, (q + E * 2 ^ 30) % 2 ^ 64 = W ∧ Q + E * 2 ^ 30 ≤ W ∧
      W ≤ Q + E * 2 ^ 30 + 2 := ⟨_, rfl, by omega, by omega⟩
  have hupper : A * 2 ^ 64 < (W + 1) * (W + 1) := by
    rw [Nat.pow_two] at k2
    exact k2.trans_le (Nat.mul_self_le_mul_self (by omega))
  have hlower : (W - 5) * (W - 5) ≤ A * 2 ^ 64 := by
    rw [Nat.pow_two] at k3
    exact (Nat.mul_self_le_mul_self (by omega)).trans k3
  have hmask : W &&& 0x1FF = W % 512 := Nat.and_two_pow_sub_one_eq_mod _ 9
  simp only [hW, hmask]
  exact corrected64 hfuel hA'' (by omega) (by omega) hlower hupper

/-! ## Rounding -/

section Format

variable {F : Format} {a : Nat}

/-- A word that stands for a root is rounded and packed as the root would be. -/
theorem roundAndPackFloat_root (hF : Usable F) {zExp : ℤ} (hlo : -2 ^ 15 ≤ zExp)
    (hhi : zExp < 2 ^ 15) {z n : Nat} (hs : StandsRoot (2 ^ (guardBits F - 1)) z n)
    (hz : 2 ^ (F.fracBits + guardBits F) ≤ z) (hz' : z < 2 ^ (F.fracBits + guardBits F + 1)) :
    F.RoundsReal (√n * ((2 ^ (zExp - guardBits F) * F.unit : ℚ) : ℝ))
      (roundAndPackFloat F default false zExp z) := by
  have hc : (0 : ℚ) < 2 ^ (zExp - guardBits F) * F.unit :=
    mul_pos (zpow_pos (by norm_num) _) Format.unit_pos
  have hround : ∀ {n m : Nat}, 0 < m → Stands (2 ^ (guardBits F - 1)) z n m →
      F.Rounds ((n : ℚ) / m * (2 ^ (zExp - guardBits F) * F.unit))
        (roundAndPackFloat F default false zExp z) := by
    intro n m hm h
    have := roundAndPackFloat_rounds hF false hlo hhi hz hz' hm h rfl
    rwa [signedSteps, if_neg (by decide), mul_assoc] at this
  cases hs with
  | exact hzz =>
    have h := (Format.roundsReal_cast _ _).2 (hround Nat.one_pos (Stands.self _ z))
    rw [← hzz]
    push_cast at h ⊢
    rw [Real.sqrt_mul_self (Nat.cast_nonneg z)]
    rwa [div_one] at h
  | between t h1 h2 h3 h4 =>
    generalize 2 ^ (guardBits F - 1) = h at *
    have hh : 0 < h := by
      by_contra hc
      obtain rfl : h = 0 := by omega
      simp at h1 h2
    generalize (2 : ℚ) ^ (zExp - guardBits F) * F.unit = c at *
    have hroot : ((h * t : ℕ) : ℝ) < √n ∧ √n < ((h * (t + 1) : ℕ) : ℝ) := by
      constructor
      · rw [Real.lt_sqrt (Nat.cast_nonneg _), pow_two]
        exact_mod_cast h3
      · rw [Real.sqrt_lt' (by exact_mod_cast Nat.mul_pos hh (Nat.succ_pos t)), pow_two]
        exact_mod_cast h4
    have hcr : (0 : ℝ) < c := by exact_mod_cast hc
    refine Format.roundsReal_of_between (l := (h * t : ℕ) * c) (u := (h * (t + 1) : ℕ) * c)
      (by positivity) (fun q hq hq' => ?_) ?_ ?_
    · -- every rational between the multiples rounds as the word does
      have hq0 : 0 ≤ q / c := div_nonneg (le_trans (by positivity) hq.le) hc.le
      obtain ⟨i, m, hm, hr⟩ : ∃ i m : Nat, 0 < m ∧ (i : ℚ) / m = q / c := by
        refine ⟨(q / c).num.toNat, (q / c).den, (q / c).den_pos, ?_⟩
        have hnum : (((q / c).num.toNat : ℕ) : ℚ) = (q / c).num := by
          exact_mod_cast Int.toNat_of_nonneg (Rat.num_nonneg.2 hq0)
        rw [hnum, Rat.num_div_den]
      have hm' : (0 : ℚ) < m := by exact_mod_cast hm
      have hlow : ((h * t : ℕ) : ℚ) < i / m := by rwa [hr, lt_div_iff₀ hc]
      have hhigh : (i : ℚ) / m < ((h * (t + 1) : ℕ) : ℚ) := by rwa [hr, div_lt_iff₀ hc]
      rw [lt_div_iff₀ hm'] at hlow
      rw [div_lt_iff₀ hm'] at hhigh
      have hlow' : h * t * m < i := by exact_mod_cast hlow
      have hhigh' : i < h * (t + 1) * m := by exact_mod_cast hhigh
      have hst := hround hm (Ieee.stands_between hh hm h1 h2
        (by rwa [Nat.mul_comm m, Nat.mul_right_comm]) (by rwa [Nat.mul_comm m, Nat.mul_right_comm]))
      rwa [hr, div_mul_cancel₀ _ hc.ne'] at hst
    · push_cast
      have := mul_lt_mul_of_pos_right hroot.1 hcr
      push_cast at this
      exact this
    · push_cast
      have := mul_lt_mul_of_pos_right hroot.2 hcr
      push_cast at this
      exact this

/-- The exponent of a root: the exponent of the number, halved, and the parity with it. -/
theorem sqrt_exponent (hF : Usable F) (e : ℤ) :
    2 * ((e - bias F) / 2 + (bias F - 1)) = e + bias F + ((e % 2).toNat : ℕ) - 3 := by
  have hodd : bias F % 2 = 1 := by
    have hge := hF.exp_ge
    obtain ⟨k, hk⟩ : ∃ k, F.expBits - 1 = k + 1 := ⟨F.expBits - 2, by omega⟩
    have hpos := Nat.two_pow_pos k
    rw [bias, hk, Nat.pow_succ]
    omega
  omega

/-- The root of the number with significand `x` and exponent `e`, from the root of the shifted
    significand. -/
theorem sqrt_value (hF : Usable F) {e : ℤ} (x : Nat) :
    ((x : ℚ) * 2 ^ (e - 1)) * F.unit =
      (x * 2 ^ (F.fracBits + 2 * guardBits F + 1 - (e % 2).toNat) : ℕ) *
        ((2 ^ ((e - bias F) / 2 + (bias F - 1) - guardBits F) * F.unit) *
          (2 ^ ((e - bias F) / 2 + (bias F - 1) - guardBits F) * F.unit)) := by
  have hexp := sqrt_exponent hF e
  have hp : (e % 2).toNat ≤ 1 := by omega
  have hpow : (2 : ℚ) ^ (e - 1) * F.unit =
      2 ^ (F.fracBits + 2 * guardBits F + 1 - (e % 2).toNat) *
        ((2 ^ ((e - bias F) / 2 + (bias F - 1) - guardBits F) * F.unit) *
          (2 ^ ((e - bias F) / 2 + (bias F - 1) - guardBits F) * F.unit)) := by
    rw [unit_eq, ← zpow_natCast, ← zpow_add₀ (by norm_num), ← zpow_add₀ (by norm_num),
      ← zpow_add₀ (by norm_num), ← zpow_add₀ (by norm_num)]
    congr 1
    omega
  push_cast
  rw [mul_assoc, hpow, ← mul_assoc]

theorem eq_zero_of_positive (ha : a < 2 ^ width F) (h : F.exponent a = 0 ∧ F.fraction a = 0)
    (hneg : ¬ F.negative a = true) : a = 0 := by
  obtain ⟨hexp, hfrac⟩ := h
  have hsplit : 2 ^ width F = 2 ^ F.fracBits * 2 ^ F.expBits * 2 := by
    rw [width, Nat.pow_succ, Nat.pow_add]
  rw [Format.negative, beq_iff_eq, Nat.pow_add, ← Nat.div_div_eq_div_mul] at hneg
  rw [Format.exponent] at hexp
  rw [Format.fraction] at hfrac
  rw [hsplit, Nat.mul_assoc] at ha
  have hq := Nat.div_lt_of_lt_mul ha
  have hdm := Nat.div_add_mod a (2 ^ F.fracBits)
  have hdm' := Nat.div_add_mod (a / 2 ^ F.fracBits) (2 ^ F.expBits)
  have hs := Nat.div_lt_of_lt_mul hq
  -- every part of the pattern is zero
  have hsign : a / 2 ^ F.fracBits / 2 ^ F.expBits = 0 := by
    generalize a / 2 ^ F.fracBits / 2 ^ F.expBits = q at *
    omega
  rw [hsign, hexp] at hdm'
  rw [← hdm', hfrac] at hdm
  omega

/-- A word that stands for the root of a significand is a significand with its guard bits. -/
theorem standsRoot_significand (hF : Usable F) {x z p : Nat} (hp : p ≤ 1) (hx : 2 ^ F.fracBits ≤ x)
    (hx' : x < 2 ^ (F.fracBits + 1)) (hs : StandsRoot (2 ^ (guardBits F - 1)) z
      (x * 2 ^ (F.fracBits + 2 * guardBits F + 1 - p))) :
    2 ^ (F.fracBits + guardBits F) ≤ z ∧ z < 2 ^ (F.fracBits + guardBits F + 1) := by
  have hsplit : ∀ k, 2 ^ (F.fracBits + guardBits F + k) =
      2 ^ (guardBits F - 1) * 2 ^ (F.fracBits + 1 + k) := by
    intro k
    have := hF.exp_ge
    rw [← Nat.pow_add]
    congr 1
    unfold guardBits
    omega
  constructor
  · have h := hs.le_iff (2 ^ (F.fracBits + 1 + 0))
    rw [← hsplit, Nat.add_zero] at h
    refine h.2 ?_
    calc 2 ^ (F.fracBits + guardBits F) * 2 ^ (F.fracBits + guardBits F)
        = 2 ^ F.fracBits * 2 ^ (F.fracBits + 2 * guardBits F) := by
          rw [← Nat.pow_add, ← Nat.pow_add]
          congr 1
          omega
      _ ≤ _ := Nat.mul_le_mul hx (Nat.pow_le_pow_right (by decide) (by omega))
  · have h := hs.le_iff (2 ^ (F.fracBits + 1 + 1))
    rw [← hsplit] at h
    rw [← Nat.not_le, h, Nat.not_le]
    calc x * 2 ^ (F.fracBits + 2 * guardBits F + 1 - p)
        < 2 ^ (F.fracBits + 1) * 2 ^ (F.fracBits + 2 * guardBits F + 1) :=
          Nat.mul_lt_mul_of_lt_of_le hx' (Nat.pow_le_pow_right (by decide) (by omega))
            (Nat.two_pow_pos _)
      _ = _ := by
          rw [← Nat.pow_add, ← Nat.pow_add]
          congr 1
          omega

/-- A positive number: what is packed is its root, rounded. -/
theorem root_rounds (hF : Usable F) {root : Int → Nat → Option Nat} (hroot : IsRoot F root)
    (hsteps : F.steps a ≠ 0) (hneg : ¬ F.negative a = true) :
    ∃ z, (root (normalized F (F.fraction a) (F.exponent a)).2
          ((normalized F (F.fraction a) (F.exponent a)).1 ||| 2 ^ F.fracBits)).map
        (roundAndPackFloat F default false
          (((normalized F (F.fraction a) (F.exponent a)).2 - bias F) / 2 + (bias F - 1))) = some z ∧
      F.RoundsReal √(F.value a) z := by
  obtain ⟨h1, h2, h3, h4, h5⟩ := normalized_spec hF hsteps
  obtain ⟨z, hz, hs⟩ := hroot (normalized F (F.fraction a) (F.exponent a)).2 _ h1 h2
  rw [hz, Option.map_some]
  refine ⟨_, rfl, ?_⟩
  have hvalue : F.value a = F.steps a * F.unit := by
    rw [value_eq_signedSteps, signedSteps, if_neg hneg]
  generalize (normalized F (F.fraction a) (F.exponent a)).2 = e at *
  generalize (normalized F (F.fraction a) (F.exponent a)).1 ||| 2 ^ F.fracBits = x at *
  have hbias : bias F < 2 ^ 13 := by
    have : 2 ^ (F.expBits - 1) ≤ 2 ^ 13 :=
      Nat.pow_le_pow_right (by decide) (by have := hF.exp_le; omega)
    unfold bias
    omega
  obtain ⟨hlow, hhigh⟩ := standsRoot_significand hF (by omega) h1 h2 hs
  have hzlo : -2 ^ 15 ≤ (e - bias F) / 2 + (bias F - 1) := by omega
  have hzhi : (e - bias F) / 2 + (bias F - 1) < 2 ^ 15 := by omega
  have hr := roundAndPackFloat_root hF hzlo hzhi hs hlow hhigh
  have hc : (0 : ℝ) ≤ ((2 ^ ((e - bias F) / 2 + (bias F - 1) - guardBits F) * F.unit : ℚ) : ℝ) := by
    have h : (0 : ℚ) ≤ 2 ^ ((e - bias F) / 2 + (bias F - 1) - guardBits F) * F.unit :=
      mul_nonneg (zpow_nonneg (by norm_num) _) Format.unit_pos.le
    exact_mod_cast h
  -- the scale comes out of the root
  rw [hvalue, h5, sqrt_value hF x]
  generalize (2 : ℚ) ^ ((e - bias F) / 2 + (bias F - 1) - guardBits F) * F.unit = c at *
  have hsqrt : ∀ n : Nat, √((n * (c * c) : ℚ) : ℝ) = √(n : ℝ) * c := by
    intro n
    rw [Rat.cast_mul, Rat.cast_natCast, Real.sqrt_mul (Nat.cast_nonneg _), Rat.cast_mul,
      Real.sqrt_mul_self hc]
  rw [hsqrt]
  exact hr

theorem floatSqrt_delivers (hF : Usable F) {root : Int → Nat → Option Nat} (hroot : IsRoot F root)
    {other : Nat → Nat} (hother : ∀ b, F.isNaN (other b) = true → other b = b)
    (ha : a < 2 ^ width F) :
    ∃ z, floatSqrt F default other root a = some z ∧ F.RootOf a z := by
  have hsq : squashInputDenormal F default a = a := rfl
  have hmax := maxExp_lt hF
  unfold floatSqrt Format.RootOf
  simp only [hsq]
  by_cases hexp : F.exponent a = maxExp F
  · rw [if_pos hexp]
    by_cases hfrac : F.fraction a = 0
    · -- an infinity
      have hnan : ¬ F.isNaN a = true := fun h => (isNaN_iff.1 h).2 hfrac
      have hzero : ¬ F.isZero a = true := by
        rw [not_zero_of_infinite hF hexp]
        decide
      have hinf : ¬ F.isFinite a = true := by
        rw [isFinite_false_iff.2 hexp]
        decide
      simp only [if_neg (not_not.2 hfrac), if_neg hnan, if_neg hzero, if_neg hinf]
      by_cases hneg : F.negative a = true
      · simp only [if_pos hneg]
        exact ⟨_, rfl, isNaN_defaultNan hF⟩
      · simp only [if_neg hneg]
        exact ⟨_, rfl, rfl⟩
    · have hnan : F.isNaN a = true := isNaN_iff.2 ⟨hexp, hfrac⟩
      simp only [if_pos hfrac, if_pos hnan]
      obtain ⟨c, hc, hcn, hp⟩ := propagateNan_eq (b := other a) hF (.inl hnan)
      have hca : c = a := hc.elim id fun h => by rw [h, hother a (h ▸ hcn)]
      exact ⟨_, rfl, by rw [hp, hca]⟩
  have hnan : ¬ F.isNaN a = true := fun h => hexp (isNaN_iff.1 h).1
  have hfin : F.isFinite a = true := (isFinite_iff a).2 hexp
  simp only [if_neg hexp, if_neg hnan]
  by_cases hzero : F.exponent a = 0 ∧ F.fraction a = 0
  · have hor : F.exponent a ||| F.fraction a = 0 := Nat.or_eq_zero_iff.2 hzero
    simp only [if_pos (Format.isZero_iff.2 hzero), if_pos hzero, if_pos hor]
    by_cases hneg : F.negative a = true
    · simp only [if_pos hneg]
      exact ⟨_, rfl, rfl⟩
    · simp only [if_neg hneg]
      exact ⟨_, rfl, (eq_zero_of_positive ha hzero hneg).symm⟩
  have hor : ¬ F.exponent a ||| F.fraction a = 0 := fun h => hzero (Nat.or_eq_zero_iff.1 h)
  simp only [if_neg (fun h => hzero (Format.isZero_iff.1 h)), if_neg hzero, if_neg hor]
  by_cases hneg : F.negative a = true
  · simp only [if_pos hneg]
    exact ⟨_, rfl, isNaN_defaultNan hF⟩
  simp only [if_neg hneg, if_pos hfin]
  exact root_rounds hF hroot (steps_ne_zero hzero) hneg

end Format

end Softfloat

end NemuMips32
