/-
  Hexadecimal text as C programs read and print it: the `%x` conversion of `sscanf`, the
  `%02x` conversion of `snprintf`, and strings of bytes that end at a zero. A scan of digits
  returns their number (`scan_digits`), and a scan of two returns the byte they were printed
  from (`scan_encode`). Nothing here knows about a particular program.
-/
import Mathlib.Data.BitVec
import Mathlib.Data.List.TakeWhile
import Mathlib.Tactic.IntervalCases

namespace HexText

abbrev Byte := BitVec 8

def ascii (c : Char) : Byte := BitVec.ofNat 8 c.toNat

/-! ## Digits -/

/-- The value of a hexadecimal digit of either case. -/
def digitValue (c : Byte) : Option Nat :=
  if 48 ≤ c.toNat ∧ c.toNat ≤ 57 then some (c.toNat - 48)
  else if 97 ≤ c.toNat ∧ c.toNat ≤ 102 then some (c.toNat - 87)
  else if 65 ≤ c.toNat ∧ c.toNat ≤ 70 then some (c.toNat - 55)
  else none

def isDigit (c : Byte) : Bool := (digitValue c).isSome

/-- The number that a string of digits stands for. -/
def value (ds : List Byte) : Nat := ds.foldl (fun v d => 16 * v + (digitValue d).getD 0) 0

/-- The lower case digit of a number below 16. -/
def digit (n : Nat) : Byte := if n < 10 then BitVec.ofNat 8 (48 + n) else BitVec.ofNat 8 (87 + n)

/-- `%02x` of a byte. -/
def encode (b : Byte) : List Byte := [digit (b.toNat / 16), digit (b.toNat % 16)]

def encodeAll (bs : List Byte) : List Byte := bs.flatMap encode

/-! ## Scanning -/

/-- `isspace`. -/
def isSpace (c : Byte) : Bool := c = 32 ∨ 9 ≤ c.toNat ∧ c.toNat ≤ 13

/-- An optional sign, within the field width. -/
def scanSign (w : Nat) (s : List Byte) : Bool × Nat × List Byte :=
  if 0 < w ∧ (s.head? = some (ascii '-') ∨ s.head? = some (ascii '+')) then
    (s.head? = some (ascii '-'), w - 1, s.tail)
  else
    (false, w, s)

/-- A leading zero, with an `x` behind it if there is one. -/
def scanZero (w : Nat) (s : List Byte) : Bool × Nat × List Byte :=
  if 0 < w ∧ s.head? = some (ascii '0') then
    if 0 < w - 1 ∧ (s.tail.head? = some (ascii 'x') ∨ s.tail.head? = some (ascii 'X')) then
      (true, w - 2, s.tail.tail)
    else
      (true, w - 1, s.tail)
  else
    (false, w, s)

/-- What `strtoul` makes of a number, cut to an `unsigned int`. -/
def toUint (neg : Bool) (v : Nat) : BitVec 32 :=
  if 2 ^ 64 ≤ v then BitVec.allOnes 32
  else if neg then -BitVec.ofNat 32 v
  else BitVec.ofNat 32 v

/-- The conversion `%x` with field width `w`: the number read and the text that follows it. -/
def scan (w : Nat) (s : List Byte) : Option (BitVec 32 × List Byte) :=
  let (neg, w, s) := scanSign w (s.dropWhile isSpace)
  let (zero, w, s) := scanZero w s
  let ds := (s.take w).takeWhile isDigit
  if zero = true ∨ ds ≠ [] then some (toUint neg (value ds), s.drop ds.length) else none

/-- The conversion `%x` without a field width. -/
def scanFull (s : List Byte) : Option (BitVec 32 × List Byte) := scan s.length s

/-- `strchr`, as an index. -/
def strchr (s : List Byte) (c : Byte) : Option Nat := (s.takeWhile (· ≠ 0)).idxOf? c

/-! ## Digits and their values -/

theorem digitValue_digit : ∀ n < 16, digitValue (digit n) = some n := by decide

theorem isDigit_digit {n : Nat} (h : n < 16) : isDigit (digit n) = true := by
  rw [isDigit, digitValue_digit n h]
  rfl

/-- A digit is none of the characters that the scanner treats apart. -/
theorem isDigit_plain : ∀ c : Byte, isDigit c = true →
    isSpace c = false ∧ c ≠ ascii '-' ∧ c ≠ ascii '+' ∧ c ≠ ascii 'x' ∧ c ≠ ascii 'X' ∧
      c ≠ ascii ',' ∧ c ≠ ascii ':' ∧ c ≠ 0 := by decide +kernel

theorem value_zero_cons (ds : List Byte) : value (ascii '0' :: ds) = value ds := by
  have h : 16 * 0 + (digitValue (ascii '0')).getD 0 = 0 := by decide
  unfold value
  rw [List.foldl_cons, h]

theorem value_encode (b : Byte) : value (encode b) = b.toNat := by
  have hb := b.isLt
  rw [encode, value, List.foldl_cons, List.foldl_cons, List.foldl_nil,
    digitValue_digit _ (by omega), digitValue_digit _ (by omega)]
  simp only [Option.getD_some]
  omega

theorem encode_digits {b c : Byte} (h : c ∈ encode b) : isDigit c = true := by
  have hb := b.isLt
  simp only [encode, List.mem_cons, List.not_mem_nil, or_false] at h
  rcases h with rfl | rfl
  · exact isDigit_digit (by omega)
  · exact isDigit_digit (by omega)

theorem encodeAll_digits {bs : List Byte} {c : Byte} (h : c ∈ encodeAll bs) :
    isDigit c = true := by
  obtain ⟨b, -, hc⟩ := List.mem_flatMap.1 h
  exact encode_digits hc

theorem length_encodeAll (bs : List Byte) : (encodeAll bs).length = 2 * bs.length := by
  induction bs with
  | nil => rfl
  | cons b bs ih =>
    rw [encodeAll, List.flatMap_cons, List.length_append, List.length_cons]
    rw [encodeAll] at ih
    rw [ih, encode]
    simp only [List.length_cons, List.length_nil]
    omega

/-! ## Scanning digits -/

/-- The text does not go on with a digit or an `x`. -/
def Ends (rest : List Byte) : Prop :=
  ∀ c, rest.head? = some c → isDigit c = false ∧ c ≠ ascii 'x' ∧ c ≠ ascii 'X'

theorem scanSign_digit {w : Nat} {c : Byte} {s : List Byte} (hc : isDigit c = true) :
    scanSign w (c :: s) = (false, w, c :: s) := by
  obtain ⟨-, hm, hp, -⟩ := isDigit_plain c hc
  unfold scanSign
  rw [if_neg]
  rintro ⟨-, h | h⟩
  · exact hm (Option.some.inj h)
  · exact hp (Option.some.inj h)

theorem takeWhile_digits {ds rest : List Byte} (hd : ∀ c ∈ ds, isDigit c = true)
    (hr : ∀ c, rest.head? = some c → isDigit c = false) :
    (ds ++ rest).takeWhile isDigit = ds := by
  rw [List.takeWhile_append_of_pos hd]
  have hnil : rest.takeWhile isDigit = [] := by
    cases rest with
    | nil => rfl
    | cons c cs => rw [List.takeWhile_cons, hr c rfl, if_neg Bool.false_ne_true]
  rw [hnil, List.append_nil]

/-- A scan reads the digits that fit into the field, and stops behind them. -/
theorem scan_of_take {w : Nat} {ds s rest : List Byte} (hne : ds ≠ [])
    (hd : ∀ c ∈ ds, isDigit c = true) (hs : s = ds ++ rest) (hw : ds.length ≤ w)
    (hx : ds.length < w → Ends rest) (hfit : value ds < 2 ^ 32) :
    scan w s = some (BitVec.ofNat 32 (value ds), rest) := by
  obtain ⟨c, cs, rfl⟩ := List.exists_cons_of_ne_nil hne
  subst hs
  have hc := hd c List.mem_cons_self
  have hcs : ∀ d ∈ cs, isDigit d = true := fun d h => hd d (List.mem_cons_of_mem c h)
  have hw' : cs.length + 1 ≤ w := hw
  have hspace : (c :: cs ++ rest).dropWhile isSpace = c :: (cs ++ rest) := by
    rw [List.cons_append, List.dropWhile_cons, (isDigit_plain c hc).1, if_neg Bool.false_ne_true]
  -- what is read of a text that starts with the digits `es`
  have htake : ∀ (es : List Byte) (w' : Nat), (∀ d ∈ es, isDigit d = true) → es.length ≤ w' →
      (es.length < w' → Ends rest) → ((es ++ rest).take w').takeWhile isDigit = es := by
    intro es w' hes hle hlt
    rw [List.take_append, List.take_of_length_le hle]
    refine takeWhile_digits hes fun d hdh => ?_
    by_cases hl : es.length < w'
    · refine (hlt hl d ?_).1
      rw [List.head?_take] at hdh
      split at hdh
      · cases hdh
      · exact hdh
    · rw [show w' - es.length = 0 by omega, List.take_zero] at hdh
      cases hdh
  have huint : ∀ v < 2 ^ 32, toUint false v = BitVec.ofNat 32 v := by
    intro v hv
    unfold toUint
    rw [if_neg (by omega), if_neg Bool.false_ne_true]
  unfold scan
  rw [hspace, scanSign_digit hc]
  by_cases h0 : c = ascii '0'
  · subst h0
    rw [value_zero_cons] at hfit ⊢
    have hz : scanZero w (ascii '0' :: (cs ++ rest)) = (true, w - 1, cs ++ rest) := by
      unfold scanZero
      rw [if_pos ⟨by omega, rfl⟩, if_neg]
      · rfl
      · rintro ⟨hlt, hx'⟩
        have hcase : ∀ d, (cs ++ rest).head? = some d → d ≠ ascii 'x' ∧ d ≠ ascii 'X' := by
          intro d hh
          cases cs with
          | nil => exact (hx (by simpa using hlt) d hh).2
          | cons e es =>
            obtain rfl := Option.some.inj hh
            obtain ⟨-, -, -, h1, h2, -⟩ := isDigit_plain e (hcs e List.mem_cons_self)
            exact ⟨h1, h2⟩
        rcases hx' with h | h
        · exact (hcase _ h).1 rfl
        · exact (hcase _ h).2 rfl
    simp only [hz]
    rw [htake cs (w - 1) hcs (by omega) (fun h => hx (by simp only [List.length_cons]; omega)),
      if_pos (.inl trivial), huint _ hfit, List.drop_left]
  · have hz : scanZero w (c :: (cs ++ rest)) = (false, w, c :: (cs ++ rest)) := by
      unfold scanZero
      rw [if_neg]
      rintro ⟨-, h⟩
      exact h0 (Option.some.inj h)
    simp only [hz]
    have ht := htake (c :: cs) w hd hw hx
    rw [List.cons_append] at ht
    rw [ht, if_pos (.inr (List.cons_ne_nil c cs)), huint _ hfit, ← List.cons_append,
      List.drop_left]

theorem scan_digits {ds rest : List Byte} (hne : ds ≠ []) (hd : ∀ c ∈ ds, isDigit c = true)
    (hr : Ends rest) (hfit : value ds < 2 ^ 32) :
    scanFull (ds ++ rest) = some (BitVec.ofNat 32 (value ds), rest) := by
  unfold scanFull
  refine scan_of_take hne hd rfl ?_ (fun _ => hr) hfit
  rw [List.length_append]
  omega

theorem scan_encode (b : Byte) (rest : List Byte) :
    scan 2 (encode b ++ rest) = some (b.setWidth 32, rest) := by
  have hb := b.isLt
  have hne : encode b ≠ [] := List.cons_ne_nil _ _
  have hlen : (encode b).length = 2 := rfl
  have hfit : value (encode b) < 2 ^ 32 := by
    rw [value_encode]
    omega
  rw [scan_of_take hne (fun c h => encode_digits h) rfl (by omega) (by omega) hfit, value_encode,
    BitVec.ofNat_toNat]

theorem strchr_append {pre rest : List Byte} {d : Byte} (hd : d ≠ 0)
    (h : ∀ c ∈ pre, c ≠ 0 ∧ c ≠ d) : strchr (pre ++ d :: rest) d = some pre.length := by
  induction pre with
  | nil =>
    unfold strchr
    rw [List.nil_append, List.takeWhile_cons, if_pos (decide_eq_true hd), List.idxOf?_cons,
      if_pos (beq_self_eq_true d)]
    rfl
  | cons c pre ih =>
    obtain ⟨hc0, hcd⟩ := h c List.mem_cons_self
    have ih := ih fun e he => h e (List.mem_cons_of_mem c he)
    unfold strchr at ih ⊢
    rw [List.cons_append, List.takeWhile_cons, if_pos (decide_eq_true hc0), List.idxOf?_cons,
      if_neg (by simpa using hcd), ih]
    rfl

/-! ## Words -/

/-- `%08x` of a word. -/
def encodeWord (v : BitVec 32) : List Byte :=
  encodeAll [v.extractLsb' 24 8, v.extractLsb' 16 8, v.extractLsb' 8 8, v.extractLsb' 0 8]

theorem length_encodeWord (v : BitVec 32) : (encodeWord v).length = 8 := length_encodeAll _

/-- The `n`-th piece of a text made of pieces of the same length. -/
theorem drop_take_flatMap {α : Type} {f : α → List Byte} {k : Nat} (hf : ∀ a, (f a).length = k)
    {l : List α} {n : Nat} (hn : n < l.length) :
    ((l.flatMap f).drop (k * n)).take k = f l[n] := by
  induction l generalizing n with
  | nil => exact absurd hn (Nat.not_lt_zero n)
  | cons a l ih =>
    rw [List.flatMap_cons]
    cases n with
    | zero =>
      rw [Nat.mul_zero, List.drop_zero, List.take_left' (hf a)]
      rfl
    | succ n =>
      have hlen : k * (n + 1) = (f a).length + k * n := by rw [hf, Nat.mul_succ, Nat.add_comm]
      rw [hlen, List.drop_append, List.drop_of_length_le (by omega), List.nil_append,
        Nat.add_sub_cancel_left]
      exact ih (Nat.lt_of_succ_lt_succ hn)

end HexText
