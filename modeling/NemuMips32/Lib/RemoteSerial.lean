/-
  The packet encoding of a serial debugging protocol. A packet is `$`, a text, `#` and two
  hexadecimal digits with the sum of the text modulo 256. In the text a byte stands for itself,
  is escaped with `}`, or is repeated by `*` and a count. `unpack` reads a text the way a
  receiver does, byte by byte; `unpack_text` says that it undoes every encoding of a payload.
  Nothing here knows about a particular program.
-/
import NemuMips32.Lib.HexText

namespace RemoteSerial

open HexText

/-! ## Packets -/

/-- A byte that a text carries for itself. -/
def plain (c : Byte) : Bool :=
  c != ascii '$' && c != ascii '#' && c != ascii '}' && c != ascii '*'

/-- The checksum of a text. -/
def checksum (text : List Byte) : Byte := text.foldl (· + ·) 0

/-- A count for a repetition, printable and neither end of a packet. -/
def isCount (c : Byte) : Bool :=
  29 ≤ c.toNat && c.toNat ≤ 126 && c != ascii '$' && c != ascii '#'

/-- What a count stands for. -/
def count (c : Byte) : Nat := c.toNat - 29

/-- The reader of a text: `out` is what was read before, `escape` says that a `}` waits for
    its byte. A `*` with nothing to repeat, or without a count, stands for itself. -/
def unpack : List Byte → Bool → List Byte → List Byte
  | out, _, [] => out
  | out, escape, c :: cs =>
    if c = ascii '}' then unpack out true cs
    else
      match cs with
      | n :: rest =>
        if c = ascii '*' ∧ out ≠ [] ∧ isCount n = true then
          unpack (out ++ List.replicate (count n) (out.getLastD 0)) escape rest
        else unpack (out ++ [if escape then c ^^^ 0x20 else c]) false (n :: rest)
      | [] => out ++ [if escape then c ^^^ 0x20 else c]

/-! ## Encodings -/

/-- One step of an encoder: a byte as it is, escaped, or the last one again. -/
inductive Piece where
  | plain (c : Byte)
  | escaped (c : Byte)
  | again (n : Byte)

def Piece.text : Piece → List Byte
  | .plain c => [c]
  | .escaped c => [ascii '}', c ^^^ 0x20]
  | .again n => [ascii '*', n]

/-- What follows the payload `out`. -/
def Piece.expand (out : List Byte) : Piece → List Byte
  | .plain c | .escaped c => out ++ [c]
  | .again n => out ++ List.replicate (count n) (out.getLastD 0)

/-- The encoder may use the piece behind the payload `out`. -/
def Piece.Valid (out : List Byte) : Piece → Prop
  | .plain c => RemoteSerial.plain c = true
  | .escaped c => RemoteSerial.plain (c ^^^ 0x20) = true
  | .again n => out ≠ [] ∧ isCount n = true

/-- The payload `data` has the encoding `ps`, behind the payload `out`. -/
inductive Encodes : List Byte → List Piece → List Byte → Prop
  | nil {out} : Encodes out [] out
  | cons {out p ps data} (hp : p.Valid out) (h : Encodes (p.expand out) ps data) :
      Encodes out (p :: ps) data

def text (ps : List Piece) : List Byte := ps.flatMap Piece.text

/-! ## Checksums -/

theorem foldl_add (cs : List Byte) (s : Byte) : cs.foldl (· + ·) s = s + checksum cs := by
  induction cs generalizing s with
  | nil => exact (BitVec.add_zero s).symm
  | cons c cs ih =>
    have h0 : (0 : Byte) + c = c := BitVec.zero_add c
    rw [checksum, List.foldl_cons, List.foldl_cons, ih, ih (0 + c), h0, BitVec.add_assoc]

theorem checksum_cons (c : Byte) (cs : List Byte) : checksum (c :: cs) = c + checksum cs := by
  have h0 : (0 : Byte) + c = c := BitVec.zero_add c
  rw [checksum, List.foldl_cons, foldl_add, h0]

/-! ## Reading -/

theorem plain_iff {c : Byte} :
    plain c = true ↔ c ≠ ascii '$' ∧ c ≠ ascii '#' ∧ c ≠ ascii '}' ∧ c ≠ ascii '*' := by
  simp only [plain, Bool.and_eq_true, bne_iff_ne, and_assoc]

theorem isCount_iff {c : Byte} : isCount c = true ↔
    29 ≤ c.toNat ∧ c.toNat ≤ 126 ∧ c ≠ ascii '$' ∧ c ≠ ascii '#' := by
  simp only [isCount, Bool.and_eq_true, decide_eq_true_eq, bne_iff_ne, and_assoc]

theorem unpack_escape (out : List Byte) (escape : Bool) (cs : List Byte) :
    unpack out escape (ascii '}' :: cs) = unpack out true cs := by
  conv_lhs => unfold unpack
  rw [if_pos rfl]

theorem unpack_again {out : List Byte} {escape : Bool} {n : Byte} (hr : out ≠ [])
    (hn : isCount n = true) (cs : List Byte) :
    unpack out escape (ascii '*' :: n :: cs) =
      unpack (out ++ List.replicate (count n) (out.getLastD 0)) escape cs := by
  have h1 : ascii '*' ≠ ascii '}' := by decide
  rw [unpack, if_neg h1, if_pos ⟨rfl, hr, hn⟩]

/-- A byte that stands for itself, or for the one it escapes. -/
theorem unpack_literal {out : List Byte} {escape : Bool} {c : Byte} {cs : List Byte}
    (h1 : c ≠ ascii '}')
    (h2 : c = ascii '*' → out ≠ [] → ∀ n, cs.head? = some n → isCount n = false) :
    unpack out escape (c :: cs) = unpack (out ++ [if escape then c ^^^ 0x20 else c]) false cs := by
  conv_lhs => unfold unpack
  rw [if_neg h1]
  cases cs with
  | nil => rfl
  | cons n rest =>
    have hno : ¬ (c = ascii '*' ∧ out ≠ [] ∧ isCount n = true) := by
      rintro ⟨hc, hr, hn⟩
      exact Bool.false_ne_true ((h2 hc hr n rfl).symm.trans hn)
    simp only
    rw [if_neg hno]

theorem unpack_piece {out : List Byte} {p : Piece} (hp : p.Valid out) (cs : List Byte) :
    unpack out false (p.text ++ cs) = unpack (p.expand out) false cs := by
  cases p with
  | plain c =>
    obtain ⟨-, -, h1, h2⟩ := plain_iff.1 hp
    exact unpack_literal h1 fun h => absurd h h2
  | escaped c =>
    obtain ⟨-, -, h1, h2⟩ := plain_iff.1 hp
    have hc : c ^^^ 0x20 ^^^ 0x20 = c := by rw [BitVec.xor_assoc, BitVec.xor_self, BitVec.xor_zero]
    rw [Piece.text, List.cons_append, List.cons_append, List.nil_append, unpack_escape,
      unpack_literal h1 fun h => absurd h h2, if_pos rfl, hc, Piece.expand]
  | again n =>
    rw [Piece.text, List.cons_append, List.cons_append, List.nil_append, unpack_again hp.1 hp.2,
      Piece.expand]

theorem unpack_encodes {out data : List Byte} {ps : List Piece} (h : Encodes out ps data) :
    unpack out false (text ps) = data := by
  induction h with
  | nil => rfl
  | cons hp h ih => rw [text, List.flatMap_cons, unpack_piece hp, ← text, ih]

/-- Reading undoes every encoding. -/
theorem unpack_text {data : List Byte} {ps : List Piece} (h : Encodes [] ps data) :
    unpack [] false (text ps) = data := unpack_encodes h

/-- The text of an encoding has neither end of a packet in it. -/
theorem text_inside {out data : List Byte} {ps : List Piece} (h : Encodes out ps data) :
    ∀ c ∈ text ps, c ≠ ascii '$' ∧ c ≠ ascii '#' := by
  induction h with
  | nil => intro c hc; cases hc
  | @cons out p ps data hp h ih =>
    intro c hc
    rw [text, List.flatMap_cons, List.mem_append] at hc
    refine hc.elim (fun hc => ?_) (ih c)
    cases p with
    | plain d =>
      obtain rfl := List.mem_singleton.1 hc
      exact ⟨(plain_iff.1 hp).1, (plain_iff.1 hp).2.1⟩
    | escaped d =>
      rcases List.mem_cons.1 hc with rfl | hc
      · decide
      · obtain rfl := List.mem_singleton.1 hc
        exact ⟨(plain_iff.1 hp).1, (plain_iff.1 hp).2.1⟩
    | again n =>
      rcases List.mem_cons.1 hc with rfl | hc
      · decide
      · obtain rfl := List.mem_singleton.1 hc
        exact (isCount_iff.1 hp.2).2.2

/-- A payload of plain bytes is an encoding of itself. -/
theorem encodes_plain {data : List Byte} (h : ∀ c ∈ data, plain c = true) (out : List Byte) :
    Encodes out (data.map .plain) (out ++ data) := by
  induction data generalizing out with
  | nil =>
    rw [List.append_nil]
    exact .nil
  | cons c data ih =>
    have ih := ih (fun d hd => h d (List.mem_cons_of_mem c hd)) (out ++ [c])
    rw [List.append_assoc, List.singleton_append] at ih
    exact .cons (h c List.mem_cons_self) ih

theorem text_plain (data : List Byte) : text (data.map .plain) = data := by
  rw [text, List.flatMap_map]
  exact List.flatMap_singleton' data

end RemoteSerial
