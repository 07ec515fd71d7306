/-
  The packets of the GDB connection (`gdb-proto.c`): `send_packet`, `recv_packet`, and the
  exchange of `gdb_send` and `gdb_recv` with its acknowledgements.

  `recvPacket_spec`: what `recv_packet` accepts is the text between the last `$` before a `#` and
  that `#`, read by `RemoteSerial.unpack`, and it never writes behind its buffer.
  `recvPacket_text`: so it undoes every encoding of a payload.
-/
import NemuMips32.Lib.RemoteSerial

namespace NemuMips32

open HexText RemoteSerial

namespace GdbProto

/-! ## Hexadecimal digits -/

/-- `isdigit`. -/
def isDec (c : Byte) : Bool := 48 ≤ c.toNat && c.toNat ≤ 57

/-- `tolower`. -/
def toLower (c : Byte) : Byte := if 65 ≤ c.toNat ∧ c.toNat ≤ 90 then c + 32 else c

/-- `isxdigit`. -/
def isXDigit (c : Byte) : Bool :=
  isDec c || (97 ≤ c.toNat && c.toNat ≤ 102) || (65 ≤ c.toNat && c.toNat ≤ 70)

def hexNibble (hex : Byte) : Byte :=
  if isDec hex then hex - ascii '0' else toLower hex - ascii 'a' + 10

/-- `gdb_decode_hex`; `UINT16_MAX` is the answer to anything but digits. -/
def gdbDecodeHex (msb lsb : Byte) : BitVec 16 :=
  if !isXDigit msb || !isXDigit lsb then 0xFFFF
  else 16 * (hexNibble msb).setWidth 16 + (hexNibble lsb).setWidth 16

/-- A digit of `%02X`. -/
def upperDigit (n : Nat) : Byte :=
  if n < 10 then BitVec.ofNat 8 (48 + n) else BitVec.ofNat 8 (55 + n)

/-! ## Packets -/

/-- What `send_packet` writes. -/
def sendPacket (command : List Byte) : List Byte :=
  let sum := command.foldl (· + ·) 0
  ascii '$' :: command ++
    [ascii '#', upperDigit (sum.toNat / 16), upperDigit (sum.toNat % 16)]

/-- The locals of `recv_packet`: `reply[0..i)`, the size of its allocation, and the line state. -/
structure RecvState where
  reply : List Byte
  size : Nat
  sum : Byte
  escape : Bool
  deriving DecidableEq

inductive RecvResult where
  /-- The packet, `ret_sum_ok`, and what is left to read. -/
  | reply (data : List Byte) (sumOk : Bool) (rest : List Byte)
  /-- A write behind the allocation. -/
  | overrun
  /-- `errx`: the input ended. -/
  | closed
  deriving DecidableEq

/-- A packet starts over, in the buffer there is. -/
def RecvState.fresh (size : Nat) : RecvState := ⟨[], size, 0, false⟩

/-- The end of the loop's body: `reply[i++] = c`. -/
def RecvState.add (st : RecvState) (c : Byte) : Option RecvState :=
  let c := if st.escape then c ^^^ 0x20 else c
  let size := if st.reply.length = st.size then st.size * 2 else st.size
  if st.reply.length < size then
    some { st with reply := st.reply ++ [c], size := size, escape := false }
  else none

/-- A repetition: `memset(&reply[i], reply[i - 1], count)`. -/
def RecvState.fill (st : RecvState) (c2 : Byte) : Option RecvState :=
  let count := c2.toNat - 29
  let size := if st.size < st.reply.length + count then st.size * 2 else st.size
  if st.reply.length + count ≤ size then
    some { st with
      reply := st.reply ++ List.replicate count (st.reply.getLastD 0)
      size := size
      sum := st.sum + c2 }
  else none

/-- `case '#'`; at the end of the input `fgetc` returns -1. -/
def RecvState.finish (st : RecvState) (cs : List Byte) : RecvResult :=
  let msb := cs.headD 0xFF
  let lsb := cs.tail.headD 0xFF
  let size := if st.reply.length = st.size then st.size + 1 else st.size
  if st.reply.length < size then
    .reply st.reply (st.sum.setWidth 16 == gdbDecodeHex msb lsb) (cs.drop 2)
  else .overrun

/-- The second loop of `recv_packet`. -/
def recvLoop : RecvState → List Byte → RecvResult
  | _, [] => .closed
  | st, c :: cs =>
    let st' := { st with sum := st.sum + c }
    if c = ascii '$' then recvLoop { st' with reply := [], sum := 0, escape := false } cs
    else if c = ascii '#' then { st' with sum := st'.sum - c }.finish cs
    else if c = ascii '}' then recvLoop { st' with escape := true } cs
    else if c = ascii '*' ∧ 0 < st.reply.length then
      match cs with
      -- EOF is below 29, and is not pushed back
      | [] => (st'.add c).elim .overrun fun _ => .closed
      | c2 :: rest =>
        if c2.toNat < 29 ∨ 126 < c2.toNat ∨ c2 = ascii '$' ∨ c2 = ascii '#' then
          (st'.add c).elim .overrun fun st => recvLoop st (c2 :: rest)
        else (st'.fill c2).elim .overrun fun st => recvLoop st rest
    else (st'.add c).elim .overrun fun st => recvLoop st cs

def recvPacket (input : List Byte) : RecvResult :=
  match input.dropWhile (· != ascii '$') with
  | [] => .closed
  | _ :: cs => recvLoop (.fresh 4096) cs

/-! ## The buffer -/

/-- What was read fits the allocation, and doubling it makes room for any repetition. -/
def RecvState.Room (st : RecvState) : Prop := st.reply.length ≤ st.size ∧ 128 ≤ st.size

/-- Everything that the loop keeps of its state, up to the size of the allocation. -/
structure RecvState.Is (st : RecvState) (reply : List Byte) (sum : Byte) (escape : Bool) :
    Prop where
  room : st.Room
  reply : st.reply = reply
  sum : st.sum = sum
  escape : st.escape = escape

theorem is_fresh {size : Nat} (h : 128 ≤ size) : (RecvState.fresh size).Is [] 0 false :=
  ⟨⟨Nat.zero_le _, h⟩, rfl, rfl, rfl⟩

theorem add_room {st : RecvState} (h : st.Room) (c : Byte) :
    ∃ st', st.add c = some st' ∧
      st'.Is (st.reply ++ [if st.escape then c ^^^ 0x20 else c]) st.sum false := by
  obtain ⟨hlen, hsize⟩ := h
  unfold RecvState.add
  have hfit : st.reply.length < if st.reply.length = st.size then st.size * 2 else st.size := by
    split_ifs <;> omega
  rw [if_pos hfit]
  refine ⟨_, rfl, ⟨?_, ?_⟩, rfl, rfl, rfl⟩
  · rw [List.length_append, List.length_singleton]
    exact hfit
  · show 128 ≤ if st.reply.length = st.size then st.size * 2 else st.size
    split_ifs <;> omega

theorem fill_room {st : RecvState} (h : st.Room) {n : Byte} (hn : isCount n = true) :
    ∃ st', st.fill n = some st' ∧
      st'.Is (st.reply ++ List.replicate (count n) (st.reply.getLastD 0)) (st.sum + n)
        st.escape := by
  obtain ⟨hlen, hsize⟩ := h
  obtain ⟨-, hn, -⟩ := isCount_iff.1 hn
  unfold RecvState.fill
  have hfit : st.reply.length + (n.toNat - 29) ≤
      if st.size < st.reply.length + (n.toNat - 29) then st.size * 2 else st.size := by
    split_ifs <;> omega
  rw [if_pos hfit]
  refine ⟨_, rfl, ⟨?_, ?_⟩, rfl, rfl, rfl⟩
  · rw [List.length_append, List.length_replicate]
    exact hfit
  · show 128 ≤ if st.size < st.reply.length + (n.toNat - 29) then st.size * 2 else st.size
    split_ifs <;> omega

/-- The digits in front of `cs` are those of `sum`. -/
def sumMatches (sum : Byte) (cs : List Byte) : Bool :=
  sum.setWidth 16 == gdbDecodeHex (cs.headD 0xFF) (cs.tail.headD 0xFF)

theorem finish_room {st : RecvState} (h : st.Room) (cs : List Byte) :
    st.finish cs = .reply st.reply (sumMatches st.sum cs) (cs.drop 2) := by
  obtain ⟨hlen, -⟩ := h
  have hfit : st.reply.length < if st.reply.length = st.size then st.size + 1 else st.size := by
    split_ifs <;> omega
  rw [RecvState.finish, if_pos hfit]
  rfl

/-! ## The loop -/

section Loop

variable {st : RecvState} {reply cs : List Byte} {sum c : Byte} {escape : Bool}

theorem recvLoop_start (cs : List Byte) :
    recvLoop st (ascii '$' :: cs) = recvLoop (.fresh st.size) cs := by
  conv_lhs => unfold recvLoop
  rw [if_pos rfl]
  rfl

theorem recvLoop_end (h : st.Is reply sum escape) :
    recvLoop st (ascii '#' :: cs) = .reply reply (sumMatches sum cs) (cs.drop 2) := by
  have h1 : ascii '#' ≠ ascii '$' := by decide
  have hsum : st.sum + ascii '#' - ascii '#' = sum := by rw [BitVec.add_sub_cancel, h.sum]
  unfold recvLoop
  rw [if_neg h1, if_pos rfl]
  have hroom : { st with sum := st.sum + ascii '#' - ascii '#' }.Room := h.room
  refine (finish_room hroom cs).trans ?_
  simp only [hsum, h.reply]

theorem recvLoop_escape (h : st.Is reply sum escape) :
    ∃ st', st'.Is reply (sum + ascii '}') true ∧
      recvLoop st (ascii '}' :: cs) = recvLoop st' cs := by
  have h1 : ascii '}' ≠ ascii '$' := by decide
  have h2 : ascii '}' ≠ ascii '#' := by decide
  refine ⟨{ st with sum := st.sum + ascii '}', escape := true }, ⟨h.room, h.reply, ?_, rfl⟩, ?_⟩
  · rw [← h.sum]
  · conv_lhs => unfold recvLoop
    rw [if_neg h1, if_neg h2, if_pos rfl]

theorem recvLoop_again {n : Byte} (h : st.Is reply sum escape) (hr : reply ≠ [])
    (hn : isCount n = true) (cs : List Byte) :
    ∃ st', st'.Is (reply ++ List.replicate (count n) (reply.getLastD 0)) (sum + ascii '*' + n)
        escape ∧
      recvLoop st (ascii '*' :: n :: cs) = recvLoop st' cs := by
  have h1 : ascii '*' ≠ ascii '$' := by decide
  have h2 : ascii '*' ≠ ascii '#' := by decide
  have h3 : ascii '*' ≠ ascii '}' := by decide
  have hpos : 0 < st.reply.length := by
    rw [h.reply]
    exact List.length_pos_of_ne_nil hr
  obtain ⟨n1, n2, n3, n4⟩ := isCount_iff.1 hn
  obtain ⟨rfl, rfl, rfl⟩ := And.intro h.reply (And.intro h.sum h.escape)
  have hroom : { st with sum := st.sum + ascii '*' }.Room := h.room
  obtain ⟨st', hf, his⟩ := fill_room hroom hn
  have hgood : ¬ (n.toNat < 29 ∨ 126 < n.toNat ∨ n = ascii '$' ∨ n = ascii '#') := by
    rintro (h | h | h | h)
    · omega
    · omega
    · exact n3 h
    · exact n4 h
  refine ⟨st', his, ?_⟩
  conv_lhs => unfold recvLoop
  rw [if_neg h1, if_neg h2, if_neg h3, if_pos ⟨rfl, hpos⟩]
  simp only
  rw [if_neg hgood, hf]
  rfl

/-- A byte that stands for itself, or for the one it escapes. -/
theorem recvLoop_literal (h : st.Is reply sum escape) (h1 : c ≠ ascii '$') (h2 : c ≠ ascii '#')
    (h3 : c ≠ ascii '}')
    (h4 : c = ascii '*' → reply ≠ [] → ∀ n, cs.head? = some n → isCount n = false) :
    ∃ st', st'.Is (reply ++ [if escape then c ^^^ 0x20 else c]) (sum + c) false ∧
      recvLoop st (c :: cs) = recvLoop st' cs := by
  obtain ⟨rfl, rfl, rfl⟩ := And.intro h.reply (And.intro h.sum h.escape)
  have hroom : { st with sum := st.sum + c }.Room := h.room
  obtain ⟨st', ha, his⟩ := add_room hroom c
  refine ⟨st', his, ?_⟩
  conv_lhs => unfold recvLoop
  rw [if_neg h1, if_neg h2, if_neg h3]
  by_cases hstar : c = ascii '*' ∧ 0 < st.reply.length
  · rw [if_pos hstar]
    cases cs with
    | nil =>
      simp only
      rw [ha]
      rfl
    | cons n rest =>
      have hn := h4 hstar.1 (List.ne_nil_of_length_pos hstar.2) n rfl
      have hbad : n.toNat < 29 ∨ 126 < n.toNat ∨ n = ascii '$' ∨ n = ascii '#' := by
        by_contra hc
        push Not at hc
        exact Bool.false_ne_true (hn.symm.trans (isCount_iff.2 hc))
      simp only
      rw [if_pos hbad, ha]
      rfl
  · rw [if_neg hstar, ha]
    rfl

/-- One step of the loop, away from the ends of a packet. -/
theorem recvLoop_cons (h : st.Is reply sum escape) (h1 : c ≠ ascii '$') (h2 : c ≠ ascii '#')
    (cs : List Byte) :
    (c = ascii '}' ∧ ∃ st', st'.Is reply (sum + c) true ∧
      recvLoop st (c :: cs) = recvLoop st' cs) ∨
    (c = ascii '*' ∧ reply ≠ [] ∧ ∃ n rest st', cs = n :: rest ∧ isCount n = true ∧
      st'.Is (reply ++ List.replicate (count n) (reply.getLastD 0)) (sum + c + n) escape ∧
      recvLoop st (c :: cs) = recvLoop st' rest) ∨
    (c ≠ ascii '}' ∧ (c = ascii '*' → reply ≠ [] → ∀ n, cs.head? = some n → isCount n = false) ∧
      ∃ st', st'.Is (reply ++ [if escape then c ^^^ 0x20 else c]) (sum + c) false ∧
        recvLoop st (c :: cs) = recvLoop st' cs) := by
  by_cases h3 : c = ascii '}'
  · subst h3
    exact .inl ⟨rfl, recvLoop_escape h⟩
  by_cases h4 : c = ascii '*' → reply ≠ [] → ∀ n, cs.head? = some n → isCount n = false
  · exact .inr (.inr ⟨h3, h4, recvLoop_literal h h1 h2 h3 h4⟩)
  · push Not at h4
    obtain ⟨rfl, hr, n, hn, hc⟩ := h4
    obtain ⟨rest, rfl⟩ : ∃ rest, cs = n :: rest := by
      cases cs with
      | nil => cases hn
      | cons m rest => exact ⟨rest, by rw [Option.some.inj hn]⟩
    obtain ⟨st', his, he⟩ := recvLoop_again h hr (Bool.ne_false_iff.1 hc) rest
    exact .inr (.inl ⟨rfl, hr, n, rest, st', rfl, Bool.ne_false_iff.1 hc, his, he⟩)

end Loop

/-! ## Texts -/

/-- The bytes of a text: neither end of a packet. -/
def Inside (text : List Byte) : Prop := ∀ c ∈ text, c ≠ ascii '$' ∧ c ≠ ascii '#'

/-- The loop reads a text as `unpack` does, if what follows is no count. -/
theorem recvLoop_text {st : RecvState} {reply text : List Byte} {sum : Byte} {escape : Bool}
    (h : st.Is reply sum escape) (ht : Inside text) (cs : List Byte)
    (hcs : ∀ n, cs.head? = some n → isCount n = false) :
    ∃ st' escape', st'.Is (unpack reply escape text) (sum + checksum text) escape' ∧
      recvLoop st (text ++ cs) = recvLoop st' cs := by
  induction hlen : text.length using Nat.strong_induction_on generalizing st reply text sum escape
    with
  | _ len ih =>
    cases text with
    | nil => exact ⟨st, escape, by rw [unpack, checksum, List.foldl_nil]; simpa using h, rfl⟩
    | cons c text =>
      have hin : Inside text := fun d hd => ht d (List.mem_cons_of_mem c hd)
      obtain ⟨h1, h2⟩ := ht c List.mem_cons_self
      rw [List.length_cons] at hlen
      rw [checksum_cons, ← BitVec.add_assoc, List.cons_append]
      rcases recvLoop_cons h h1 h2 (text ++ cs) with
        ⟨rfl, st', his, he⟩ | ⟨rfl, hr, n, rest, st', hrest, hn, his, he⟩ |
          ⟨h3, h4, st', his, he⟩
      · rw [he, unpack_escape]
        exact ih text.length (by omega) his hin rfl
      · cases text with
        | nil =>
          rw [List.nil_append] at hrest
          rw [hcs n (by rw [hrest]; rfl)] at hn
          cases hn
        | cons m text =>
          obtain ⟨rfl, rfl⟩ := List.cons.inj hrest
          rw [List.length_cons] at hlen
          rw [he, unpack_again hr hn, checksum_cons, ← BitVec.add_assoc]
          exact ih text.length (by omega) his (fun d hd => hin d (List.mem_cons_of_mem m hd)) rfl
      · have h4' : c = ascii '*' → reply ≠ [] → ∀ n, text.head? = some n → isCount n = false := by
          intro hc hr n hn
          exact h4 hc hr n (by rw [List.head?_append, hn]; rfl)
        rw [he, unpack_literal h3 h4']
        exact ih text.length (by omega) his hin rfl

theorem isCount_dollar : isCount (ascii '$') = false := by decide
theorem isCount_hash : isCount (ascii '#') = false := by decide

/-- Without an end, whatever came before a start is forgotten. -/
theorem recvLoop_restart {st : RecvState} {reply pre : List Byte} {sum : Byte} {escape : Bool}
    (h : st.Is reply sum escape) (hp : ascii '#' ∉ pre) (cs : List Byte) :
    ∃ size, 128 ≤ size ∧ recvLoop st (pre ++ ascii '$' :: cs) = recvLoop (.fresh size) cs := by
  have hstart : ∀ n, (ascii '$' :: cs).head? = some n → isCount n = false := by
    intro n hn
    rw [← Option.some.inj hn, isCount_dollar]
  induction hlen : pre.length using Nat.strong_induction_on generalizing st reply pre sum escape
    with
  | _ len ih =>
    by_cases hd : ascii '$' ∈ pre
    · obtain ⟨a, b, rfl, ha⟩ := List.eq_append_cons_of_mem hd
      rw [List.mem_append, List.mem_cons, not_or, not_or] at hp
      have hin : Inside a := fun c hc =>
        ⟨fun e => ha (e ▸ hc), fun e => hp.1 (e ▸ hc)⟩
      obtain ⟨st', escape', his, he⟩ := recvLoop_text h hin (ascii '$' :: (b ++ ascii '$' :: cs))
        (fun n hn => by rw [← Option.some.inj hn, isCount_dollar])
      rw [List.append_assoc, List.cons_append, he, recvLoop_start]
      rw [List.length_append, List.length_cons] at hlen
      exact ih b.length (by omega) (is_fresh his.room.2) hp.2.2 rfl
    · have hin : Inside pre := fun c hc => ⟨fun e => hd (e ▸ hc), fun e => hp (e ▸ hc)⟩
      obtain ⟨st', escape', his, he⟩ := recvLoop_text h hin _ hstart
      exact ⟨st'.size, his.room.2, by rw [he, recvLoop_start]⟩

/-- Behind a start, without an end: the loop reads all of it. -/
theorem recvLoop_closed {st : RecvState} {reply input : List Byte} {sum : Byte} {escape : Bool}
    (h : st.Is reply sum escape) (hi : ascii '#' ∉ input) : recvLoop st input = .closed := by
  have hend : ∀ {st : RecvState} {reply text : List Byte} {sum : Byte} {escape : Bool},
      st.Is reply sum escape → Inside text → recvLoop st text = .closed := by
    intro st reply text sum escape h ht
    obtain ⟨st', escape', -, he⟩ := recvLoop_text h ht [] (fun n hn => by cases hn)
    rw [List.append_nil] at he
    rw [he, recvLoop]
  induction hlen : input.length using Nat.strong_induction_on
    generalizing st reply input sum escape with
  | _ len ih =>
    by_cases hd : ascii '$' ∈ input
    · obtain ⟨a, b, rfl, ha⟩ := List.eq_append_cons_of_mem hd
      rw [List.mem_append, List.mem_cons, not_or, not_or] at hi
      obtain ⟨size, hsize, he⟩ := recvLoop_restart h hi.1 b
      rw [List.length_append, List.length_cons] at hlen
      rw [he]
      exact ih b.length (by omega) (is_fresh hsize) hi.2.2 rfl
    · exact hend h fun c hc => ⟨fun e => hd (e ▸ hc), fun e => hi (e ▸ hc)⟩

/-! ## `recv_packet` -/

/-- What may come before a packet: no `#` behind a `$`. -/
def Quiet (pre : List Byte) : Prop := ascii '#' ∉ pre.dropWhile (· != ascii '$')

/-- An input that holds a whole packet, cut at the last `$` before its `#`. -/
structure Packet (input pre body rest : List Byte) : Prop where
  input : input = pre ++ ascii '$' :: body ++ ascii '#' :: rest
  quiet : Quiet pre
  inside : Inside body

theorem dropWhile_of_not_mem {pre : List Byte} (h : ascii '$' ∉ pre) (cs : List Byte) :
    (pre ++ cs).dropWhile (· != ascii '$') = cs.dropWhile (· != ascii '$') :=
  List.dropWhile_append_of_pos fun c hc => by
    rw [bne_iff_ne]
    exact fun e => h (e ▸ hc)

theorem recvPacket_start {noise : List Byte} (h : ascii '$' ∉ noise) (cs : List Byte) :
    recvPacket (noise ++ ascii '$' :: cs) = recvLoop (.fresh 4096) cs := by
  unfold recvPacket
  rw [dropWhile_of_not_mem h]
  rfl

theorem recvPacket_packet {input pre body rest : List Byte} (h : Packet input pre body rest) :
    recvPacket input =
      .reply (unpack [] false body) (sumMatches (checksum body) rest) (rest.drop 2) := by
  have hfresh : (RecvState.fresh 4096).Is [] 0 false := is_fresh (by decide)
  have hbody : ∀ {size : Nat}, 128 ≤ size →
      recvLoop (.fresh size) (body ++ ascii '#' :: rest) =
        .reply (unpack [] false body) (sumMatches (checksum body) rest) (rest.drop 2) := by
    intro size hsize
    obtain ⟨st', escape', his, he⟩ := recvLoop_text (is_fresh hsize) h.inside
      (ascii '#' :: rest) (fun n hn => by rw [← Option.some.inj hn, isCount_hash])
    have h0 : (0 : Byte) + checksum body = checksum body := BitVec.zero_add _
    rw [he, recvLoop_end his, h0]
  rw [h.input, List.append_assoc, List.cons_append]
  by_cases hd : ascii '$' ∈ pre
  · obtain ⟨noise, junk, rfl, hn⟩ := List.eq_append_cons_of_mem hd
    have hq : ascii '#' ∉ junk := by
      have hq := h.quiet
      unfold Quiet at hq
      rw [dropWhile_of_not_mem hn] at hq
      exact fun hc => hq (List.mem_cons_of_mem _ hc)
    rw [List.append_assoc, List.cons_append, recvPacket_start hn]
    obtain ⟨size, hsize, he⟩ := recvLoop_restart hfresh hq (body ++ ascii '#' :: rest)
    rw [he, hbody hsize]
  · rw [recvPacket_start hd, hbody (by decide)]

/-- An input either holds a whole packet, or `recv_packet` reads to its end. -/
theorem packet_or_closed (input : List Byte) :
    (∃ pre body rest, Packet input pre body rest) ∨ recvPacket input = .closed := by
  by_cases hd : ascii '$' ∈ input
  · obtain ⟨noise, cs, rfl, hn⟩ := List.eq_append_cons_of_mem hd
    by_cases he : ascii '#' ∈ cs
    · obtain ⟨a, rest, rfl, ha⟩ := List.eq_append_cons_of_mem he
      left
      by_cases hs : ascii '$' ∈ a.reverse
      · -- the last `$` of `a` is the first one of its reverse
        obtain ⟨b, j, hab, hb⟩ := List.eq_append_cons_of_mem hs
        have ha' : a = j.reverse ++ ascii '$' :: b.reverse := by
          rw [← List.reverse_reverse a, hab]
          simp
        subst ha'
        rw [List.mem_append, List.mem_cons, not_or, not_or] at ha
        refine ⟨noise ++ ascii '$' :: j.reverse, b.reverse, rest, by simp, ?_, fun c hc => ?_⟩
        · unfold Quiet
          rw [dropWhile_of_not_mem hn]
          simpa using ⟨by decide, by simpa using ha.1⟩
        · exact ⟨fun e => hb (e ▸ List.mem_reverse.1 hc), fun e => ha.2.2 (e ▸ hc)⟩
      · refine ⟨noise, a, rest, by simp, ?_, fun c hc => ?_⟩
        · unfold Quiet
          rw [← List.append_nil noise, dropWhile_of_not_mem hn]
          exact List.not_mem_nil
        · exact ⟨fun e => hs (List.mem_reverse.2 (e ▸ hc)), fun e => ha (e ▸ hc)⟩
    · right
      rw [recvPacket_start hn]
      exact recvLoop_closed (is_fresh (by decide)) he
  · right
    unfold recvPacket
    rw [← List.append_nil input, dropWhile_of_not_mem hd]
    rfl

/-! ## Checksums -/

theorem isXDigit_iff : ∀ c : Byte, isXDigit c = isDigit c := by decide +kernel

theorem hexNibble_eq : ∀ c : Byte, isDigit c = true →
    digitValue c = some (hexNibble c).toNat ∧ (hexNibble c).toNat < 16 := by decide +kernel

theorem upperDigit_eq : ∀ n < 16, digitValue (upperDigit n) = some n := by decide

/-- The two bytes are the digits of `n`, in either case. -/
def Digits (m l : Byte) (n : Nat) : Prop :=
  ∃ a b, digitValue m = some a ∧ digitValue l = some b ∧ 16 * a + b = n

theorem gdbDecodeHex_eq_iff {m l : Byte} {sum : Byte} :
    sum.setWidth 16 = gdbDecodeHex m l ↔ Digits m l sum.toNat := by
  have hsum := sum.isLt
  have h16 : (16 : BitVec 16).toNat = 16 := rfl
  have hmax : (0xFFFF : BitVec 16).toNat = 65535 := rfl
  unfold gdbDecodeHex Digits
  rw [isXDigit_iff, isXDigit_iff]
  by_cases hm : isDigit m = true
  · by_cases hl : isDigit l = true
    · obtain ⟨m1, m2⟩ := hexNibble_eq m hm
      obtain ⟨l1, l2⟩ := hexNibble_eq l hl
      rw [hm, hl, m1, l1, if_neg (by decide), ← BitVec.toNat_inj]
      simp only [BitVec.toNat_setWidth, BitVec.toNat_add, BitVec.toNat_mul, h16]
      constructor
      · intro h
        exact ⟨_, _, rfl, rfl, by omega⟩
      · rintro ⟨a, b, ha, hb, h⟩
        obtain rfl := Option.some.inj ha
        obtain rfl := Option.some.inj hb
        omega
    · have hl' : digitValue l = none := by simpa [isDigit] using hl
      rw [hm, Bool.eq_false_iff.2 hl, if_pos (by decide), hl', ← BitVec.toNat_inj]
      simp only [BitVec.toNat_setWidth, hmax]
      refine ⟨fun h => by omega, ?_⟩
      rintro ⟨_, _, -, h, -⟩
      cases h
  · have hm' : digitValue m = none := by simpa [isDigit] using hm
    rw [Bool.eq_false_iff.2 hm, if_pos (by simp), hm', ← BitVec.toNat_inj]
    simp only [BitVec.toNat_setWidth, hmax]
    refine ⟨fun h => by omega, ?_⟩
    rintro ⟨_, _, h, -⟩
    cases h

theorem sumMatches_iff {sum : Byte} {cs : List Byte} :
    sumMatches sum cs = true ↔ ∃ m l rest, cs = m :: l :: rest ∧ Digits m l sum.toNat := by
  have hff : digitValue 0xFF = none := by decide
  unfold sumMatches
  rw [beq_iff_eq, gdbDecodeHex_eq_iff]
  constructor
  · intro h
    obtain ⟨a, b, ha, hb, -⟩ := id h
    rcases cs with _ | ⟨m, _ | ⟨l, rest⟩⟩
    · rw [List.headD_nil, hff] at ha
      cases ha
    · rw [List.tail_cons, List.headD_nil, hff] at hb
      cases hb
    · exact ⟨m, l, rest, rfl, h⟩
  · rintro ⟨m, l, rest, rfl, h⟩
    exact h

theorem recvPacket_good {input pre body left : List Byte} {m l : Byte}
    (hp : Packet input pre body (m :: l :: left)) (hd : Digits m l (checksum body).toNat) :
    recvPacket input = .reply (unpack [] false body) true left := by
  rw [recvPacket_packet hp, sumMatches_iff.2 ⟨m, l, left, rfl, hd⟩]
  rfl

/-- What `recv_packet` takes for a good packet: the last text started before an end, with its
    sum behind it. Whatever it reads, it does not write behind its allocation. -/
theorem recvPacket_spec (input : List Byte) :
    recvPacket input ≠ .overrun ∧
      ∀ data left, recvPacket input = .reply data true left ↔
        ∃ pre body m l, Packet input pre body (m :: l :: left) ∧ data = unpack [] false body ∧
          Digits m l (checksum body).toNat := by
  refine ⟨fun h => ?_, fun data left => ⟨fun h => ?_, ?_⟩⟩
  · rcases packet_or_closed input with ⟨pre, body, rest, hp⟩ | hc
    · rw [recvPacket_packet hp] at h
      cases h
    · rw [hc] at h
      cases h
  · rcases packet_or_closed input with ⟨pre, body, rest, hp⟩ | hc
    · rw [recvPacket_packet hp] at h
      injection h with hdata hsum hleft
      obtain ⟨m, l, tail, rfl, hdig⟩ := sumMatches_iff.1 hsum
      exact ⟨pre, body, m, l, by rw [← hleft]; exact hp, hdata.symm, hdig⟩
    · rw [hc] at h
      cases h
  · rintro ⟨pre, body, m, l, hp, rfl, hd⟩
    exact recvPacket_good hp hd

/-! ## Round trips -/

theorem sendPacket_eq (data : List Byte) :
    ∃ m l, sendPacket data = ascii '$' :: data ++ [ascii '#', m, l] ∧
      Digits m l (checksum data).toNat := by
  have hlt := (checksum data).isLt
  refine ⟨_, _, rfl, (checksum data).toNat / 16, (checksum data).toNat % 16,
    upperDigit_eq _ (by omega), upperDigit_eq _ (by omega), by omega⟩

/-- What `send_packet` writes is received, if it need not be escaped. -/
theorem recvPacket_sendPacket {pre data : List Byte} (hpre : Quiet pre)
    (hdata : ∀ c ∈ data, RemoteSerial.plain c = true) (left : List Byte) :
    recvPacket (pre ++ sendPacket data ++ left) = .reply data true left := by
  obtain ⟨m, l, he, hd⟩ := sendPacket_eq data
  have hps := encodes_plain hdata []
  rw [List.nil_append] at hps
  have hp : Packet (pre ++ sendPacket data ++ left) pre data (m :: l :: left) :=
    ⟨by rw [he]; simp, hpre, fun c hc => ⟨(plain_iff.1 (hdata c hc)).1,
      (plain_iff.1 (hdata c hc)).2.1⟩⟩
  have hdata' := unpack_text hps
  rw [text_plain] at hdata'
  rw [recvPacket_good hp hd, hdata']

/-- Every encoding of a payload is received, whatever was cut off before it. -/
theorem recvPacket_text {pre data : List Byte} {ps : List Piece} {m l : Byte} (hpre : Quiet pre)
    (hps : Encodes [] ps data) (hd : Digits m l (checksum (text ps)).toNat) (left : List Byte) :
    recvPacket (pre ++ ascii '$' :: text ps ++ ascii '#' :: m :: l :: left) =
      .reply data true left := by
  have hp : Packet (pre ++ ascii '$' :: text ps ++ ascii '#' :: m :: l :: left) pre (text ps)
      (m :: l :: left) := ⟨rfl, hpre, text_inside hps⟩
  rw [recvPacket_good hp hd, unpack_text hps]

/-- `0#` and five spaces: a repetition and an escape, behind a packet that was cut off. -/
theorem recvPacket_text_demo :
    recvPacket (['+', '$', '1', '$', '0', '}', Char.ofNat 3, ' ', '*', '!', '#', '1', 'B'].map
      ascii) = .reply (['0', '#', ' ', ' ', ' ', ' ', ' '].map ascii) true [] := by
  have hpre : Quiet (['+', '$', '1'].map ascii) := by
    unfold Quiet
    decide
  have hps : Encodes [] [.plain (ascii '0'), .escaped (ascii '#'), .plain (ascii ' '),
      .again (ascii '!')] (['0', '#', ' ', ' ', ' ', ' ', ' '].map ascii) :=
    .cons rfl (.cons rfl (.cons rfl (.cons ⟨List.cons_ne_nil _ _, rfl⟩ .nil)))
  exact recvPacket_text hpre hps ⟨1, 11, rfl, rfl, by decide⟩ []

end GdbProto

end NemuMips32
