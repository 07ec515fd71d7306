/-
  The memory packets of the GDB stub (`gdb-server.c`): m prints memory as hex digits into a
  static buffer, M writes memory from hex digits, X from raw bytes.

  The buffer has 4096 bytes and the stub announces packets of 4096 digits, so the terminating
  zero of the longest reply does not fit. What was written with M or X is read back by m
  exactly if it is shorter than 2048 bytes, and m stays inside its buffer exactly if it prints
  fewer than 2050 bytes (`memory_packets`).
-/
import NemuMips32.Lib.HexText
import NemuMips32.Gdb

namespace NemuMips32

open StateExcept HexText

variable {D : Type} {α : Type}

/-! ## The handlers -/

/-- The emulator with the bytes at and behind the static array `mem` of `gdb_read_memory`.
    `outside` is ghost state: `snprintf` has written behind the array. -/
structure StubState (D : Type) where
  machine : Machine D
  mem : Nat → Byte
  outside : Bool

abbrev Stub (D : Type) := EStateM Stop (StubState D)

def inMachine (m : Exec D α) : Stub D α := fun g =>
  match m g.machine with
  | .ok a s => .ok a { g with machine := s }
  | .error e s => .error e { g with machine := s }

/-- `sizeof(mem)`. -/
def memSize : Nat := 4096

/-- `mem[k] = c`. -/
def StubState.put (g : StubState D) (k : Nat) (c : Byte) : StubState D :=
  { g with mem := Function.update g.mem k c, outside := g.outside || decide (memSize ≤ k) }

def StubState.putAll (g : StubState D) (k : Nat) : List Byte → StubState D
  | [] => g
  | c :: cs => (g.put k c).putAll (k + 1) cs

/-- `snprintf(&mem[len], sizeof(mem) - len, "%02x", data & 0xFF)`. The size is a `size_t`; the
    text is cut to leave room for its zero. -/
def StubState.snprintf (g : StubState D) (len : Nat) (data : Word) : StubState D :=
  let size := (2 ^ 64 + memSize - len) % 2 ^ 64
  if size = 0 then g
  else g.putAll len ((encode (data.setWidth 8)).take (size - 1) ++ [0])

/-- `sscanf(args, "%x,%x", &addr, &size)`. -/
def scanAddrSize (args : List Byte) : Word × Word :=
  match scanFull args with
  | none => (0, 0)
  | some (addr, rest) =>
    if rest.head? = some (ascii ',') then (addr, ((scanFull rest.tail).map Prod.fst).getD 0)
    else (addr, 0)

/-- The loop of `gdb_read_memory` from `i` on, with `len` digits printed. -/
def readMemoryFrom (P : Platform D) (addr : Word) : Nat → Nat → Nat → Stub D Nat
  | 0, _, len => pure len
  | n + 1, i, len => do
    let data ← inMachine (dbgVaddrRead P (addr + BitVec.ofNat 32 i) 1)
    modify fun g => g.snprintf len data
    -- `snprintf` returns the length of the uncut text
    readMemoryFrom P addr n (i + 1) (len + 2)

/-- The string at `mem`. -/
def StubState.text (g : StubState D) : List Byte :=
  ((List.range memSize).map g.mem).takeWhile (· ≠ 0)

/-- `gdb_read_memory`. -/
def gdbReadMemory (P : Platform D) (args : List Byte) : Stub D (List Byte) := do
  let (addr, size) := scanAddrSize args
  let len ← readMemoryFrom P addr size.toNat 0 0
  unless len < memSize do throw (.halt .assert)
  return (← get).text

def okReply : List Byte := [ascii 'O', ascii 'K']

/-- The loop of `gdb_write_memory` from `i` on. `hex` is an index into `args`, `none` is
    `NULL`; `NULL + 1` is no string. -/
def writeMemoryFrom (P : Platform D) (args : List Byte) (addr : Word) :
    Nat → Nat → Option Nat → Stub D Unit
  | 0, _, _ => pure ()
  | _ + 1, _, none => throw (.halt .undefined)
  | n + 1, i, some hex => do
    let data := ((scan 2 (args.drop (hex + 1))).map Prod.fst).getD 0
    inMachine (dbgVaddrWrite P (addr + BitVec.ofNat 32 i) 1 data)
    writeMemoryFrom P args addr n (i + 1)
      (if args.getD (hex + 1) 0 = 0 ∨ args.getD (hex + 2) 0 = 0 then none else some (hex + 2))

/-- `gdb_write_memory`. -/
def gdbWriteMemory (P : Platform D) (args : List Byte) : Stub D (List Byte) := do
  let (addr, size) := scanAddrSize args
  writeMemoryFrom P args addr size.toNat 0 (strchr args (ascii ':'))
  return okReply

/-- The loop of `gdb_write_memory_hex` from `i` on. Behind the terminating zero of the packet
    there is nothing to read. -/
def writeMemoryHexFrom (P : Platform D) (args : List Byte) (arglen : Nat) (addr : Word) :
    Nat → Nat → Nat → Stub D Unit
  | 0, _, _ => pure ()
  | n + 1, i, hex => do
    if args.length < hex + 1 then throw (.halt .undefined)
    inMachine (dbgVaddrWrite P (addr + BitVec.ofNat 32 i) 1 ((args.getD (hex + 1) 0).signExtend 32))
    if arglen < hex then return
    writeMemoryHexFrom P args arglen addr n (i + 1) (hex + 1)

/-- `gdb_write_memory_hex`. -/
def gdbWriteMemoryHex (P : Platform D) (args : List Byte) (arglen : Nat) :
    Stub D (List Byte) := do
  let (addr, size) := scanAddrSize args
  match strchr args (ascii ':') with
  | none => throw (.halt .undefined)
  | some hex =>
    writeMemoryHexFrom P args arglen addr size.toNat 0 hex
    return okReply

/-- The packets m, M and X. `gdb_server_mainloop` passes the length of the whole packet, its
    letter included, with the text behind the letter. -/
inductive MemoryPacket where
  | read (args : List Byte)
  | write (args : List Byte)
  | writeBinary (args : List Byte)

def MemoryPacket.serve (P : Platform D) : MemoryPacket → Stub D (List Byte)
  | .read args => gdbReadMemory P args
  | .write args => gdbWriteMemory P args
  | .writeBinary args => gdbWriteMemoryHex P args (args.length + 1)

/-! ## Parsing -/

/-- A way to write the number `v` in hex digits. -/
structure HexFor (ds : List Byte) (v : Nat) : Prop where
  ne_nil : ds ≠ []
  digits : ∀ c ∈ ds, isDigit c = true
  value : HexText.value ds = v

theorem ends_nil : Ends [] := by
  intro c h
  cases h

theorem ends_comma (s : List Byte) : Ends (ascii ',' :: s) := by
  intro c h
  obtain rfl := Option.some.inj h
  decide

theorem ends_colon (s : List Byte) : Ends (ascii ':' :: s) := by
  intro c h
  obtain rfl := Option.some.inj h
  decide

theorem scanAddrSize_eq {da dn rest : List Byte} {a : Word} {n : Nat} (ha : HexFor da a.toNat)
    (hn : HexFor dn n) (hlt : n < 2 ^ 32) (hr : Ends rest) :
    scanAddrSize (da ++ ascii ',' :: (dn ++ rest)) = (a, BitVec.ofNat 32 n) := by
  have h1 : scanFull (da ++ ascii ',' :: (dn ++ rest)) = some (a, ascii ',' :: (dn ++ rest)) := by
    rw [scan_digits ha.ne_nil ha.digits (ends_comma _) (by rw [ha.value]; exact a.isLt), ha.value,
      BitVec.ofNat_toNat, BitVec.setWidth_eq]
  have h2 : scanFull (dn ++ rest) = some (BitVec.ofNat 32 n, rest) := by
    rw [scan_digits hn.ne_nil hn.digits hr (by rw [hn.value]; exact hlt), hn.value]
  unfold scanAddrSize
  rw [h1]
  simp only [List.head?_cons, List.tail_cons, h2, if_true, Option.map_some, Option.getD_some]

theorem header_plain {da dn : List Byte} {v n : Nat} (ha : HexFor da v) (hn : HexFor dn n) :
    ∀ c ∈ da ++ ascii ',' :: dn, c ≠ 0 ∧ c ≠ ascii ':' := by
  have hd : ∀ c, isDigit c = true → c ≠ 0 ∧ c ≠ ascii ':' := by
    intro c hc
    obtain ⟨-, -, -, -, -, -, h1, h2⟩ := isDigit_plain c hc
    exact ⟨h2, h1⟩
  intro c hc
  rcases List.mem_append.1 hc with hc | hc
  · exact hd c (ha.digits c hc)
  · rcases List.mem_cons.1 hc with rfl | hc
    · decide
    · exact hd c (hn.digits c hc)

/-! ## Bytes of RAM -/

/-- A byte of unmapped RAM. -/
structure ByteAtRam (P : Platform D) (a : Word) : Prop where
  unmapped : Unmapped a
  ram : (P.ramAt a).isSome = true

def Memory.setByte (m : Memory) (r : Ram) (o : Word) (b : Byte) : Memory :=
  Function.update m r (Function.update (m r) o b)

theorem store_one (m : Memory) (r : Ram) (o v : Word) :
    m.store r o 1 v = m.setByte r o (v.setWidth 8) := by
  have h : storeBytes (m r) o 1 v = Function.update (m r) o (v.setWidth 8) := by
    funext x
    unfold storeBytes
    by_cases hx : x = o
    · subst hx
      rw [BitVec.sub_self, Function.update_self, if_pos (by decide)]
      rfl
    · have hne : ¬ (x - o).toNat < 1 := by
        intro hlt
        have h0 : x - o = 0 := BitVec.eq_of_toNat_eq (Nat.lt_one_iff.1 hlt)
        exact hx (BitVec.sub_eq_iff_eq_add.1 h0 |>.trans (BitVec.zero_add o))
      rw [if_neg hne, Function.update_of_ne hx]
  unfold Memory.store Memory.setByte
  rw [h]

theorem setByte_self (m : Memory) (r : Ram) (o : Word) (b : Byte) : m.setByte r o b r o = b := by
  simp [Memory.setByte]

theorem setByte_of_ne {m : Memory} {r r' : Ram} {o o' : Word} (b : Byte)
    (h : (r, o) ≠ (r', o')) : m.setByte r o b r' o' = m r' o' := by
  unfold Memory.setByte
  by_cases hr : r' = r
  · subst hr
    have ho : o' ≠ o := by
      rintro rfl
      exact h rfl
    rw [Function.update_self, Function.update_of_ne ho]
  · rw [Function.update_of_ne hr]

/-- The byte that the debugger sees at `a`. -/
def Machine.byteAt (P : Platform D) (s : Machine D) (a : Word) : Byte :=
  match P.ramAt a with
  | some (r, o) => s.ram r o
  | none => 0

/-- What a debugger's write of one byte leaves behind. -/
def Machine.setByte (P : Platform D) (s : Machine D) (a : Word) (b : Byte) : Machine D :=
  match P.ramAt a with
  | some (r, o) => { s with ram := s.ram.setByte r o b, dc := s.dc.clear }
  | none => s

/-- The writes at `a + i`, `a + i + 1`, ... -/
def Machine.setBytes (P : Platform D) (s : Machine D) (a : Word) : Nat → List Byte → Machine D
  | _, [] => s
  | i, b :: bs => (s.setByte P (a + BitVec.ofNat 32 i) b).setBytes P a (i + 1) bs

section Bytes

variable {P : Platform D} {bases : List (DevName × Word)} (hb : P.board.Realizes bases) {a : Word}
include hb

theorem checkIoaddr_byte {r : Ram} {o : Word} (h : P.ramAt a = some (r, o)) :
    checkIoaddr o 1 r.size = true := by
  obtain ⟨hlt, -⟩ := offset_ramAt hb h
  have hsize := size_ram_aligned r
  have h1 : (BitVec.ofNat 32 1).toNat = 1 := rfl
  simp only [checkIoaddr, Bool.and_eq_true, decide_eq_true_eq, BitVec.le_def, BitVec.toNat_add, h1]
  omega

theorem dbgVaddrRead_byte (ha : ByteAtRam P a) (s : Machine D) :
    ∃ v, dbgVaddrRead P a 1 s = .ok v s ∧ v.setWidth 8 = s.byteAt P a := by
  obtain ⟨⟨r, o⟩, h⟩ := Option.isSome_iff_exists.1 ha.ram
  refine ⟨_, dbgVaddrRead_unmapped ha.unmapped h (checkIoaddr_byte hb h) s, ?_⟩
  unfold Machine.byteAt
  rw [h]
  have hbyte := byte_loadBytes (s.ram r) o (by decide : 1 ≤ 4) (by decide : 0 < 1)
  rw [show o + BitVec.ofNat 32 0 = o from BitVec.add_zero o] at hbyte
  exact hbyte

theorem dbgVaddrWrite_byte (ha : ByteAtRam P a) (v : Word) (s : Machine D) :
    dbgVaddrWrite P a 1 v s = .ok () (s.setByte P a (v.setWidth 8)) := by
  obtain ⟨⟨r, o⟩, h⟩ := Option.isSome_iff_exists.1 ha.ram
  rw [dbgVaddrWrite_unmapped ha.unmapped h (checkIoaddr_byte hb h) v s, store_one]
  unfold Machine.setByte
  rw [h]

/-- Two bytes less than a page apart are different bytes of RAM. -/
theorem ramAt_inj {i j : Nat} (hi : i < 4096) (hj : j < 4096) {y : Ram × Word}
    (h : P.ramAt (a + BitVec.ofNat 32 i) = some y)
    (h' : P.ramAt (a + BitVec.ofNat 32 j) = some y) : i = j := by
  have ho := (offset_ramAt hb h).2
  have ho' := (offset_ramAt hb h').2
  rw [BitVec.toNat_add, BitVec.toNat_ofNat] at ho ho'
  have := a.isLt
  omega

end Bytes

/-- The bytes `bs` are written at `a`, and nothing else changes but the decode cache. -/
structure Written (P : Platform D) (a : Word) (i : Nat) (bs : List Byte) (s t : Machine D) :
    Prop where
  eq : t = { s with ram := t.ram, dc := t.dc }
  bytes : ∀ j b, bs[j]? = some b → ∀ r o,
    P.ramAt (a + BitVec.ofNat 32 (i + j)) = some (r, o) → t.ram r o = b
  frame : ∀ r o, (∀ j < bs.length, P.ramAt (a + BitVec.ofNat 32 (i + j)) ≠ some (r, o)) →
    t.ram r o = s.ram r o

theorem written_eq_trans {s t u : Machine D} (h : t = { s with ram := t.ram, dc := t.dc })
    (h' : u = { t with ram := u.ram, dc := u.dc }) : u = { s with ram := u.ram, dc := u.dc } := by
  rw [h] at h'
  exact h'

theorem written_setBytes {P : Platform D} {bases : List (DevName × Word)}
    (hb : P.board.Realizes bases) (a : Word) {i : Nat} {bs : List Byte}
    (hlt : i + bs.length ≤ 4096) (s : Machine D) : Written P a i bs s (s.setBytes P a i bs) := by
  induction bs generalizing i s with
  | nil => exact ⟨rfl, fun j b h => by simp at h, fun r o _ => rfl⟩
  | cons b bs ih =>
    simp only [List.length_cons] at hlt
    have ih := ih (show i + 1 + bs.length ≤ 4096 by omega) (s.setByte P (a + BitVec.ofNat 32 i) b)
    have heq : s.setByte P (a + BitVec.ofNat 32 i) b =
        { s with
          ram := (s.setByte P (a + BitVec.ofNat 32 i) b).ram
          dc := (s.setByte P (a + BitVec.ofNat 32 i) b).dc } := by
      unfold Machine.setByte
      split <;> rfl
    have hram : ∀ {r o}, P.ramAt (a + BitVec.ofNat 32 i) = some (r, o) →
        (s.setByte P (a + BitVec.ofNat 32 i) b).ram = s.ram.setByte r o b := by
      intro r o h
      unfold Machine.setByte
      rw [h]
    have hshift : ∀ j, i + 1 + j = i + (j + 1) := fun j => by omega
    refine ⟨?_, fun j c hc r o hr => ?_, fun r o hn => ?_⟩
    · exact written_eq_trans heq ih.eq
    · cases j with
      | zero =>
        obtain rfl : b = c := Option.some.inj hc
        -- the later writes are elsewhere
        unfold Machine.setBytes
        rw [ih.frame r o, hram hr, setByte_self]
        intro j hj hj'
        have := ramAt_inj hb (by omega) (by omega) hr hj'
        omega
      | succ j =>
        refine ih.bytes j c hc r o ?_
        rw [hshift]
        exact hr
    · unfold Machine.setBytes
      rw [ih.frame r o]
      · cases h : P.ramAt (a + BitVec.ofNat 32 i) with
        | none =>
          unfold Machine.setByte
          rw [h]
        | some y =>
          rw [hram h]
          refine setByte_of_ne b fun he => hn 0 (by simp) ?_
          rw [Nat.add_zero, h]
          exact congrArg some he
      · intro j hj
        rw [hshift]
        exact hn (j + 1) (by simp only [List.length_cons]; omega)

/-! ## The packets M and X -/

theorem inMachine_of_ok {m : Exec D α} {g : StubState D} {x : α} {s : Machine D}
    (h : m g.machine = .ok x s) : inMachine m g = .ok x { g with machine := s } := by
  unfold inMachine
  rw [h]

section Write

variable {P : Platform D} {bases : List (DevName × Word)} (hb : P.board.Realizes bases) {a : Word}
include hb

/-- The loop of M over two digits a byte. -/
theorem writeMemoryFrom_ok {args : List Byte} {bs : List Byte} {i hex : Nat}
    (ha : ∀ j < bs.length, ByteAtRam P (a + BitVec.ofNat 32 (i + j)))
    (hargs : args.drop (hex + 1) = encodeAll bs) (g : StubState D) :
    writeMemoryFrom P args a bs.length i (some hex) g =
      .ok () { g with machine := g.machine.setBytes P a i bs } := by
  induction bs generalizing i hex g with
  | nil => rfl
  | cons b bs ih =>
    have hdrop : args.drop (hex + 1) = encode b ++ encodeAll bs := hargs
    have hnext : args.drop (hex + 2 + 1) = encodeAll bs := by
      have h2 := congrArg (List.drop 2) hdrop
      rwa [List.drop_drop, show hex + 1 + 2 = hex + 2 + 1 by omega,
        List.drop_append_of_le_length (Nat.le_refl 2),
        show List.drop 2 (encode b) = [] from rfl, List.nil_append] at h2
    -- neither digit is the terminating zero
    have hdigit : ∀ k < 2, args.getD (hex + 1 + k) 0 ≠ 0 := by
      intro k hk
      have hget : args.getD (hex + 1 + k) 0 = (encode b ++ encodeAll bs).getD k 0 := by
        rw [← hdrop, List.getD_eq_getElem?_getD, List.getD_eq_getElem?_getD, List.getElem?_drop]
      have hmem : (encode b ++ encodeAll bs).getD k 0 ∈ encode b := by
        have hk' : k = 0 ∨ k = 1 := by omega
        rcases hk' with rfl | rfl
        · exact List.mem_cons_self
        · exact List.mem_cons_of_mem _ List.mem_cons_self
      rw [hget]
      exact (isDigit_plain _ (encode_digits hmem)).2.2.2.2.2.2.2
    have hbyte := ha 0 (by simp)
    rw [Nat.add_zero] at hbyte
    have hw := dbgVaddrWrite_byte hb hbyte (b.setWidth 32) g.machine
    have hb8 : (b.setWidth 32).setWidth 8 = b := by
      rw [BitVec.setWidth_setWidth_of_le _ (by decide), BitVec.setWidth_eq]
    rw [hb8] at hw
    have hstop : ¬ (args.getD (hex + 1) 0 = 0 ∨ args.getD (hex + 2) 0 = 0) :=
      not_or.2 ⟨hdigit 0 (by decide), hdigit 1 (by decide)⟩
    simp only [List.length_cons, writeMemoryFrom, hdrop, scan_encode, Option.map_some,
      Option.getD_some, if_neg hstop]
    rw [bind_of_ok (inMachine_of_ok hw)]
    refine ih (fun j hj => ?_) hnext _
    rw [show i + 1 + j = i + (j + 1) by omega]
    exact ha (j + 1) (by simp only [List.length_cons]; omega)

/-- The loop of X over the bytes themselves. -/
theorem writeMemoryHexFrom_ok {args : List Byte} {bs : List Byte} {i hex : Nat}
    (ha : ∀ j < bs.length, ByteAtRam P (a + BitVec.ofNat 32 (i + j)))
    (hargs : args.drop (hex + 1) = bs) (g : StubState D) :
    writeMemoryHexFrom P args (args.length + 1) a bs.length i hex g =
      .ok () { g with machine := g.machine.setBytes P a i bs } := by
  induction bs generalizing i hex g with
  | nil => rfl
  | cons b bs ih =>
    have hlen : hex + 1 < args.length := by
      by_contra hge
      rw [List.drop_eq_nil_of_le (by omega)] at hargs
      cases hargs
    have hget : args.getD (hex + 1) 0 = b := by
      have h0 : (args.drop (hex + 1)).getD 0 0 = b := by rw [hargs]; rfl
      rwa [List.getD_eq_getElem?_getD, List.getElem?_drop, Nat.add_zero,
        ← List.getD_eq_getElem?_getD] at h0
    have hnext : args.drop (hex + 1 + 1) = bs := by
      have h1 := congrArg (List.drop 1) hargs
      rwa [List.drop_drop] at h1
    have hbyte := ha 0 (by simp)
    rw [Nat.add_zero] at hbyte
    have hw := dbgVaddrWrite_byte hb hbyte (b.signExtend 32) g.machine
    have hb8 : (b.signExtend 32).setWidth 8 = b := by
      apply BitVec.eq_of_getLsbD_eq
      intro k hk
      rw [BitVec.getLsbD_setWidth, BitVec.getLsbD_signExtend]
      simp [hk, show k < 32 by omega]
    rw [hb8] at hw
    simp only [List.length_cons, writeMemoryHexFrom, hget]
    rw [if_neg (by omega), if_neg (by omega), bind_of_ok (inMachine_of_ok hw)]
    refine ih (fun j hj => ?_) hnext _
    rw [show i + 1 + j = i + (j + 1) by omega]
    exact ha (j + 1) (by simp only [List.length_cons]; omega)

end Write

/-- The text of an M or X packet behind its letter. -/
def writeArgs (da dn payload : List Byte) : List Byte :=
  da ++ ascii ',' :: (dn ++ ascii ':' :: payload)

theorem writeArgs_colon {da dn : List Byte} {v n : Nat} (ha : HexFor da v) (hn : HexFor dn n)
    (payload : List Byte) :
    strchr (writeArgs da dn payload) (ascii ':') = some (da ++ ascii ',' :: dn).length ∧
      (writeArgs da dn payload).drop ((da ++ ascii ',' :: dn).length + 1) = payload := by
  have happ : writeArgs da dn payload = (da ++ ascii ',' :: dn) ++ ascii ':' :: payload := by
    simp [writeArgs]
  rw [happ]
  refine ⟨strchr_append (by decide) (header_plain ha hn), ?_⟩
  rw [← List.drop_drop, List.drop_left]
  rfl

section Serve

variable {P : Platform D} {bases : List (DevName × Word)} (hb : P.board.Realizes bases) {a : Word}
  {bs da dn : List Byte} (hlt : bs.length < 2 ^ 32)
  (ha : ∀ j < bs.length, ByteAtRam P (a + BitVec.ofNat 32 j)) (hda : HexFor da a.toNat)
  (hdn : HexFor dn bs.length)
include hb hlt ha hda hdn

theorem serve_write (g : StubState D) :
    (MemoryPacket.write (writeArgs da dn (encodeAll bs))).serve P g =
      .ok okReply { g with machine := g.machine.setBytes P a 0 bs } := by
  obtain ⟨hcolon, hdrop⟩ := writeArgs_colon hda hdn (encodeAll bs)
  have hscan := scanAddrSize_eq hda hdn hlt (ends_colon (encodeAll bs))
  have hn : (BitVec.ofNat 32 bs.length).toNat = bs.length := by
    rw [BitVec.toNat_ofNat, Nat.mod_eq_of_lt hlt]
  have hloop := writeMemoryFrom_ok hb (i := 0) (fun j hj => by rw [Nat.zero_add]; exact ha j hj)
    hdrop g
  show gdbWriteMemory P _ g = _
  unfold gdbWriteMemory
  rw [show scanAddrSize (writeArgs da dn (encodeAll bs)) = _ from hscan, hcolon]
  simp only [hn]
  rw [bind_of_ok hloop]
  rfl

theorem serve_writeBinary (g : StubState D) :
    (MemoryPacket.writeBinary (writeArgs da dn bs)).serve P g =
      .ok okReply { g with machine := g.machine.setBytes P a 0 bs } := by
  obtain ⟨hcolon, hdrop⟩ := writeArgs_colon hda hdn bs
  have hscan := scanAddrSize_eq hda hdn hlt (ends_colon bs)
  have hn : (BitVec.ofNat 32 bs.length).toNat = bs.length := by
    rw [BitVec.toNat_ofNat, Nat.mod_eq_of_lt hlt]
  have hloop := writeMemoryHexFrom_ok hb (i := 0)
    (fun j hj => by rw [Nat.zero_add]; exact ha j hj) hdrop g
  show gdbWriteMemoryHex P _ _ g = _
  unfold gdbWriteMemoryHex
  rw [show scanAddrSize (writeArgs da dn bs) = _ from hscan, hcolon]
  simp only [hn]
  rw [bind_of_ok hloop]
  rfl

end Serve

/-! ## The reply buffer -/

/-- `snprintf` with room for the two digits and the zero. -/
theorem snprintf_of_lt {len : Nat} (h : len + 2 < memSize) (g : StubState D) (data : Word) :
    g.snprintf len data = g.putAll len (encode (data.setWidth 8) ++ [0]) := by
  have hm : memSize = 4096 := rfl
  have hsize : (2 ^ 64 + memSize - len) % 2 ^ 64 = memSize - len := by
    rw [Nat.add_sub_assoc (by omega), Nat.add_mod_left, Nat.mod_eq_of_lt (by omega)]
  simp only [StubState.snprintf, hsize]
  rw [if_neg (by omega), List.take_of_length_le]
  rw [show (encode (data.setWidth 8)).length = 2 from rfl]
  omega

theorem putAll_machine (g : StubState D) (k : Nat) (cs : List Byte) :
    (g.putAll k cs).machine = g.machine := by
  induction cs generalizing g k with
  | nil => rfl
  | cons c cs ih => exact ih _ _

theorem putAll_outside {g : StubState D} {k : Nat} {cs : List Byte}
    (h : k + cs.length ≤ memSize) : (g.putAll k cs).outside = g.outside := by
  induction cs generalizing g k with
  | nil => rfl
  | cons c cs ih =>
    simp only [List.length_cons] at h
    have hput : (g.put k c).outside = g.outside := by
      simp only [StubState.put]
      rw [decide_eq_false (by omega), Bool.or_false]
    unfold StubState.putAll
    rw [ih (by omega), hput]

theorem putAll_outside_mono {g : StubState D} (h : g.outside = true) (k : Nat) (cs : List Byte) :
    (g.putAll k cs).outside = true := by
  induction cs generalizing g k with
  | nil => exact h
  | cons c cs ih =>
    refine ih ?_ _
    simp only [StubState.put, h, Bool.true_or]

theorem putAll_outside_of_ge {g : StubState D} {k : Nat} {cs : List Byte} (hk : memSize ≤ k)
    (hcs : cs ≠ []) : (g.putAll k cs).outside = true := by
  obtain ⟨c, cs, rfl⟩ := List.exists_cons_of_ne_nil hcs
  refine putAll_outside_mono ?_ _ cs
  simp only [StubState.put, decide_eq_true hk, Bool.or_true]

theorem putAll_mem (g : StubState D) (k : Nat) (cs : List Byte) (j : Nat) :
    (g.putAll k cs).mem j = if k ≤ j ∧ j < k + cs.length then cs.getD (j - k) 0 else g.mem j := by
  induction cs generalizing g k with
  | nil =>
    rw [if_neg (by simp only [List.length_nil]; omega)]
    rfl
  | cons c cs ih =>
    unfold StubState.putAll
    rw [ih]
    simp only [List.length_cons, StubState.put]
    by_cases hj : j = k
    · subst hj
      rw [if_neg (by omega), if_pos (by omega), Function.update_self, Nat.sub_self]
      rfl
    · rw [Function.update_of_ne hj]
      by_cases hin : k + 1 ≤ j ∧ j < k + 1 + cs.length
      · rw [if_pos hin, if_pos (by omega), show j - k = (j - (k + 1)) + 1 by omega,
          List.getD_cons_succ]
      · rw [if_neg hin, if_neg (by omega)]

/-! ## The packet m -/

section Read

variable {P : Platform D} {bases : List (DevName × Word)} (hb : P.board.Realizes bases) {a : Word}

theorem snprintf_machine (g : StubState D) (len : Nat) (data : Word) :
    (g.snprintf len data).machine = g.machine := by
  simp only [StubState.snprintf]
  split
  · rfl
  · exact putAll_machine _ _ _

include hb

/-- The loop counts two digits for each byte, whether they fit or not. -/
theorem readMemoryFrom_len {n i : Nat}
    (ha : ∀ j < n, ByteAtRam P (a + BitVec.ofNat 32 (i + j))) (len : Nat) (g : StubState D) :
    ∃ g', readMemoryFrom P a n i len g = .ok (len + 2 * n) g' := by
  induction n generalizing i len g with
  | zero => exact ⟨g, rfl⟩
  | succ n ih =>
    have hbyte := ha 0 (by omega)
    rw [Nat.add_zero] at hbyte
    obtain ⟨v, hv, -⟩ := dbgVaddrRead_byte hb hbyte g.machine
    obtain ⟨g', hg'⟩ := ih (i := i + 1)
      (fun j hj => by rw [show i + 1 + j = i + (j + 1) by omega]; exact ha (j + 1) (by omega))
      (len + 2) (g.snprintf len v)
    refine ⟨g', ?_⟩
    unfold readMemoryFrom
    rw [bind_of_ok (inMachine_of_ok hv), bind_of_ok (modify_apply _ _)]
    refine hg'.trans ?_
    rw [show len + 2 + 2 * n = len + 2 * (n + 1) by omega]

/-- What the loop leaves in the buffer while the digits and the zero fit. -/
theorem readMemoryFrom_ok {bs : List Byte} {i : Nat} (hfit : 2 * (i + bs.length) < memSize)
    (ha : ∀ j < bs.length, ByteAtRam P (a + BitVec.ofNat 32 (i + j))) {g : StubState D}
    (hs : ∀ j b, bs[j]? = some b → g.machine.byteAt P (a + BitVec.ofNat 32 (i + j)) = b) :
    ∃ g', readMemoryFrom P a bs.length i (2 * i) g = .ok (2 * (i + bs.length)) g' ∧
      g'.machine = g.machine ∧ (∀ k < 2 * i, g'.mem k = g.mem k) ∧
      (∀ k < 2 * bs.length, g'.mem (2 * i + k) = (encodeAll bs).getD k 0) ∧
      g'.mem (2 * (i + bs.length)) = if bs = [] then g.mem (2 * i) else 0 := by
  induction bs generalizing i g with
  | nil => exact ⟨g, rfl, rfl, fun _ _ => rfl, fun k hk => by simp at hk, rfl⟩
  | cons b bs ih =>
    simp only [List.length_cons] at hfit
    have hm : memSize = 4096 := rfl
    have hbyte := ha 0 (by simp)
    have hval := hs 0 b rfl
    rw [Nat.add_zero] at hbyte hval
    obtain ⟨v, hv, hv8⟩ := dbgVaddrRead_byte hb hbyte g.machine
    rw [hval] at hv8
    have hput := snprintf_of_lt (show 2 * i + 2 < memSize by omega) g v
    rw [hv8] at hput
    -- the buffer after the digits of `b`
    have hmem : ∀ k, (g.snprintf (2 * i) v).mem k =
        if 2 * i ≤ k ∧ k < 2 * i + 3 then (encode b ++ [0]).getD (k - 2 * i) 0 else g.mem k := by
      intro k
      rw [hput, putAll_mem]
      rfl
    obtain ⟨g', hg', hmach, hlow, hdig, hlast⟩ := ih (i := i + 1) (g := g.snprintf (2 * i) v)
      (by omega)
      (fun j hj => by
        rw [show i + 1 + j = i + (j + 1) by omega]
        exact ha (j + 1) (by simp only [List.length_cons]; omega))
      (fun j c hc => by
        rw [snprintf_machine, show i + 1 + j = i + (j + 1) by omega]
        exact hs (j + 1) c hc)
    refine ⟨g', ?_, hmach.trans (snprintf_machine g _ v), fun k hk => ?_, fun k hk => ?_, ?_⟩
    · simp only [List.length_cons]
      unfold readMemoryFrom
      rw [bind_of_ok (inMachine_of_ok hv), bind_of_ok (modify_apply _ _),
        show 2 * i + 2 = 2 * (i + 1) by omega]
      refine hg'.trans ?_
      rw [show i + 1 + bs.length = i + (bs.length + 1) by omega]
    · rw [hlow k (by omega), hmem, if_neg (by omega)]
    · have happ : encodeAll (b :: bs) = encode b ++ encodeAll bs := rfl
      have hlen : (encode b).length = 2 := rfl
      simp only [List.length_cons] at hk
      rw [happ]
      by_cases h2 : k < 2
      · rw [hlow _ (by omega), hmem, if_pos (by omega), Nat.add_sub_cancel_left]
        have hk' : k = 0 ∨ k = 1 := by omega
        rcases hk' with rfl | rfl <;> rfl
      · rw [show 2 * i + k = 2 * (i + 1) + (k - 2) by omega, hdig _ (by omega),
          List.getD_eq_getElem?_getD, List.getD_eq_getElem?_getD,
          List.getElem?_append_right (by omega), hlen]
    · simp only [List.length_cons]
      rw [show i + (bs.length + 1) = i + 1 + bs.length by omega, hlast, if_neg (List.cons_ne_nil b bs)]
      split
      · rw [hmem, if_pos (by omega), show 2 * (i + 1) - 2 * i = 2 by omega]
        rfl
      · rfl

end Read

theorem text_machine (g : StubState D) (s : Machine D) :
    ({ g with machine := s } : StubState D).text = g.text := rfl

/-- The string in the buffer. -/
theorem text_eq {g : StubState D} {ds : List Byte} (hlen : ds.length < memSize)
    (hd : ∀ c ∈ ds, c ≠ 0) (hmem : ∀ k < ds.length, g.mem k = ds.getD k 0)
    (hend : g.mem ds.length = 0) : g.text = ds := by
  have hsplit : List.range memSize = List.range ds.length ++
      (List.range (memSize - ds.length)).map (ds.length + ·) := by
    rw [← List.range_add, Nat.add_sub_cancel' (Nat.le_of_lt hlen)]
  have hfst : (List.range ds.length).map g.mem = ds := by
    apply List.ext_getElem
    · simp
    · intro k h1 h2
      rw [List.getElem_map, List.getElem_range, hmem k h2, List.getD_eq_getElem?_getD,
        List.getElem?_eq_getElem h2, Option.getD_some]
  obtain ⟨r, hr⟩ := Nat.exists_eq_add_of_lt hlen
  have hsnd : memSize - ds.length = r + 1 := by omega
  unfold StubState.text
  rw [hsplit, List.map_append, hfst, hsnd, List.range_succ_eq_map, List.map_cons, List.map_cons,
    Nat.add_zero, hend, List.takeWhile_append_of_pos (fun c hc => decide_eq_true (hd c hc)),
    List.takeWhile_cons, if_neg (by simp), List.append_nil]

/-- The text of an m packet behind its letter. -/
def readArgs (da dn : List Byte) : List Byte := da ++ ascii ',' :: dn

section ServeRead

variable {P : Platform D} {bases : List (DevName × Word)} (hb : P.board.Realizes bases) {a : Word}
  {n : Nat} {da dn : List Byte} (hda : HexFor da a.toNat) (hdn : HexFor dn n)

include hda hdn in
theorem gdbReadMemory_eq (hlt : n < 2 ^ 32) :
    gdbReadMemory P (readArgs da dn) = do
      let len ← readMemoryFrom P a n 0 0
      unless len < memSize do throw (.halt .assert)
      return (← get).text := by
  have hscan := scanAddrSize_eq hda hdn hlt ends_nil
  rw [List.append_nil] at hscan
  unfold gdbReadMemory
  rw [show scanAddrSize (readArgs da dn) = _ from hscan]
  simp only [BitVec.toNat_ofNat, Nat.mod_eq_of_lt hlt]

include hda hdn hb

/-- The assertion behind the loop fails when the zero does not fit. -/
theorem serve_read_long (hlt : n < 2 ^ 32) (hlong : memSize ≤ 2 * n)
    (ha : ∀ j < n, ByteAtRam P (a + BitVec.ofNat 32 j)) (g : StubState D) :
    ∃ g', (MemoryPacket.read (readArgs da dn)).serve P g = .error (.halt .assert) g' := by
  obtain ⟨g', hg'⟩ := readMemoryFrom_len hb (i := 0)
    (fun j hj => by rw [Nat.zero_add]; exact ha j hj) 0 g
  refine ⟨g', ?_⟩
  show gdbReadMemory P _ g = _
  rw [gdbReadMemory_eq hda hdn hlt, bind_of_ok hg', Nat.zero_add, if_neg (by omega)]
  rfl

omit hdn in
/-- A reply that fits. Of no bytes nothing is printed, and the reply is the string that is
    still in the buffer. -/
theorem serve_read_short {bs : List Byte} (hdn : HexFor dn bs.length)
    (hfit : 2 * bs.length < memSize) (ha : ∀ j < bs.length, ByteAtRam P (a + BitVec.ofNat 32 j))
    {g : StubState D}
    (hs : ∀ j b, bs[j]? = some b → g.machine.byteAt P (a + BitVec.ofNat 32 j) = b) :
    ∃ g', (MemoryPacket.read (readArgs da dn)).serve P g =
        .ok (if bs = [] then g.text else encodeAll bs) g' ∧ g'.machine = g.machine := by
  have hm : memSize = 4096 := rfl
  obtain ⟨g', hg', hmach, -, hdig, hlast⟩ := readMemoryFrom_ok hb
    (show 2 * (0 + bs.length) < memSize by omega)
    (fun j hj => by rw [Nat.zero_add]; exact ha j hj)
    (fun j b hj => by rw [Nat.zero_add]; exact hs j b hj)
  have hserve : gdbReadMemory P (readArgs da dn) g = .ok g'.text g' := by
    rw [gdbReadMemory_eq hda hdn (by omega), bind_of_ok hg', Nat.zero_add, if_pos hfit]
    rfl
  refine ⟨g', hserve.trans ?_, hmach⟩
  by_cases hnil : bs = []
  · subst hnil
    cases hg'
    rw [if_pos rfl]
  · rw [if_neg hnil] at hlast ⊢
    have hlen : (encodeAll bs).length < memSize := by
      rw [length_encodeAll]
      exact hfit
    rw [text_eq hlen]
    · exact fun c hc => (isDigit_plain c (encodeAll_digits hc)).2.2.2.2.2.2.2
    · intro k hk
      rw [length_encodeAll] at hk
      have := hdig k hk
      rwa [Nat.mul_zero, Nat.zero_add] at this
    · rw [length_encodeAll]
      rwa [Nat.zero_add] at hlast

end ServeRead

/-! ## Writes behind the buffer -/

/-- The debugger can read the `n` bytes from `a + i` on, one after the other. -/
def readsOk (P : Platform D) (a : Word) : Nat → Nat → Machine D → Bool
  | 0, _, _ => true
  | n + 1, i, s =>
    match dbgVaddrRead P (a + BitVec.ofNat 32 i) 1 s with
    | .ok _ s => readsOk P a n (i + 1) s
    | .error _ _ => false

theorem snprintf_outside {i : Nat} (hi : i < 2050) (g : StubState D) (data : Word) :
    (g.snprintf (2 * i) data).outside = (g.outside || decide (i = 2049)) := by
  have hm : memSize = 4096 := rfl
  by_cases h1 : i < 2047
  · rw [snprintf_of_lt (by omega), putAll_outside, decide_eq_false (by omega), Bool.or_false]
    simp only [List.length_append, List.length_cons, List.length_nil, encode]
    omega
  · have h3 : i = 2047 ∨ i = 2048 ∨ i = 2049 := by omega
    rcases h3 with rfl | rfl | rfl
    · -- one digit and the zero are the last two bytes of the buffer
      rw [decide_eq_false (by decide), Bool.or_false]
      exact putAll_outside (Nat.le_of_eq rfl)
    · rw [decide_eq_false (by decide), Bool.or_false]
      rfl
    · -- `sizeof(mem) - len` has wrapped around
      rw [decide_eq_true rfl, Bool.or_true]
      exact putAll_outside_of_ge (by decide) (List.cons_ne_nil _ _)

theorem snprintf_outside_mono {g : StubState D} (h : g.outside = true) (len : Nat)
    (data : Word) : (g.snprintf len data).outside = true := by
  simp only [StubState.snprintf]
  split
  · exact h
  · exact putAll_outside_mono h _ _

theorem readMemoryFrom_outside_mono (P : Platform D) (a : Word) {n i len : Nat}
    {g : StubState D} (h : g.outside = true) :
    (final (readMemoryFrom P a n i len g)).outside = true := by
  induction n generalizing i len g with
  | zero => exact h
  | succ n ih =>
    unfold readMemoryFrom
    cases hr : dbgVaddrRead P (a + BitVec.ofNat 32 i) 1 g.machine with
    | ok v s =>
      rw [bind_of_ok (inMachine_of_ok hr), bind_of_ok (modify_apply _ _)]
      exact ih (snprintf_outside_mono (g := { g with machine := s }) h len v)
    | error e s =>
      have he : inMachine (dbgVaddrRead P (a + BitVec.ofNat 32 i) 1) g =
          .error e { g with machine := s } := by
        unfold inMachine
        rw [hr]
      rw [bind_of_error he]
      exact h

/-- The size passed to `snprintf` is right up to the last two bytes of the buffer, 0 for the
    next two digits, and huge from then on. -/
theorem readMemoryFrom_outside (P : Platform D) (a : Word) {n i : Nat} (hi : i < 2050)
    (g : StubState D) :
    (final (readMemoryFrom P a n i (2 * i) g)).outside =
      (g.outside || (decide (2050 ≤ i + n) && readsOk P a (2050 - i) i g.machine)) := by
  induction n generalizing i g with
  | zero =>
    rw [decide_eq_false (by omega), Bool.false_and, Bool.or_false]
    rfl
  | succ n ih =>
    unfold readMemoryFrom
    rw [show 2050 - i = 2049 - i + 1 by omega]
    cases hr : dbgVaddrRead P (a + BitVec.ofNat 32 i) 1 g.machine with
    | ok v s =>
      rw [bind_of_ok (inMachine_of_ok hr), bind_of_ok (modify_apply _ _)]
      simp only [readsOk, hr]
      have hout := snprintf_outside hi { g with machine := s } v
      by_cases hlast : i = 2049
      · rw [readMemoryFrom_outside_mono P a (by rw [hout, decide_eq_true hlast, Bool.or_true]),
          decide_eq_true (by omega), show 2049 - i = 0 by omega]
        simp [readsOk]
      · have hstep := ih (i := i + 1) (by omega) (({ g with machine := s } : StubState D).snprintf
          (2 * i) v)
        rw [hout, decide_eq_false hlast, Bool.or_false, snprintf_machine,
          show 2 * (i + 1) = 2 * i + 2 by omega, show 2050 - (i + 1) = 2049 - i by omega,
          show i + 1 + n = i + (n + 1) by omega] at hstep
        exact hstep
    | error e s =>
      have he : inMachine (dbgVaddrRead P (a + BitVec.ofNat 32 i) 1) g =
          .error e { g with machine := s } := by
        unfold inMachine
        rw [hr]
      rw [bind_of_error he]
      simp only [readsOk, hr, Bool.and_false, Bool.or_false]
      rfl

theorem serve_read_outside (P : Platform D) (args : List Byte) (g : StubState D) :
    (final ((MemoryPacket.read args).serve P g)).outside =
      (g.outside || (decide (2050 ≤ (scanAddrSize args).2.toNat) &&
        readsOk P (scanAddrSize args).1 2050 0 g.machine)) := by
  show (final (gdbReadMemory P args g)).outside = _
  unfold gdbReadMemory
  obtain ⟨addr, size⟩ := scanAddrSize args
  have hloop := readMemoryFrom_outside P addr (n := size.toNat) (show 0 < 2050 by decide) g
  rw [Nat.mul_zero, Nat.zero_add] at hloop
  refine Eq.trans ?_ hloop
  cases hr : readMemoryFrom P addr size.toNat 0 0 g with
  | ok len g' =>
    simp only []
    rw [bind_of_ok hr]
    by_cases hl : len < memSize
    · rw [if_pos hl]
      simp only [bind_apply, get_apply, pure_apply, final_ok]
    · rw [if_neg hl]
      simp only [throw_bind_apply, final_ok, final_error]
  | error e g' =>
    simp only []
    rw [bind_of_error hr]
    rfl

/-! ## Round trips -/

/-- A write packet for `bs` at `a` is answered OK, the m packet after it with the digits of
    `bs`, and memory elsewhere is unchanged. -/
def RoundTrips (P : Platform D) (q m : MemoryPacket) (a : Word) (bs : List Byte)
    (g : StubState D) : Prop :=
  ∃ g₁ g₂, q.serve P g = .ok okReply g₁ ∧ m.serve P g₁ = .ok (encodeAll bs) g₂ ∧
    Written P a 0 bs g.machine g₂.machine

section RoundTrips

variable {P : Platform D} {bases : List (DevName × Word)} (hb : P.board.Realizes bases) {a : Word}
  {bs da dn : List Byte} (hmax : 2 * bs.length ≤ 0x1000)
  (ha : ∀ j < bs.length, ByteAtRam P (a + BitVec.ofNat 32 j)) (hda : HexFor da a.toNat)
  (hdn : HexFor dn bs.length)
include hb hmax ha hda hdn

theorem roundTrips_iff {q : MemoryPacket} {g : StubState D}
    (hq : q.serve P g = .ok okReply { g with machine := g.machine.setBytes P a 0 bs }) :
    RoundTrips P q (.read (readArgs da dn)) a bs g ↔
      bs.length < 2048 ∧ (bs = [] → g.mem 0 = 0) := by
  have hm : memSize = 4096 := rfl
  have hw := written_setBytes hb a (show 0 + bs.length ≤ 4096 by omega) g.machine
  constructor
  · rintro ⟨g₁, g₂, h1, h2, -⟩
    rw [hq] at h1
    cases h1
    by_cases hlong : bs.length < 2048
    · refine ⟨hlong, fun hnil => ?_⟩
      subst hnil
      obtain ⟨g', hg', -⟩ := serve_read_short hb hda hdn (by decide) ha (fun j b h => by simp at h)
      rw [hg', if_pos rfl] at h2
      have htext := (EStateM.Result.ok.inj h2).1
      rw [text_machine] at htext
      by_contra hne
      have hhead : g.text.head? = some (g.mem 0) := by
        obtain ⟨r, hr⟩ : ∃ r, memSize = r + 1 := ⟨4095, rfl⟩
        unfold StubState.text
        rw [hr, List.range_succ_eq_map, List.map_cons, List.takeWhile_cons,
          if_pos (decide_eq_true hne), List.head?_cons]
      rw [htext] at hhead
      cases hhead
    · obtain ⟨g', hg'⟩ := serve_read_long hb hda hdn (by omega) (by omega) ha
        { g with machine := g.machine.setBytes P a 0 bs }
      rw [hg'] at h2
      cases h2
  · rintro ⟨hshort, hempty⟩
    have hs : ∀ j b, bs[j]? = some b →
        (g.machine.setBytes P a 0 bs).byteAt P (a + BitVec.ofNat 32 j) = b := by
      intro j b hj
      have hlt : j < bs.length := by
        by_contra hge
        rw [List.getElem?_eq_none (by omega)] at hj
        cases hj
      obtain ⟨⟨r, o⟩, hr⟩ := Option.isSome_iff_exists.1 (ha j hlt).ram
      unfold Machine.byteAt
      rw [hr]
      refine hw.bytes j b hj r o ?_
      rw [Nat.zero_add]
      exact hr
    obtain ⟨g', hg', hmach⟩ := serve_read_short hb hda hdn (by omega) ha
      (g := { g with machine := g.machine.setBytes P a 0 bs }) hs
    refine ⟨_, g', hq, hg'.trans ?_, ?_⟩
    · split
      · rename_i hnil
        subst hnil
        have hlen : ([] : List Byte).length < memSize := by decide
        rw [text_machine, text_eq hlen (by simp) (by simp) (hempty rfl)]
        rfl
      · rfl
    · rw [hmach]
      exact hw

end RoundTrips

/-- What M or X has written m reads back exactly if its digits and their zero fit into the
    reply buffer and there is at least one of them, or nothing is left over in the buffer; and
    m stays inside the buffer exactly if it does not get to print a byte 2049. -/
theorem memory_packets {P : Platform D} {bases : List (DevName × Word)}
    (hb : P.board.Realizes bases) {g : StubState D} (hg : g.outside = false) :
    (∀ (a : Word) (bs da dn da' dn' : List Byte), 2 * bs.length ≤ 0x1000 →
      (∀ j < bs.length, ByteAtRam P (a + BitVec.ofNat 32 j)) →
      HexFor da a.toNat → HexFor dn bs.length → HexFor da' a.toNat → HexFor dn' bs.length →
      ∀ q, q = .write (writeArgs da dn (encodeAll bs)) ∨ q = .writeBinary (writeArgs da dn bs) →
        (RoundTrips P q (.read (readArgs da' dn')) a bs g ↔
          bs.length < 2048 ∧ (bs = [] → g.mem 0 = 0))) ∧
    ∀ args, (final ((MemoryPacket.read args).serve P g)).outside = false ↔
      ¬ (2050 ≤ (scanAddrSize args).2.toNat ∧
        readsOk P (scanAddrSize args).1 2050 0 g.machine = true) := by
  refine ⟨fun a bs da dn da' dn' hmax ha hda hdn hda' hdn' q hq => ?_, fun args => ?_⟩
  · refine roundTrips_iff hb hmax ha hda' hdn' ?_
    rcases hq with rfl | rfl
    · exact serve_write hb (by omega) ha hda hdn g
    · exact serve_writeBinary hb (by omega) ha hda hdn g
  · rw [serve_read_outside, hg, Bool.false_or, Bool.and_eq_false_iff, not_and_or,
      decide_eq_false_iff_not, Bool.not_eq_true]

theorem readsOk_of_ram {P : Platform D} {bases : List (DevName × Word)}
    (hb : P.board.Realizes bases) {a : Word} {n i : Nat}
    (ha : ∀ j < n, ByteAtRam P (a + BitVec.ofNat 32 (i + j))) (s : Machine D) :
    readsOk P a n i s = true := by
  induction n generalizing i with
  | zero => rfl
  | succ n ih =>
    have hbyte := ha 0 (by omega)
    rw [Nat.add_zero] at hbyte
    obtain ⟨v, hv, -⟩ := dbgVaddrRead_byte hb hbyte s
    simp only [readsOk, hv]
    refine ih fun j hj => ?_
    rw [show i + 1 + j = i + (j + 1) by omega]
    exact ha (j + 1) (by omega)

/-! ## At the size of a packet -/

def asciiOf (s : String) : List Byte := s.toList.map ascii

/-- The stub before its first m packet. -/
def freshStub : StubState Unit := { machine := zeroed, mem := fun _ => 0, outside := false }

theorem hexFor_80001000 : HexFor (asciiOf "80001000") (0x80001000 : Word).toNat := by
  constructor <;> decide +kernel

theorem ram_80001000 : ∀ j < 2050, ByteAtRam mips32r1 (0x80001000 + BitVec.ofNat 32 j) := by
  intro j hj
  have hv : (0x80001000 + BitVec.ofNat 32 j : Word).toNat = 0x80001000 + j := by
    have h : (0x80001000 : Word).toNat = 0x80001000 := rfl
    rw [BitVec.toNat_add, BitVec.toNat_ofNat, h]
    omega
  generalize 0x80001000 + BitVec.ofNat 32 j = v at *
  -- all of them are on page 1
  have hpage : mrIndex (ioremap (ioremap v)) = 1#32 := by
    apply BitVec.eq_of_toNat_eq
    rw [toNat_mrIndex, toNat_ioremap, toNat_ioremap, hv, BitVec.toNat_ofNat]
    omega
  have hdev : mips32r1.findDevice (ioremap v) = some ddrDev := by
    rw [Platform.findDevice, hpage]
    rfl
  constructor
  · left
    rw [BitVec.toNat_ushiftRight, hv, Nat.shiftRight_eq_div_pow]
    omega
  · rw [Platform.ramAt, hdev]
    rfl

/-- Four bytes make the round trip, and m for 2049 bytes stays inside the buffer. -/
theorem memory_packets_demo :
    RoundTrips mips32r1
        (.write (writeArgs (asciiOf "80001000") (asciiOf "4") (asciiOf "deadbeef")))
        (.read (readArgs (asciiOf "80001000") (asciiOf "4"))) 0x80001000
        [0xde, 0xad, 0xbe, 0xef] freshStub ∧
      (final ((MemoryPacket.read (readArgs (asciiOf "80001000") (asciiOf "801"))).serve mips32r1
        freshStub)).outside = false := by
  have hp := memory_packets (P := mips32r1) ramBoard_realizes (g := freshStub) rfl
  have h4 : HexFor (asciiOf "4") 4 := by constructor <;> decide +kernel
  refine ⟨(hp.1 0x80001000 [0xde, 0xad, 0xbe, 0xef] _ _ _ _ (by decide)
    (fun j hj => ram_80001000 j (by simp at hj; omega)) hexFor_80001000 h4 hexFor_80001000 h4 _
    (.inl ?_)).2 ⟨by decide, fun h => by cases h⟩, (hp.2 _).2 ?_⟩
  · have henc : encodeAll [0xde, 0xad, 0xbe, 0xef] = asciiOf "deadbeef" := by decide +kernel
    rw [henc]
  · intro h
    exact absurd h.1 (by decide +kernel)

/-- The longest reply that the announced packet size allows: the digits of 2048 bytes. The
    assertion fails, and m for two more bytes writes behind the buffer. -/
theorem memory_packets_long :
    2 * (List.replicate 2048 (0 : Byte)).length ≤ 0x1000 ∧
    ¬ RoundTrips mips32r1
        (.writeBinary (writeArgs (asciiOf "80001000") (asciiOf "800") (List.replicate 2048 0)))
        (.read (readArgs (asciiOf "80001000") (asciiOf "800"))) 0x80001000
        (List.replicate 2048 0) freshStub ∧
    (final ((MemoryPacket.read (readArgs (asciiOf "80001000") (asciiOf "802"))).serve mips32r1
      freshStub)).outside = true := by
  have hlen : (List.replicate 2048 (0 : Byte)).length = 2048 := List.length_replicate
  have hn : HexFor (asciiOf "800") (List.replicate 2048 (0 : Byte)).length := by
    rw [hlen]
    constructor <;> decide +kernel
  have ha : ∀ j < (List.replicate 2048 (0 : Byte)).length,
      ByteAtRam mips32r1 (0x80001000 + BitVec.ofNat 32 j) :=
    fun j hj => ram_80001000 j (by omega)
  refine ⟨by omega, fun h => ?_, ?_⟩
  · have hw := serve_writeBinary ramBoard_realizes (by omega) ha hexFor_80001000 hn freshStub
    have hlt := ((roundTrips_iff ramBoard_realizes (by omega) ha hexFor_80001000 hn hw).1 h).1
    omega
  · have hargs : scanAddrSize (readArgs (asciiOf "80001000") (asciiOf "802")) =
        (0x80001000, 2050) := by decide +kernel
    have hreads : readsOk mips32r1 0x80001000 2050 0 freshStub.machine = true :=
      readsOk_of_ram ramBoard_realizes
        (fun j hj => by rw [Nat.zero_add]; exact ram_80001000 j hj) _
    have hsize : 2050 ≤ (2050 : Word).toNat := by decide
    rw [serve_read_outside, hargs, decide_eq_true hsize, hreads, Bool.and_true, Bool.or_true]

end NemuMips32
