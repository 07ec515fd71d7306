/-
  The register packets of the GDB stub: `g` prints all registers (`gdb_read_registers`), `p`
  one of them (`gdb_read_register`), and the client decodes what it is sent with
  `gdb_decode_hex_str` into a `qemu_regs_t`.

  The two list the registers separately. They agree, and with `qemu_regs_t`, at every position
  but 32: `gdb_read_register` prints 0 there, and not Status.
-/
import NemuMips32.Lib.HexText
import NemuMips32.Board

namespace NemuMips32

open HexText

def CP0_BADVADDR : BitVec 5 := 8
def CP0_STATUS : BitVec 5 := 12
def CP0_CAUSE : BitVec 5 := 13
def CP0_EPC : BitVec 5 := 14

/-! ## The server -/

/-- `htonl` on a little-endian host. -/
def htonl (v : Word) : Word :=
  v.extractLsb' 0 8 ++ v.extractLsb' 8 8 ++ v.extractLsb' 16 8 ++ v.extractLsb' 24 8

/-- `sizeof(regs)`. -/
def regsSize : Nat := (32 + 6) * 8 + 10

/-- `len += snprintf(&regs[len], sizeof(regs) - len, "%08x", htonl(v))`, with the text at `regs`
    and `len`. -/
def printReg (t : List Byte × Nat) (v : Word) : List Byte × Nat :=
  let text := encodeWord (htonl v)
  (t.1 ++ text.take (regsSize - t.2 - 1), t.2 + text.length)

/-- What `gdb_read_registers` prints, in its order. -/
def printedRegs (c : CpuState) : List Word :=
  (List.finRange 32).map (fun i => c.gpr (BitVec.ofFin i)) ++
    [c.cp0.cpr CP0_STATUS 0, c.lo, c.hi, c.cp0.cpr CP0_BADVADDR 0, c.cp0.cpr CP0_CAUSE 0, c.pc]

/-- `gdb_read_registers`. -/
def gdbReadRegisters (c : CpuState) : Except Halt (List Byte) :=
  let t := (printedRegs c).foldl printReg ([], 0)
  if t.2 < regsSize then .ok t.1 else .error .assert

/-- The `switch` of `gdb_read_register`. -/
def switchReg (c : CpuState) (regNo : Word) : Word :=
  match regNo.toNat with
  | 0x20 => 0
  | 0x21 => c.lo
  | 0x22 => c.hi
  | 0x23 => c.cp0.cpr CP0_BADVADDR 0
  | 0x24 => c.cp0.cpr CP0_CAUSE 0
  | 0x25 => c.pc
  | 0x26 => c.cp0.cpr CP0_EPC 0
  | _ => 0

/-- `gdb_read_register`. The number is an `int`; a negative one reads before `gpr`. -/
def gdbReadRegister (c : CpuState) (args : List Byte) : Except Halt (List Byte) :=
  let regNo := ((scanFull args).map Prod.fst).getD 0
  if regNo.slt 32 then
    if regNo.slt 0 then .error .undefined
    else .ok (encodeWord (htonl (c.gpr (regNo.setWidth 5))))
  else .ok (encodeWord (htonl (switchReg c regNo)))

/-! ## The client -/

/-- `tolower`. -/
def tolower (c : Byte) : Byte := if 65 ≤ c ∧ c ≤ 90 then c + 32 else c

/-- `hex_nibble`. -/
def hexNibble (hex : Byte) : Byte :=
  if 48 ≤ hex ∧ hex ≤ 57 then hex - ascii '0' else tolower hex - ascii 'a' + 10

/-- `gdb_decode_hex`. -/
def gdbDecodeHex (msb lsb : Byte) : BitVec 16 :=
  if !isDigit msb || !isDigit lsb then 0xFFFF
  else 16 * (hexNibble msb).setWidth 16 + (hexNibble lsb).setWidth 16

/-- The loop of `gdb_decode_hex_str`; the end of the text is its terminating zero. -/
def decodeHexFrom (value weight : BitVec 64) : List Byte → BitVec 64
  | a :: b :: bytes =>
    if isDigit a && isDigit b then
      decodeHexFrom (value + weight * (gdbDecodeHex a b).setWidth 64) (weight * (16 * 16)) bytes
    else value
  | _ => value

/-- `gdb_decode_hex_str`. -/
def gdbDecodeHexStr (bytes : List Byte) : BitVec 64 := decodeHexFrom 0 1 bytes

/-- The text that `qemu_getregs` decodes for register `n`. -/
def digitsOf (reply : List Byte) (n : Nat) : List Byte := (reply.drop (8 * n)).take 8

/-- What `qemu_getregs` stores in `array[n]`. -/
def qemuReg (reply : List Byte) (n : Nat) : Word :=
  (gdbDecodeHexStr (digitsOf reply n)).setWidth 32

/-- The registers as `qemu_regs_t` lists them: `gpr`, `sr`, `lo`, `hi`, `bad`, `cause`, `pc`. -/
def qemuOrder (c : CpuState) (n : Nat) : Word :=
  if n < 32 then c.gpr (BitVec.ofNat 5 n)
  else
    match n - 32 with
    | 0 => c.cp0.status.toWord
    | 1 => c.lo
    | 2 => c.hi
    | 3 => c.cp0.badvaddr
    | 4 => c.cp0.cause.toWord
    | _ => c.pc

/-! ## Decoding -/

theorem gdbDecodeHex_encode : ∀ b : Byte,
    (gdbDecodeHex (digit (b.toNat / 16)) (digit (b.toNat % 16))).setWidth 64 =
      b.setWidth 64 := by
  decide +kernel

theorem decodeHexFrom_encode (value weight : BitVec 64) (b : Byte) (bytes : List Byte) :
    decodeHexFrom value weight (encode b ++ bytes) =
      decodeHexFrom (value + weight * b.setWidth 64) (weight * 256) bytes := by
  have hb := b.isLt
  have h1 : isDigit (digit (b.toNat / 16)) = true := isDigit_digit (by omega)
  have h2 : isDigit (digit (b.toNat % 16)) = true := isDigit_digit (by omega)
  change (if _ then _ else _) = _
  rw [h1, h2, if_pos (Bool.and_self true), gdbDecodeHex_encode]
  rfl

theorem extract_htonl (v : Word) : (htonl v).extractLsb' 24 8 = v.extractLsb' 0 8 ∧
    (htonl v).extractLsb' 16 8 = v.extractLsb' 8 8 ∧
    (htonl v).extractLsb' 8 8 = v.extractLsb' 16 8 ∧
    (htonl v).extractLsb' 0 8 = v.extractLsb' 24 8 := by
  unfold htonl
  refine ⟨?_, ?_, ?_, ?_⟩ <;>
  · apply BitVec.eq_of_getLsbD_eq
    intro i hi
    simp only [BitVec.getLsbD_extractLsb', BitVec.getLsbD_append, hi, decide_true, Bool.true_and]
    split_ifs <;>
    · first
        | omega
        | rw [decide_eq_true (by omega), Bool.true_and]
          congr 1
          omega

/-- A word from its bytes, the first of them the lowest. -/
theorem bytes_sum (v : Word) :
    (0 + 1 * (v.extractLsb' 0 8).setWidth 64 + 1 * 256 * (v.extractLsb' 8 8).setWidth 64 +
        1 * 256 * 256 * (v.extractLsb' 16 8).setWidth 64 +
      1 * 256 * 256 * 256 * (v.extractLsb' 24 8).setWidth 64 : BitVec 64) = v.setWidth 64 := by
  have hv := v.isLt
  apply BitVec.eq_of_toNat_eq
  simp only [BitVec.ofNat_eq_ofNat, BitVec.toNat_add, BitVec.toNat_mul, BitVec.toNat_setWidth,
    BitVec.extractLsb'_toNat, BitVec.toNat_ofNat, Nat.shiftRight_eq_div_pow, Nat.reducePow,
    Nat.reduceMod, Nat.reduceMul]
  omega

/-- A printed word is read back from its bytes in the order of a little-endian host. -/
theorem gdbDecodeHexStr_encodeWord (v : Word) :
    gdbDecodeHexStr (encodeWord (htonl v)) = v.setWidth 64 := by
  obtain ⟨h3, h2, h1, h0⟩ := extract_htonl v
  unfold gdbDecodeHexStr encodeWord encodeAll
  rw [h3, h2, h1, h0]
  simp only [List.flatMap_cons, decodeHexFrom_encode, List.flatMap_nil, decodeHexFrom]
  exact bytes_sum v

theorem encodeWord_htonl_inj {v w : Word} :
    encodeWord (htonl v) = encodeWord (htonl w) ↔ v = w := by
  constructor
  · intro h
    have hd := congrArg gdbDecodeHexStr h
    rw [gdbDecodeHexStr_encodeWord, gdbDecodeHexStr_encodeWord] at hd
    have hw := congrArg (fun x : BitVec 64 => x.setWidth 32) hd
    simpa using hw
  · exact fun h => h ▸ rfl

/-! ## The two replies -/

theorem length_printedRegs (c : CpuState) : (printedRegs c).length = 38 := by
  simp [printedRegs]

/-- Nothing is cut while the text fits. -/
theorem foldl_printReg (l : List Word) (t : List Byte × Nat) (hlen : t.2 = t.1.length)
    (hfit : t.2 + 8 * l.length < regsSize) :
    l.foldl printReg t =
      (t.1 ++ l.flatMap (fun v => encodeWord (htonl v)), t.2 + 8 * l.length) := by
  induction l generalizing t with
  | nil => simp
  | cons v l ih =>
    rw [List.length_cons] at hfit ⊢
    have h8 := length_encodeWord (htonl v)
    have hp : printReg t v = (t.1 ++ encodeWord (htonl v), t.2 + 8) := by
      unfold printReg
      dsimp only
      rw [List.take_of_length_le (by omega), h8]
    rw [List.foldl_cons, hp, ih _ (by simp [h8, hlen]) (by dsimp only; omega)]
    simp only [List.flatMap_cons, List.append_assoc, Nat.mul_succ, Prod.mk.injEq, true_and]
    omega

theorem foldl_printedRegs (c : CpuState) : (printedRegs c).foldl printReg ([], 0) =
    ((printedRegs c).flatMap (fun v => encodeWord (htonl v)), 304) := by
  have hlen := length_printedRegs c
  have hfit : 0 + 8 * (printedRegs c).length < regsSize := by rw [hlen]; decide
  rw [foldl_printReg _ _ rfl hfit, hlen, List.nil_append]

theorem gdbReadRegisters_eq (c : CpuState) : gdbReadRegisters c =
    .ok ((printedRegs c).flatMap fun v => encodeWord (htonl v)) := by
  have hfit : 304 < regsSize := by decide
  unfold gdbReadRegisters
  rw [foldl_printedRegs]
  exact if_pos hfit

theorem gpr_printedRegs (c : CpuState) {n : Nat} (hn : n < (printedRegs c).length)
    (h32 : n < 32) : (printedRegs c)[n] = c.gpr (BitVec.ofNat 5 n) := by
  have hlen : n < ((List.finRange 32).map fun i => c.gpr (BitVec.ofFin i)).length := by
    simpa using h32
  refine (List.getElem_append_left hlen).trans ?_
  rw [List.getElem_map, List.getElem_finRange]
  congr 1
  apply BitVec.eq_of_toNat_eq
  simp [Nat.mod_eq_of_lt h32]

/-- `gdb_read_registers` has every register at its place. -/
theorem printedRegs_eq (c : CpuState) {n : Nat} (hn : n < (printedRegs c).length) :
    (printedRegs c)[n] = qemuOrder c n := by
  unfold qemuOrder
  by_cases h32 : n < 32
  · rw [if_pos h32]
    exact gpr_printedRegs c hn h32
  · rw [if_neg h32]
    have hlen : ((List.finRange 32).map fun i => c.gpr (BitVec.ofFin i)).length = 32 := by simp
    refine (List.getElem_append_right (by rw [hlen]; omega)).trans ?_
    have h38 := length_printedRegs c
    obtain ⟨k, rfl⟩ : ∃ k, n = 32 + k := ⟨n - 32, by omega⟩
    have hk : k < 6 := by omega
    simp only [hlen, Nat.add_sub_cancel_left]
    interval_cases k <;> rfl

theorem digitsOf_registers (c : CpuState) {n : Nat} (hn : n < 38) :
    digitsOf ((printedRegs c).flatMap fun v => encodeWord (htonl v)) n =
      encodeWord (htonl (qemuOrder c n)) := by
  have hlen : n < (printedRegs c).length := by rwa [length_printedRegs]
  unfold digitsOf
  rw [drop_take_flatMap (fun v => length_encodeWord (htonl v)) hlen, printedRegs_eq]

/-- What `gdb_read_register` prints for register `n`. -/
def singleReg (c : CpuState) (n : Nat) : Word := if n = 32 then 0 else qemuOrder c n

theorem slt_regNo : ∀ n < 38, (BitVec.ofNat 32 n).slt 32 = decide (n < 32) ∧
    (BitVec.ofNat 32 n).slt 0 = false := by decide

theorem setWidth_regNo : ∀ n < 32, (BitVec.ofNat 32 n).setWidth 5 = BitVec.ofNat 5 n := by decide

theorem gdbReadRegister_eq (c : CpuState) {args rest : List Byte} {n : Nat} (hn : n < 38)
    (hs : scanFull args = some (BitVec.ofNat 32 n, rest)) :
    gdbReadRegister c args = .ok (encodeWord (htonl (singleReg c n))) := by
  obtain ⟨h32, h0⟩ := slt_regNo n hn
  unfold gdbReadRegister
  rw [hs]
  dsimp only [Option.map_some, Option.getD_some]
  rw [h32, h0]
  by_cases hlt : n < 32
  · rw [if_pos (decide_eq_true hlt), if_neg Bool.false_ne_true, setWidth_regNo n hlt, singleReg,
      if_neg (by omega), qemuOrder, if_pos hlt]
  · rw [if_neg (by simpa using hlt)]
    obtain ⟨k, rfl⟩ : ∃ k, n = 32 + k := ⟨n - 32, by omega⟩
    have hk : k < 6 := by omega
    interval_cases k <;> rfl

/-! ## Agreement -/

/-- The reply to `p` with the text `args` is the piece of the reply to `g` for register `n`, and
    both decode to that register. -/
def RegisterAgrees (c : CpuState) (n : Nat) (args : List Byte) : Prop :=
  ∃ one all, gdbReadRegister c args = .ok one ∧ gdbReadRegisters c = .ok all ∧
    one = digitsOf all n ∧ gdbDecodeHexStr one = (qemuOrder c n).setWidth 64 ∧
      qemuReg all n = qemuOrder c n

/-- The two packets agree except for Status, which `gdb_read_register` takes to be 0. -/
theorem registerAgrees_iff (c : CpuState) {n : Nat} (hn : n < 38) {args rest : List Byte}
    (hs : scanFull args = some (BitVec.ofNat 32 n, rest)) :
    RegisterAgrees c n args ↔ (n = 32 → c.cp0.status.toWord = 0) := by
  have hone := gdbReadRegister_eq c hn hs
  have hall := gdbReadRegisters_eq c
  have hdig := digitsOf_registers c hn
  constructor
  · rintro ⟨one, all, h1, h2, h, -, -⟩ rfl
    obtain rfl := Except.ok.inj (h1.symm.trans hone)
    obtain rfl := Except.ok.inj (h2.symm.trans hall)
    rw [hdig, encodeWord_htonl_inj] at h
    exact h.symm
  · intro h
    have hsingle : singleReg c n = qemuOrder c n := by
      unfold singleReg
      split
      · rename_i h32
        subst h32
        exact (h rfl).symm
      · rfl
    rw [hsingle] at hone
    refine ⟨_, _, hone, hall, hdig.symm, gdbDecodeHexStr_encodeWord _, ?_⟩
    unfold qemuReg
    rw [hdig, gdbDecodeHexStr_encodeWord]
    simp

/-- The request `p25`, for the program counter. -/
theorem registerAgrees_pc : RegisterAgrees (loaded [] []).cpu 37 [ascii '2', ascii '5'] ↔
    (37 = 32 → (loaded [] []).cpu.cp0.status.toWord = 0) :=
  registerAgrees_iff _ (by decide)
    (show scanFull [ascii '2', ascii '5'] = some (BitVec.ofNat 32 37, []) by decide)

/-- The request `p20`, for Status as `init_cpu` leaves it. -/
theorem status_misread : ¬ ∀ (c : CpuState) (n : Nat) (args rest : List Byte), n < 38 →
    scanFull args = some (BitVec.ofNat 32 n, rest) → RegisterAgrees c n args := by
  intro h
  let c : CpuState := { (loaded [] []).cpu with cp0 := (loaded [] []).cpu.cp0.init mips32r1.cfg }
  have hs : scanFull [ascii '2', ascii '0'] = some (BitVec.ofNat 32 32, []) := by decide
  obtain ⟨one, all, h1, h2, heq, -⟩ := h c 32 _ _ (by decide) hs
  obtain rfl := Except.ok.inj (h1.symm.trans (gdbReadRegister_eq c (by decide) hs))
  obtain rfl := Except.ok.inj (h2.symm.trans (gdbReadRegisters_eq c))
  rw [digitsOf_registers c (by decide), encodeWord_htonl_inj] at heq
  exact absurd heq (by decide)

end NemuMips32
