/-
  Reading and writing of host files (`file.c`). A call of `read` or `write` may transfer fewer
  bytes than it is asked for, and all three functions loop over such calls. `read_s` and
  `write_s` move on in the buffer with each call; `read_file` counts the bytes but reads every
  piece to the start of the buffer. `transfersExactly_iff`: it gives the file exactly if the
  first call of `read` returns all of it.
-/
import NemuMips32.Flash

namespace NemuMips32

namespace FileIo

/-- A block of host memory, by offset. -/
abbrev Buf := Nat → BitVec 8

def Buf.store (buf : Buf) (off : Nat) (bytes : List (BitVec 8)) : Buf := fun i =>
  if off ≤ i then (bytes[i - off]?).getD (buf i) else buf i

/-! ## The operating system -/

/-- How many bytes the successive calls of `read` or `write` transfer: call `i`, asked for
    `count` bytes, transfers `ret i count`. One call never transfers 2^31 bytes or more. -/
structure Schedule where
  ret : Nat → Nat → Nat
  pos : ∀ i count, 0 < count → 0 < ret i count
  le : ∀ i count, ret i count ≤ count
  lt : ∀ i count, ret i count < 2 ^ 31

/-- A file open for reading: the calls so far, and the bytes behind its position. -/
structure ReadFd where
  calls : Nat
  rest : List (BitVec 8)

/-- `read`: the bytes it stores, as many as it returns. -/
def Schedule.read (S : Schedule) (count : Nat) (fd : ReadFd) : List (BitVec 8) × ReadFd :=
  let n := S.ret fd.calls count
  (fd.rest.take n, ⟨fd.calls + 1, fd.rest.drop n⟩)

/-- A file open for writing. -/
structure WriteFd where
  calls : Nat
  written : List (BitVec 8)

/-- `write` of `count` bytes at `buf + off`. -/
def Schedule.write (S : Schedule) (buf : Buf) (off count : Nat) (fd : WriteFd) : Nat × WriteFd :=
  let n := S.ret fd.calls count
  (n, ⟨fd.calls + 1, fd.written ++ (List.range n).map fun j => buf (off + j)⟩)

/-! ## Program -/

/-- The loop of `read_file`; none is out of fuel. -/
def readFileLoop (S : Schedule) (size : BitVec 64) : Nat → Word → ReadFd → Buf → Option Buf
  | 0, _, _, _ => none
  | fuel + 1, len, fd, buf =>
    if len.signExtend 64 < size then
      let (bytes, fd) := S.read (size - len.signExtend 64).toNat fd
      readFileLoop S size fuel (len + BitVec.ofNat 32 bytes.length) fd (buf.store 0 bytes)
    else some buf

/-- The loop of `read_s` and `write_s` around a call that transfers `count` bytes from offset
    `off` on. It ends in what they return. -/
def transferLoop {σ : Type} (call : Nat → Nat → σ → Nat × σ) (count : BitVec 64) :
    Nat → BitVec 64 → σ → Option (Int × σ)
  | 0, _, _ => none
  | fuel + 1, off, s =>
    if off < count then
      let (n, s) := call off.toNat (count - off).toNat s
      let ret := BitVec.ofNat 32 n
      if ret.slt 0 then some (-1, s)
      else transferLoop call count fuel (off + ret.signExtend 64) s
    else some (count.toInt, s)

/-- `read` of `count` bytes to `buf + off`. -/
def Schedule.readTo (S : Schedule) (off count : Nat) (s : Buf × ReadFd) : Nat × Buf × ReadFd :=
  let (bytes, fd) := S.read count s.2
  (bytes.length, s.1.store off bytes, fd)

/-- `read_s`. -/
def readS (S : Schedule) (fd : ReadFd) (buf : Buf) (count : BitVec 64) (fuel : Nat) :
    Option (Int × Buf × ReadFd) :=
  transferLoop S.readTo count fuel 0 (buf, fd)

/-- `write_s`. -/
def writeS (S : Schedule) (fd : WriteFd) (buf : Buf) (count : BitVec 64) (fuel : Nat) :
    Option (Int × WriteFd) :=
  transferLoop (S.write buf) count fuel 0 fd

/-- The content of a file. -/
structure FileContent where
  bytes : List (BitVec 8)
  length_lt : bytes.length < 2 ^ 31

/-- `read_file` of a file that can be opened; `get_file_size` is its length, and `malloc`
    returns a block with arbitrary contents. -/
def readFile (S : Schedule) (file : FileContent) (malloc : Buf) (fuel : Nat) : Option Buf :=
  readFileLoop S (BitVec.ofNat 64 file.bytes.length) fuel 0 ⟨0, file.bytes⟩ malloc

/-! ## What they should do -/

/-- With enough fuel, that is always, the functions return and have transferred the bytes they
    were asked for. -/
structure TransfersExactly (S : Schedule) (file : FileContent) : Prop where
  readFile : ∀ malloc fuel, file.bytes.length < fuel →
    ∃ buf, readFile S file malloc fuel = some buf ∧
      ∀ i < file.bytes.length, file.bytes[i]? = some (buf i)
  readS : ∀ buf (count : BitVec 64) fuel, count.toNat ≤ file.bytes.length → count.toNat < fuel →
    ∃ fd, readS S ⟨0, file.bytes⟩ buf count fuel =
      some (count.toInt, buf.store 0 (file.bytes.take count.toNat), fd)
  writeS : ∀ buf (count : BitVec 64) fuel, count.toNat < fuel →
    ∃ fd, writeS S ⟨0, []⟩ buf count fuel = some (count.toInt, fd) ∧
      fd.written = (List.range count.toNat).map buf

/-! ## Counters -/

theorem signExtend_ofNat {n : Nat} (h : n < 2 ^ 31) :
    (BitVec.ofNat 32 n).signExtend 64 = BitVec.ofNat 64 n := by
  have hmsb : (BitVec.ofNat 32 n).msb = false := by
    rw [BitVec.msb_eq_false_iff_two_mul_lt, BitVec.toNat_ofNat]
    omega
  rw [BitVec.signExtend_eq_setWidth_of_msb_false hmsb]
  apply BitVec.eq_of_toNat_eq
  simp only [BitVec.toNat_setWidth, BitVec.toNat_ofNat]
  omega

theorem not_slt_zero {n : Nat} (h : n < 2 ^ 31) : (BitVec.ofNat 32 n).slt 0 = false := by
  have hmsb : (BitVec.ofNat 32 n).slt 0#32 = (BitVec.ofNat 32 n).msb := BitVec.slt_zero_eq_msb
  refine hmsb.trans ?_
  rw [BitVec.msb_eq_false_iff_two_mul_lt, BitVec.toNat_ofNat]
  omega

/-! ## `read_s` and `write_s` -/

/-- A loop whose calls transfer something and keep an invariant of the offset ends with it at
    the end of the buffer. -/
theorem transferLoop_spec {σ : Type} {call : Nat → Nat → σ → Nat × σ} {count : BitVec 64}
    (I : Nat → σ → Prop)
    (hcall : ∀ off s, off < count.toNat → I off s →
      ∃ n s', call off (count.toNat - off) s = (n, s') ∧
        0 < n ∧ n ≤ count.toNat - off ∧ n < 2 ^ 31 ∧ I (off + n) s')
    (fuel : Nat) {off : Nat} {s : σ} (hI : I off s) (hle : off ≤ count.toNat)
    (hfuel : count.toNat - off < fuel) :
    ∃ s', transferLoop call count fuel (BitVec.ofNat 64 off) s = some (count.toInt, s') ∧
      I count.toNat s' := by
  have hcount := count.isLt
  induction fuel generalizing off s with
  | zero => omega
  | succ fuel ih =>
    have hoff : (BitVec.ofNat 64 off).toNat = off := by
      rw [BitVec.toNat_ofNat]
      omega
    rw [transferLoop]
    by_cases hlt : off < count.toNat
    · have hlt' : BitVec.ofNat 64 off < count := by
        rw [BitVec.lt_def, hoff]
        exact hlt
      have hrest : (count - BitVec.ofNat 64 off).toNat = count.toNat - off := by
        rw [BitVec.toNat_sub, hoff]
        omega
      obtain ⟨n, s', hn, hpos, hmax, hint, hI'⟩ := hcall off s hlt hI
      rw [if_pos hlt', hoff, hrest, hn]
      simp only [not_slt_zero hint, signExtend_ofNat hint, ← BitVec.ofNat_add]
      exact ih hI' (by omega) (by omega)
    · have heq : off = count.toNat := by omega
      have hnlt : ¬BitVec.ofNat 64 off < count := by
        rw [BitVec.lt_def, hoff]
        exact hlt
      subst heq
      rw [if_neg hnlt]
      exact ⟨s, rfl, hI⟩

/-- Storing one piece behind another. -/
theorem Buf.store_append (buf : Buf) (xs ys : List (BitVec 8)) :
    (buf.store 0 xs).store xs.length ys = buf.store 0 (xs ++ ys) := by
  funext i
  simp only [Buf.store, Nat.zero_le, if_true, Nat.sub_zero]
  by_cases hi : xs.length ≤ i
  · rw [if_pos hi, List.getElem?_append_right hi, List.getElem?_eq_none hi]
    rfl
  · rw [if_neg hi, List.getElem?_append_left (by omega)]

/-- The invariant of `read_s`: the first `off` bytes are in the buffer. -/
def ReadTo (bytes : List (BitVec 8)) (buf : Buf) (off : Nat) (s : Buf × ReadFd) : Prop :=
  s.1 = buf.store 0 (bytes.take off) ∧ s.2.rest = bytes.drop off

theorem readTo_step (S : Schedule) {bytes : List (BitVec 8)} {buf : Buf} {off count : Nat}
    {s : Buf × ReadFd} (hlt : off < count) (hcount : count ≤ bytes.length)
    (hs : ReadTo bytes buf off s) :
    ∃ n s', S.readTo off (count - off) s = (n, s') ∧ 0 < n ∧ n ≤ count - off ∧ n < 2 ^ 31 ∧
      ReadTo bytes buf (off + n) s' := by
  obtain ⟨hbuf, hrest⟩ := hs
  obtain ⟨n, hn⟩ : ∃ n, n = S.ret s.2.calls (count - off) := ⟨_, rfl⟩
  have hpos := S.pos s.2.calls (count - off) (by omega)
  have hle := S.le s.2.calls (count - off)
  have hint := S.lt s.2.calls (count - off)
  rw [← hn] at hpos hle hint
  have hread : S.read (count - off) s.2 =
      ((bytes.drop off).take n, ⟨s.2.calls + 1, (bytes.drop off).drop n⟩) := by
    rw [Schedule.read, ← hn, hrest]
  have hlen : ((bytes.drop off).take n).length = n := by
    rw [List.length_take, List.length_drop]
    omega
  have hoff : (bytes.take off).length = off := List.length_take_of_le (by omega)
  refine ⟨n, (s.1.store off ((bytes.drop off).take n), ⟨s.2.calls + 1, (bytes.drop off).drop n⟩),
    ?_, hpos, hle, hint, ?_, ?_⟩
  · simp only [Schedule.readTo, hread, hlen]
  · have happend := Buf.store_append buf (bytes.take off) ((bytes.drop off).take n)
    rw [hoff] at happend
    change s.1.store off ((bytes.drop off).take n) = buf.store 0 (bytes.take (off + n))
    rw [hbuf, happend, ← List.take_add]
  · exact List.drop_drop

theorem readS_spec (S : Schedule) (bytes : List (BitVec 8)) (buf : Buf) (count : BitVec 64)
    (fuel : Nat) (hcount : count.toNat ≤ bytes.length) (hfuel : count.toNat < fuel) :
    ∃ fd, readS S ⟨0, bytes⟩ buf count fuel =
      some (count.toInt, buf.store 0 (bytes.take count.toNat), fd) := by
  have hinit : ReadTo bytes buf 0 (buf, ⟨0, bytes⟩) := by
    refine ⟨?_, rfl⟩
    funext i
    simp [Buf.store]
  obtain ⟨⟨buf', fd⟩, hloop, hbuf, _⟩ := transferLoop_spec (ReadTo bytes buf)
    (fun off s hlt hs => readTo_step S hlt hcount hs) fuel hinit (Nat.zero_le _) hfuel
  refine ⟨fd, hloop.trans ?_⟩
  rw [← hbuf]

/-- The storage of the flash is filled as the loop fills it. -/
theorem readS_flash (S : Schedule) (f : HostFile) (buf : Buf) (count : BitVec 64) (fuel : Nat)
    (hsize : count.toNat ≤ f.size) (hcount : count.toNat < 2 ^ 63) (hfuel : count.toNat < fuel) :
    ∃ fd, readS S ⟨0, (List.range f.size).map f.byte⟩ buf count fuel =
      some (count.toInt, NemuMips32.readS f buf count, fd) := by
  obtain ⟨fd, hread⟩ := readS_spec S ((List.range f.size).map f.byte) buf count fuel (by simpa)
    hfuel
  have hbuf : buf.store 0 (((List.range f.size).map f.byte).take count.toNat) =
      NemuMips32.readS f buf count := by
    funext i
    rw [NemuMips32.readS, if_neg (by omega), Buf.store, if_pos (Nat.zero_le _), Nat.sub_zero,
      List.getElem?_take]
    split_ifs with hi
    · rw [List.getElem?_map, List.getElem?_range (by omega)]
      rfl
    · rfl
  rw [hbuf] at hread
  exact ⟨fd, hread⟩

/-- The invariant of `write_s`. -/
theorem write_step (S : Schedule) (buf : Buf) {off count : Nat} {fd : WriteFd}
    (hlt : off < count) (hfd : fd.written = (List.range off).map buf) :
    ∃ n fd', S.write buf off (count - off) fd = (n, fd') ∧ 0 < n ∧ n ≤ count - off ∧
      n < 2 ^ 31 ∧ fd'.written = (List.range (off + n)).map buf := by
  refine ⟨_, _, rfl, S.pos _ _ (by omega), S.le _ _, S.lt _ _, ?_⟩
  rw [hfd, List.range_add, List.map_append, List.map_map]
  rfl

theorem writeS_spec (S : Schedule) (buf : Buf) (count : BitVec 64) (fuel : Nat)
    (hfuel : count.toNat < fuel) :
    ∃ fd, writeS S ⟨0, []⟩ buf count fuel = some (count.toInt, fd) ∧
      fd.written = (List.range count.toNat).map buf :=
  transferLoop_spec (fun off (fd : WriteFd) => fd.written = (List.range off).map buf)
    (fun _ _ hlt hfd => write_step S buf hlt hfd) fuel rfl (Nat.zero_le _) hfuel

/-! ## `read_file` -/

/-- From the loop's point of view: `len` bytes have been counted. -/
theorem readFileLoop_step (S : Schedule) {n len : Nat} (hn : n < 2 ^ 31) (hlen : len < n)
    (fuel : Nat) (fd : ReadFd) (buf : Buf) :
    readFileLoop S (BitVec.ofNat 64 n) (fuel + 1) (BitVec.ofNat 32 len) fd buf =
      readFileLoop S (BitVec.ofNat 64 n) fuel
        (BitVec.ofNat 32 (len + (S.read (n - len) fd).1.length)) (S.read (n - len) fd).2
        (buf.store 0 (S.read (n - len) fd).1) := by
  have hlt : BitVec.ofNat 64 len < BitVec.ofNat 64 n := by
    rw [BitVec.lt_def, BitVec.toNat_ofNat, BitVec.toNat_ofNat]
    omega
  have hrest : (BitVec.ofNat 64 n - BitVec.ofNat 64 len).toNat = n - len := by
    rw [BitVec.toNat_sub, BitVec.toNat_ofNat, BitVec.toNat_ofNat]
    omega
  rw [readFileLoop, signExtend_ofNat (by omega), if_pos hlt, hrest, BitVec.ofNat_add]

theorem readFileLoop_end (S : Schedule) {n : Nat} (hn : n < 2 ^ 31) (fuel : Nat) (fd : ReadFd)
    (buf : Buf) :
    readFileLoop S (BitVec.ofNat 64 n) (fuel + 1) (BitVec.ofNat 32 n) fd buf = some buf := by
  rw [readFileLoop, signExtend_ofNat hn, if_neg (BitVec.lt_irrefl _)]

/-- Once `len` bytes are counted, the loop ends, and the last `len` bytes of the buffer stay as
    they are. -/
theorem readFileLoop_keeps (S : Schedule) {n : Nat} (hn : n < 2 ^ 31) (fuel : Nat) {len : Nat}
    {fd : ReadFd} (buf : Buf) (hfd : fd.rest.length = n - len) (hlen : len ≤ n)
    (hfuel : n - len < fuel) :
    ∃ buf', readFileLoop S (BitVec.ofNat 64 n) fuel (BitVec.ofNat 32 len) fd buf = some buf' ∧
      ∀ i, n - len ≤ i → buf' i = buf i := by
  induction fuel generalizing len fd buf with
  | zero => omega
  | succ fuel ih =>
    by_cases hlt : len < n
    · have hpos := S.pos fd.calls (n - len) (by omega)
      have hle := S.le fd.calls (n - len)
      have hread : (S.read (n - len) fd).1.length = S.ret fd.calls (n - len) := by
        rw [Schedule.read, List.length_take]
        omega
      have hrest : (S.read (n - len) fd).2.rest.length = n - (len + S.ret fd.calls (n - len)) := by
        change (fd.rest.drop _).length = _
        rw [List.length_drop]
        omega
      obtain ⟨buf', hloop, hkeep⟩ := ih (buf.store 0 (S.read (n - len) fd).1) hrest (by omega)
        (by omega)
      rw [readFileLoop_step S hn hlt, hread]
      refine ⟨buf', hloop, fun i hi => (hkeep i (by omega)).trans ?_⟩
      rw [Buf.store, if_pos (Nat.zero_le _), List.getElem?_eq_none (by omega)]
      rfl
    · have heq : len = n := by omega
      subst heq
      rw [readFileLoop_end S hn]
      exact ⟨buf, rfl, fun i _ => rfl⟩

/-- The first call of `read`. -/
theorem readFile_first (S : Schedule) (file : FileContent) (malloc : Buf) (fuel : Nat)
    (hne : 0 < file.bytes.length) :
    readFile S file malloc (fuel + 1) =
      readFileLoop S (BitVec.ofNat 64 file.bytes.length) fuel
        (BitVec.ofNat 32 (S.ret 0 file.bytes.length))
        ⟨1, file.bytes.drop (S.ret 0 file.bytes.length)⟩
        (malloc.store 0 (file.bytes.take (S.ret 0 file.bytes.length))) := by
  have hle := S.le 0 file.bytes.length
  have hstep := readFileLoop_step S file.length_lt hne fuel ⟨0, file.bytes⟩ malloc
  have hread : S.read (file.bytes.length - 0) ⟨0, file.bytes⟩ =
      (file.bytes.take (S.ret 0 file.bytes.length),
        ⟨1, file.bytes.drop (S.ret 0 file.bytes.length)⟩) := rfl
  rw [hread, List.length_take_of_le hle, Nat.zero_add] at hstep
  exact hstep

/-- If the first call reads all of the file, the buffer is the file. -/
theorem readFile_whole (S : Schedule) (file : FileContent) (malloc : Buf) (fuel : Nat)
    (hfuel : file.bytes.length < fuel)
    (h : file.bytes = [] ∨ S.ret 0 file.bytes.length = file.bytes.length) :
    ∃ buf, readFile S file malloc fuel = some buf ∧
      ∀ i < file.bytes.length, file.bytes[i]? = some (buf i) := by
  obtain ⟨fuel, rfl⟩ : ∃ k, fuel = k + 1 := ⟨fuel - 1, by omega⟩
  by_cases hne : 0 < file.bytes.length
  · have hret : S.ret 0 file.bytes.length = file.bytes.length := by
      rcases h with h | h
      · rw [h] at hne
        exact absurd hne (by simp)
      · exact h
    obtain ⟨fuel, rfl⟩ : ∃ k, fuel = k + 1 := ⟨fuel - 1, by omega⟩
    rw [readFile_first S file malloc _ hne, hret, readFileLoop_end S file.length_lt]
    refine ⟨_, rfl, fun i hi => ?_⟩
    rw [List.take_length, Buf.store, if_pos (Nat.zero_le _), Nat.sub_zero,
      List.getElem?_eq_getElem hi]
    rfl
  · have hzero : file.bytes.length = 0 := by omega
    refine ⟨malloc, ?_, fun i hi => absurd hi (by omega)⟩
    rw [readFile, hzero]
    exact readFileLoop_end S (by decide) fuel _ malloc

/-- If it does not, the last byte of the buffer is whatever it was before. -/
theorem readFile_short (S : Schedule) (file : FileContent) (malloc : Buf) (fuel : Nat)
    (hne : 0 < file.bytes.length) (hfuel : file.bytes.length < fuel)
    (h : S.ret 0 file.bytes.length ≠ file.bytes.length) :
    ∃ buf, readFile S file malloc fuel = some buf ∧
      buf (file.bytes.length - 1) = malloc (file.bytes.length - 1) := by
  obtain ⟨fuel, rfl⟩ : ∃ k, fuel = k + 1 := ⟨fuel - 1, by omega⟩
  have hle := S.le 0 file.bytes.length
  have hpos := S.pos 0 file.bytes.length hne
  have hlen := List.length_take_of_le hle
  have hrest : (ReadFd.mk 1 (file.bytes.drop (S.ret 0 file.bytes.length))).rest.length =
      file.bytes.length - S.ret 0 file.bytes.length := List.length_drop
  obtain ⟨buf, hloop, hkeep⟩ := readFileLoop_keeps S file.length_lt fuel
    (malloc.store 0 (file.bytes.take (S.ret 0 file.bytes.length))) hrest hle (by omega)
  refine ⟨buf, (readFile_first S file malloc fuel hne).trans hloop, ?_⟩
  rw [hkeep _ (by omega), Buf.store, if_pos (Nat.zero_le _), List.getElem?_eq_none (by omega)]
  rfl

/-- The functions transfer exactly what they are asked for, under any schedule of short
    transfers, except that `read_file` does so exactly if its first call reads all of the file. -/
theorem transfersExactly_iff (S : Schedule) (file : FileContent) :
    TransfersExactly S file ↔
      file.bytes = [] ∨ S.ret 0 file.bytes.length = file.bytes.length := by
  constructor
  · intro h
    by_contra hshort
    obtain ⟨hnil, hret⟩ := not_or.1 hshort
    have hne : 0 < file.bytes.length := List.length_pos_iff.2 hnil
    have hlast : file.bytes.length - 1 < file.bytes.length := by omega
    -- a block whose last byte is not that of the file
    obtain ⟨buf, hbuf, hbytes⟩ := h.readFile
      (fun _ => ~~~file.bytes[file.bytes.length - 1]) _ (Nat.lt_succ_self _)
    obtain ⟨buf', hbuf', hstale⟩ := readFile_short S file
      (fun _ => ~~~file.bytes[file.bytes.length - 1]) _ hne (Nat.lt_succ_self _) hret
    rw [hbuf, Option.some.injEq] at hbuf'
    subst hbuf'
    have hat := hbytes _ hlast
    rw [List.getElem?_eq_getElem hlast, Option.some.injEq, hstale] at hat
    have := congrArg (fun b => b.getLsbD 0) hat
    simp at this
  · intro h
    exact ⟨fun malloc fuel hfuel => readFile_whole S file malloc fuel hfuel h,
      fun buf count fuel hcount hfuel => readS_spec S file.bytes buf count fuel hcount hfuel,
      fun buf count fuel hfuel => writeS_spec S buf count fuel hfuel⟩

/-- One byte a call. -/
def oneByOne : Schedule where
  ret _ count := min count 1
  pos _ _ h := by omega
  le _ _ := by omega
  lt _ _ := by omega

/-- A file of two bytes, read one by one: the second is read over the first. -/
theorem not_transfersExactly_short : ¬TransfersExactly oneByOne ⟨[0x4e, 0x4d], by decide⟩ := by
  intro h
  obtain ⟨buf, hbuf, hbytes⟩ := h.readFile (fun _ => 0) 3 (by decide)
  have hrun : readFile oneByOne ⟨[0x4e, 0x4d], by decide⟩ (fun _ => 0) 3 =
      some (Buf.store (Buf.store (fun _ => 0) 0 [0x4e]) 0 [0x4d]) := rfl
  rw [hrun, Option.some.injEq] at hbuf
  subst hbuf
  exact absurd (hbytes 0 (by decide)) (by decide)

end FileIo

end NemuMips32
