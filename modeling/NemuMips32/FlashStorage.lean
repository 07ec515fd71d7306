/-
  What the command machine of the flash does to its storage and to the backing file.

  Whatever the guest sends, `cur_addr` stays inside the part and the `data` buffer is indexed
  in bounds (`Sound`). The storage itself is not guarded so well: `flash_write8` programs
  without looking at `write_enable`, and an erase takes any address, so that its last bytes may
  lie behind the part (`Permits` excludes both).

  Between two commands the file and the storage differ at most in the dirty page, as long as
  no write-back starts behind the end of the file, which would leave a gap of zeros where the
  storage has 0xFF (`Backed`).
-/
import NemuMips32.Flash
import NemuMips32.Lib.Words

namespace NemuMips32

/-! ## Runs -/

inductive FlashEvent where
  | transfer (tx : Word)
  | cs (select : Bool)

def FlashEvent.step (s : Flash) : FlashEvent → Flash
  | .transfer tx => (s.transfer8 tx).2
  | .cs select => s.cs select

namespace Flash

def run (s : Flash) (es : List FlashEvent) : Flash := es.foldl FlashEvent.step s

/-- Every step of the run meets the condition `ok`. -/
def Meets (ok : Flash → FlashEvent → Prop) : Flash → List FlashEvent → Prop
  | _, [] => True
  | s, e :: es => ok s e ∧ Meets ok (e.step s) es

theorem run_induct {ok : Flash → FlashEvent → Prop} (inv : Flash → Prop)
    (hstep : ∀ s e, inv s → ok s e → inv (e.step s)) {s : Flash} {es : List FlashEvent}
    (h : inv s) (hes : Meets ok s es) : inv (s.run es) := by
  induction es generalizing s with
  | nil => exact h
  | cons e es ih => exact ih (hstep s e h hes.1) hes.2

/-! ## The parts that flash_init selects -/

def parts : List FlashPartInfo :=
  [info 0x20bb23 0 (64 <<< 10) 8192 ER_4K, info 0x20bb24 0 (64 <<< 10) 16384 ER_4K,
    info 0x20bb25 0 (64 <<< 10) 32768 ER_4K]

theorem knownDevices_eq : knownDevices = parts ++ knownDevices.drop 3 := rfl

theorem size_le_of_mem : ∀ p ∈ knownDevices, p.size.toNat ≤ 2 ^ 31 := by decide

/-- The first three parts are the largest ones. -/
theorem mem_parts {file : Option HostFile} {p : FlashPartInfo} (h : selectPart file = some p) :
    p ∈ parts := by
  rw [selectPart, knownDevices_eq, List.find?_append] at h
  cases hp : parts.find? (fitsPart file) with
  | some q =>
    rw [hp] at h
    cases h
    exact List.mem_of_find?_eq_some hp
  | none =>
    rw [hp, Option.none_or] at h
    have hmem : p ∈ knownDevices := List.mem_of_mem_drop (List.mem_of_find?_eq_some h)
    have hfit := List.find?_some h
    have hno := List.find?_eq_none.1 hp (info 0x20bb25 0 (64 <<< 10) 32768 ER_4K) (by decide)
    cases file with
    | none => simp [fitsPart] at hno
    | some f =>
      have hle := size_le_of_mem p hmem
      have hsz : (info 0x20bb25 0 (64 <<< 10) 32768 ER_4K).size.toNat = 2 ^ 31 := by decide
      simp only [fitsPart, hsz, decide_eq_true_eq] at hno hfit
      omega

/-- What the three have in common. -/
theorem parts_spec : ∀ p ∈ parts, p.pageSize = 256 ∧ p.flags = ER_4K ∧ p.dieCnt = 0 ∧
    p.idLen = 3 ∧ p.sectorSize = 65536 ∧ p.man = .numonyx ∧ p.size.toNat % 65536 = 0 ∧
    2 ^ 29 ≤ p.size.toNat ∧ p.size.toNat ≤ 2 ^ 31 := by decide

/-! ## Indices -/

/-- What holds in every state, whatever was sent. -/
structure Sound (s : Flash) : Prop where
  part : s.pi ∈ parts
  size : s.size = s.pi.size
  addr : s.curAddr.toNat < s.size.toNat
  len : s.len ≤ 16
  fixed : s.state ≠ .collectingVarLenData
  dirty : ∀ d, s.dirtyPage = some d → d * 256 + 256 ≤ s.size.toNat
  data : ∀ f n, .data f n ∈ s.touched → f + n ≤ 16

section Sound

variable {s : Flash}

theorem Sound.man (h : s.Sound) : s.pi.man = .numonyx := (parts_spec _ h.part).2.2.2.2.2.1

theorem Sound.pageSize (h : s.Sound) : s.pi.pageSize = 256 := (parts_spec _ h.part).1

theorem Sound.size_spec (h : s.Sound) :
    s.size.toNat % 65536 = 0 ∧ 2 ^ 29 ≤ s.size.toNat ∧ s.size.toNat ≤ 2 ^ 31 := by
  rw [h.size]
  exact (parts_spec _ h.part).2.2.2.2.2.2

theorem Sound.masked (h : s.Sound) (a : Word) :
    (a &&& (s.size - 1)).toNat < s.size.toNat := by
  have hs := h.size_spec
  have hsub : (s.size - 1).toNat = s.size.toNat - 1 := by
    have := s.size.isLt
    rw [BitVec.toNat_sub_of_le]
    · rfl
    · show 1 ≤ s.size.toNat
      omega
  have hle : (a &&& (s.size - 1)).toNat ≤ s.size.toNat - 1 := by
    rw [BitVec.toNat_and, hsub]
    exact Nat.and_le_right
  omega

theorem Sound.setData (h : s.Sound) (i : Nat) (b : BitVec 8) : (s.setData i b).Sound :=
  ⟨h.part, h.size, h.addr, h.len, h.fixed, h.dirty, h.data⟩

theorem Sound.answer (h : s.Sound) {n : Nat} (hn : n ≤ 16) : (s.answer n).Sound :=
  ⟨h.part, h.size, h.addr, hn, by simp [Flash.answer], h.dirty, h.data⟩

theorem Sound.collect (h : s.Sound) (n : Nat) : (s.collect n).Sound :=
  ⟨h.part, h.size, h.addr, by simp [Flash.collect], by simp [Flash.collect], h.dirty, h.data⟩

/-- A touch of the storage is not an access to `data`. -/
theorem Sound.touchStorage (h : s.Sound) {t : Touch} (ht : ∀ f n, t ≠ .data f n) :
    (s.touch t).Sound := by
  refine ⟨h.part, h.size, h.addr, h.len, h.fixed, h.dirty, fun f n hm => ?_⟩
  obtain rfl | hm := List.mem_cons.1 hm
  · exact absurd rfl (ht f n)
  · exact h.data f n hm

theorem Sound.touchData (h : s.Sound) {i k : Nat} (hi : i + k ≤ 16) :
    (s.touch (.data i k)).Sound := by
  refine ⟨h.part, h.size, h.addr, h.len, h.fixed, h.dirty, fun f n hm => ?_⟩
  obtain he | hm := List.mem_cons.1 hm
  · cases he
    exact hi
  · exact h.data f n hm

end Sound

/-- The storage side is left alone, and only `data` was indexed. -/
structure Calm (s t : Flash) : Prop where
  storage : t.storage = s.storage
  size : t.size = s.size
  pi : t.pi = s.pi
  file : t.blkioFile = s.blkioFile
  dirty : t.dirtyPage = s.dirtyPage
  touched : ∃ l, t.touched = l ++ s.touched ∧ ∀ x ∈ l, ∃ f n, x = .data f n

theorem Calm.of_touched {s t : Flash} (h1 : t.storage = s.storage) (h2 : t.size = s.size)
    (h3 : t.pi = s.pi) (h4 : t.blkioFile = s.blkioFile) (h5 : t.dirtyPage = s.dirtyPage)
    (h6 : t.touched = s.touched) : Calm s t := ⟨h1, h2, h3, h4, h5, [], h6, by simp⟩

theorem Calm.of_data {s t : Flash} (h1 : t.storage = s.storage) (h2 : t.size = s.size)
    (h3 : t.pi = s.pi) (h4 : t.blkioFile = s.blkioFile) (h5 : t.dirtyPage = s.dirtyPage)
    {f n : Nat} (h6 : t.touched = .data f n :: s.touched) : Calm s t :=
  ⟨h1, h2, h3, h4, h5, [.data f n], h6, by simp⟩

theorem Calm.trans {s t u : Flash} (h : Calm s t) (h' : Calm t u) : Calm s u := by
  obtain ⟨l, hl, hd⟩ := h.touched
  obtain ⟨l', hl', hd'⟩ := h'.touched
  refine ⟨h'.storage.trans h.storage, h'.size.trans h.size, h'.pi.trans h.pi,
    h'.file.trans h.file, h'.dirty.trans h.dirty, l' ++ l, ?_, fun x hx => ?_⟩
  · rw [hl', hl, List.append_assoc]
  · obtain hx | hx := List.mem_append.1 hx
    · exact hd' x hx
    · exact hd x hx

/-! ## Commands -/

/-- Nothing that matters here has changed. -/
theorem Sound.latch {s t : Flash} (h : s.Sound) (h1 : t.storage = s.storage)
    (h2 : t.size = s.size) (h3 : t.pi = s.pi) (h4 : t.blkioFile = s.blkioFile)
    (h5 : t.dirtyPage = s.dirtyPage) (h6 : t.touched = s.touched) (h7 : t.curAddr = s.curAddr)
    (h8 : t.len = s.len) (h9 : t.state ≠ .collectingVarLenData) : t.Sound ∧ Calm s t := by
  refine ⟨?_, .of_touched h1 h2 h3 h4 h5 h6⟩
  exact ⟨by rw [h3]; exact h.part, by rw [h2, h3]; exact h.size, by rw [h2, h7]; exact h.addr,
    by rw [h8]; exact h.len, h9, by rw [h2, h5]; exact h.dirty, by rw [h6]; exact h.data⟩

theorem resetMemory_spec {s : Flash} (h : s.Sound) :
    s.resetMemory.Sound ∧ Calm s s.resetMemory := by
  have hsize := h.size_spec
  have hman := h.man
  simp only [resetMemory, hman, resetNumonyx]
  refine ⟨⟨h.part, h.size, ?_, Nat.zero_le _, by simp, h.dirty, h.data⟩,
    .of_touched rfl rfl rfl rfl rfl rfl⟩
  show (0 : Word).toNat < s.size.toNat
  have : (0 : Word).toNat = 0 := rfl
  omega

theorem decodeWrsr_spec {s : Flash} (h : s.Sound) : s.decodeWrsr.Sound ∧ Calm s s.decodeWrsr := by
  have hman := h.man
  simp only [decodeWrsr, hman]
  split
  · exact ⟨⟨h.part, h.size, h.addr, h.len, by simp, h.dirty, h.data⟩,
      .of_touched rfl rfl rfl rfl rfl rfl⟩
  · exact ⟨h, .of_touched rfl rfl rfl rfl rfl rfl⟩

theorem Sound.noted {s : Flash} (h : s.Sound) (cmd : FlashCMD) : (s.noted cmd).Sound :=
  ⟨h.part, h.size, h.addr, h.len, h.fixed, h.dirty, h.data⟩

/-- The chip erase commands. -/
def isBulk (c : FlashCMD) : Bool := c = .BULK_ERASE_60 || c = .BULK_ERASE

/-- No command but a chip erase touches anything but `data`. -/
theorem decodeCmd_spec {s : Flash} (h : s.Sound) (cmd : FlashCMD)
    (hb : (isBulk cmd && s.writeEnable) = false) :
    (s.decodeCmd cmd).Sound ∧ Calm s (s.decodeCmd cmd) := by
  have hid : s.pi.idLen ≤ 16 := by
    rw [(parts_spec _ h.part).2.2.2.1]
    decide
  have same : s.Sound ∧ Calm s s := ⟨h, .of_touched rfl rfl rfl rfl rfl rfl⟩
  have coll (n : Nat) : (s.collect n).Sound ∧ Calm s (s.collect n) :=
    ⟨h.collect n, .of_touched rfl rfl rfl rfl rfl rfl⟩
  have answ (b : BitVec 8) : ((s.setData 0 b).answer 1).Sound ∧ Calm s ((s.setData 0 b).answer 1) :=
    ⟨(h.setData 0 b).answer (by decide), .of_touched rfl rfl rfl rfl rfl rfl⟩
  cases cmd
  case NOP | unknown => exact same
  case WRSR => exact decodeWrsr_spec h
  case WRDI | WREN | EN_4BYTE_ADDR | EX_4BYTE_ADDR | RESET_ENABLE | RSTQIO_CMD =>
    exact h.latch rfl rfl rfl rfl rfl rfl rfl rfl h.fixed
  case FAST_READ | FAST_READ4 | DOR | DOR4 | QOR | QOR4 | DIOR | DIOR4 | QIOR | QIOR4 =>
    exact coll _
  case BRRD | EXTEND_ADDR_READ | RDCR | RVCR | REVCR => exact answ _
  case RDSR | READ_FSR =>
    exact ⟨⟨h.part, h.size, h.addr, by simp [decodeCmd, answer], by simp [decodeCmd, answer],
      h.dirty, h.data⟩, .of_touched rfl rfl rfl rfl rfl rfl⟩
  case RNVCR =>
    exact ⟨((h.setData 0 _).setData 1 _).answer (by decide), .of_touched rfl rfl rfl rfl rfl rfl⟩
  case JEDEC_READ =>
    refine ⟨Sound.answer (Sound.touchData ?_ ?_) hid, .of_data rfl rfl rfl rfl rfl rfl⟩
    · exact ⟨h.part, h.size, h.addr, h.len, h.fixed, h.dirty, h.data⟩
    · rw [Nat.zero_add]
      exact hid
  case BULK_ERASE_60 | BULK_ERASE =>
    have hw : s.writeEnable = false := hb
    simp only [decodeCmd, hw]
    exact same
  case BRWR | EXTEND_ADDR_WRITE | WVCR | WEVCR | WNVCR =>
    simp only [decodeCmd]
    split
    · exact coll _
    · exact same
  case RESET_MEMORY =>
    simp only [decodeCmd]
    split
    · exact resetMemory_spec h
    · exact same
  case RDCR_EQIO_CMD =>
    simp only [decodeCmd, h.man]
    exact same
  all_goals exact coll _

/-! ## Collected commands -/

/-- The command that `complete_collecting_data` hands to `flash_erase`. -/
def eraseCmd : FlashCMD → Option EraseCmd
  | .ERASE_4K => some .ERASE_4K
  | .ERASE4_4K => some .ERASE4_4K
  | .ERASE_32K => some .ERASE_32K
  | .ERASE4_32K => some .ERASE4_32K
  | .ERASE_SECTOR => some .ERASE_SECTOR
  | .ERASE4_SECTOR => some .ERASE4_SECTOR
  | .DIE_ERASE => some .DIE_ERASE
  | _ => none

theorem addrLength_le (s : Flash) : s.addrLength ≤ 4 := by
  unfold addrLength
  split
  · decide
  · split <;> first | decide | (split <;> decide)

theorem Sound.addressed {s : Flash} (h : s.Sound) : s.addressed.Sound := by
  have hle := addrLength_le s
  refine Sound.touchData ?_ (by omega)
  exact ⟨h.part, h.size, h.masked _, h.len, by simp, h.dirty, h.data⟩

theorem completeCmd_erase (s : Flash) {cmd : FlashCMD} {c : EraseCmd}
    (hc : eraseCmd cmd = some c) : s.completeCmd cmd = s.erase s.curAddr c := by
  cases cmd <;> cases hc <;> rfl

theorem completeCmd_calm {s : Flash} (h : s.Sound) {cmd : FlashCMD} (hc : eraseCmd cmd = none) :
    (s.completeCmd cmd).Sound ∧ Calm s (s.completeCmd cmd) := by
  have same : s.Sound ∧ Calm s s := ⟨h, .of_touched rfl rfl rfl rfl rfl rfl⟩
  cases cmd
  case DPP | QPP | QPP_4 | PP | PP4 | PP4_4 | READ | READ4 | FAST_READ | FAST_READ4 | DOR | DOR4
      | QOR | QOR4 | DIOR | DIOR4 | QIOR | QIOR4 =>
    exact h.latch rfl rfl rfl rfl rfl rfl rfl rfl (by simp [completeCmd])
  case BRWR | EXTEND_ADDR_WRITE | WNVCR | WVCR | WEVCR =>
    exact h.latch rfl rfl rfl rfl rfl rfl rfl rfl h.fixed
  case WRSR =>
    simp only [completeCmd, completeWrsr, h.man]
    exact h.latch rfl rfl rfl rfl rfl rfl rfl rfl h.fixed
  case RDID_90 | RDID_AB =>
    simp only [completeCmd, completeRdid, h.man]
    exact same
  case ERASE_4K | ERASE4_4K | ERASE_32K | ERASE4_32K | ERASE_SECTOR | ERASE4_SECTOR | DIE_ERASE =>
    cases hc
  all_goals exact same

/-! ## Steps -/

/-- What a byte erases, if anything. -/
def erasing (s : Flash) (tx : Word) : Option (Word × Word) :=
  match s.state with
  | .collectingData =>
    if s.writeEnable && s.len < 16 && s.len + 1 = s.neededBytes then
      (eraseCmd s.cmdInProgress).bind
        (s.eraseArea (s.setData s.len (tx.setWidth 8)).collectedAddr)
    else none
  | .idle =>
    if isBulk (.ofByte (tx.setWidth 8)) && s.writeEnable then s.eraseArea 0 .BULK_ERASE else none
  | _ => none

/-- `flash_erase`, its area known. -/
def eraseAt (s : Flash) (off len : Word) : Flash :=
  (s.fill off.toNat len.toNat).syncArea off.toNat len.toNat

theorem erase_eq (s : Flash) (offset : Word) (c : EraseCmd) :
    s.erase offset c =
      match if s.writeEnable then s.eraseArea offset c else none with
      | none => s
      | some (off, len) => s.eraseAt off len := by
  unfold erase
  cases s.writeEnable <;> cases s.eraseArea offset c <;> rfl

/-- The storage side of a step. -/
inductive Effect (s : Flash) : FlashEvent → Flash → Prop
  | calm {e t} (ht : t.Sound) (hc : Calm s t) (hn : ∀ tx, e = .transfer tx → s.erasing tx = none)
      (hp : s.state ≠ .pageProgram ∨ ∃ b, e = .cs b) : Effect s e t
  | program {tx} (hs : s.state = .pageProgram) :
      Effect s (.transfer tx)
        { s.write8 s.curAddr (tx.setWidth 8) with curAddr := s.nextAddr }
  | read {tx} (hs : s.state = .read) :
      Effect s (.transfer tx) { s.touch (.readStorage s.curAddr.toNat 1) with curAddr := s.nextAddr }
  | erase {tx u off len} (hu : u.Sound) (hc : Calm s u) (hw : u.writeEnable = true)
      (he : s.erasing tx = some (off, len)) : Effect s (.transfer tx) (u.eraseAt off len)
  | deselect : Effect s (.cs true)
      { s.toIdle.syncDirty none with dataReadLoop := false }

theorem effect_cs {s : Flash} (h : s.Sound) (select : Bool) :
    Effect s (.cs select) (s.cs select) := by
  cases select with
  | false => exact .calm h (.of_touched rfl rfl rfl rfl rfl rfl) (fun _ h => by cases h) (.inr ⟨_, rfl⟩)
  | true =>
    have : s.cs true = { s.toIdle.syncDirty none with dataReadLoop := false } := by
      simp only [cs, h.fixed, if_true, if_false]
    rw [this]
    exact .deselect

theorem Sound.toIdle {s : Flash} (h : s.Sound) : s.toIdle.Sound :=
  ⟨h.part, h.size, h.addr, Nat.zero_le _, by simp [Flash.toIdle], h.dirty, h.data⟩

theorem answerByte_spec {s : Flash} (h : s.Sound) : s.answerByte.2.Sound ∧ Calm s s.answerByte.2 := by
  unfold answerByte
  split
  · exact ⟨h.toIdle, .of_touched rfl rfl rfl rfl rfl rfl⟩
  · rename_i hpos
    have ht := h.touchData (i := s.pos) (k := 1) (by omega)
    have hfixed : (if s.dataReadLoop = true then s.state else .idle) ≠ .collectingVarLenData := by
      split
      · exact h.fixed
      · decide
    dsimp only
    split
    · exact ⟨⟨h.part, h.size, h.addr, h.len, hfixed, h.dirty, ht.data⟩,
        .of_data rfl rfl rfl rfl rfl rfl⟩
    · exact ⟨⟨h.part, h.size, h.addr, h.len, h.fixed, h.dirty, ht.data⟩,
        .of_data rfl rfl rfl rfl rfl rfl⟩

/-- The chip with one more collected byte. -/
def gathered (s : Flash) (b : BitVec 8) : Flash :=
  { (s.setData s.len b).touch (.data s.len 1) with len := s.len + 1 }

theorem gathered_spec {s : Flash} (h : s.Sound) (hl : s.len < 16) (b : BitVec 8) :
    (s.gathered b).Sound ∧ Calm s (s.gathered b) := by
  have ht := h.touchData (i := s.len) (k := 1) (by omega)
  exact ⟨⟨h.part, h.size, h.addr, hl, h.fixed, h.dirty, ht.data⟩, .of_data rfl rfl rfl rfl rfl rfl⟩

theorem effect_collect {s : Flash} (h : s.Sound) (hs : s.state = .collectingData) (tx : Word) :
    Effect s (.transfer tx) (s.collectByte (tx.setWidth 8)) := by
  have hp : s.state ≠ .pageProgram ∨ ∃ b, FlashEvent.transfer tx = .cs b := .inl (by rw [hs]; decide)
  by_cases hl : s.len ≥ 16
  · rw [collectByte, if_pos hl]
    refine .calm h.toIdle (.of_touched rfl rfl rfl rfl rfl rfl) (fun tx' _ => ?_) hp
    simp [erasing, hs, show ¬s.len < 16 by omega]
  obtain ⟨hg, hc⟩ := gathered_spec h (Nat.lt_of_not_le hl) (tx.setWidth 8)
  by_cases hn : s.len + 1 = s.neededBytes
  · have heq : s.collectByte (tx.setWidth 8) =
        (s.gathered (tx.setWidth 8)).addressed.completeCmd s.cmdInProgress := by
      rw [collectByte, if_neg hl]
      exact if_pos hn
    have ha := hg.addressed
    have hca : Calm s (s.gathered (tx.setWidth 8)).addressed :=
      hc.trans (.of_data rfl rfl rfl rfl rfl rfl)
    have hw : (s.gathered (tx.setWidth 8)).addressed.writeEnable = s.writeEnable := rfl
    rw [heq]
    cases hcmd : eraseCmd s.cmdInProgress with
    | none =>
      obtain ⟨hs', hc'⟩ := completeCmd_calm ha hcmd
      refine .calm hs' (hca.trans hc') (fun tx' _ => ?_) hp
      simp [erasing, hs, hcmd]
    | some c =>
      rw [completeCmd_erase _ hcmd, erase_eq, hw]
      have hera : s.erasing tx = if s.writeEnable then
          s.eraseArea (s.setData s.len (tx.setWidth 8)).collectedAddr c else none := by
        simp [erasing, hs, hcmd, hn, show s.len < 16 by omega]
      have harea : (s.gathered (tx.setWidth 8)).addressed.eraseArea
            (s.gathered (tx.setWidth 8)).addressed.curAddr c =
          s.eraseArea (s.setData s.len (tx.setWidth 8)).collectedAddr c := by
        cases c <;> rfl
      rw [harea, ← hera]
      cases he : s.erasing tx with
      | none =>
        exact .calm ha hca (fun tx' ht => by cases ht; exact he) hp
      | some a =>
        obtain ⟨off, len⟩ := a
        refine .erase ha hca ?_ he
        rw [hw]
        cases hwe : s.writeEnable with
        | false => simp [hera, hwe] at he
        | true => rfl
  · have heq : s.collectByte (tx.setWidth 8) = s.gathered (tx.setWidth 8) := by
      rw [collectByte, if_neg hl]
      exact if_neg hn
    rw [heq]
    refine .calm hg hc (fun tx' _ => ?_) hp
    simp [erasing, hs, hn]

theorem effect_idle {s : Flash} (h : s.Sound) (hs : s.state = .idle) (tx : Word) :
    Effect s (.transfer tx) (s.decodeNewCmd (tx.setWidth 8)) := by
  have hp : s.state ≠ .pageProgram ∨ ∃ b, FlashEvent.transfer tx = .cs b := .inl (by rw [hs]; decide)
  have hn := h.noted (.ofByte (tx.setWidth 8))
  have hcn : Calm s (s.noted (.ofByte (tx.setWidth 8))) := .of_touched rfl rfl rfl rfl rfl rfl
  cases hb : isBulk (.ofByte (tx.setWidth 8)) && s.writeEnable with
  | false =>
    obtain ⟨hd, hc⟩ := decodeCmd_spec hn (.ofByte (tx.setWidth 8)) hb
    refine .calm hd (hcn.trans hc) (fun tx' ht => ?_) hp
    cases ht
    simp [erasing, hs, hb]
  | true =>
    obtain ⟨hbulk, hw⟩ := Bool.and_eq_true_iff.1 hb
    have heq : s.decodeNewCmd (tx.setWidth 8) =
        (s.noted (.ofByte (tx.setWidth 8))).eraseAt 0 s.size := by
      rw [decodeNewCmd]
      have hw' : (s.noted (.ofByte (tx.setWidth 8))).writeEnable = true := hw
      obtain hc | hc : FlashCMD.ofByte (tx.setWidth 8) = .BULK_ERASE_60 ∨
          FlashCMD.ofByte (tx.setWidth 8) = .BULK_ERASE := by
        simpa [isBulk] using hbulk
      all_goals
        rw [hc] at hw' ⊢
        simp only [decodeCmd, hw', if_true, erase_eq, eraseArea]
        rfl
    rw [heq]
    exact .erase hn hcn hw (by simp [erasing, hs, hb, eraseArea])

/-- What a step does to the storage side. -/
theorem effect_step {s : Flash} (h : s.Sound) (e : FlashEvent) : Effect s e (e.step s) := by
  cases e with
  | cs select => exact effect_cs h select
  | transfer tx =>
    show Effect s (.transfer tx) (s.transfer8 tx).2
    cases hs : s.state with
    | pageProgram => simp only [transfer8, hs]; exact .program hs
    | read => simp only [transfer8, hs]; exact .read hs
    | collectingData => simp only [transfer8, hs]; exact effect_collect h hs tx
    | collectingVarLenData => exact absurd hs h.fixed
    | readingData =>
      obtain ⟨ha, hc⟩ := answerByte_spec h
      simp only [transfer8, hs]
      exact .calm ha hc (fun tx' _ => by simp [erasing, hs]) (.inl (by rw [hs]; decide))
    | idle => simp only [transfer8, hs]; exact effect_idle h hs tx

/-! ## The invariant of the indices -/

section Keep

variable {s : Flash}

theorem Sound.syncArea (h : s.Sound) (off len : Nat) : (s.syncArea off len).Sound := by
  unfold Flash.syncArea
  split
  · exact h
  · refine Sound.touchStorage ?_ (by simp)
    exact ⟨h.part, h.size, h.addr, h.len, h.fixed, h.dirty, h.data⟩

theorem Sound.fill (h : s.Sound) (off len : Nat) : (s.fill off len).Sound := by
  refine Sound.touchStorage ?_ (by simp)
  exact ⟨h.part, h.size, h.addr, h.len, h.fixed, h.dirty, h.data⟩

theorem size_syncArea (s : Flash) (off len : Nat) : (s.syncArea off len).size = s.size := by
  unfold Flash.syncArea
  split <;> rfl

theorem Sound.syncDirty (h : s.Sound) (np : Option Nat)
    (hnp : ∀ d, np = some d → d * 256 + 256 ≤ s.size.toNat) : (s.syncDirty np).Sound := by
  unfold Flash.syncDirty
  split
  · exact h
  · split
    · exact h
    · rename_i d _ _
      have hs : (s.syncPage d).Sound := h.syncArea _ _
      refine ⟨hs.part, hs.size, hs.addr, hs.len, hs.fixed, ?_, hs.data⟩
      rw [syncPage, size_syncArea]
      exact hnp

theorem Sound.program (h : s.Sound) (b : BitVec 8) : (s.program b).Sound := by
  have ht := h.touchStorage (t := .readStorage s.curAddr.toNat 1) (by simp)
  refine Sound.touchStorage ?_ (by simp)
  exact ⟨ht.part, ht.size, ht.addr, ht.len, ht.fixed, ht.dirty, ht.data⟩

/-- The page of `cur_addr`. -/
def page (s : Flash) : Nat := s.curAddr.toNat / 256

theorem page_eq (h : s.Sound) : (s.curAddr / s.pi.pageSize).toNat = s.page := by
  rw [h.pageSize, BitVec.toNat_udiv]
  rfl

theorem page_le (h : s.Sound) : s.page * 256 + 256 ≤ s.size.toNat := by
  have ha := h.addr
  obtain ⟨hm, -, -⟩ := h.size_spec
  unfold page
  omega

/-- The part of `flash_write8` that writes back and moves the dirty page. -/
theorem write8_eq (h : s.Sound) (b : BitVec 8) :
    s.write8 s.curAddr b =
      { (s.program b).syncDirty (some s.page) with dirtyPage := some s.page } := by
  simp only [write8, page_eq h]

theorem size_syncDirty (s : Flash) (np : Option Nat) : (s.syncDirty np).size = s.size := by
  unfold Flash.syncDirty
  split
  · rfl
  · split
    · rfl
    · exact size_syncArea ..

theorem Sound.write8 (h : s.Sound) (b : BitVec 8) :
    ({ s.write8 s.curAddr b with curAddr := s.nextAddr } : Flash).Sound := by
  have hd : ∀ d, some s.page = some d → d * 256 + 256 ≤ s.size.toNat := by
    intro d he
    cases he
    exact page_le h
  have hp := (h.program b).syncDirty _ hd
  have hsz : ((s.program b).syncDirty (some s.page)).size = s.size := size_syncDirty ..
  rw [write8_eq h]
  refine ⟨hp.part, hp.size, ?_, hp.len, hp.fixed, ?_, hp.data⟩
  · show s.nextAddr.toNat < ((s.program b).syncDirty (some s.page)).size.toNat
    rw [hsz]
    exact h.masked _
  · show ∀ d, some s.page = some d →
      d * 256 + 256 ≤ ((s.program b).syncDirty (some s.page)).size.toNat
    rw [hsz]
    exact hd

theorem sound_step (h : s.Sound) (e : FlashEvent) : (e.step s).Sound := by
  generalize ht : e.step s = t
  have he : Effect s e t := ht ▸ effect_step h e
  cases he with
  | calm hs _ _ _ => exact hs
  | program _ => exact h.write8 _
  | read _ =>
    have hr := h.touchStorage (t := .readStorage s.curAddr.toNat 1) (by simp)
    exact ⟨hr.part, hr.size, h.masked _, hr.len, hr.fixed, hr.dirty, hr.data⟩
  | erase hu _ _ _ => exact (hu.fill _ _).syncArea _ _
  | deselect =>
    have hd := h.toIdle.syncDirty none (by simp)
    exact ⟨hd.part, hd.size, hd.addr, hd.len, hd.fixed, hd.dirty, hd.data⟩

theorem sound_run (h : s.Sound) (es : List FlashEvent) : (s.run es).Sound := by
  induction es generalizing s with
  | nil => exact h
  | cons e es ih => exact ih (sound_step h e)

end Keep

theorem sound_init {mem : Nat → BitVec 8} {file : Option HostFile} {s : Flash}
    (h : flashInit mem file = some s) : s.Sound := by
  obtain ⟨p, hp, rfl⟩ := Option.map_eq_some_iff.1 h
  have hm := mem_parts hp
  obtain ⟨-, -, -, -, -, -, -, hlo, -⟩ := parts_spec p hm
  refine ⟨hm, rfl, ?_, Nat.zero_le _, by simp, by simp, by simp⟩
  show (0 : Word).toNat < p.size.toNat
  have : (0 : Word).toNat = 0 := rfl
  omega

/-! ## Guarded storage -/

end Flash

/-- An access is in bounds, and a write happens while writing is enabled. -/
def Touch.Good (size : Nat) : Touch → Prop
  | .readStorage f n => f + n ≤ size
  | .writeStorage f n enabled => enabled = true ∧ f + n ≤ size
  | .data f n => f + n ≤ 16

namespace Flash

def Guarded (s : Flash) : Prop := ∀ t ∈ s.touched, t.Good s.size.toNat

/-- A byte is programmed only while writing is enabled, and an erase stays inside the part. -/
def Permits (s : Flash) : FlashEvent → Prop
  | .transfer tx => (s.state = .pageProgram → s.writeEnable = true) ∧
      ∀ a ∈ s.erasing tx, a.1.toNat + a.2.toNat ≤ s.size.toNat
  | .cs _ => True

instance (s : Flash) : (e : FlashEvent) → Decidable (s.Permits e)
  | .transfer tx => @instDecidableAnd _ _ _ (Option.decidableForallMem (s.erasing tx))
  | .cs _ => inferInstanceAs (Decidable True)

section Guarded

variable {s : Flash}

theorem guarded_touch {t : Touch} :
    (s.touch t).Guarded ↔ t.Good s.size.toNat ∧ s.Guarded := by
  simp [Guarded, touch]

theorem guarded_of_touched {t : Flash} (h1 : t.touched = s.touched) (h2 : t.size = s.size) :
    t.Guarded ↔ s.Guarded := by
  rw [Guarded, Guarded, h1, h2]

theorem guarded_calm {t : Flash} (ht : t.Sound) (hc : Calm s t) : t.Guarded ↔ s.Guarded := by
  obtain ⟨l, hl, hd⟩ := hc.touched
  have hl' : ∀ x ∈ l, x.Good s.size.toNat := by
    intro x hx
    obtain ⟨f, n, rfl⟩ := hd x hx
    exact ht.data f n (by rw [hl]; exact List.mem_append_left _ hx)
  rw [Guarded, Guarded, hl, hc.size]
  constructor
  · intro h x hx
    exact h x (List.mem_append_right _ hx)
  · intro h x hx
    obtain hx | hx := List.mem_append.1 hx
    · exact hl' x hx
    · exact h x hx

theorem guarded_syncArea {off len : Nat} (hin : off + len ≤ s.size.toNat) :
    (s.syncArea off len).Guarded ↔ s.Guarded := by
  unfold syncArea
  split
  · rfl
  · rw [guarded_touch]
    exact ⟨fun h => h.2, fun h => ⟨hin, h⟩⟩

/-- A bad access stays on record. -/
theorem guarded_of_syncArea {off len : Nat} (h : (s.syncArea off len).Guarded) : s.Guarded := by
  unfold syncArea at h
  split at h
  · exact h
  · exact (guarded_touch.1 h).2

theorem guarded_syncDirty (h : s.Sound) (np : Option Nat) :
    (s.syncDirty np).Guarded ↔ s.Guarded := by
  unfold syncDirty
  split
  · rfl
  · rename_i d hd
    split
    · rfl
    · have hp : s.pi.pageSize.toNat = 256 := by
        rw [h.pageSize]
        rfl
      refine (guarded_of_touched (s := s.syncPage d) rfl rfl).trans ?_
      rw [syncPage, hp]
      exact guarded_syncArea (h.dirty d hd)

theorem guarded_program (h : s.Sound) (b : BitVec 8) :
    (s.program b).Guarded ↔ s.writeEnable = true ∧ s.Guarded := by
  have ha := h.addr
  have hr : (s.touch (.readStorage s.curAddr.toNat 1)).Guarded ↔ s.Guarded := by
    rw [guarded_touch]
    exact ⟨fun h => h.2, fun h => ⟨ha, h⟩⟩
  refine guarded_touch.trans ?_
  constructor
  · intro hg
    exact ⟨hg.1.1, hr.1 hg.2⟩
  · intro hg
    exact ⟨⟨hg.1, ha⟩, hr.2 hg.2⟩

theorem guarded_eraseAt (hw : s.writeEnable = true) (off len : Word) :
    (s.eraseAt off len).Guarded ↔ off.toNat + len.toNat ≤ s.size.toNat ∧ s.Guarded := by
  have hf : (s.fill off.toNat len.toNat).Guarded ↔
      off.toNat + len.toNat ≤ s.size.toNat ∧ s.Guarded := by
    rw [fill, guarded_touch]
    exact ⟨fun hg => ⟨hg.1.2, hg.2⟩, fun hg => ⟨⟨hw, hg.1⟩, hg.2⟩⟩
  constructor
  · intro hg
    exact hf.1 (guarded_of_syncArea hg)
  · intro hg
    exact (guarded_syncArea (s := s.fill off.toNat len.toNat) hg.1).2 (hf.2 hg)

/-- A step goes wrong exactly if it is not permitted. -/
theorem guarded_step (h : s.Sound) (e : FlashEvent) :
    (e.step s).Guarded ↔ s.Permits e ∧ s.Guarded := by
  generalize ht : e.step s = t
  have he : Effect s e t := ht ▸ effect_step h e
  cases he with
  | calm hs hc hn hp =>
    rw [guarded_calm hs hc]
    refine ⟨fun hg => ⟨?_, hg⟩, fun hg => hg.2⟩
    cases e with
    | cs select => trivial
    | transfer tx =>
      obtain hp | ⟨b, hb⟩ := hp
      · exact ⟨fun h0 => absurd h0 hp, fun a h0 => by rw [hn tx rfl] at h0; cases h0⟩
      · cases hb
  | @program tx hs =>
    rw [write8_eq h]
    refine (guarded_of_touched (s := (s.program (tx.setWidth 8)).syncDirty (some s.page))
      rfl rfl).trans ?_
    rw [guarded_syncDirty (h.program _), guarded_program h]
    have hn : s.erasing tx = none := by simp [erasing, hs]
    simp [Permits, hs, hn]
  | @read tx hs =>
    refine (guarded_of_touched (s := s.touch (.readStorage s.curAddr.toNat 1)) rfl rfl).trans ?_
    rw [guarded_touch]
    have hn : s.erasing tx = none := by simp [erasing, hs]
    have ha : Touch.Good s.size.toNat (.readStorage s.curAddr.toNat 1) := h.addr
    simp [Permits, hs, hn, ha]
  | @erase tx u off len hu hc hw he =>
    rw [guarded_eraseAt hw, hc.size, guarded_calm hu hc]
    have hs : s.state ≠ .pageProgram := by
      intro h0
      simp [erasing, h0] at he
    simp [Permits, hs, he]
  | deselect =>
    refine (guarded_of_touched (s := s.toIdle.syncDirty none) rfl rfl).trans ?_
    rw [guarded_syncDirty h.toIdle]
    exact ⟨fun hg => ⟨trivial, hg⟩, fun hg => hg.2⟩

theorem guarded_run (h : s.Sound) (es : List FlashEvent) :
    (s.run es).Guarded ↔ Meets Permits s es ∧ s.Guarded := by
  induction es generalizing s with
  | nil => simp [run, Meets]
  | cons e es ih =>
    have := ih (sound_step h e)
    rw [guarded_step h e] at this
    simp only [run, List.foldl_cons, Meets] at this ⊢
    rw [this]
    exact ⟨fun hg => ⟨⟨hg.2.1, hg.1⟩, hg.2.2⟩, fun hg => ⟨hg.1.2, hg.1.1, hg.2⟩⟩

end Guarded

end Flash

/-- The indices are always in bounds; the storage is only ever changed inside the part and
    while writing is enabled, exactly if every step is permitted. -/
theorem flash_storage_guarded {mem : Nat → BitVec 8} {file : Option HostFile} {s₀ : Flash}
    (h₀ : flashInit mem file = some s₀) (es : List FlashEvent) :
    ((s₀.run es).curAddr.toNat < (s₀.run es).size.toNat ∧ (s₀.run es).len ≤ 16 ∧
      ∀ f n, .data f n ∈ (s₀.run es).touched → f + n ≤ 16) ∧
    ((∀ t ∈ (s₀.run es).touched, t.Good (s₀.run es).size.toNat) ↔
      Flash.Meets Flash.Permits s₀ es) := by
  have hs := Flash.sound_run (Flash.sound_init h₀) es
  refine ⟨⟨hs.addr, hs.len, hs.data⟩, ?_⟩
  have h0 : s₀.Guarded := by
    obtain ⟨p, -, rfl⟩ := Option.map_eq_some_iff.1 h₀
    intro t ht
    cases ht
  exact (Flash.guarded_run (Flash.sound_init h₀) es).trans (and_iff_left h0)

/-- A page program of one byte. -/
def programByte : List FlashEvent := [0x02, 0, 0, 0, 0x55].map .transfer

/-- The same, behind a write enable. -/
theorem flash_storage_guarded_enabled :
    ∃ s₀, flashInit (fun _ => 0) none = some s₀ ∧
      ∀ t ∈ (s₀.run (.transfer 0x06 :: programByte)).touched,
        t.Good (s₀.run (.transfer 0x06 :: programByte)).size.toNat :=
  ⟨_, rfl, (flash_storage_guarded (show flashInit (fun _ => 0) none = some _ from rfl) _).2.2
    ⟨by decide, by decide, by decide, by decide, by decide, by decide, trivial⟩⟩

theorem flash_storage_unguarded :
    ¬ ∀ (mem : Nat → BitVec 8) (file : Option HostFile) (s₀ : Flash) (es : List FlashEvent),
      flashInit mem file = some s₀ →
        ∀ t ∈ (s₀.run es).touched, t.Good (s₀.run es).size.toNat := by
  intro h
  have := h (fun _ => 0) none _ programByte rfl (.writeStorage 0 1 false) (by decide)
  cases this.1

/-! ## The backing file -/

/-- What `flash_init` reads at index `i` of a part that is larger than the file. -/
def HostFile.image (f : HostFile) (i : Nat) : BitVec 8 := if i < f.size then f.byte i else 0xff

/-- A write that starts at or before the end of the file leaves no gap. -/
theorem image_pwrite {f : HostFile} {off len : Nat} (hoff : off ≤ f.size) (hlen : 0 < len)
    (buf : Nat → BitVec 8) (i : Nat) :
    (f.pwrite off len buf).image i = if off ≤ i ∧ i < off + len then buf i else f.image i := by
  have hne : len ≠ 0 := by omega
  simp only [HostFile.image, HostFile.pwrite, hne, if_false]
  by_cases hin : off ≤ i ∧ i < off + len
  · rw [if_pos hin, if_pos hin, if_pos (by omega)]
  · rw [if_neg hin, if_neg hin]
    by_cases hi : i < f.size
    · rw [if_pos hi, if_pos (by omega), if_pos hi]
    · rw [if_neg hi, if_neg (by omega), if_neg hi]

theorem size_pwrite {f : HostFile} {off len : Nat} (hlen : 0 < len) (buf : Nat → BitVec 8) :
    (f.pwrite off len buf).size = max f.size (off + len) := by
  simp [HostFile.pwrite, show len ≠ 0 by omega]

/-- A file that has grown inside its part selects that part again. -/
theorem selectPart_grow {f f' : HostFile} {p : FlashPartInfo} (h : selectPart (some f) = some p)
    (hle : f.size ≤ f'.size) (hp : f'.size ≤ p.size.toNat) : selectPart (some f') = some p := by
  obtain ⟨-, as, bs, heq, hno⟩ := List.find?_eq_some_iff_append.1 h
  refine List.find?_eq_some_iff_append.2 ⟨decide_eq_true hp, as, bs, heq, fun q hq => ?_⟩
  have hq' : ¬f.size ≤ q.size.toNat := by simpa [fitsPart] using hno q hq
  have : ¬f'.size ≤ q.size.toNat := by omega
  simpa [fitsPart] using this

theorem selectPart_le {f : HostFile} {p : FlashPartInfo} (h : selectPart (some f) = some p) :
    f.size ≤ p.size.toNat := by
  simpa [fitsPart] using List.find?_some h

/-- The storage of a fresh device, for a file whose size fits an `int`. -/
theorem initStorage_eq (mem : Nat → BitVec 8) {size : Word} {f : HostFile} (hlt : f.size < 2 ^ 31)
    (hle : f.size ≤ size.toNat) {i : Nat} (hi : i < size.toNat) :
    initStorage mem size (some f) i = f.image i := by
  have hn : (BitVec.ofNat 32 f.size).toNat = f.size := by
    rw [BitVec.toNat_ofNat]
    omega
  have hgt : ¬BitVec.ofNat 32 f.size > size := by
    intro h
    have : size.toNat < (BitVec.ofNat 32 f.size).toNat := h
    omega
  have hmsb : (BitVec.ofNat 32 f.size).msb = false := by
    rw [BitVec.msb_eq_false_iff_two_mul_lt, hn]
    omega
  have hc : ((BitVec.ofNat 32 f.size).signExtend 64).toNat = f.size := by
    rw [BitVec.signExtend_eq_setWidth_of_msb_false hmsb, BitVec.toNat_setWidth_of_le (by decide), hn]
  simp only [initStorage, hgt, if_false, readS, hc, HostFile.image]
  rw [if_neg (by omega), if_pos hi]

namespace Flash

/-- The area of the file that a step writes, if any. -/
def backs (s : Flash) : FlashEvent → Option (Nat × Nat)
  | .transfer tx =>
    if s.state = .pageProgram then
      s.dirtyPage.bind fun d => if d = s.page then none else some (d * 256, 256)
    else (s.erasing tx).map fun a => (a.1.toNat, a.2.toNat)
  | .cs true => s.dirtyPage.map fun d => (d * 256, 256)
  | .cs false => none

/-- A write-back leaves no gap, stays inside the part, and keeps the file below 2 GiB. -/
def Extends (s : Flash) (e : FlashEvent) : Prop :=
  ∀ a ∈ s.backs e, ∀ f ∈ s.blkioFile,
    a.1 ≤ f.size ∧ a.1 + a.2 ≤ s.size.toNat ∧ a.1 + a.2 < 2 ^ 31

instance (s : Flash) (e : FlashEvent) : Decidable (s.Extends e) :=
  inferInstanceAs (Decidable (∀ a ∈ s.backs e, ∀ f ∈ s.blkioFile, _))

/-- File and storage differ at most where `p` allows it. -/
structure BackedBut (p : Nat → Prop) (s : Flash) (f : HostFile) : Prop where
  file : s.blkioFile = some f
  small : f.size < 2 ^ 31
  select : selectPart (some f) = some s.pi
  same : ∀ i < s.size.toNat, ¬p i → s.storage i = f.image i

/-- The bytes of the dirty page. -/
def inDirty (s : Flash) (i : Nat) : Prop := s.dirtyPage = some (i / 256)

/-- The file is what a restart needs, but for the dirty page. -/
def Backed (s : Flash) : Prop := ∃ f, BackedBut s.inDirty s f

section Backed

variable {s t : Flash} {p : Nat → Prop} {f : HostFile}

theorem BackedBut.mono (h : BackedBut p s f) {q : Nat → Prop}
    (hq : ∀ i < s.size.toNat, p i → q i) : BackedBut q s f :=
  ⟨h.file, h.small, h.select, fun i hi hn => h.same i hi fun hp => hn (hq i hi hp)⟩

theorem BackedBut.of_same (h : BackedBut p s f) (h1 : t.storage = s.storage)
    (h2 : t.size = s.size) (h3 : t.pi = s.pi) (h4 : t.blkioFile = s.blkioFile) :
    BackedBut p t f := by
  refine ⟨by rw [h4]; exact h.file, h.small, by rw [h3]; exact h.select, ?_⟩
  rw [h1, h2]
  exact h.same

/-- What may differ lies in the page that is dirty now. -/
theorem BackedBut.backed (h : BackedBut p s f) (h1 : t.storage = s.storage)
    (h2 : t.size = s.size) (h3 : t.pi = s.pi) (h4 : t.blkioFile = s.blkioFile)
    (hp : ∀ i < s.size.toNat, p i → t.dirtyPage = some (i / 256)) : t.Backed :=
  ⟨f, (h.mono hp).of_same h1 h2 h3 h4⟩

/-- Writing an area back. -/
theorem BackedBut.syncArea (h : BackedBut p s f) (hsize : s.size = s.pi.size) {off len : Nat}
    (hlen : 0 < len) (hoff : off ≤ f.size) (hin : off + len ≤ s.size.toNat)
    (hsm : off + len < 2 ^ 31) :
    BackedBut (fun i => p i ∧ ¬(off ≤ i ∧ i < off + len)) (s.syncArea off len)
      (f.pwrite off len s.storage) := by
  have hs : s.syncArea off len =
      { s with blkioFile := some (f.pwrite off len s.storage) }.touch (.readStorage off len) := by
    simp only [Flash.syncArea, h.file]
  have hsmall := h.small
  have hle := selectPart_le h.select
  rw [hs]
  refine ⟨rfl, ?_, ?_, ?_⟩
  · rw [size_pwrite hlen]
    omega
  · refine selectPart_grow h.select ?_ ?_
    · rw [size_pwrite hlen]
      omega
    · rw [size_pwrite hlen]
      rw [hsize] at hin
      show _ ≤ s.pi.size.toNat
      omega
  · intro i hi hne
    rw [image_pwrite hoff hlen]
    split
    · rfl
    · rename_i hout
      exact h.same i hi fun hp => hne ⟨hp, hout⟩

theorem BackedBut.fill (h : BackedBut p s f) (off len : Nat) :
    BackedBut (fun i => p i ∨ (off ≤ i ∧ i < off + len)) (s.fill off len) f := by
  refine ⟨h.file, h.small, h.select, fun i hi hn => ?_⟩
  have hout : ¬(off ≤ i ∧ i < off + len) := fun h0 => hn (.inr h0)
  show (if off ≤ i ∧ i < off + len then 0xff else s.storage i) = _
  rw [if_neg hout]
  exact h.same i hi fun hp => hn (.inl hp)

theorem BackedBut.program (h : BackedBut p s f) (b : BitVec 8) :
    BackedBut (fun i => p i ∨ i = s.curAddr.toNat) (s.program b) f := by
  refine ⟨h.file, h.small, h.select, fun i hi hn => ?_⟩
  have hout : i ≠ s.curAddr.toNat := fun h0 => hn (.inr h0)
  show Function.update s.storage s.curAddr.toNat _ i = _
  rw [Function.update_of_ne hout]
  exact h.same i hi fun hp => hn (.inl hp)

/-- The write-back of the dirty page, when another one becomes dirty. -/
theorem BackedBut.syncDirty (hs : s.Sound) (np : Option Nat) {d : Nat}
    (hd : s.dirtyPage = some d) (hne : np ≠ some d) (h : BackedBut p s f)
    (hoff : d * 256 ≤ f.size) (hsm : d * 256 + 256 < 2 ^ 31) :
    BackedBut (fun i => p i ∧ i / 256 ≠ d) (s.syncDirty np)
      (f.pwrite (d * 256) 256 s.storage) := by
  have hp : s.pi.pageSize.toNat = 256 := by
    rw [hs.pageSize]
    rfl
  have heq : s.syncDirty np = { s.syncArea (d * 256) 256 with dirtyPage := np } := by
    simp only [Flash.syncDirty, hd, hne, if_false, syncPage, hp]
  rw [heq]
  refine BackedBut.of_same (s := s.syncArea (d * 256) 256) ?_ rfl rfl rfl rfl
  refine (h.syncArea hs.size (by decide) hoff (hs.dirty d hd) hsm).mono fun i _ hi => ⟨hi.1, ?_⟩
  intro h0
  exact hi.2 (by omega)

/-- A page program. -/
theorem backed_program (hs : s.Sound) (h : s.Backed) {tx : Word} (hst : s.state = .pageProgram)
    (he : s.Extends (.transfer tx)) :
    ({ s.write8 s.curAddr (tx.setWidth 8) with curAddr := s.nextAddr } : Flash).Backed := by
  obtain ⟨f, hf⟩ := h
  have hp := hf.program (tx.setWidth 8)
  have hdp : (s.program (tx.setWidth 8)).dirtyPage = s.dirtyPage := rfl
  rw [write8_eq hs]
  by_cases hsync : ∃ d, s.dirtyPage = some d ∧ d ≠ s.page
  · obtain ⟨d, hd, hne⟩ := hsync
    obtain ⟨h1, -, h3⟩ := he (d * 256, 256) (by simp [backs, hst, hd, hne]) f hf.file
    have hb := BackedBut.syncDirty (hs.program (tx.setWidth 8)) (some s.page) hd
      (fun h0 => hne (Option.some.inj h0).symm) hp h1 h3
    refine hb.backed rfl rfl rfl rfl fun i _ hi => ?_
    obtain ⟨hi | rfl, hne'⟩ := hi
    · rw [inDirty, hd] at hi
      exact absurd (Option.some.inj hi).symm hne'
    · rfl
  · -- nothing was dirty, or only the page that is programmed
    have hpage {d : Nat} (hd : s.dirtyPage = some d) : d = s.page :=
      Classical.byContradiction fun h0 => hsync ⟨d, hd, h0⟩
    have hsame : (s.program (tx.setWidth 8)).syncDirty (some s.page) =
        s.program (tx.setWidth 8) := by
      cases hd : s.dirtyPage with
      | none => simp only [Flash.syncDirty, hdp, hd]
      | some d => simp only [Flash.syncDirty, hdp, hd, hpage hd, if_true]
    rw [hsame]
    refine hp.backed rfl rfl rfl rfl fun i _ hi => ?_
    obtain hi | rfl := hi
    · exact congrArg some (hpage hi).symm
    · rfl

/-- An erase. -/
theorem backed_erase (hs : s.Sound) (h : s.Backed) {tx : Word} {u : Flash} {off len : Word}
    (hc : Calm s u) (hera : s.erasing tx = some (off, len)) (hlen : 0 < len.toNat)
    (he : s.Extends (.transfer tx)) : (u.eraseAt off len).Backed := by
  obtain ⟨f, hf⟩ := h
  have hst : s.state ≠ .pageProgram := by
    intro h0
    simp [erasing, h0] at hera
  obtain ⟨h1, h2, h3⟩ := he (off.toNat, len.toNat) (by simp [backs, hst, hera]) f hf.file
  have hu := hf.of_same hc.storage hc.size hc.pi hc.file
  have hb := (hu.fill off.toNat len.toNat).syncArea
    (show u.size = u.pi.size by rw [hc.size, hc.pi]; exact hs.size) hlen h1
    (show _ ≤ u.size.toNat by rw [hc.size]; exact h2) h3
  refine hb.backed rfl rfl rfl rfl fun i _ hi => ?_
  obtain ⟨hi | hi, hout⟩ := hi
  · have hd : (u.eraseAt off len).dirtyPage = s.dirtyPage := by
      rw [← hc.dirty, eraseAt, Flash.syncArea]
      split <;> rfl
    rw [hd]
    exact hi
  · exact absurd hi hout

/-- The end of a command. -/
theorem backed_deselect (hs : s.Sound) (h : s.Backed) (he : s.Extends (.cs true)) :
    (s.toIdle.syncDirty none).Backed ∧ (s.toIdle.syncDirty none).dirtyPage = none := by
  obtain ⟨f, hf⟩ := h
  have hf0 : BackedBut s.inDirty s.toIdle f := hf.of_same rfl rfl rfl rfl
  have hdp : s.toIdle.dirtyPage = s.dirtyPage := rfl
  rcases hd : s.toIdle.dirtyPage with _ | d
  · have hsame : s.toIdle.syncDirty none = s.toIdle := by simp only [Flash.syncDirty, hd]
    rw [hsame]
    exact ⟨hf0.backed rfl rfl rfl rfl fun i _ hi => hi, hd⟩
  · obtain ⟨h1, -, h3⟩ := he (d * 256, 256) (by simp [backs, ← hdp, hd]) f hf.file
    have hb := BackedBut.syncDirty hs.toIdle none hd (by simp) hf0 h1 h3
    refine ⟨hb.backed rfl rfl rfl rfl fun i _ hi => ?_, ?_⟩
    · have hi1 := hi.1
      rw [inDirty, ← hdp, hd] at hi1
      exact absurd (Option.some.inj hi1).symm hi.2
    · simp [Flash.syncDirty, hd]

/-- What is erased is not empty. -/
theorem erasing_pos (hs : s.Sound) {tx off len : Word} (h : s.erasing tx = some (off, len)) :
    0 < len.toNat := by
  have harea {a : Word} {c : EraseCmd} (ha : s.eraseArea a c = some (off, len)) : 0 < len.toNat := by
    obtain ⟨-, hlo, -⟩ := hs.size_spec
    have hsec : s.pi.sectorSize = 65536 := (parts_spec _ hs.part).2.2.2.2.1
    have hdie : s.pi.dieCnt = 0 := (parts_spec _ hs.part).2.2.1
    cases c <;> simp only [eraseArea, hdie, if_true, Option.some.injEq, Prod.mk.injEq,
      reduceCtorEq] at ha <;> obtain ⟨-, rfl⟩ := ha
    all_goals first | decide | (rw [hsec]; decide) | omega
  unfold erasing at h
  split at h
  · split at h
    · obtain ⟨c, -, hc⟩ := Option.bind_eq_some_iff.1 h
      exact harea hc
    · cases h
  · split at h
    · exact harea h
    · cases h
  · cases h

/-- A step whose write-back leaves no gap keeps the file in step with the storage. -/
theorem backed_step (hs : s.Sound) (h : s.Backed) {e : FlashEvent} (he : s.Extends e) :
    (e.step s).Backed := by
  generalize ht : e.step s = t
  have heff : Effect s e t := ht ▸ effect_step hs e
  cases heff with
  | calm _ hc _ _ =>
    obtain ⟨f, hf⟩ := h
    exact hf.backed hc.storage hc.size hc.pi hc.file fun i _ hi => hc.dirty.trans hi
  | program hst => exact backed_program hs h hst he
  | read _ =>
    obtain ⟨f, hf⟩ := h
    exact hf.backed rfl rfl rfl rfl fun i _ hi => hi
  | erase _ hc _ hera => exact backed_erase hs h hc hera (erasing_pos hs hera) he
  | deselect =>
    obtain ⟨⟨f, hf⟩, hd⟩ := backed_deselect hs h he
    exact hf.backed rfl rfl rfl rfl fun i _ hi => hi

theorem backed_run {es : List FlashEvent} (hs : s.Sound) (h : s.Backed) (hes : Meets Extends s es) :
    (s.run es).Backed := by
  have hstep : ∀ t e, Sound t ∧ Backed t → Extends t e → Sound (e.step t) ∧ Backed (e.step t) :=
    fun t e ht he => ⟨sound_step ht.1 e, backed_step ht.1 ht.2 he⟩
  exact (run_induct (fun t => t.Sound ∧ t.Backed) hstep ⟨hs, h⟩ hes).2

theorem meets_append {ok : Flash → FlashEvent → Prop} {es fs : List FlashEvent} :
    Meets ok s (es ++ fs) ↔ Meets ok s es ∧ Meets ok (s.run es) fs := by
  induction es generalizing s with
  | nil => simp [Meets, run]
  | cons e es ih =>
    simp only [List.cons_append, Meets, ih, run, List.foldl_cons, and_assoc]

end Backed

theorem backed_init {mem : Nat → BitVec 8} {f : HostFile} {s : Flash}
    (h : flashInit mem (some f) = some s) (hlt : f.size < 2 ^ 31) : s.Backed := by
  obtain ⟨p, hp, rfl⟩ := Option.map_eq_some_iff.1 h
  exact ⟨f, rfl, hlt, hp, fun i hi _ => initStorage_eq mem hlt (selectPart_le hp) hi⟩

end Flash

/-- A restart finds the storage again. -/
theorem flash_survives_restart {mem : Nat → BitVec 8} {f : HostFile} {s₀ : Flash}
    (h₀ : flashInit mem (some f) = some s₀) (hlt : f.size < 2 ^ 31) (es : List FlashEvent)
    (mem' : Nat → BitVec 8) (hes : Flash.Meets Flash.Extends s₀ (es ++ [.cs true])) :
    ∃ s₁, flashInit mem' (s₀.run (es ++ [.cs true])).blkioFile = some s₁ ∧
      s₁.size = (s₀.run (es ++ [.cs true])).size ∧
      ∀ i < (s₀.run (es ++ [.cs true])).size.toNat,
        s₁.storage i = (s₀.run (es ++ [.cs true])).storage i := by
  have hs₀ := Flash.sound_init h₀
  obtain ⟨h1, h2, -⟩ := Flash.meets_append.1 hes
  have hs := Flash.sound_run hs₀ es
  have hb := Flash.backed_run hs₀ (Flash.backed_init h₀ hlt) h1
  have heq : s₀.run (es ++ [.cs true]) =
      { (s₀.run es).toIdle.syncDirty none with dataReadLoop := false } := by
    rw [Flash.run, List.foldl_append]
    show (s₀.run es).cs true = _
    simp only [Flash.cs, hs.fixed, if_true, if_false]
  obtain ⟨⟨f', hf'⟩, hd⟩ := Flash.backed_deselect hs hb h2
  have hsz : ((s₀.run es).toIdle.syncDirty none).size =
      ((s₀.run es).toIdle.syncDirty none).pi.size :=
    (hs.toIdle.syncDirty none (by simp)).size
  rw [heq]
  have hfile : (({ (s₀.run es).toIdle.syncDirty none with dataReadLoop := false } : Flash).blkioFile)
      = some f' := hf'.file
  rw [hfile]
  refine ⟨_, by rw [flashInit, hf'.select]; rfl, hsz.symm, fun i hi => ?_⟩
  have hsame := hf'.same i hi (by rw [Flash.inDirty, hd]; simp)
  exact (initStorage_eq mem' hf'.small (selectPart_le hf'.select) (by rw [← hsz]; exact hi)).trans
    hsame.symm

def emptyFile : HostFile := ⟨0, fun _ => 0⟩

/-- The device on an empty file. -/
def emptyFlash : Flash := (flashInit (fun _ => 0) (some emptyFile)).get rfl

theorem flashInit_emptyFile : flashInit (fun _ => 0) (some emptyFile) = some emptyFlash :=
  (Option.some_get _).symm

/-- A page program at the start of the file. -/
theorem flash_survives_restart_first_page :
    ∃ s₁, flashInit (fun _ => 0) (emptyFlash.run (programByte ++ [.cs true])).blkioFile = some s₁ ∧
      s₁.storage 0 = 0x55 ∧ s₁.storage 1 = 0xff := by
  obtain ⟨s₁, h₁, -, h₂⟩ := flash_survives_restart flashInit_emptyFile (by decide) programByte
    (fun _ => 0) ⟨by decide, by decide, by decide, by decide, by decide, by decide, trivial⟩
  exact ⟨s₁, h₁, (h₂ 0 (by decide)).trans (by decide), (h₂ 1 (by decide)).trans (by decide)⟩

/-- A page program behind the end of the file. -/
def programSecondPage : List FlashEvent := [0x06, 0x02, 0, 1, 0, 0x55].map .transfer

/-- The file gets a page of zeros where the storage has 0xFF. -/
theorem flash_restart_gap :
    ¬ ∀ (mem mem' : Nat → BitVec 8) (f : HostFile) (s₀ : Flash) (es : List FlashEvent),
      flashInit mem (some f) = some s₀ →
        ∃ s₁, flashInit mem' (s₀.run (es ++ [.cs true])).blkioFile = some s₁ ∧
          s₁.size = (s₀.run (es ++ [.cs true])).size ∧
          ∀ i < (s₀.run (es ++ [.cs true])).size.toNat,
            s₁.storage i = (s₀.run (es ++ [.cs true])).storage i := by
  intro h
  obtain ⟨s₁, h₁, -, h₂⟩ := h _ (fun _ => 0) _ _ programSecondPage flashInit_emptyFile
  have hzero : (flashInit (fun _ => 0) (emptyFlash.run (programSecondPage ++ [.cs true])).blkioFile).map
      (fun s => s.storage 0) = some 0 := by decide
  rw [h₁] at hzero
  have hff : s₁.storage 0 = 0xff := (h₂ 0 (by decide)).trans (by decide)
  exact absurd ((Option.some.inj hzero).symm.trans hff) (by decide)

end NemuMips32
