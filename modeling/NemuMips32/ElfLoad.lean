/-
  `load_elf`. The file is arbitrary: the assertions test the two offsets of a program header,
  but neither the room behind them nor the two sizes of a segment.

  `Loader.touched` is ghost state: it records the program headers that the loop reads, what
  `memcpy` reads of the buffer, and what `memcpy` and `memset` write, each with the bounds it
  is to stay in. Reads of the buffer reach whatever host memory holds there (`FileBuf.around`);
  writes past the end of a RAM array end the emulator. The product in `phdr_off` wraps.

  `loadElf_iff` says for which files everything stays in bounds; for these, and separate
  segments, memory then holds the segments.
-/
import Mathlib.Data.List.GetD
import NemuMips32.Boot

namespace NemuMips32

open StateExcept

variable {D : Type} {α : Type}

/-! ## The file -/

/-- What `read_file` returns: the bytes of the file, with what lies around them in host
    memory. -/
structure FileBuf where
  file : List (BitVec 8)
  around : Int → BitVec 8

namespace FileBuf

variable (b : FileBuf)

def u8 (i : Int) : BitVec 8 :=
  if 0 ≤ i ∧ i < b.file.length then b.file.getD i.toNat 0 else b.around i

def u16 (i : Int) : BitVec 16 := b.u8 (i + 1) ++ b.u8 i

def u32 (i : Int) : Word := b.u8 (i + 3) ++ b.u8 (i + 2) ++ b.u8 (i + 1) ++ b.u8 i

/-- `int size = get_file_size(elf_file)`. -/
def size : Word := BitVec.ofNat 32 b.file.length

def eMachine : BitVec 16 := b.u16 18
def eEntry : Word := b.u32 24
def ePhoff : Word := b.u32 28
def ePhentsize : BitVec 16 := b.u16 42
def ePhnum : BitVec 16 := b.u16 44

end FileBuf

/-- The members of `Elf32_Phdr` that `load_elf` reads. -/
structure Phdr where
  type : Word
  offset : Word
  vaddr : Word
  filesz : Word
  memsz : Word

def FileBuf.phdr (b : FileBuf) (i : Int) : Phdr where
  type := b.u32 i
  offset := b.u32 (i + 4)
  vaddr := b.u32 (i + 8)
  filesz := b.u32 (i + 16)
  memsz := b.u32 (i + 20)

/-- `int phdr_off = i * elf->e_phentsize + elf->e_phoff`. -/
def FileBuf.phdrOff (b : FileBuf) (i : Nat) : Word :=
  BitVec.ofNat 32 i * b.ePhentsize.setWidth 32 + b.ePhoff

/-- The `i`-th program header. -/
def FileBuf.ph (b : FileBuf) (i : Nat) : Phdr := b.phdr (b.phdrOff i).toInt

def PT_LOAD : Word := 1

/-! ## The program -/

/-- The program header at an offset of the buffer is read, `memcpy` reads `len` bytes of the
    buffer, or `len` bytes of a RAM array are written on behalf of the `room` bytes from `base`
    on. -/
inductive LoadTouch where
  | header (off : Int)
  | source (off len : Nat)
  | target (start len base room : Nat)
  deriving DecidableEq

/-- The access stays in the buffer of `size` bytes, or in the region it is made for. -/
def LoadTouch.InBounds (size : Nat) : LoadTouch → Prop
  | header off => 0 ≤ off ∧ off + 32 ≤ size
  | source off len => ∀ k < len, off + k < size
  | target start len base room => ∀ k < len, base ≤ start + k ∧ start + k < base + room

structure Loader (D : Type) where
  machine : Machine D
  touched : List LoadTouch

abbrev Load (D : Type) := EStateM Stop (Loader D)

/-- The loader calls into the emulator. -/
def liftExec (m : Exec D α) : Load D α := fun l =>
  match m l.machine with
  | .ok a s => .ok a { l with machine := s }
  | .error e s => .error e { l with machine := s }

def touch (t : LoadTouch) : Load D Unit := modify fun l => { l with touched := l.touched ++ [t] }

@[simp] theorem touch_apply (t : LoadTouch) (l : Loader D) :
    touch t l = .ok () { l with touched := l.touched ++ [t] } := rfl

/-- `Assert`. -/
def loadAssert (cond : Bool) : Load D Unit := if cond then pure () else throw (.halt .assert)

/-- An array after `len` bytes from `start` on have been written. -/
def writeBytes (m : Word → BitVec 8) (start len : Nat) (f : Nat → BitVec 8) : Word → BitVec 8 :=
  fun x => if start ≤ x.toNat ∧ x.toNat < start + len then f (x.toNat - start) else m x

/-- `memcpy` and `memset` into a RAM array. -/
def hostFill (r : Ram) (start len : Nat) (f : Nat → BitVec 8) : Exec D Unit := do
  unless start + len ≤ r.size.toNat do halt .undefined
  modifyArch fun a => { a with
    ram := Function.update a.ram r (writeBytes (a.ram r) start len f) }

/-- The part of the loop body for a `PT_LOAD` header. -/
def loadSegment (P : Platform D) (b : FileBuf) (ph : Phdr) : Load D Unit := do
  let p ← liftExec (vaddrMap P ph.vaddr ph.memsz)
  let base := p.2.toNat
  touch (.source ph.offset.toNat ph.filesz.toNat)
  touch (.target base ph.filesz.toNat base ph.memsz.toNat)
  liftExec (hostFill p.1 base ph.filesz.toNat fun k => b.u8 (ph.offset.toNat + k))
  touch (.target (base + ph.filesz.toNat) (ph.memsz - ph.filesz).toNat base ph.memsz.toNat)
  liftExec (hostFill p.1 (base + ph.filesz.toNat) (ph.memsz - ph.filesz).toNat fun _ => 0)

/-- The loop body of `load_elf`. -/
def loadPhdr (P : Platform D) (b : FileBuf) (i : Nat) : Load D Unit := do
  loadAssert ((b.phdrOff i).slt b.size)
  touch (.header (b.phdrOff i).toInt)
  loadAssert ((b.ph i).offset.ult b.size)
  if (b.ph i).type = PT_LOAD then loadSegment P b (b.ph i)

/-- The loop of `load_elf`. -/
def loadPhdrs (P : Platform D) (b : FileBuf) : Nat → Nat → Load D Unit
  | 0, _ => pure ()
  | n + 1, i => do
    loadPhdr P b i
    loadPhdrs P b n (i + 1)

/-- `load_elf`, from the check of the magic number on. -/
def loadElf (P : Platform D) (b : FileBuf) : Load D Unit := do
  loadAssert (b.u32 0 == 0x464c457f)
  loadAssert (b.u8 4 == 1) -- ELFCLASS32
  loadAssert (b.u8 5 == 1) -- ELFDATA2LSB
  loadAssert (b.eMachine == 8) -- EM_MIPS
  loadPhdrs P b b.ePhnum.toNat 0
  if b.eEntry ≠ CPU_INIT_PC then liftExec (loadRom P b.eEntry)

/-! ## What is claimed of a file -/

/-- What `vaddr_map` returns where its checks hold. -/
def Platform.mapped (P : Platform D) (addr len : Word) : Option (Ram × Word) :=
  if 0x80000000 ≤ addr ∧ addr < 0xc0000000 then
    (P.ramAt addr).filter fun p => checkIoaddr p.2 len.toNat p.1.size
  else none

/-- The assertions on the `i`-th header. -/
def PhdrPasses (b : FileBuf) (i : Nat) : Prop :=
  (b.phdrOff i).slt b.size = true ∧ (b.ph i).offset.ult b.size = true

/-- The assertions of `load_elf`. -/
structure Passes (b : FileBuf) : Prop where
  magic : b.u32 0 = 0x464c457f
  elfClass : b.u8 4 = 1
  data : b.u8 5 = 1
  machine : b.eMachine = 8
  headers : ∀ i < b.ePhnum.toNat, PhdrPasses b i

/-- The `i`-th header is inside the file. -/
def HeaderFits (b : FileBuf) (i : Nat) : Prop :=
  0 ≤ (b.phdrOff i).toInt ∧ (b.phdrOff i).toInt + 32 ≤ b.file.length

/-- The bytes of a segment are inside the file, and no more than the segment has room for. -/
def SegmentFits (b : FileBuf) (i : Nat) : Prop :=
  (b.ph i).offset.toNat + (b.ph i).filesz.toNat ≤ b.file.length ∧ (b.ph i).filesz ≤ (b.ph i).memsz

/-- `vaddr_map` accepts the segment, if it is one. -/
def Maps (P : Platform D) (b : FileBuf) (i : Nat) : Prop :=
  (b.ph i).type = PT_LOAD → (P.mapped (b.ph i).vaddr (b.ph i).memsz).isSome = true

/-- Nothing of the `i`-th header leads out of bounds. -/
def Fits (P : Platform D) (b : FileBuf) (i : Nat) : Prop :=
  HeaderFits b i ∧ ((b.ph i).type = PT_LOAD → Maps P b i → SegmentFits b i)

instance (b : FileBuf) (i : Nat) : Decidable (HeaderFits b i) := inferInstanceAs (Decidable (_ ∧ _))
instance (b : FileBuf) (i : Nat) : Decidable (SegmentFits b i) := inferInstanceAs (Decidable (_ ∧ _))
instance (P : Platform D) (b : FileBuf) (i : Nat) : Decidable (Maps P b i) :=
  inferInstanceAs (Decidable (_ → _))
instance (P : Platform D) (b : FileBuf) (i : Nat) : Decidable (Fits P b i) :=
  inferInstanceAs (Decidable (_ ∧ _))

/-! ## Steps -/

/-- The record grows. -/
def Grows (l l' : Loader D) : Prop := l.touched <+: l'.touched

theorem Grows.refl (l : Loader D) : Grows l l := List.prefix_refl _

theorem Grows.trans (l l' l'' : Loader D) (h : Grows l l') (h' : Grows l' l'') : Grows l l'' :=
  List.IsPrefix.trans h h'

theorem keepsGrows_bind {β : Type} {m : Load D α} {f : α → Load D β} (hm : Keeps Grows m)
    (hf : ∀ a, Keeps Grows (f a)) : Keeps Grows (m >>= f) := keeps_bind Grows.trans hm hf

theorem touched_of_keeps {m : Load D α} (l : Loader D) (h : Keeps Grows m) :
    l.touched <+: (final (m l)).touched := h l

theorem keepsGrows_liftExec (m : Exec D α) : Keeps Grows (liftExec m) := by
  intro l
  unfold liftExec
  cases m l.machine with
  | ok a s => exact Grows.refl l
  | error e s => exact Grows.refl l

theorem keepsGrows_touch (t : LoadTouch) : Keeps Grows (touch t : Load D Unit) :=
  fun l => List.prefix_append l.touched [t]

theorem keepsGrows_loadAssert (c : Bool) : Keeps Grows (loadAssert c : Load D Unit) :=
  keeps_ite (keeps_pure Grows.refl _) (keeps_throw Grows.refl _)

theorem keepsGrows_loadSegment (P : Platform D) (b : FileBuf) (ph : Phdr) :
    Keeps Grows (loadSegment P b ph) :=
  keepsGrows_bind (keepsGrows_liftExec _) fun _ => keepsGrows_bind (keepsGrows_touch _) fun _ =>
    keepsGrows_bind (keepsGrows_touch _) fun _ => keepsGrows_bind (keepsGrows_liftExec _) fun _ =>
    keepsGrows_bind (keepsGrows_touch _) fun _ => keepsGrows_liftExec _

theorem keepsGrows_loadPhdr (P : Platform D) (b : FileBuf) (i : Nat) :
    Keeps Grows (loadPhdr P b i) :=
  keepsGrows_bind (keepsGrows_loadAssert _) fun _ => keepsGrows_bind (keepsGrows_touch _) fun _ =>
    keepsGrows_bind (keepsGrows_loadAssert _) fun _ =>
    keeps_ite (keepsGrows_loadSegment P b _) (keeps_pure Grows.refl _)

theorem keepsGrows_loadPhdrs (P : Platform D) (b : FileBuf) (n i : Nat) :
    Keeps Grows (loadPhdrs P b n i) := by
  induction n generalizing i with
  | zero => exact keeps_pure Grows.refl _
  | succ n ih => exact keepsGrows_bind (keepsGrows_loadPhdr P b i) fun _ => ih (i + 1)

theorem vaddrMap_apply (P : Platform D) (addr len : Word) (s : Machine D) :
    (∃ p, P.mapped addr len = some p ∧ vaddrMap P addr len s = .ok p s) ∨
      (P.mapped addr len = none ∧ ∃ why, vaddrMap P addr len s = .error (.halt why) s) := by
  unfold vaddrMap Platform.mapped Platform.ramAt
  by_cases hun : 0x80000000 ≤ addr ∧ addr < 0xc0000000
  · rw [if_pos hun]
    simp only [hun]
    cases hd : P.findDevice (ioremap addr) with
    | none => exact .inr ⟨rfl, .assert, rfl⟩
    | some dev =>
      cases hr : dev.name.ram with
      | none => exact .inr ⟨by simp [hr], .assert, by simp [hr]⟩
      | some r =>
        by_cases hc : checkIoaddr (ioremap addr - dev.start) len.toNat r.size = true
        · exact .inl ⟨(r, ioremap addr - dev.start), by simp [hr, hc], by simp [hr, hc]⟩
        · exact .inr ⟨by simp [hr, hc], .cpuAssert, by simp [hr, hc]⟩
  · rw [if_neg hun]
    exact .inr ⟨rfl, .assert, by simp only [hun]; rfl⟩

/-! ## Segments -/

theorem size_toNat (b : FileBuf) : b.size.toNat ≤ b.file.length := by
  rw [FileBuf.size, BitVec.toNat_ofNat]
  exact Nat.mod_le _ _

theorem liftExec_ok {m : Exec D α} {l : Loader D} {a : α} {s : Machine D}
    (h : m l.machine = .ok a s) : liftExec m l = .ok a { l with machine := s } := by
  simp only [liftExec, h]

theorem hostFill_of_le {r : Ram} {start len : Nat} (h : start + len ≤ r.size.toNat)
    (f : Nat → BitVec 8) (s : Machine D) : hostFill r start len f s =
      .ok () { s with ram := Function.update s.ram r (writeBytes (s.ram r) start len f) } := by
  simp only [hostFill, h, if_true]
  rfl

theorem mapped_eq_some {P : Platform D} {addr len : Word} {r : Ram} {o : Word}
    (h : P.mapped addr len = some (r, o)) :
    P.ramAt addr = some (r, o) ∧ o.toNat + len.toNat ≤ r.size.toNat := by
  unfold Platform.mapped at h
  split at h
  · obtain ⟨hr, hc⟩ := Option.filter_eq_some_iff.1 h
    have hsize := size_lt r
    have hlen := len.isLt
    simp only [checkIoaddr, Bool.and_eq_true, decide_eq_true_eq, BitVec.le_def, BitVec.toNat_add,
      BitVec.toNat_ofNat] at hc
    exact ⟨hr, by omega⟩
  · cases h

section Segment

variable {P : Platform D} {b : FileBuf} {ph : Phdr} {r : Ram} {o : Word}
  (hm : P.mapped ph.vaddr ph.memsz = some (r, o))

/-- What `memcpy` and `memset` touch for a segment at `o`. -/
def segmentTouches (ph : Phdr) (o : Word) : List LoadTouch :=
  [.source ph.offset.toNat ph.filesz.toNat,
    .target o.toNat ph.filesz.toNat o.toNat ph.memsz.toNat,
    .target (o.toNat + ph.filesz.toNat) (ph.memsz - ph.filesz).toNat o.toNat ph.memsz.toNat]

/-- RAM after a segment has been loaded at `o`. -/
def segmentRam (b : FileBuf) (ph : Phdr) (r : Ram) (o : Word) (m : Memory) : Memory :=
  Function.update m r (writeBytes
    (writeBytes (m r) o.toNat ph.filesz.toNat fun k => b.u8 (ph.offset.toNat + k))
    (o.toNat + ph.filesz.toNat) (ph.memsz - ph.filesz).toNat fun _ => 0)

include hm

theorem liftExec_vaddrMap (l : Loader D) :
    liftExec (vaddrMap P ph.vaddr ph.memsz) l = .ok (r, o) l := by
  obtain ⟨p, hp, hv⟩ | ⟨hn, -⟩ := vaddrMap_apply P ph.vaddr ph.memsz l.machine
  · rw [hm] at hp
    cases hp
    exact liftExec_ok hv
  · rw [hm] at hn
    cases hn

/-- The first two accesses are made, whatever comes of them. -/
theorem loadSegment_touches (l : Loader D) :
    l.touched ++ (segmentTouches ph o).take 2 <+: (final (loadSegment P b ph l)).touched := by
  have hsplit : loadSegment P b ph l =
      (liftExec (hostFill r o.toNat ph.filesz.toNat fun k => b.u8 (ph.offset.toNat + k)) >>=
        fun _ => touch (.target (o.toNat + ph.filesz.toNat) (ph.memsz - ph.filesz).toNat o.toNat
          ph.memsz.toNat) >>= fun _ =>
        liftExec (hostFill r (o.toNat + ph.filesz.toNat) (ph.memsz - ph.filesz).toNat fun _ => 0))
      { l with touched := l.touched ++ (segmentTouches ph o).take 2 } := by
    unfold loadSegment
    rw [bind_of_ok (liftExec_vaddrMap hm l)]
    have htwo : ((l.touched ++ [LoadTouch.source ph.offset.toNat ph.filesz.toNat]) ++
        [LoadTouch.target o.toNat ph.filesz.toNat o.toNat ph.memsz.toNat]) =
        l.touched ++ (segmentTouches ph o).take 2 := List.append_assoc ..
    rw [← htwo]
    rfl
  rw [hsplit]
  refine touched_of_keeps { l with touched := l.touched ++ (segmentTouches ph o).take 2 } ?_
  exact keepsGrows_bind (keepsGrows_liftExec _) fun _ => keepsGrows_bind (keepsGrows_touch _)
    fun _ => keepsGrows_liftExec _

theorem loadSegment_ok (hle : ph.filesz ≤ ph.memsz) (l : Loader D) :
    loadSegment P b ph l = .ok ()
      { machine := { l.machine with ram := segmentRam b ph r o l.machine.ram }
        touched := l.touched ++ segmentTouches ph o } := by
  have hbound := (mapped_eq_some hm).2
  rw [BitVec.le_def] at hle
  have hsub : (ph.memsz - ph.filesz).toNat = ph.memsz.toNat - ph.filesz.toNat :=
    BitVec.toNat_sub_of_le (BitVec.le_def.2 hle)
  have h1 : o.toNat + ph.filesz.toNat ≤ r.size.toNat := by omega
  have h2 : o.toNat + ph.filesz.toNat + (ph.memsz - ph.filesz).toNat ≤ r.size.toNat := by omega
  unfold loadSegment
  rw [bind_of_ok (liftExec_vaddrMap hm l), bind_of_ok (touch_apply _ _),
    bind_of_ok (touch_apply _ _), bind_of_ok (liftExec_ok (hostFill_of_le h1 _ _)),
    bind_of_ok (touch_apply _ _), liftExec_ok (hostFill_of_le h2 _ _)]
  simp only [segmentRam, segmentTouches, List.append_assoc, List.cons_append, List.nil_append,
    Function.update_idem, Function.update_self]

end Segment

/-! ## Headers -/

section Header

variable {P : Platform D} {b : FileBuf} {i : Nat}
  (hult : (b.ph i).offset.ult b.size = true)

theorem loadAssert_true {c : Bool} (hc : c = true) (l : Loader D) :
    loadAssert c l = .ok () l := by
  rw [loadAssert, if_pos hc]
  rfl

include hult

/-- The two assertions hold: the header has been read, and a segment is loaded. -/
theorem loadPhdr_eq (hslt : (b.phdrOff i).slt b.size = true) (l : Loader D) : loadPhdr P b i l =
    (if (b.ph i).type = PT_LOAD then loadSegment P b (b.ph i) else pure ())
      { l with touched := l.touched ++ [.header (b.phdrOff i).toInt] } := by
  unfold loadPhdr
  rw [bind_of_ok (loadAssert_true hslt _), bind_of_ok (touch_apply _ _),
    bind_of_ok (loadAssert_true hult _)]

/-- What a header in the file touches is in bounds exactly if the segment fits. -/
theorem source_target_iff {o : Word} :
    (∀ t ∈ (segmentTouches (b.ph i) o).take 2, t.InBounds b.file.length) ↔ SegmentFits b i := by
  have hsize := size_toNat b
  have hlt : (b.ph i).offset.toNat < b.size.toNat := by
    simpa [BitVec.ult] using hult
  simp only [segmentTouches, List.take_succ_cons, List.take_zero, List.mem_cons,
    List.not_mem_nil, or_false, forall_eq_or_imp, forall_eq, LoadTouch.InBounds, SegmentFits,
    BitVec.le_def]
  constructor
  · rintro ⟨hsrc, htgt⟩
    refine ⟨?_, ?_⟩
    · by_contra hc
      have h := hsrc ((b.ph i).filesz.toNat - 1) (by omega)
      omega
    · by_contra hc
      have h := (htgt (b.ph i).memsz.toNat (by omega)).2
      omega
  · rintro ⟨hsrc, htgt⟩
    exact ⟨fun k hk => by omega, fun k hk => by omega⟩

omit hult in
theorem segmentTouches_inBounds (hf : SegmentFits b i) (o : Word) :
    ∀ t ∈ segmentTouches (b.ph i) o, t.InBounds b.file.length := by
  obtain ⟨hsrc, htgt⟩ := hf
  have hsub : ((b.ph i).memsz - (b.ph i).filesz).toNat =
      (b.ph i).memsz.toNat - (b.ph i).filesz.toNat := BitVec.toNat_sub_of_le htgt
  rw [BitVec.le_def] at htgt
  simp only [segmentTouches, List.mem_cons, List.not_mem_nil, or_false, forall_eq_or_imp,
    forall_eq, LoadTouch.InBounds]
  exact ⟨fun k hk => by omega, fun k hk => by omega, fun k hk => by omega⟩

/-- RAM after the `i`-th header. -/
def phdrRam (P : Platform D) (b : FileBuf) (i : Nat) (m : Memory) : Memory :=
  if (b.ph i).type = PT_LOAD then
    match P.mapped (b.ph i).vaddr (b.ph i).memsz with
    | some p => segmentRam b (b.ph i) p.1 p.2 m
    | none => m
  else m

variable (hslt : (b.phdrOff i).slt b.size = true)
include hslt

theorem loadPhdr_misfit (hn : ¬Fits P b i) (l : Loader D) :
    ∃ t ∈ (final (loadPhdr P b i l)).touched, ¬t.InBounds b.file.length := by
  rw [loadPhdr_eq hult hslt]
  by_cases hh : HeaderFits b i
  · have hseg : (b.ph i).type = PT_LOAD ∧ Maps P b i ∧ ¬SegmentFits b i := by
      by_contra hc
      refine hn ⟨hh, fun hl hm => ?_⟩
      by_contra hs
      exact hc ⟨hl, hm, hs⟩
    obtain ⟨hl, hm, hs⟩ := hseg
    obtain ⟨⟨r, o⟩, hro⟩ := Option.isSome_iff_exists.1 (hm hl)
    rw [if_pos hl]
    have hbad : ¬∀ t ∈ (segmentTouches (b.ph i) o).take 2, t.InBounds b.file.length :=
      fun h => hs ((source_target_iff hult).1 h)
    obtain ⟨t, ht⟩ := not_forall.1 hbad
    obtain ⟨hmem, hout⟩ := Classical.not_imp.1 ht
    refine ⟨t, (loadSegment_touches (b := b) hro _).subset ?_, hout⟩
    exact List.mem_append_right _ hmem
  · refine ⟨.header (b.phdrOff i).toInt, ?_, hh⟩
    refine (touched_of_keeps _ (keeps_ite (keepsGrows_loadSegment P b _)
      (keeps_pure Grows.refl _))).subset ?_
    exact List.mem_append_right _ List.mem_cons_self

theorem loadPhdr_stops (hg : ¬Maps P b i) (l : Loader D) :
    ∃ why, loadPhdr P b i l =
      .error (.halt why) { l with touched := l.touched ++ [.header (b.phdrOff i).toInt] } := by
  obtain ⟨hl, hnone⟩ := Classical.not_imp.1 hg
  rw [loadPhdr_eq hult hslt, if_pos hl]
  obtain ⟨p, hp, -⟩ | ⟨-, why, hw⟩ :=
    vaddrMap_apply P (b.ph i).vaddr (b.ph i).memsz l.machine
  · rw [hp] at hnone
    exact absurd rfl hnone
  · refine ⟨why, bind_of_error ?_ _⟩
    simp only [liftExec, hw]

theorem loadPhdr_goes (hf : Fits P b i) (hg : Maps P b i) (l : Loader D) :
    ∃ ts, loadPhdr P b i l = .ok ()
        { machine := { l.machine with ram := phdrRam P b i l.machine.ram }
          touched := l.touched ++ ts } ∧
      ∀ t ∈ ts, t.InBounds b.file.length := by
  rw [loadPhdr_eq hult hslt]
  have hheader : ∀ t ∈ [LoadTouch.header (b.phdrOff i).toInt], t.InBounds b.file.length := by
    simp only [List.mem_singleton, forall_eq]
    exact hf.1
  by_cases hl : (b.ph i).type = PT_LOAD
  · obtain ⟨⟨r, o⟩, hro⟩ := Option.isSome_iff_exists.1 (hg hl)
    have hs := hf.2 hl hg
    rw [if_pos hl, loadSegment_ok hro hs.2]
    refine ⟨.header (b.phdrOff i).toInt :: segmentTouches (b.ph i) o, ?_, ?_⟩
    · simp only [phdrRam, if_pos hl, hro, List.append_assoc, List.singleton_append]
    · intro t ht
      obtain rfl | ht := List.mem_cons.1 ht
      · exact hf.1
      · exact segmentTouches_inBounds hs o t ht
  · rw [if_neg hl]
    refine ⟨[.header (b.phdrOff i).toInt], ?_, hheader⟩
    rw [phdrRam, if_neg hl]
    rfl

end Header

/-! ## The loop -/

section Loop

variable {P : Platform D} {b : FileBuf}

/-- What holds of the headers from the `i`-th on holds of those behind it. -/
theorem behind {p : Nat → Prop} {n i : Nat} (h : ∀ j < n + 1, p (i + j)) :
    ∀ j < n, p (i + 1 + j) := by
  intro j hj
  rw [Nat.add_right_comm]
  exact h (j + 1) (Nat.succ_lt_succ hj)

theorem loadPhdrs_inBounds_iff (n i : Nat) (l : Loader D) (hp : ∀ j < n, PhdrPasses b (i + j))
    (hl : ∀ t ∈ l.touched, t.InBounds b.file.length) :
    (∀ t ∈ (final (loadPhdrs P b n i l)).touched, t.InBounds b.file.length) ↔
      ∀ j < n, (∀ k < j, Maps P b (i + k)) → Fits P b (i + j) := by
  induction n generalizing i l with
  | zero => exact ⟨fun _ j hj => absurd hj (Nat.not_lt_zero j), fun _ => hl⟩
  | succ n ih =>
    obtain ⟨hslt, hult⟩ : PhdrPasses b i := hp 0 (Nat.succ_pos n)
    have hfirst : (∀ k < 0, Maps P b (i + k)) := fun k hk => absurd hk (Nat.not_lt_zero k)
    have hstep : loadPhdrs P b (n + 1) i l = (loadPhdr P b i >>= fun _ => loadPhdrs P b n (i + 1)) l :=
      rfl
    rw [hstep]
    by_cases hf : Fits P b i
    · by_cases hg : Maps P b i
      · obtain ⟨ts, ht, hts⟩ := loadPhdr_goes hult hslt hf hg l
        rw [bind_of_ok ht, ih (i + 1) _ (behind hp) ?_]
        · constructor
          · intro h j hj hm
            cases j with
            | zero => exact hf
            | succ j =>
              rw [← Nat.add_assoc, Nat.add_right_comm]
              refine h j (by omega) fun k hk => ?_
              rw [Nat.add_right_comm]
              exact hm (k + 1) (by omega)
          · intro h j hj hm
            rw [Nat.add_right_comm]
            refine h (j + 1) (by omega) fun k hk => ?_
            cases k with
            | zero => exact hg
            | succ k =>
              rw [← Nat.add_assoc, Nat.add_right_comm]
              exact hm k (by omega)
        · intro t hmem
          obtain hmem | hmem := List.mem_append.1 hmem
          · exact hl t hmem
          · exact hts t hmem
      · obtain ⟨why, hw⟩ := loadPhdr_stops hult hslt hg l
        rw [bind_of_error hw]
        constructor
        · intro _ j hj hm
          cases j with
          | zero => exact hf
          | succ j => exact absurd (hm 0 (Nat.succ_pos j)) hg
        · intro _ t hmem
          obtain hmem | hmem := List.mem_append.1 hmem
          · exact hl t hmem
          · obtain rfl := List.mem_singleton.1 hmem
            exact hf.1
    · obtain ⟨t, hmem, hout⟩ := loadPhdr_misfit hult hslt hf l
      refine iff_of_false (fun h => ?_) fun h => hf (h 0 (Nat.succ_pos n) hfirst)
      refine hout (h t ?_)
      rw [bind_apply]
      cases hr : loadPhdr P b i l with
      | ok a l' =>
        rw [hr] at hmem
        exact (touched_of_keeps l' (keepsGrows_loadPhdrs P b n (i + 1))).subset hmem
      | error e l' =>
        rw [hr] at hmem
        exact hmem

/-- RAM after `n` headers from the `i`-th on. -/
def phdrsRam (P : Platform D) (b : FileBuf) : Nat → Nat → Memory → Memory
  | 0, _, m => m
  | n + 1, i, m => phdrsRam P b n (i + 1) (phdrRam P b i m)

theorem loadPhdrs_goes (n i : Nat) (l : Loader D) (hp : ∀ j < n, PhdrPasses b (i + j))
    (hf : ∀ j < n, Fits P b (i + j)) (hg : ∀ j < n, Maps P b (i + j)) :
    ∃ ts, loadPhdrs P b n i l = .ok ()
      { machine := { l.machine with ram := phdrsRam P b n i l.machine.ram }, touched := ts } := by
  induction n generalizing i l with
  | zero => exact ⟨l.touched, rfl⟩
  | succ n ih =>
    obtain ⟨hslt, hult⟩ : PhdrPasses b i := hp 0 (Nat.succ_pos n)
    have hf0 : Fits P b i := hf 0 (Nat.succ_pos n)
    have hg0 : Maps P b i := hg 0 (Nat.succ_pos n)
    obtain ⟨ts, ht, -⟩ := loadPhdr_goes hult hslt hf0 hg0 l
    obtain ⟨ts', hts'⟩ := ih (i + 1) _ (behind hp) (behind hf) (behind hg)
    refine ⟨ts', ?_⟩
    unfold loadPhdrs
    rw [bind_of_ok ht]
    exact hts'

end Loop

/-! ## What memory holds -/

/-- The byte at `x` of array `r` belongs to the `i`-th segment. -/
def InSegment (P : Platform D) (b : FileBuf) (i : Nat) (r : Ram) (x : Word) : Prop :=
  (b.ph i).type = PT_LOAD ∧ ∃ o, P.mapped (b.ph i).vaddr (b.ph i).memsz = some (r, o) ∧
    o.toNat ≤ x.toNat ∧ x.toNat < o.toNat + (b.ph i).memsz.toNat

/-- The byte at `x` of array `r` belongs to the stub. -/
def InStub (P : Platform D) (r : Ram) (x : Word) : Prop :=
  ∃ o, P.mapped CPU_INIT_PC 16 = some (r, o) ∧ o.toNat ≤ x.toNat ∧ x.toNat < o.toNat + 16

/-- The segments are disjoint from each other and from the stub. -/
structure Separate (P : Platform D) (b : FileBuf) : Prop where
  segments : ∀ i j r x, i < b.ePhnum.toNat → j < b.ePhnum.toNat → InSegment P b i r x →
    InSegment P b j r x → i = j
  stub : ∀ i r x, i < b.ePhnum.toNat → InSegment P b i r x → ¬InStub P r x

/-- `vaddr_map` accepts every segment, and the stub where one is stored; no segment runs past
    the last physical address that an unmapped one can have. -/
structure Accepted (P : Platform D) (b : FileBuf) : Prop where
  segments : ∀ i < b.ePhnum.toNat, Maps P b i
  ends : ∀ i < b.ePhnum.toNat, (b.ph i).type = PT_LOAD →
    (ioremap (b.ph i).vaddr).toNat + (b.ph i).memsz.toNat ≤ 2 ^ 29
  stub : b.eEntry ≠ CPU_INIT_PC → (P.mapped CPU_INIT_PC 16).isSome = true

/-- In memory `m`, the byte at `p_vaddr + k` of every segment is byte `p_offset + k` of the file,
    or 0 behind these. -/
def Holds (P : Platform D) (b : FileBuf) (m : Memory) : Prop :=
  ∀ i < b.ePhnum.toNat, (b.ph i).type = PT_LOAD → ∀ k < (b.ph i).memsz.toNat,
    ∃ r x, P.ramAt ((b.ph i).vaddr + BitVec.ofNat 32 k) = some (r, x) ∧
      if k < (b.ph i).filesz.toNat then b.file[(b.ph i).offset.toNat + k]? = some (m r x)
      else m r x = 0

section Contents

variable {P : Platform D} {b : FileBuf}

theorem segmentRam_apply (ph : Phdr) (hle : ph.filesz ≤ ph.memsz) (r : Ram) (o : Word)
    (m : Memory) (x : Word) : segmentRam b ph r o m r x =
      if o.toNat ≤ x.toNat ∧ x.toNat < o.toNat + ph.memsz.toNat then
        if x.toNat < o.toNat + ph.filesz.toNat then
          b.u8 ((ph.offset.toNat + (x.toNat - o.toNat) : Nat) : Int)
        else 0
      else m r x := by
  have hsub : (ph.memsz - ph.filesz).toNat = ph.memsz.toNat - ph.filesz.toNat :=
    BitVec.toNat_sub_of_le hle
  rw [BitVec.le_def] at hle
  rw [segmentRam, Function.update_self, writeBytes, writeBytes, hsub, Int.natCast_add]
  by_cases hin : o.toNat ≤ x.toNat ∧ x.toNat < o.toNat + ph.memsz.toNat
  · rw [if_pos hin]
    by_cases hfile : x.toNat < o.toNat + ph.filesz.toNat
    · rw [if_neg (by omega), if_pos ⟨hin.1, hfile⟩, if_pos hfile]
    · rw [if_pos (by omega), if_neg hfile]
  · rw [if_neg hin, if_neg (by omega), if_neg (by omega)]

/-- A header whose segment the byte is not in leaves it alone. -/
theorem phdrRam_of_not_mem {i : Nat} (hf : Fits P b i) {r : Ram} {x : Word}
    (hx : ¬InSegment P b i r x) (m : Memory) : phdrRam P b i m r x = m r x := by
  unfold phdrRam
  split
  · rename_i hl
    cases hm : P.mapped (b.ph i).vaddr (b.ph i).memsz with
    | none => rfl
    | some p =>
      obtain ⟨r', o⟩ := p
      have hs := hf.2 hl fun _ => by rw [hm]; rfl
      simp only []
      by_cases hr : r' = r
      · subst hr
        rw [segmentRam_apply _ hs.2, if_neg fun hin => hx ⟨hl, o, hm, hin⟩]
      · rw [segmentRam, Function.update_of_ne (Ne.symm hr)]
  · rfl

theorem phdrsRam_of_not_mem (n i : Nat) (hf : ∀ j < n, Fits P b (i + j)) {r : Ram} {x : Word}
    (hx : ∀ j < n, ¬InSegment P b (i + j) r x) (m : Memory) :
    phdrsRam P b n i m r x = m r x := by
  induction n generalizing i m with
  | zero => rfl
  | succ n ih =>
    rw [phdrsRam, ih (i + 1) (behind hf) (behind (p := fun j => ¬InSegment P b j r x) hx)]
    exact phdrRam_of_not_mem (hf 0 (Nat.succ_pos n)) (hx 0 (Nat.succ_pos n)) m

/-- The loop leaves in a segment what its own header stores there. -/
theorem phdrsRam_of_mem (n i : Nat) (hf : ∀ j < n, Fits P b (i + j)) {r : Ram} {x : Word} {j : Nat}
    (hj : j < n) (hx : InSegment P b (i + j) r x)
    (hsep : ∀ j' < n, InSegment P b (i + j') r x → j' = j) (m : Memory) :
    ∃ m', phdrsRam P b n i m r x = phdrRam P b (i + j) m' r x := by
  induction n generalizing i j m with
  | zero => exact absurd hj (Nat.not_lt_zero j)
  | succ n ih =>
    rw [phdrsRam]
    cases j with
    | zero =>
      refine ⟨m, phdrsRam_of_not_mem n (i + 1) (behind hf) (fun j' hj' hin => ?_) _⟩
      rw [Nat.add_right_comm] at hin
      exact absurd (hsep (j' + 1) (by omega) hin) (Nat.succ_ne_zero j')
    | succ j =>
      have hx' : InSegment P b (i + 1 + j) r x := by
        rw [Nat.add_right_comm]
        exact hx
      obtain ⟨m', hm'⟩ := ih (i + 1) (behind hf) (by omega) hx' (fun j' hj' hin => by
        rw [Nat.add_right_comm] at hin
        exact Nat.succ_inj.1 (hsep (j' + 1) (by omega) hin)) (phdrRam P b i m)
      refine ⟨m', ?_⟩
      rw [hm', Nat.add_right_comm]
      rfl

end Contents

/-! ## The whole file -/

/-- The byte `k` places behind one of a RAM is the one `k` addresses on. -/
theorem ramAt_add {P : Platform D} {bases : List (DevName × Word)} (hb : P.board.Realizes bases)
    {v : Word} {r : Ram} {o : Word} (h : P.ramAt v = some (r, o)) {k : Nat}
    (hk : (ioremap v).toNat + k < 2 ^ 29) (ho : o.toNat + k < r.size.toNat) :
    P.ramAt (v + BitVec.ofNat 32 k) = some (r, o + BitVec.ofNat 32 k) := by
  obtain ⟨d, hd, hr, rfl⟩ := ramAt_eq_some h
  obtain ⟨-, hon⟩ := findDevice_covers hb hd
  have hle := hon.start_le
  have hal := hon.aligned
  have hlt := (toNat_ioremap v).symm ▸ Nat.mod_lt v.toNat (show 0 < 2 ^ 29 by omega)
  rw [toNat_mrIndex, toNat_ioremap, Nat.mod_eq_of_lt (by omega)] at hle
  have hsub : (ioremap v - d.start).toNat = (ioremap v).toNat - d.start.toNat :=
    BitVec.toNat_sub_of_le (BitVec.le_def.2 (by omega))
  have hio : ioremap (v + BitVec.ofNat 32 k) = ioremap v + BitVec.ofNat 32 k := by
    apply BitVec.eq_of_toNat_eq
    have hv := toNat_ioremap v
    rw [toNat_ioremap, BitVec.toNat_add, BitVec.toNat_add, BitVec.toNat_ofNat]
    omega
  have hsum : (ioremap v + BitVec.ofNat 32 k).toNat = (ioremap v).toNat + k :=
    toNat_add_ofNat (by omega)
  have hsize := congrArg BitVec.toNat ((findDevice_size hb hd).trans (size_ram hr))
  have hd' : P.findDevice (ioremap (v + BitVec.ofNat 32 k)) = some d := by
    rw [hio]
    exact findDevice_of_mem hb hd (by omega) (by omega) (by omega)
  rw [Platform.ramAt, hd', Option.bind_some, hr, Option.map_some, hio, sub_add_eq_add_sub]

theorem store_of_not_mem (m : Memory) (r r' : Ram) {o x : Word} (v : Word)
    (ho : o.toNat + 4 ≤ 2 ^ 32) (hx : r' = r → ¬(o.toNat ≤ x.toNat ∧ x.toNat < o.toNat + 4)) :
    m.store r o 4 v r' x = m r' x := by
  by_cases hr : r' = r
  · subst hr
    rw [Memory.store, Function.update_self]
    refine if_neg fun hlt => hx rfl ?_
    have hxl := x.isLt
    rw [BitVec.toNat_sub] at hlt
    omega
  · rw [Memory.store, Function.update_of_ne hr]

theorem stored_of_not_mem (m : Memory) (r r' : Ram) {o x : Word} (entry : Word)
    (ho : o.toNat + 16 ≤ 2 ^ 32) (hx : r' = r → ¬(o.toNat ≤ x.toNat ∧ x.toNat < o.toNat + 16)) :
    stored m r o entry r' x = m r' x := by
  have h0 : (o + 0).toNat = o.toNat + 0 := toNat_add_ofNat (k := 0) (by omega)
  have h4 : (o + 4).toNat = o.toNat + 4 := toNat_add_ofNat (k := 4) (by omega)
  have h8 : (o + 8).toNat = o.toNat + 8 := toNat_add_ofNat (k := 8) (by omega)
  have h12 : (o + 12).toNat = o.toNat + 12 := toNat_add_ofNat (k := 12) (by omega)
  have hoff : ∀ k, k + 4 ≤ 16 → r' = r →
      ¬(o.toNat + k ≤ x.toNat ∧ x.toNat < o.toNat + k + 4) := fun k hk hr hin => hx hr (by omega)
  unfold stored
  rw [store_of_not_mem _ r r' _ (by omega) (h12 ▸ hoff 12 (by omega)),
    store_of_not_mem _ r r' _ (by omega) (h8 ▸ hoff 8 (by omega)),
    store_of_not_mem _ r r' _ (by omega) (h4 ▸ hoff 4 (by omega)),
    store_of_not_mem _ r r' _ (by omega) (h0 ▸ hoff 0 (by omega))]

section File

variable {P : Platform D} {b : FileBuf} (hp : Passes b)
include hp

theorem loadElf_eq (l : Loader D) : loadElf P b l =
    (loadPhdrs P b b.ePhnum.toNat 0 >>= fun _ =>
      if b.eEntry ≠ CPU_INIT_PC then liftExec (loadRom P b.eEntry) else pure ()) l := by
  unfold loadElf
  rw [bind_of_ok (loadAssert_true (by simp [hp.magic]) _),
    bind_of_ok (loadAssert_true (by simp [hp.elfClass]) _),
    bind_of_ok (loadAssert_true (by simp [hp.data]) _),
    bind_of_ok (loadAssert_true (by simp [hp.machine]) _)]

/-- `load_rom` touches neither the buffer nor a segment. -/
theorem touched_loadElf (l : Loader D) :
    (final (loadElf P b l)).touched = (final (loadPhdrs P b b.ePhnum.toNat 0 l)).touched := by
  rw [loadElf_eq hp, bind_apply]
  cases loadPhdrs P b b.ePhnum.toNat 0 l with
  | error e l' => rfl
  | ok a l' =>
    dsimp only
    split
    · unfold liftExec
      cases loadRom P b.eEntry l'.machine <;> rfl
    · rfl

/-- Where every header fits and is accepted, the file is loaded. -/
theorem loadElf_ok (hf : ∀ i < b.ePhnum.toNat, Fits P b i) (ha : Accepted P b) (s : Machine D) :
    ∃ l, loadElf P b ⟨s, []⟩ = .ok () l ∧ ∀ r x, ¬InStub P r x →
      l.machine.ram r x = phdrsRam P b b.ePhnum.toNat 0 s.ram r x := by
  have hzero : ∀ {p : Nat → Prop}, (∀ i < b.ePhnum.toNat, p i) →
      ∀ i < b.ePhnum.toNat, p (0 + i) := by
    intro p h i hi
    rw [Nat.zero_add]
    exact h i hi
  obtain ⟨ts, hts⟩ := loadPhdrs_goes b.ePhnum.toNat 0 (⟨s, []⟩ : Loader D) (hzero hp.headers)
    (hzero hf) (hzero ha.segments)
  rw [loadElf_eq hp, bind_of_ok hts]
  by_cases he : b.eEntry = CPU_INIT_PC
  · rw [if_neg (not_not.2 he)]
    exact ⟨_, rfl, fun r x _ => rfl⟩
  · obtain ⟨⟨r, o⟩, hro⟩ := Option.isSome_iff_exists.1 (ha.stub he)
    obtain ⟨hbase, hbound⟩ := mapped_eq_some hro
    have hbound : o.toNat + 16 ≤ r.size.toNat := hbound
    have hsize := size_lt r
    rw [if_pos he, liftExec_ok (loadRom_apply hbase hbound b.eEntry _)]
    refine ⟨_, rfl, fun r' x hx => ?_⟩
    refine stored_of_not_mem _ r r' b.eEntry (by omega) fun hr hin => hx ⟨o, ?_, hin⟩
    rw [hr]
    exact hro

omit hp in
/-- The bytes of the segments. -/
theorem holds_loadElf {bases : List (DevName × Word)} (hb : P.board.Realizes bases)
    (ha : Accepted P b) (hf : ∀ i < b.ePhnum.toNat, Fits P b i) (hs : Separate P b) {m m₀ : Memory}
    (hm : ∀ r x, ¬InStub P r x → m r x = phdrsRam P b b.ePhnum.toNat 0 m₀ r x) : Holds P b m := by
  intro i hi hl k hk
  obtain ⟨⟨r, o⟩, hro⟩ := Option.isSome_iff_exists.1 (ha.segments i hi hl)
  have hends := ha.ends i hi hl
  obtain ⟨hsrc, hle⟩ := (hf i hi).2 hl fun _ => by rw [hro]; rfl
  obtain ⟨hram, hbound⟩ := mapped_eq_some hro
  have hsize := size_lt r
  refine ⟨r, o + BitVec.ofNat 32 k, ramAt_add hb hram (by omega) (by omega), ?_⟩
  have hx : (o + BitVec.ofNat 32 k).toNat = o.toNat + k := toNat_add_ofNat (by omega)
  generalize o + BitVec.ofNat 32 k = x at hx
  have hin : InSegment P b i r x := ⟨hl, o, hro, by omega, by omega⟩
  have hzero : InSegment P b (0 + i) r x := by
    rw [Nat.zero_add]
    exact hin
  obtain ⟨m', hm'⟩ := phdrsRam_of_mem b.ePhnum.toNat 0 (fun j hj => by
    rw [Nat.zero_add]
    exact hf j hj) hi hzero (fun j' hj' hin' => by
    rw [Nat.zero_add] at hin'
    exact hs.segments j' i r x hj' hi hin' hin) m₀
  have hram : phdrRam P b i m' r x = segmentRam b (b.ph i) r o m' r x := by
    rw [phdrRam, if_pos hl, hro]
  have hbyte : m r x = if x.toNat < o.toNat + (b.ph i).filesz.toNat then
      b.u8 (((b.ph i).offset.toNat + (x.toNat - o.toNat) : Nat) : Int) else 0 := by
    rw [hm r x (hs.stub i r x hi hin), hm', Nat.zero_add, hram, segmentRam_apply _ hle,
      if_pos (by omega)]
  have hk' : x.toNat - o.toNat = k := by omega
  rw [hbyte, hk']
  by_cases hfile : k < (b.ph i).filesz.toNat
  · have hlt : (b.ph i).offset.toNat + k < b.file.length := by omega
    have hu8 : b.u8 ((b.ph i).offset.toNat + k : Nat) = b.file[(b.ph i).offset.toNat + k] := by
      rw [FileBuf.u8, if_pos ⟨Int.natCast_nonneg _, Int.ofNat_lt.2 hlt⟩, Int.toNat_natCast]
      exact List.getD_eq_getElem _ _ hlt
    rw [if_pos hfile, if_pos (by omega), hu8]
    exact List.getElem?_eq_getElem hlt
  · rw [if_neg hfile, if_neg (by omega)]

/-- Loading stays in bounds, and loads what the segments say, exactly for the files whose
    headers are inside the file as far as they are read, each with its bytes inside the file
    and inside its segment. -/
theorem loadElf_iff {bases : List (DevName × Word)} (hb : P.board.Realizes bases)
    (s : Machine D) :
    ((∀ t ∈ (final (loadElf P b ⟨s, []⟩)).touched, t.InBounds b.file.length) ∧
      (Accepted P b → (∀ i < b.ePhnum.toNat, (b.ph i).type = PT_LOAD →
        (b.ph i).filesz ≤ (b.ph i).memsz) → Separate P b →
        ∃ l, loadElf P b ⟨s, []⟩ = .ok () l ∧ Holds P b l.machine.ram)) ↔
      ∀ i < b.ePhnum.toNat, (∀ j < i, Maps P b j) → Fits P b i := by
  have hiff := loadPhdrs_inBounds_iff (P := P) b.ePhnum.toNat 0 (⟨s, []⟩ : Loader D)
    (fun j hj => by rw [Nat.zero_add]; exact hp.headers j hj)
    (fun t ht => absurd ht List.not_mem_nil)
  simp only [Nat.zero_add] at hiff
  rw [touched_loadElf hp, hiff]
  refine ⟨fun h => h.1, fun h => ⟨h, fun ha _ hs => ?_⟩⟩
  have hf : ∀ i < b.ePhnum.toNat, Fits P b i := fun i hi =>
    h i hi fun j hj => ha.segments j (Nat.lt_trans hj hi)
  obtain ⟨l, hl, hram⟩ := loadElf_ok hp hf ha s
  exact ⟨l, hl, holds_loadElf hb ha hf hs hram⟩

end File

/-- An executable with the entry point 0x80001000 and one segment, which starts with the file
    itself. -/
def elfDemo (filesz memsz : Word) : FileBuf where
  file := ([0x464c457f, 0x00010101, 0, 0, 0x00080002, 1, 0x80001000, 52, 0, 0, 0x00200034, 1, 0,
    PT_LOAD, 0, 0x80001000, 0x80001000, filesz, memsz, 5, 0x1000] : List Word).flatMap fun w =>
      [w.extractLsb' 0 8, w.extractLsb' 8 8, w.extractLsb' 16 8, w.extractLsb' 24 8]
  around := fun _ => 0

/-- The assertions for a file with one program header. -/
theorem passes_of_single {b : FileBuf} (h : b.u32 0 = 0x464c457f ∧ b.u8 4 = 1 ∧ b.u8 5 = 1 ∧
    b.eMachine = 8 ∧ b.ePhnum = 1 ∧ (b.phdrOff 0).slt b.size = true ∧
    (b.ph 0).offset.ult b.size = true) : Passes b := by
  obtain ⟨hmagic, hclass, hdata, hmachine, hnum, hslt, hult⟩ := h
  refine ⟨hmagic, hclass, hdata, hmachine, fun i hi => ?_⟩
  rw [hnum] at hi
  obtain rfl : i = 0 := Nat.lt_one_iff.1 hi
  exact ⟨hslt, hult⟩

/-- The whole file, with a zero-filled rest of the segment behind it. -/
theorem loadElf_iff_elfDemo :
    (∀ t ∈ (final (loadElf mips32r1 (elfDemo 84 0x100) ⟨zeroed, []⟩)).touched,
      t.InBounds (elfDemo 84 0x100).file.length) ∧
    ∃ l, loadElf mips32r1 (elfDemo 84 0x100) ⟨zeroed, []⟩ = .ok () l ∧
      Holds mips32r1 (elfDemo 84 0x100) l.machine.ram := by
  have hp : Passes (elfDemo 84 0x100) := passes_of_single (by decide)
  have hnum : ∀ i < (elfDemo 84 0x100).ePhnum.toNat, i = 0 := by decide
  have hseg : mips32r1.mapped ((elfDemo 84 0x100).ph 0).vaddr ((elfDemo 84 0x100).ph 0).memsz =
      some (.ddr, 0x1000) := by decide
  have hstub : mips32r1.mapped CPU_INIT_PC 16 = some (.bram, 0) := by decide
  have haccepted : Accepted mips32r1 (elfDemo 84 0x100) := by
    refine ⟨fun i hi => ?_, fun i hi => ?_, fun _ => by rw [hstub]; rfl⟩
    · obtain rfl := hnum i hi
      exact fun _ => by rw [hseg]; rfl
    · obtain rfl := hnum i hi
      exact fun _ => by decide
  have hseparate : Separate mips32r1 (elfDemo 84 0x100) := by
    refine ⟨fun i j r x hi hj _ _ => (hnum i hi).trans (hnum j hj).symm, fun i r x hi hin => ?_⟩
    obtain rfl := hnum i hi
    obtain ⟨-, o, ho, -⟩ := hin
    rw [hseg] at ho
    cases ho
    rintro ⟨o', ho', -⟩
    rw [hstub] at ho'
    cases ho'
  have h := (loadElf_iff (P := mips32r1) hp ramBoard_realizes zeroed).2 (by decide)
  refine ⟨h.1, h.2 haccepted (fun i hi _ => ?_) hseparate⟩
  obtain rfl := hnum i hi
  decide

theorem passes_truncated : Passes (elfDemo 0x1000 0x1000) := passes_of_single (by decide)

/-- A file that was cut off after its headers: `p_filesz` is 4096 where 84 bytes are left. The
    assertions hold, and `memcpy` reads past the buffer. -/
theorem truncated_read : Passes (elfDemo 0x1000 0x1000) ∧
    ¬∀ t ∈ (final (loadElf mips32r1 (elfDemo 0x1000 0x1000) ⟨zeroed, []⟩)).touched,
      t.InBounds (elfDemo 0x1000 0x1000).file.length := by
  refine ⟨passes_truncated, fun h => ?_⟩
  have hsrc : LoadTouch.source 0 0x1000 ∈
      (final (loadElf mips32r1 (elfDemo 0x1000 0x1000) ⟨zeroed, []⟩)).touched := by decide
  have hbad := h _ hsrc 84 (by omega)
  exact absurd hbad (by decide)

end NemuMips32
