/-
  Address translation as a function of the state. `page_translate` searches the TLB
  (`lookup`), lets the entry it finds decide (`TlbEntry.decide`), and only then acts: it
  returns an address, raises a TLB exception, or aborts on a page mask.

  * `pageTranslate_eq`, `protAddrWithAttr_eq`: the programs of `Mmu` are `Platform.translate`
    followed by what its verdict asks for.
  * `vaddrRead_eq`, `vaddrWrite_eq`: an access goes to the cached page, or acts on the
    verdict; where that is a fault it reads 0 and writes nothing, and all it leaves behind is
    the exception.
-/
import NemuMips32.Mmu

namespace NemuMips32

open StateExcept

variable {D : Type}

/-! ## The verdict of a translation -/

/-- The arguments of `tlb_exception`, less the address. -/
structure TlbFault where
  ex : ExKind
  code : ExcCode
  asid : BitVec 8
  deriving DecidableEq

/-- What a translation comes to. -/
inductive Verdict where
  | ok (paddr : Word) (dirty : Bool)
  | fault (f : TlbFault)
  | abort (why : Halt)
  deriving DecidableEq

/-- The outcome of the search loop of `page_translate`. -/
inductive Lookup where
  | hit (e : TlbEntry)
  | miss
  | abort

/-- The first entry that matches, unless a bad page mask comes before it. -/
def lookup (tlb : Fin 32 → TlbEntry) (vaddr : Word) (asid : BitVec 8) :
    List (Fin 32) → Lookup
  | [] => .miss
  | i :: is =>
    if !pagemaskOk (tlb i).pagemask then .abort
    else if (tlb i).matches (vaddr >>> 13) asid then .hit (tlb i)
    else lookup tlb vaddr asid is

/-- What a matching entry decides. -/
def TlbEntry.decide (e : TlbEntry) (vaddr : Word) (rw : Access) : Verdict :=
  if (e.phyn vaddr).v = false then .fault ⟨.tlbInvalid, rw.exccode, e.asid⟩
  else if (e.phyn vaddr).d = false ∧ rw = .store then .fault ⟨.tlbModified, .TLBM, e.asid⟩
  else .ok (e.paddr vaddr) (e.phyn vaddr).d

def Lookup.decide (l : Lookup) (vaddr : Word) (rw : Access) (asid : BitVec 8) : Verdict :=
  match l with
  | .hit e => e.decide vaddr rw
  | .miss => .fault ⟨.tlbRefill, rw.exccode, asid⟩
  | .abort => .abort .assert

/-- `page_translate` as a function. -/
def Arch.pageVerdict (a : Arch D) (vaddr : Word) (rw : Access) : Verdict :=
  (lookup a.tlb vaddr a.cpu.cp0.entryHi.asid (List.finRange 32)).decide vaddr rw
    a.cpu.cp0.entryHi.asid

def Verdict.remap : Verdict → Verdict
  | .ok p d => .ok (ioremap p) d
  | v => v

/-- `prot_addr_with_attr` as a function. -/
def Platform.translate (P : Platform D) (a : Arch D) (vaddr : Word) (rw : Access) : Verdict :=
  match (vaddr >>> 29).toNat with
  | 4 => .ok (ioremap vaddr) false
  | 5 => .ok (ioremap vaddr) false
  | 7 => .abort .panic
  | 6 => if !P.cfg.paging then .ok vaddr false else (a.pageVerdict vaddr rw).remap
  | _ =>
    if !P.cfg.paging || a.cpu.cp0.status.ERL then .ok vaddr false
    else (a.pageVerdict vaddr rw).remap

/-! ## Raising -/

/-- `raise_exception` on the machine, for the codes that do not panic. -/
def Machine.raise (P : Platform D) (e : Exception) (s : Machine D) : Machine D :=
  { toArch := s.toArch.raise P.cfg e, mmuCache := clearMmu s.mmuCache, dc := s.dc.clear }

/-- `tlb_exception` on the machine. -/
def Machine.fault (P : Platform D) (f : TlbFault) (vaddr : Word) (s : Machine D) : Machine D :=
  Machine.raise P ⟨f.ex, f.code⟩
    { s with cpu := { s.cpu with cp0 := s.cpu.cp0.setFault vaddr f.asid } }

theorem raiseException_apply (P : Platform D) {e : Exception} (he : e.code ≠ .TRAP)
    (s : Machine D) : raiseException P e s = .ok () (s.raise P e) := by
  simp only [raiseException, if_neg he]
  rfl

theorem tlbException_apply (P : Platform D) (ex : ExKind) {code : ExcCode}
    (hc : code ≠ .TRAP) (vaddr : Word) (asid : BitVec 8) (s : Machine D) :
    tlbException P ex code vaddr asid s = .ok () (s.fault P ⟨ex, code, asid⟩ vaddr) :=
  raiseException_apply P (e := ⟨ex, code⟩) hc _

theorem exccode_ne_trap (rw : Access) : rw.exccode ≠ .TRAP := by
  cases rw <;> decide

/-- A translation that asks for an exception gets one of the TLB's. -/
theorem pageVerdict_code {a : Arch D} {vaddr : Word} {rw : Access} {f : TlbFault}
    (h : a.pageVerdict vaddr rw = .fault f) : f.code = rw.exccode ∨ f.code = .TLBM := by
  simp only [Arch.pageVerdict, Lookup.decide, TlbEntry.decide] at h
  grind

/-- Only a mapped address faults. -/
theorem translate_fault {P : Platform D} {a : Arch D} {vaddr : Word} {rw : Access} {f : TlbFault}
    (h : P.translate a vaddr rw = .fault f) : a.pageVerdict vaddr rw = .fault f := by
  have hr : ∀ v : Verdict, v.remap = .fault f → v = .fault f := by
    intro v hv
    cases v <;> simp_all [Verdict.remap]
  unfold Platform.translate at h
  split at h
  · cases h
  · cases h
  · cases h
  · split at h
    · cases h
    · exact hr _ h
  · split at h
    · cases h
    · exact hr _ h

theorem translate_code {P : Platform D} {a : Arch D} {vaddr : Word} {rw : Access} {f : TlbFault}
    (h : P.translate a vaddr rw = .fault f) : f.code = rw.exccode ∨ f.code = .TLBM :=
  pageVerdict_code (translate_fault h)

theorem translate_ex {P : Platform D} {a : Arch D} {vaddr : Word} {rw : Access} {f : TlbFault}
    (h : P.translate a vaddr rw = .fault f) : f.ex ≠ .none := by
  have hv := translate_fault h
  simp only [Arch.pageVerdict, Lookup.decide, TlbEntry.decide] at hv
  grind

/-! ## The programs compute the verdict -/

/-- What `page_translate` does, given the verdict. -/
def Verdict.act (P : Platform D) (vaddr : Word) (rw : Access) (exbit : Bool) (v : Verdict)
    (s : Machine D) : EStateM.Result Stop (Machine D) (Word × MmuAttr) :=
  match v with
  | .ok p d => .ok (p, { MmuAttr.init rw exbit with dirty := d }) s
  | .fault f =>
    .ok (blackholeDev.start, { MmuAttr.init rw exbit with miss := f.ex = .tlbRefill })
      (if exbit then s.fault P f vaddr else s)
  | .abort why => .error (.halt why) s

theorem pageTranslateFrom_eq (P : Platform D) (vaddr : Word) (rw : Access) (exbit : Bool)
    (s : Machine D) (is : List (Fin 32)) :
    pageTranslateFrom P vaddr (.init rw exbit) is s =
      ((lookup s.tlb vaddr s.cpu.cp0.entryHi.asid is).decide vaddr rw
        s.cpu.cp0.entryHi.asid).act P vaddr rw exbit s := by
  have hc := exccode_ne_trap rw
  induction is with
  | nil =>
    cases exbit <;>
      simp [pageTranslateFrom, lookup, Lookup.decide, Verdict.act, MmuAttr.init, bind_apply,
        map_apply, tlbException_apply P _ hc]
  | cons i is ih =>
    simp only [pageTranslateFrom, bind_apply, get_apply, lookup]
    by_cases hm : pagemaskOk (s.tlb i).pagemask = true
    · by_cases hv : (s.tlb i).matches (vaddr >>> 13) s.cpu.cp0.entryHi.asid = true
      · simp only [hm, hv, Lookup.decide, TlbEntry.decide]
        by_cases h1 : ((s.tlb i).phyn vaddr).v = false
        · cases exbit <;>
            simp [h1, Verdict.act, MmuAttr.init, map_apply, tlbException_apply P _ hc]
        · by_cases h2 : ((s.tlb i).phyn vaddr).d = false ∧ rw = .store
          · cases exbit <;>
              simp [h1, h2.1, h2.2, Verdict.act, MmuAttr.init, map_apply, tlbException_apply]
          · simp [h1, h2, Verdict.act, MmuAttr.init]
      · simpa [hm, hv] using ih
    · simp [hm, Lookup.decide, Verdict.act, halt]

theorem pageTranslate_eq (P : Platform D) (vaddr : Word) (rw : Access) (exbit : Bool)
    (s : Machine D) :
    pageTranslate P vaddr (.init rw exbit) s =
      (s.pageVerdict vaddr rw).act P vaddr rw exbit s :=
  pageTranslateFrom_eq P vaddr rw exbit s _

theorem ioremap_blackhole : ioremap blackholeDev.start = blackholeDev.start := by decide

theorem act_remap (P : Platform D) (vaddr : Word) (rw : Access) (exbit : Bool) (v : Verdict)
    (s : Machine D) :
    v.remap.act P vaddr rw exbit s =
      match v.act P vaddr rw exbit s with
      | .ok (p, attr) t => .ok (ioremap p, attr) t
      | .error e t => .error e t := by
  cases v <;> simp [Verdict.act, Verdict.remap, ioremap_blackhole]

theorem protAddrWithAttr_eq (P : Platform D) (vaddr : Word) (rw : Access) (exbit : Bool)
    (s : Machine D) :
    protAddrWithAttr P vaddr (.init rw exbit) s =
      (P.translate s.toArch vaddr rw).act P vaddr rw exbit s := by
  have hmapped : (pageTranslate P vaddr (.init rw exbit) >>= fun x =>
      (pure (ioremap x.1, x.2) : Exec D (Word × MmuAttr))) s =
      (s.pageVerdict vaddr rw).remap.act P vaddr rw exbit s := by
    rw [bind_apply, pageTranslate_eq, act_remap]
    cases (s.pageVerdict vaddr rw).act P vaddr rw exbit s <;> rfl
  have hseg : ∀ erl : Bool, (if (!P.cfg.paging || erl) = true then
        (pure (vaddr, .init rw exbit) : Exec D (Word × MmuAttr))
      else pageTranslate P vaddr (.init rw exbit) >>= fun x => pure (ioremap x.1, x.2)) s =
      (if (!P.cfg.paging || erl) = true then Verdict.ok vaddr false
        else (s.pageVerdict vaddr rw).remap).act P vaddr rw exbit s := by
    intro erl
    split
    · rfl
    · exact hmapped
  simp only [protAddrWithAttr, Platform.translate]
  have hlt : (vaddr >>> 29).toNat < 8 := by
    rw [BitVec.toNat_ushiftRight, Nat.shiftRight_eq_div_pow]
    have := vaddr.isLt
    omega
  generalize (vaddr >>> 29).toNat = k at hlt
  have hk : k = 4 ∨ k = 5 ∨ k = 7 ∨ k = 6 ∨ k = 0 ∨ k = 1 ∨ k = 2 ∨ k = 3 := by omega
  rcases hk with rfl | rfl | rfl | rfl | rfl | rfl | rfl | rfl
  · rfl
  · rfl
  · rfl
  · simpa using hseg false
  all_goals exact hseg s.cpu.cp0.status.ERL

/-! ## Accesses -/

/-- The access finds its page in the MMU cache; a store finds it writable. -/
def Machine.cached (P : Platform D) (s : Machine D) (rw : Access) (addr : Word) : Prop :=
  match rw with
  | .load => P.cfg.mmuCache = true ∧ (s.mmuCache (mmuCacheIndex addr)).id = mmuCacheId addr
  | .store =>
    P.cfg.mmuCache = true ∧ (s.mmuCache (mmuCacheIndex addr)).id = mmuCacheId addr ∧
      (s.mmuCache (mmuCacheIndex addr)).canWrite = true

instance (P : Platform D) (s : Machine D) (rw : Access) (addr : Word) :
    Decidable (s.cached P rw addr) :=
  match rw with
  | .load => inferInstanceAs (Decidable (_ ∧ _))
  | .store => inferInstanceAs (Decidable (_ ∧ _ ∧ _))

/-- `vaddr_read` once the address is translated. -/
def readPaddr (P : Platform D) (addr paddr : Word) (dirty : Bool) (len : Nat) :
    Exec D Word :=
  match P.findDevice paddr with
  | none => halt .cpuAssert
  | some dev =>
    match P.devRead dev.name with
    | none => halt .cpuAssert
    | some read => do
      updateMmuCache addr paddr dev dirty
      read (paddr - dev.start) len

/-- `vaddr_write` once the address is translated. -/
def writePaddr (P : Platform D) (addr paddr : Word) (len : Nat) (data : Word) :
    Exec D Unit :=
  match P.findDevice paddr with
  | none => halt .cpuAssert
  | some dev =>
    match P.devWrite dev.name with
    | none => halt .cpuAssert
    | some write => do
      updateMmuCache addr paddr dev true
      write (paddr - dev.start) len data

@[simp] theorem hasException_fault (P : Platform D) (f : TlbFault) (vaddr : Word)
    (s : Machine D) : (s.fault P f vaddr).cpu.hasException = true := rfl

theorem updateMmuCache_of_exception {s : Machine D} (h : s.cpu.hasException = true)
    (vaddr paddr : Word) (dev : Device) (w : Bool) :
    updateMmuCache vaddr paddr dev w s = .ok () s := by
  simp [updateMmuCache, bind_apply, h]

theorem findDevice_blackholeStart (P : Platform D) :
    P.findDevice blackholeDev.start = some blackholeDev := by
  rw [← ioremap_blackhole]
  exact findDevice_blackhole P

/-- After a fault the black hole answers, with 0. -/
theorem readPaddr_blackhole (P : Platform D) {s : Machine D} (h : s.cpu.hasException = true)
    (addr : Word) (dirty : Bool) (len : Nat) :
    readPaddr P addr blackholeDev.start dirty len s = .ok 0 s := by
  have hd : P.devRead blackholeDev.name = some fun _ _ => pure 0 := rfl
  simp only [readPaddr, findDevice_blackholeStart, hd, bind_apply,
    updateMmuCache_of_exception h]
  rfl

theorem writePaddr_blackhole (P : Platform D) {s : Machine D} (h : s.cpu.hasException = true)
    (addr : Word) (len : Nat) (data : Word) :
    writePaddr P addr blackholeDev.start len data s = .ok () s := by
  have hd : P.devWrite blackholeDev.name = some fun _ _ _ => pure () := rfl
  simp only [writePaddr, findDevice_blackholeStart, hd, bind_apply,
    updateMmuCache_of_exception h]
  rfl

theorem vaddrRead_eq (P : Platform D) (addr : Word) (len : Nat) (s : Machine D) :
    vaddrRead P addr len s =
      if s.cached P .load addr then
        hostRead (s.mmuCache (mmuCacheIndex addr)).ptr (addr &&& 0xFFF) len s
      else
        match P.translate s.toArch addr .load with
        | .ok p d => readPaddr P addr p d len s
        | .fault f => .ok 0 (s.fault P f addr)
        | .abort why => .error (.halt why) s := by
  simp only [vaddrRead, bind_apply, get_apply, ite_run]
  by_cases hc : s.cached P .load addr
  · rw [if_pos hc]
    exact if_pos hc
  · rw [if_neg hc]
    refine (if_neg hc).trans ?_
    rw [protAddrWithAttr_eq]
    cases P.translate s.toArch addr .load with
    | ok p d => rfl
    | fault f =>
      exact readPaddr_blackhole P (hasException_fault P f addr s) addr _ len
    | abort why => rfl

theorem vaddrWrite_eq (P : Platform D) (addr : Word) (len : Nat) (data : Word)
    (s : Machine D) :
    vaddrWrite P addr len data s =
      if s.cached P .store addr then
        hostWrite (s.mmuCache (mmuCacheIndex addr)).ptr (addr &&& 0xFFF) len data s
      else
        match P.translate s.toArch addr .store with
        | .ok p _ => writePaddr P addr p len data s
        | .fault f => .ok () (s.fault P f addr)
        | .abort why => .error (.halt why) s := by
  simp only [vaddrWrite, bind_apply, get_apply, ite_run]
  by_cases hc : s.cached P .store addr
  · rw [if_pos hc]
    exact if_pos hc
  · rw [if_neg hc]
    refine (if_neg hc).trans ?_
    rw [protAddrWithAttr_eq]
    cases P.translate s.toArch addr .store with
    | ok p d => rfl
    | fault f =>
      exact writePaddr_blackhole P (hasException_fault P f addr s) addr len data
    | abort why => rfl

end NemuMips32
