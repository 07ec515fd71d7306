/-
  The symbol lookup of `elfsym.c` and its cache. The cache has one slot for each value of the
  low 12 address bits, and a slot is recognised by its address alone: `malloc` and `memset`
  leave it looking like the answer NULL for address 0.

  `Transparent` is what a run of lookups should do. The code does it exactly on the runs of
  `Safe`: address 0 is looked up only after another address has filled its slot, and the linear
  search itself finds the right name. That search takes the end of a function in 32 bits, so it
  never finds a function that ends at 2^32 or beyond, and it stops the emulator at a name
  outside the string table.
-/
import NemuMips32.Machine

namespace NemuMips32

/-! ## Program -/

structure Elf32Sym where
  name : Word
  value : Word
  size : Word
  info : BitVec 8

def STT_FUNC : BitVec 8 := 2

def ELF32_ST_TYPE (info : BitVec 8) : BitVec 8 := info &&& 0xf

/-- The text behind a `const char *`: in the string table, or the literal "?". -/
inductive SymName where
  | strtab (off : Nat)
  | notfound
  deriving DecidableEq

/-- A slot of `addr2sym_cache`; a `sym` of none is NULL. -/
structure Addr2Sym where
  sym : Option SymName
  addr : Word

def ADDR2SYM_CACHE_BITS : Nat := 12

structure Elfsym where
  strtab : List (BitVec 8)
  symtab : List Elf32Sym
  addr2symCache : Option (Nat → Addr2Sym)

/-- `addr_in_range`. -/
def Elf32Sym.addrInRange (s : Elf32Sym) (addr : Word) : Bool :=
  s.value ≤ addr ∧ addr < s.value + s.size

def Elf32Sym.isFunc (s : Elf32Sym) : Bool := ELF32_ST_TYPE s.info = STT_FUNC

namespace Elfsym

/-- `strtab_size`, an `int`. -/
def strtabSize (es : Elfsym) : Int := (BitVec.ofNat 32 es.strtab.length).toInt

/-- `strtab + st_name`, under the assertion; a pointer before the table is undefined. -/
def nameAt (es : Elfsym) (s : Elf32Sym) : Except Halt SymName :=
  if ¬s.name.toInt < es.strtabSize then .error .assert
  else if s.name.toInt < 0 then .error .undefined
  else .ok (.strtab s.name.toNat)

/-- The loop of `elfsym_find_symbol` from a symbol on. -/
def searchFrom (es : Elfsym) (addr : Word) : List Elf32Sym → Except Halt SymName
  | [] => .ok .notfound
  | s :: rest =>
    if !s.addrInRange addr then es.searchFrom addr rest
    else if !s.isFunc then es.searchFrom addr rest
    else es.nameAt s

def search (es : Elfsym) (addr : Word) : Except Halt SymName := es.searchFrom addr es.symtab

/-- The slot of an address. -/
def slot (addr : Word) : Nat := (addr &&& ((1 <<< ADDR2SYM_CACHE_BITS) - 1)).toNat

/-- `elfsym_find_symbol`. -/
def find (es : Elfsym) (addr : Word) : Except Halt (Option SymName × Elfsym) :=
  match es.addr2symCache with
  | some c =>
    if (c (slot addr)).addr = addr then .ok ((c (slot addr)).sym, es)
    else do
      let sym ← es.search addr
      .ok (some sym,
        { es with addr2symCache := some (Function.update c (slot addr) ⟨some sym, addr⟩) })
  | none => do
    let sym ← es.search addr
    .ok (some sym, es)

/-- `elfsym_optimize_find_symbol`. -/
def optimize (es : Elfsym) : Elfsym := { es with addr2symCache := some fun _ => ⟨none, 0⟩ }

def uncached (es : Elfsym) : Elfsym := { es with addr2symCache := none }

/-- The C string at a name. -/
def text (es : Elfsym) : SymName → List (BitVec 8)
  | .strtab off => (es.strtab.drop off).takeWhile (· ≠ 0)
  | .notfound => [0x3f]

/-- The strings that a run of lookups returns, none for NULL. -/
def answers (es : Elfsym) : List Word → Except Halt (List (Option (List (BitVec 8))))
  | [] => .ok []
  | addr :: rest => do
    let (sym, es') ← es.find addr
    let tail ← answers es' rest
    .ok (sym.map es.text :: tail)

/-! ## What it should return -/

end Elfsym

/-- The address is one of the `size` addresses from `value` on. -/
def Elf32Sym.Covers (s : Elf32Sym) (addr : Word) : Prop :=
  s.value.toNat ≤ addr.toNat ∧ addr.toNat < s.value.toNat + s.size.toNat

instance (s : Elf32Sym) (addr : Word) : Decidable (s.Covers addr) :=
  inferInstanceAs (Decidable (_ ∧ _))

namespace Elfsym

/-- The first function that covers the address. -/
def owner (es : Elfsym) (addr : Word) : Option Elf32Sym :=
  es.symtab.find? fun s => s.isFunc ∧ s.Covers addr

/-- The first such function that ends below 2^32. -/
def nearest (es : Elfsym) (addr : Word) : Option Elf32Sym :=
  es.symtab.find? fun s => s.isFunc ∧ s.Covers addr ∧ s.value.toNat + s.size.toNat < 2 ^ 32

/-- The name of a function, or "?". -/
def nameOf (es : Elfsym) : Option Elf32Sym → List (BitVec 8)
  | some s => es.text (.strtab s.name.toNat)
  | none => es.text .notfound

/-- A run of lookups returns what it returns without the cache, and that is the name of the
    first function at each address; never NULL. -/
structure Transparent (es : Elfsym) (addrs : List Word) : Prop where
  same : es.optimize.answers addrs = es.uncached.answers addrs
  name : es.optimize.answers addrs = .ok (addrs.map fun a => some (es.nameOf (es.owner a)))

/-- The name of the function that the search stops at is in the string table, and passing over
    the functions that end at 2^32 or beyond does not change the name. -/
structure Resolves (es : Elfsym) (addr : Word) : Prop where
  inTable : ∀ s, es.nearest addr = some s → 0 ≤ s.name.toInt ∧ s.name.toInt < es.strtabSize
  name : es.nameOf (es.nearest addr) = es.nameOf (es.owner addr)

/-- Address 0 is looked up only after another address of its slot. -/
structure Safe (es : Elfsym) (addrs : List Word) : Prop where
  zero : ∀ l₁ l₂, addrs = l₁ ++ 0 :: l₂ → ∃ a ∈ l₁, a ≠ 0 ∧ slot a = 0
  resolves : ∀ a ∈ addrs, es.Resolves a

/-! ## The linear search -/

theorem addrInRange_iff (s : Elf32Sym) (addr : Word) :
    s.addrInRange addr = true ↔ s.Covers addr ∧ s.value.toNat + s.size.toNat < 2 ^ 32 := by
  have hv := s.value.isLt
  have hs := s.size.isLt
  rw [Elf32Sym.addrInRange, decide_eq_true_eq, BitVec.le_def, BitVec.lt_def, BitVec.toNat_add,
    Elf32Sym.Covers]
  by_cases hwrap : s.value.toNat + s.size.toNat < 2 ^ 32
  · rw [Nat.mod_eq_of_lt hwrap]
    exact ⟨fun h => ⟨h, hwrap⟩, fun h => h.1⟩
  · have hmod : (s.value.toNat + s.size.toNat) % 2 ^ 32 =
        s.value.toNat + s.size.toNat - 2 ^ 32 := by
      rw [Nat.mod_eq_sub_mod (by omega), Nat.mod_eq_of_lt (by omega)]
    rw [hmod]
    constructor
    · intro h
      omega
    · exact fun h => absurd h.2 hwrap

/-- The search stops at the first function that covers the address and ends below 2^32. -/
theorem search_eq (es : Elfsym) (addr : Word) :
    es.search addr = (es.nearest addr).elim (.ok .notfound) es.nameAt := by
  rw [search, nearest]
  induction es.symtab with
  | nil => rfl
  | cons s rest ih =>
    have htest : decide (s.isFunc = true ∧ s.Covers addr ∧
        s.value.toNat + s.size.toNat < 2 ^ 32) = (s.isFunc && s.addrInRange addr) := by
      rw [Bool.eq_iff_iff, decide_eq_true_eq, Bool.and_eq_true, addrInRange_iff]
    rw [searchFrom, List.find?_cons, htest]
    by_cases hr : s.addrInRange addr = true
    · by_cases hf : s.isFunc = true
      · rw [hr, hf]
        rfl
      · rw [hr, Bool.eq_false_iff.2 hf]
        exact ih
    · rw [Bool.eq_false_iff.2 hr, Bool.and_false]
      exact ih

/-- The search finds the right name exactly where it resolves. -/
theorem resolves_iff (es : Elfsym) (addr : Word) :
    es.Resolves addr ↔
      ∃ sym, es.search addr = .ok sym ∧ es.text sym = es.nameOf (es.owner addr) := by
  rw [search_eq]
  cases hn : es.nearest addr with
  | none =>
    constructor
    · intro h
      have hname := h.name
      rw [hn] at hname
      exact ⟨.notfound, rfl, hname⟩
    · rintro ⟨sym, hsym, hname⟩
      cases hsym
      exact ⟨fun s hs => (by rw [hn] at hs; cases hs), hn ▸ hname⟩
  | some s =>
    simp only [Option.elim_some, nameAt]
    constructor
    · intro h
      have htable := h.inTable s hn
      have hname := h.name
      rw [hn] at hname
      rw [if_neg (by omega), if_neg (by omega)]
      exact ⟨_, rfl, hname⟩
    · rintro ⟨sym, hsym, hname⟩
      split at hsym
      · cases hsym
      · split at hsym
        · cases hsym
        · cases hsym
          refine ⟨fun s' hs => ?_, hn ▸ hname⟩
          rw [hn] at hs
          cases hs
          omega

/-! ## The cache -/

/-- Every slot is as `memset` left it, or holds what the search finds for its address. -/
def CacheOk (es : Elfsym) (c : Nat → Addr2Sym) : Prop :=
  ∀ i, c i = ⟨none, 0⟩ ∨ ∃ sym, (c i).sym = some sym ∧ es.search (c i).addr = .ok sym

/-- Address 0 is looked up only once slot 0 is filled; `filled` says that it is already. -/
def ZeroOk (filled : Prop) : List Word → Prop
  | [] => True
  | a :: rest => (a = 0 → filled) ∧ ZeroOk (filled ∨ a ≠ 0 ∧ slot a = 0) rest

theorem slot_zero : slot 0 = 0 := by decide

variable {es : Elfsym} {c : Nat → Addr2Sym}

theorem CacheOk.fill (hc : es.CacheOk c) {addr : Word} {sym : SymName}
    (h : es.search addr = .ok sym) :
    es.CacheOk (Function.update c (slot addr) ⟨some sym, addr⟩) := by
  intro i
  by_cases hi : i = slot addr
  · rw [hi, Function.update_self]
    exact .inr ⟨sym, rfl, h⟩
  · rw [Function.update_of_ne hi]
    exact hc i

theorem search_cache (es : Elfsym) (o : Option (Nat → Addr2Sym)) (a : Word) :
    ({ es with addr2symCache := o } : Elfsym).search a = es.search a := by
  rw [search_eq, search_eq]
  rfl

theorem find_miss {a : Word} (h : (c (slot a)).addr ≠ a) :
    ({ es with addr2symCache := some c } : Elfsym).find a = (es.search a).map fun sym =>
      (some sym, { es with addr2symCache := some (Function.update c (slot a) ⟨some sym, a⟩) }) := by
  simp only [find, if_neg h, search_cache]
  cases es.search a <;> rfl

theorem find_uncached (a : Word) :
    es.uncached.find a = (es.search a).map fun sym => (some sym, es.uncached) := by
  simp only [find, uncached, search_cache]
  cases es.search a <;> rfl

theorem answers_of_find {es' : Elfsym} {a : Word} {sym : Option SymName} (rest : List Word)
    (h : es.find a = .ok (sym, es')) :
    es.answers (a :: rest) = (es'.answers rest).map (sym.map es.text :: ·) := by
  rw [answers, h]
  rfl

theorem answers_of_error {a : Word} {e : Halt} (rest : List Word) (h : es.find a = .error e) :
    es.answers (a :: rest) = .error e := by
  rw [answers, h]
  rfl

theorem map_cons_eq {α : Type} {x : Except Halt (List α)} {y z : α} {l : List α} :
    x.map (y :: ·) = .ok (z :: l) ↔ y = z ∧ x = .ok l := by
  cases x <;> simp [Except.map]

/-- A run with the cache gives the names `n` when the search does, and address 0 is looked up
    late enough. The induction carries the cache and whether slot 0 is filled. -/
theorem answers_cached (n : Word → List (BitVec 8)) (addrs : List Word) (hc : es.CacheOk c) :
    ({ es with addr2symCache := some c } : Elfsym).answers addrs =
        .ok (addrs.map fun a => some (n a)) ↔
      (∀ a ∈ addrs, ∃ sym, es.search a = .ok sym ∧ es.text sym = n a) ∧
        ZeroOk (c 0 ≠ ⟨none, 0⟩) addrs := by
  induction addrs generalizing c with
  | nil => simp [answers, ZeroOk]
  | cons a rest ih =>
    have htext : ({ es with addr2symCache := some c } : Elfsym).text = es.text := by
      funext sym
      cases sym <;> rfl
    by_cases hhit : (c (slot a)).addr = a
    · have hfind : ({ es with addr2symCache := some c } : Elfsym).find a =
          .ok ((c (slot a)).sym, { es with addr2symCache := some c }) := if_pos hhit
      rw [answers_of_find rest hfind, List.map_cons, map_cons_eq, ih hc]
      obtain hfresh | ⟨sym, hsym, hfound⟩ := hc (slot a)
      · -- the slot looks like an answer for address 0
        have ha : a = 0 := by
          rw [hfresh] at hhit
          exact hhit.symm
        have h0 : c 0 = ⟨none, 0⟩ := by
          rw [ha, slot_zero] at hfresh
          exact hfresh
        rw [hfresh]
        constructor
        · rintro ⟨h, -⟩
          cases h
        · rintro ⟨-, hz, -⟩
          exact absurd h0 (hz ha)
      · rw [hhit] at hfound
        have hfilled : slot a = 0 → c 0 ≠ ⟨none, 0⟩ := by
          intro hs h0
          rw [hs, h0] at hsym
          cases hsym
        have hkeep : (c 0 ≠ ⟨none, 0⟩ ∨ a ≠ 0 ∧ slot a = 0) = (c 0 ≠ ⟨none, 0⟩) :=
          propext ⟨fun h => h.elim id fun h => hfilled h.2, .inl⟩
        rw [hsym, Option.map_some, Option.some.injEq, htext, ZeroOk, hkeep, List.forall_mem_cons]
        constructor
        · rintro ⟨hname, hall, hz⟩
          exact ⟨⟨⟨sym, hfound, hname⟩, hall⟩, fun ha => hfilled (ha ▸ slot_zero), hz⟩
        · rintro ⟨⟨⟨sym', hsym', hname⟩, hall⟩, -, hz⟩
          rw [hfound] at hsym'
          cases hsym'
          exact ⟨hname, hall, hz⟩
    · cases hs : es.search a with
      | error e =>
        have hfind : ({ es with addr2symCache := some c } : Elfsym).find a = .error e := by
          rw [find_miss hhit, hs]
          rfl
        rw [answers_of_error rest hfind, List.forall_mem_cons]
        constructor
        · intro h
          cases h
        · rintro ⟨⟨⟨sym, hsym, -⟩, -⟩, -⟩
          rw [hs] at hsym
          cases hsym
      | ok sym =>
        have hfind : ({ es with addr2symCache := some c } : Elfsym).find a =
            .ok (some sym, { es with
              addr2symCache := some (Function.update c (slot a) ⟨some sym, a⟩) }) := by
          rw [find_miss hhit, hs]
          rfl
        have hmiss : slot a = 0 → a = 0 → c 0 ≠ ⟨none, 0⟩ := by
          intro hs0 ha h0
          rw [hs0, h0] at hhit
          exact hhit ha.symm
        have hkeep : (Function.update c (slot a) ⟨some sym, a⟩ 0 ≠ ⟨none, 0⟩) =
            (c 0 ≠ ⟨none, 0⟩ ∨ a ≠ 0 ∧ slot a = 0) := by
          apply propext
          by_cases hs0 : 0 = slot a
          · rw [← hs0, Function.update_self]
            refine ⟨fun _ => ?_, fun _ h => by cases h⟩
            by_cases ha : a = 0
            · exact .inl (hmiss hs0.symm ha)
            · exact .inr ⟨ha, rfl⟩
          · rw [Function.update_of_ne hs0]
            exact ⟨.inl, fun h => h.elim id fun h => absurd h.2.symm hs0⟩
        rw [answers_of_find rest hfind, List.map_cons, map_cons_eq, ih (hc.fill hs), hkeep,
          Option.map_some, Option.some.injEq, htext, ZeroOk, List.forall_mem_cons]
        constructor
        · rintro ⟨hname, hall, hz⟩
          refine ⟨⟨⟨sym, hs, hname⟩, hall⟩, fun ha => ?_, hz⟩
          exact hmiss (ha ▸ slot_zero) ha
        · rintro ⟨⟨⟨sym', hsym', hname⟩, hall⟩, -, hz⟩
          rw [hs] at hsym'
          cases hsym'
          exact ⟨hname, hall, hz⟩

/-- Without the cache every lookup searches. -/
theorem answers_uncached (n : Word → List (BitVec 8)) {addrs : List Word}
    (h : ∀ a ∈ addrs, ∃ sym, es.search a = .ok sym ∧ es.text sym = n a) :
    es.uncached.answers addrs = .ok (addrs.map fun a => some (n a)) := by
  induction addrs with
  | nil => rfl
  | cons a rest ih =>
    rw [List.forall_mem_cons] at h
    obtain ⟨⟨sym, hsym, hname⟩, hrest⟩ := h
    have hfind : es.uncached.find a = .ok (some sym, es.uncached) := by
      rw [find_uncached, hsym]
      rfl
    rw [answers_of_find rest hfind, List.map_cons, map_cons_eq]
    refine ⟨?_, ih hrest⟩
    rw [← hname]
    cases sym <;> rfl

theorem zeroOk_iff (p : Prop) (addrs : List Word) :
    ZeroOk p addrs ↔
      ∀ l₁ l₂, addrs = l₁ ++ 0 :: l₂ → p ∨ ∃ a ∈ l₁, a ≠ 0 ∧ slot a = 0 := by
  induction addrs generalizing p with
  | nil => simp [ZeroOk]
  | cons a rest ih =>
    rw [ZeroOk, ih]
    constructor
    · rintro ⟨hhead, hrest⟩ l₁ l₂ h
      cases l₁ with
      | nil => exact .inl (hhead (List.cons.inj h).1)
      | cons b l₁ =>
        obtain ⟨rfl, hl⟩ := List.cons.inj h
        obtain (hp | hb) | ⟨b, hb, hslot⟩ := hrest l₁ l₂ hl
        · exact .inl hp
        · exact .inr ⟨a, List.mem_cons_self, hb⟩
        · exact .inr ⟨b, List.mem_cons_of_mem _ hb, hslot⟩
    · intro h
      refine ⟨fun ha => ?_, fun l₁ l₂ hl => ?_⟩
      · obtain hp | ⟨b, hb, -⟩ := h [] rest (by rw [ha]; rfl)
        · exact hp
        · cases hb
      · obtain hp | ⟨b, hb, hslot⟩ := h (a :: l₁) l₂ (by rw [hl]; rfl)
        · exact .inl (.inl hp)
        · obtain rfl | hb := List.mem_cons.1 hb
          · exact .inl (.inr hslot)
          · exact .inr ⟨b, hb, hslot⟩

/-- The lookups are transparent exactly on the safe runs. -/
theorem transparent_iff (es : Elfsym) (addrs : List Word) :
    es.Transparent addrs ↔ es.Safe addrs := by
  have hfresh : es.CacheOk fun _ => ⟨none, 0⟩ := fun _ => .inl rfl
  have hname := answers_cached (fun a => es.nameOf (es.owner a)) addrs hfresh
  simp only [ne_eq, not_true_eq_false, zeroOk_iff, false_or] at hname
  constructor
  · intro h
    have hrun := hname.1 h.name
    exact ⟨hrun.2, fun a ha => (resolves_iff es a).2 (hrun.1 a ha)⟩
  · intro h
    have hsearch := fun a ha => (resolves_iff es a).1 (h.resolves a ha)
    have hrun := hname.2 ⟨hsearch, h.zero⟩
    exact ⟨hrun.trans (answers_uncached _ hsearch).symm, hrun⟩

/-- A table with one function, `f` at 0x80000000, of 16 bytes. -/
def oneFunction : Elfsym where
  strtab := [0, 0x66, 0]
  symtab := [⟨1, 0x80000000, 0x10, STT_FUNC⟩]
  addr2symCache := none

example : oneFunction.optimize.answers [0x80000004, 0x90000000] = .ok [some [0x66], some [0x3f]] :=
  rfl

/-- Looking up address 0 first gives NULL. -/
theorem not_transparent_zero : ¬oneFunction.Transparent [0] := by
  intro h
  have hname := h.name
  have hnull : oneFunction.optimize.answers [0] = .ok [none] := rfl
  rw [hnull] at hname
  cases hname

end Elfsym

end NemuMips32
