/-
  The breakpoints of the GDB stub (`gdb-server.c`): a table of 32 slots, each with the word
  that the BREAK instruction replaced.

  A Z request saves whatever word it finds, so one for a word that has a breakpoint already
  saves the BREAK, and a later z request writes that back (`not_restored_twice`). In a session
  without such a request the memory is at every point the initial one with a BREAK at the
  words the client has asked for: `session_restores`.
-/
import NemuMips32.Lib.Words
import NemuMips32.Devices
import NemuMips32.Run

namespace NemuMips32

open StateExcept

variable {D : Type} {α : Type}

/-! ## Requests -/

structure BreakPoint where
  used : Bool
  addr : Word
  value : Word
  deriving Inhabited

/-- The emulator and `break_points`. -/
structure GdbState (D : Type) where
  machine : Machine D
  breakPoints : Fin 32 → BreakPoint

abbrev Gdb (D : Type) := EStateM Stop (GdbState D)

/-- The stub calls into the emulator. -/
def onMachine (m : Exec D α) : Gdb D α := fun g =>
  match m g.machine with
  | .ok a s => .ok a { g with machine := s }
  | .error e s => .error e { g with machine := s }

def modifyBreakPoint (i : Fin 32) (f : BreakPoint → BreakPoint) : Gdb D Unit :=
  modify fun g =>
    { g with breakPoints := Function.update g.breakPoints i (f (g.breakPoints i)) }

/-- The encoding of BREAK that the stub plants. -/
def breakWord : Word := 0x0005000d

/-- The loop of `gdb_remove_break_point`. -/
def gdbRemoveBreakPointFrom (P : Platform D) (addr : Word) : List (Fin 32) → Gdb D String
  | [] => return ""
  | i :: is => do
    let b := (← get).breakPoints i
    if b.used ∧ b.addr = addr then
      modifyBreakPoint i fun b => { b with used := false }
      onMachine (dbgVaddrWrite P addr 4 b.value)
      return "OK"
    else
      gdbRemoveBreakPointFrom P addr is

/-- `gdb_remove_break_point`, its arguments parsed. -/
def gdbRemoveBreakPoint (P : Platform D) (addr : Word) : Gdb D String :=
  gdbRemoveBreakPointFrom P addr (List.finRange 32)

/-- The loop of `gdb_insert_break_point`. -/
def gdbInsertBreakPointFrom (P : Platform D) (addr : Word) : List (Fin 32) → Gdb D String
  | [] => return ""
  | i :: is => do
    if !((← get).breakPoints i).used then
      modifyBreakPoint i fun b => { b with addr := addr }
      let value ← onMachine (dbgVaddrRead P addr 4)
      modifyBreakPoint i fun b => { b with value := value }
      onMachine (dbgVaddrWrite P addr 4 breakWord)
      modifyBreakPoint i fun b => { b with used := true }
      return "OK"
    else
      gdbInsertBreakPointFrom P addr is

/-- `gdb_insert_break_point`, its arguments parsed. -/
def gdbInsertBreakPoint (P : Platform D) (addr : Word) : Gdb D String :=
  gdbInsertBreakPointFrom P addr (List.finRange 32)

/-- The packets Z and z. -/
inductive Request where
  | insert (addr : Word)
  | remove (addr : Word)

def Request.addr : Request → Word
  | .insert a => a
  | .remove a => a

def Request.serve (P : Platform D) : Request → Gdb D String
  | .insert a => gdbInsertBreakPoint P a
  | .remove a => gdbRemoveBreakPoint P a

/-! ## Sessions -/

/-- The stub and what its client believes: the addresses inserted and not removed since. -/
structure Session (D : Type) extends GdbState D where
  client : Finset Word

/-- The stub as it starts, `break_points` zero. -/
def Session.start (s : Machine D) : Session D where
  machine := s
  breakPoints _ := { used := false, addr := 0, value := 0 }
  client := ∅

/-- The client takes a request for done when it is answered OK. -/
def Request.heard (reply : String) (c : Finset Word) : Request → Finset Word
  | .insert a => if reply = "OK" then c ∪ {a} else c
  | .remove a => if reply = "OK" then c.erase a else c

def Session.step (P : Platform D) (t : Session D) (q : Request) : Option (Session D) :=
  match q.serve P t.toGdbState with
  | .ok reply g => some { toGdbState := g, client := q.heard reply t.client }
  | .error _ _ => none

/-! ## Words of RAM -/

/-- The array and the offset of the word at an unmapped address. -/
def Platform.ramAt (P : Platform D) (a : Word) : Option (Ram × Word) :=
  (P.findDevice (ioremap a)).bind fun d => d.name.ram.map fun r => (r, ioremap a - d.start)

/-- `a` is a word-aligned address of unmapped RAM. -/
structure AtRam (P : Platform D) (a : Word) : Prop where
  aligned : a.toNat % 4 = 0
  unmapped : Unmapped a
  ram : (P.ramAt a).isSome = true

/-- What a debugger's write leaves behind. -/
def Machine.poke (s : Machine D) (r : Ram) (o v : Word) : Machine D :=
  { s with ram := s.ram.store r o 4 v, dc := s.dc.clear }

theorem size_ram {n : DevName} {r : Ram} (h : n.ram = some r) : n.size = r.size := by
  cases n <;> cases h <;> rfl

theorem size_ram_aligned (r : Ram) : r.size.toNat % 4096 = 0 ∧ r.size.toNat ≤ 2 ^ 28 := by
  cases r <;> decide

theorem findDevice_size {P : Platform D} {bases : List (DevName × Word)}
    (hb : P.board.Realizes bases) {p : Word} {d : Device} (h : P.findDevice p = some d) :
    d.size = d.name.size := by
  obtain ⟨hmem, -⟩ := covers_initMmio hb _ _ h
  obtain ⟨x, -, rfl⟩ := List.mem_map.1 hmem
  rfl

section AtRam

variable {P : Platform D} {bases : List (DevName × Word)} (hb : P.board.Realizes bases)
  {a : Word} {r : Ram} {o : Word}

/-- The device behind the word, and the offset in bounds. -/
theorem ramAt_eq_some (h : P.ramAt a = some (r, o)) :
    ∃ d, P.findDevice (ioremap a) = some d ∧ d.name.ram = some r ∧ o = ioremap a - d.start := by
  obtain ⟨d, hd, hr⟩ := Option.bind_eq_some_iff.1 h
  obtain ⟨r', hr', he⟩ := Option.map_eq_some_iff.1 hr
  cases he
  exact ⟨d, hd, hr', rfl⟩

include hb

/-- The offset of a byte of unmapped RAM, in bounds and at the same place of its page. -/
theorem offset_ramAt (h : P.ramAt a = some (r, o)) :
    o.toNat < r.size.toNat ∧ o.toNat % 4096 = a.toNat % 4096 := by
  obtain ⟨d, hd, hr, rfl⟩ := ramAt_eq_some h
  have hlt : (ioremap a).toNat < 2 ^ 29 := by
    rw [toNat_ioremap]
    omega
  have hin := (inside_of_lt hb hlt hd).offset
  obtain ⟨-, hon⟩ := findDevice_covers hb hd
  have hsize := size_ram_aligned r
  have hal := hon.aligned
  have hle := hon.start_le
  have hio := toNat_ioremap a
  rw [findDevice_size hb hd, size_ram hr, roundUp] at hin
  rw [toNat_mrIndex, toNat_ioremap, Nat.mod_eq_of_lt hlt] at hle
  rw [BitVec.toNat_sub_of_le (BitVec.le_def.2 (by omega))] at hin ⊢
  omega

theorem offset_aligned (ha : AtRam P a) (h : P.ramAt a = some (r, o)) :
    o.toNat % 4 = 0 ∧ o.toNat + 4 ≤ r.size.toNat := by
  obtain ⟨hlt, hoff⟩ := offset_ramAt hb h
  have hsize := size_ram_aligned r
  have haa := ha.aligned
  omega

theorem checkIoaddr_ramAt (ha : AtRam P a) (h : P.ramAt a = some (r, o)) :
    checkIoaddr o 4 r.size = true := by
  obtain ⟨-, hlt⟩ := offset_aligned hb ha h
  have hsize := size_ram_aligned r
  have h4 : (BitVec.ofNat 32 4).toNat = 4 := rfl
  simp only [checkIoaddr, Bool.and_eq_true, decide_eq_true_eq, BitVec.le_def, BitVec.toNat_add, h4]
  omega

omit hb in
theorem protAddrWithAttr_unmapped (ha : Unmapped a) (rw : Access) (s : Machine D) :
    protAddrWithAttr P a (.init rw false) s = .ok (ioremap a, .init rw false) s := by
  rw [protAddrWithAttr_eq]
  rcases ha with h4 | h5
  · simp only [Platform.translate, h4]
    rfl
  · simp only [Platform.translate, h5]
    rfl

omit hb in
theorem dbgVaddrRead_unmapped (ha : Unmapped a) (h : P.ramAt a = some (r, o)) {len : Nat}
    (hc : checkIoaddr o len r.size = true) (s : Machine D) :
    dbgVaddrRead P a len s = .ok (loadBytes (s.ram r) o len) s := by
  obtain ⟨d, hd, hr, rfl⟩ := ramAt_eq_some h
  have hread : P.devRead d.name = some (ramRead r) := by
    unfold Platform.devRead
    rw [hr]
  simp only [dbgVaddrRead, bind_apply, protAddrWithAttr_unmapped ha, hd, hread, ramRead, hc]
  rfl

omit hb in
theorem dbgVaddrWrite_unmapped (ha : Unmapped a) (h : P.ramAt a = some (r, o)) {len : Nat}
    (hc : checkIoaddr o len r.size = true) (v : Word) (s : Machine D) :
    dbgVaddrWrite P a len v s =
      .ok () { s with ram := s.ram.store r o len v, dc := s.dc.clear } := by
  obtain ⟨d, hd, hr, rfl⟩ := ramAt_eq_some h
  have hwrite : P.devWrite d.name = some (ramWrite r) := by
    unfold Platform.devWrite
    rw [hr]
  simp only [dbgVaddrWrite, bind_apply, protAddrWithAttr_unmapped ha, hd, hwrite, ramWrite, hc]
  rfl

theorem dbgVaddrRead_ramAt (ha : AtRam P a) (h : P.ramAt a = some (r, o)) (s : Machine D) :
    dbgVaddrRead P a 4 s = .ok (loadBytes (s.ram r) o 4) s :=
  dbgVaddrRead_unmapped ha.unmapped h (checkIoaddr_ramAt hb ha h) s

theorem dbgVaddrWrite_ramAt (ha : AtRam P a) (h : P.ramAt a = some (r, o)) (v : Word)
    (s : Machine D) : dbgVaddrWrite P a 4 v s = .ok () (s.poke r o v) :=
  dbgVaddrWrite_unmapped ha.unmapped h (checkIoaddr_ramAt hb ha h) v s

end AtRam

/-! ## Bytes of words -/

/-- The byte at `x` is one of the word at `o`. -/
def InWord (o x : Word) : Prop := (x - o).toNat < 4

theorem inWord_iff {o : Word} (ho : o.toNat % 4 = 0) (x : Word) :
    InWord o x ↔ o.toNat = x.toNat / 4 * 4 := by
  have h1 := o.isLt
  have h2 := x.isLt
  rw [InWord, BitVec.toNat_sub]
  omega

theorem inWord_unique {o o' x : Word} (ho : o.toNat % 4 = 0) (ho' : o'.toNat % 4 = 0)
    (h : InWord o x) (h' : InWord o' x) : o = o' := by
  rw [inWord_iff ho] at h
  rw [inWord_iff ho'] at h'
  exact BitVec.eq_of_toNat_eq (h.trans h'.symm)

theorem storeBytes_of_inWord {m : Word → BitVec 8} {o x : Word} (v : Word) (h : InWord o x) :
    storeBytes m o 4 v x = v.extractLsb' ((x - o).toNat * 8) 8 := if_pos h

theorem storeBytes_of_not_inWord {m : Word → BitVec 8} {o x : Word} (v : Word)
    (h : ¬InWord o x) : storeBytes m o 4 v x = m x := if_neg h

/-- The addresses of the bytes of a word. -/
theorem inWord_cases {o x : Word} (h : InWord o x) : x = o ∨ x = o + 1 ∨ x = o + 2 ∨ x = o + 3 := by
  have hx : x = o + BitVec.ofNat 32 (x - o).toNat := by
    rw [BitVec.ofNat_toNat, BitVec.setWidth_eq, BitVec.add_comm, BitVec.sub_add_cancel]
  have hk : (x - o).toNat = 0 ∨ (x - o).toNat = 1 ∨ (x - o).toNat = 2 ∨ (x - o).toNat = 3 := by
    have : (x - o).toNat < 4 := h
    omega
  rcases hk with hk | hk | hk | hk
  all_goals rw [hk] at hx
  · exact .inl (hx.trans (BitVec.add_zero o))
  · exact .inr (.inl hx)
  · exact .inr (.inr (.inl hx))
  · exact .inr (.inr (.inr hx))

theorem offset_add (o k : Word) : (o + k - o).toNat = k.toNat := by
  rw [BitVec.add_comm, BitVec.add_sub_cancel]

theorem inWord_add {o k : Word} (hk : k.toNat < 4) : InWord o (o + k) := by
  rw [InWord, offset_add]
  exact hk

theorem inWord_self (o : Word) : InWord o o := by simp [InWord]

theorem loadBytes_four (m : Word → BitVec 8) (o : Word) :
    loadBytes m o 4 = m (o + 3) ++ m (o + 2) ++ m (o + 1) ++ m o := by
  have hmask : 0xFFFFFFFF#32 >>> ((4 - 4) * 8) = BitVec.allOnes 32 := by decide
  rw [loadBytes, hmask]
  exact BitVec.and_allOnes

/-- The bytes of a word are those it was loaded from. -/
theorem loadBytes_byte (m : Word → BitVec 8) {o x : Word} (h : InWord o x) :
    (loadBytes m o 4).extractLsb' ((x - o).toNat * 8) 8 = m x := by
  obtain ⟨h0, h1, h2, h3⟩ := Words.byte_concat (m (o + 3)) (m (o + 2)) (m (o + 1)) (m o)
  rw [loadBytes_four]
  rcases inWord_cases h with rfl | rfl | rfl | rfl
  · rw [BitVec.sub_self]
    exact h0
  · rw [offset_add]
    exact h1
  · rw [offset_add]
    exact h2
  · rw [offset_add]
    exact h3

theorem byte_loadBytes (m : Word → BitVec 8) (x : Word) {n j : Nat} (hn : n ≤ 4) (hj : j < n) :
    Words.byte (loadBytes m x n) j = m (x + BitVec.ofNat 32 j) := by
  have hmask : Words.byte (0xFFFFFFFF#32 >>> ((4 - n) * 8)) j = BitVec.allOnes 8 := by
    have hones : ∀ i < 4, Words.byte 0xFFFFFFFF#32 i = BitVec.allOnes 8 := by decide
    rw [Words.byte_ushiftRight]
    exact hones _ (by omega)
  have hand : ∀ y z : Word, Words.byte (y &&& z) j = Words.byte y j &&& Words.byte z j := by
    intro y z
    apply BitVec.eq_of_getLsbD_eq
    intro k hk
    simp [Words.byte, hk]
  rw [loadBytes, hand, hmask, BitVec.and_allOnes]
  obtain ⟨h0, h1, h2, h3⟩ := Words.byte_concat (m (x + 3)) (m (x + 2)) (m (x + 1)) (m x)
  have h4 : j = 0 ∨ j = 1 ∨ j = 2 ∨ j = 3 := by omega
  rcases h4 with rfl | rfl | rfl | rfl
  · rw [show x + BitVec.ofNat 32 0 = x from BitVec.add_zero x]
    exact h0
  · exact h1
  · exact h2
  · exact h3

theorem loadBytes_storeBytes (m : Word → BitVec 8) (o v : Word) :
    loadBytes (storeBytes m o 4 v) o 4 = v := by
  rw [loadBytes_four, storeBytes_of_inWord v (inWord_self o),
    storeBytes_of_inWord v (inWord_add (k := 1) (by decide)),
    storeBytes_of_inWord v (inWord_add (k := 2) (by decide)),
    storeBytes_of_inWord v (inWord_add (k := 3) (by decide)), offset_add, offset_add, offset_add,
    BitVec.sub_self]
  exact Words.concat_bytes v

/-- Words with the same bytes are equal. -/
theorem loadBytes_congr {m m' : Word → BitVec 8} {o : Word} (h : ∀ x, InWord o x → m x = m' x) :
    loadBytes m o 4 = loadBytes m' o 4 := by
  rw [loadBytes_four, loadBytes_four, h o (inWord_self o), h _ (inWord_add (k := 1) (by decide)),
    h _ (inWord_add (k := 2) (by decide)), h _ (inWord_add (k := 3) (by decide))]

/-- Writing a word back restores its bytes. -/
theorem storeBytes_loadBytes (m m' : Word → BitVec 8) {o x : Word} (h : InWord o x) :
    storeBytes m o 4 (loadBytes m' o 4) x = m' x := by
  rw [storeBytes_of_inWord _ h, loadBytes_byte m' h]

/-! ## What a request does -/

section Serve

variable {P : Platform D} {bases : List (DevName × Word)} (hb : P.board.Realizes bases)
  {a : Word} {r : Ram} {o : Word}
include hb

/-- A Z request finds the table full, or takes a free slot. -/
theorem gdbInsertBreakPoint_cases (ha : AtRam P a) (h : P.ramAt a = some (r, o))
    (g : GdbState D) :
    ((∀ i, (g.breakPoints i).used = true) ∧ gdbInsertBreakPoint P a g = .ok "" g) ∨
    ∃ i, (g.breakPoints i).used = false ∧
      gdbInsertBreakPoint P a g = .ok "OK"
        { machine := g.machine.poke r o breakWord
          breakPoints := Function.update g.breakPoints i
            { used := true, addr := a, value := loadBytes (g.machine.ram r) o 4 } } := by
  have hfrom : ∀ is : List (Fin 32),
      ((∀ i ∈ is, (g.breakPoints i).used = true) ∧ gdbInsertBreakPointFrom P a is g = .ok "" g) ∨
      ∃ i, (g.breakPoints i).used = false ∧
        gdbInsertBreakPointFrom P a is g = .ok "OK"
          { machine := g.machine.poke r o breakWord
            breakPoints := Function.update g.breakPoints i
              { used := true, addr := a, value := loadBytes (g.machine.ram r) o 4 } } := by
    intro is
    induction is with
    | nil => exact .inl ⟨by simp, rfl⟩
    | cons i is ih =>
      simp only [gdbInsertBreakPointFrom, bind_apply, get_apply, ite_run]
      by_cases hu : (g.breakPoints i).used = true
      · rw [if_neg (by simp [hu])]
        rcases ih with ⟨hall, he⟩ | hfree
        · exact .inl ⟨List.forall_mem_cons.2 ⟨hu, hall⟩, he⟩
        · exact .inr hfree
      · right
        refine ⟨i, by simpa using hu, ?_⟩
        rw [if_pos (by simp [hu])]
        simp only [modifyBreakPoint, modify_apply, onMachine, dbgVaddrRead_ramAt hb ha h,
          dbgVaddrWrite_ramAt hb ha h, Function.update_self, Function.update_idem]
        rfl
  rcases hfrom (List.finRange 32) with ⟨hall, he⟩ | hfree
  · exact .inl ⟨fun i => hall i (List.mem_finRange i), he⟩
  · exact .inr hfree

/-- A z request finds no slot for its address, or frees one. -/
theorem gdbRemoveBreakPoint_cases (ha : AtRam P a) (h : P.ramAt a = some (r, o))
    (g : GdbState D) :
    ((∀ i, ¬((g.breakPoints i).used = true ∧ (g.breakPoints i).addr = a)) ∧
      gdbRemoveBreakPoint P a g = .ok "" g) ∨
    ∃ i, (g.breakPoints i).used = true ∧ (g.breakPoints i).addr = a ∧
      gdbRemoveBreakPoint P a g = .ok "OK"
        { machine := g.machine.poke r o (g.breakPoints i).value
          breakPoints :=
            Function.update g.breakPoints i { g.breakPoints i with used := false } } := by
  have hfrom : ∀ is : List (Fin 32),
      ((∀ i ∈ is, ¬((g.breakPoints i).used = true ∧ (g.breakPoints i).addr = a)) ∧
        gdbRemoveBreakPointFrom P a is g = .ok "" g) ∨
      ∃ i, (g.breakPoints i).used = true ∧ (g.breakPoints i).addr = a ∧
        gdbRemoveBreakPointFrom P a is g = .ok "OK"
          { machine := g.machine.poke r o (g.breakPoints i).value
            breakPoints :=
              Function.update g.breakPoints i { g.breakPoints i with used := false } } := by
    intro is
    induction is with
    | nil => exact .inl ⟨by simp, rfl⟩
    | cons i is ih =>
      simp only [gdbRemoveBreakPointFrom, bind_apply, get_apply, ite_run]
      by_cases hu : (g.breakPoints i).used = true ∧ (g.breakPoints i).addr = a
      · right
        refine ⟨i, hu.1, hu.2, ?_⟩
        rw [if_pos hu]
        simp only [modifyBreakPoint, modify_apply, onMachine, dbgVaddrWrite_ramAt hb ha h]
        rfl
      · rw [if_neg hu]
        rcases ih with ⟨hall, he⟩ | hfound
        · exact .inl ⟨List.forall_mem_cons.2 ⟨hu, hall⟩, he⟩
        · exact .inr hfound
  rcases hfrom (List.finRange 32) with ⟨hall, he⟩ | hfound
  · exact .inl ⟨fun i => hall i (List.mem_finRange i), he⟩
  · exact .inr hfound

end Serve

/-! ## The invariant of a session -/

/-- The memory of `t` is that of `s` with a BREAK at the words the client has asked for. -/
structure Restored (P : Platform D) (s : Machine D) (t : Session D) : Prop where
  inserted : ∀ a ∈ t.client, ∀ r o, P.ramAt a = some (r, o) →
    loadBytes (t.machine.ram r) o 4 = breakWord
  others : ∀ r x, (∀ a ∈ t.client, ∀ o, P.ramAt a = some (r, o) → ¬InWord o x) →
    t.machine.ram r x = s.ram r x

/-- The slots in use hold the client's addresses, no word twice, and the words that the
    BREAKs replaced. -/
structure Saves (P : Platform D) (s : Machine D) (t : Session D) : Prop where
  atRam : ∀ i, (t.breakPoints i).used = true → AtRam P (t.breakPoints i).addr
  distinct : ∀ i j, (t.breakPoints i).used = true → (t.breakPoints j).used = true →
    P.ramAt (t.breakPoints i).addr = P.ramAt (t.breakPoints j).addr → i = j
  client : ∀ a, a ∈ t.client ↔ ∃ i, (t.breakPoints i).used = true ∧ (t.breakPoints i).addr = a
  saved : ∀ i r o, (t.breakPoints i).used = true →
    P.ramAt (t.breakPoints i).addr = some (r, o) →
    (t.breakPoints i).value = loadBytes (s.ram r) o 4
  restored : Restored P s t

/-- A Z request has taken slot `i` for the word at `a`. -/
def Session.inserted (t : Session D) (i : Fin 32) (a : Word) (r : Ram) (o : Word) :
    Session D where
  machine := t.machine.poke r o breakWord
  breakPoints := Function.update t.breakPoints i
    { used := true, addr := a, value := loadBytes (t.machine.ram r) o 4 }
  client := t.client ∪ {a}

/-- A z request has freed slot `i` of the word at `a`. -/
def Session.removed (t : Session D) (i : Fin 32) (a : Word) (r : Ram) (o : Word) :
    Session D where
  machine := t.machine.poke r o (t.breakPoints i).value
  breakPoints := Function.update t.breakPoints i { t.breakPoints i with used := false }
  client := t.client.erase a

theorem inserted_self (t : Session D) (i : Fin 32) (a : Word) (r : Ram) (o : Word) :
    (t.inserted i a r o).breakPoints i =
      { used := true, addr := a, value := loadBytes (t.machine.ram r) o 4 } :=
  Function.update_self ..

theorem inserted_of_ne (t : Session D) {i j : Fin 32} (h : j ≠ i) (a : Word) (r : Ram)
    (o : Word) : (t.inserted i a r o).breakPoints j = t.breakPoints j :=
  Function.update_of_ne h ..

theorem removed_of_ne (t : Session D) {i j : Fin 32} (h : j ≠ i) (a : Word) (r : Ram)
    (o : Word) : (t.removed i a r o).breakPoints j = t.breakPoints j :=
  Function.update_of_ne h ..

theorem removed_used {t : Session D} {i j : Fin 32} {a : Word} {r : Ram} {o : Word}
    (h : ((t.removed i a r o).breakPoints j).used = true) :
    j ≠ i ∧ (t.breakPoints j).used = true := by
  by_cases hji : j = i
  · have hfree : (t.removed i a r o).breakPoints i = { t.breakPoints i with used := false } :=
      Function.update_self ..
    rw [hji, hfree] at h
    cases h
  · rw [removed_of_ne t hji] at h
    exact ⟨hji, h⟩

theorem saves_start (P : Platform D) (s : Machine D) : Saves P s (Session.start s) where
  atRam _ h := by cases h
  distinct _ _ h := by cases h
  client a := by simp [Session.start]
  saved _ _ _ h := by cases h
  restored := ⟨fun a ha => by simp [Session.start] at ha, fun _ _ _ => rfl⟩

/-- The request inserts no breakpoint at a word that has one, unless the table is full. -/
def Fresh (P : Platform D) (t : Session D) : Request → Prop
  | .insert a => (∀ i, (t.breakPoints i).used = true) ∨ ∀ b ∈ t.client, P.ramAt b ≠ P.ramAt a
  | .remove _ => True

theorem poke_ram (s : Machine D) (r : Ram) (o v : Word) :
    (s.poke r o v).ram r = storeBytes (s.ram r) o 4 v := Function.update_self ..

theorem poke_ram_of_ne (s : Machine D) {r r' : Ram} (h : r' ≠ r) (o v : Word) :
    (s.poke r o v).ram r' = s.ram r' := Function.update_of_ne h ..

section Step

variable {P : Platform D} {bases : List (DevName × Word)} (hb : P.board.Realizes bases)
include hb

/-- Other words keep their value. -/
theorem poke_other {a b : Word} {r r' : Ram} {o o' : Word} (ha : AtRam P a) (hb' : AtRam P b)
    (h : P.ramAt a = some (r, o)) (h' : P.ramAt b = some (r', o')) (hne : P.ramAt b ≠ P.ramAt a)
    (s : Machine D) (v : Word) {x : Word} (hx : InWord o' x) :
    (s.poke r o v).ram r' x = s.ram r' x := by
  by_cases hr : r' = r
  · subst hr
    rw [poke_ram]
    refine storeBytes_of_not_inWord v fun hin => hne ?_
    rw [h, h', inWord_unique (offset_aligned hb hb' h').1 (offset_aligned hb ha h).1 hx hin]
  · rw [poke_ram_of_ne s hr]

section Saves

variable {s : Machine D} {t : Session D} (ht : Saves P s t) {a : Word} {r : Ram} {o : Word}
  (ha : AtRam P a) (h : P.ramAt a = some (r, o)) {i : Fin 32}
include ht

omit hb in
theorem Saves.client_atRam {b : Word} (hbc : b ∈ t.client) : AtRam P b := by
  obtain ⟨j, hj, rfl⟩ := (ht.client b).1 hbc
  exact ht.atRam j hj

include ha h

/-- A word without a breakpoint is the original one. -/
theorem Saves.original (hf : ∀ b ∈ t.client, P.ramAt b ≠ P.ramAt a) {x : Word} (hx : InWord o x) :
    t.machine.ram r x = s.ram r x := by
  refine ht.restored.others r x fun b hbc o' ho' hx' => hf b hbc ?_
  rw [h, ho',
    inWord_unique (offset_aligned hb (ht.client_atRam hbc) ho').1 (offset_aligned hb ha h).1 hx' hx]

theorem restored_inserted (hf : ∀ b ∈ t.client, P.ramAt b ≠ P.ramAt a) :
    Restored P s (t.inserted i a r o) := by
  constructor
  · intro b hbc r' o' hb'
    rcases Finset.mem_union.1 hbc with hbc | hba
    · rw [← ht.restored.inserted b hbc r' o' hb']
      exact loadBytes_congr fun x hx =>
        poke_other hb ha (ht.client_atRam hbc) h hb' (hf b hbc) t.machine breakWord hx
    · rw [Finset.mem_singleton.1 hba] at hb'
      cases h.symm.trans hb'
      rw [Session.inserted, poke_ram]
      exact loadBytes_storeBytes _ _ _
  · intro r' x hx
    have hrest := ht.restored.others r' x fun b hbc => hx b (Finset.mem_union_left _ hbc)
    rw [← hrest]
    by_cases hr : r' = r
    · subst hr
      rw [Session.inserted, poke_ram]
      exact storeBytes_of_not_inWord _
        (hx a (Finset.mem_union_right _ (Finset.mem_singleton_self a)) o h)
    · rw [Session.inserted, poke_ram_of_ne _ hr]

theorem saves_inserted (hi : (t.breakPoints i).used = false)
    (hf : ∀ b ∈ t.client, P.ramAt b ≠ P.ramAt a) : Saves P s (t.inserted i a r o) := by
  have hne : ∀ j, (t.breakPoints j).used = true → P.ramAt (t.breakPoints j).addr ≠ P.ramAt a :=
    fun j hj => hf _ ((ht.client _).2 ⟨j, hj, rfl⟩)
  refine ⟨?_, ?_, ?_, ?_, restored_inserted hb ht ha h hf⟩
  · intro j hj
    by_cases hji : j = i
    · rw [hji, inserted_self]
      exact ha
    · rw [inserted_of_ne t hji] at hj ⊢
      exact ht.atRam j hj
  · intro j k hj hk hjk
    by_cases hji : j = i
    · by_cases hki : k = i
      · rw [hji, hki]
      · rw [inserted_of_ne t hki] at hk hjk
        rw [hji, inserted_self] at hjk
        exact absurd hjk.symm (hne k hk)
    · rw [inserted_of_ne t hji] at hj hjk
      by_cases hki : k = i
      · rw [hki, inserted_self] at hjk
        exact absurd hjk (hne j hj)
      · rw [inserted_of_ne t hki] at hk hjk
        exact ht.distinct j k hj hk hjk
  · intro b
    have hclient : b ∈ (t.inserted i a r o).client ↔ b ∈ t.client ∨ b = a := by
      rw [Session.inserted, Finset.mem_union, Finset.mem_singleton]
    rw [hclient, ht.client b]
    constructor
    · rintro (⟨j, hj, hjb⟩ | rfl)
      · have hji : j ≠ i := by
          rintro rfl
          rw [hi] at hj
          cases hj
        exact ⟨j, by rw [inserted_of_ne t hji]; exact ⟨hj, hjb⟩⟩
      · exact ⟨i, by rw [inserted_self]; exact ⟨rfl, rfl⟩⟩
    · rintro ⟨j, hj, hjb⟩
      by_cases hji : j = i
      · rw [hji, inserted_self] at hjb
        exact .inr hjb.symm
      · rw [inserted_of_ne t hji] at hj hjb
        exact .inl ⟨j, hj, hjb⟩
  · intro j r' o' hj hj'
    by_cases hji : j = i
    · rw [hji, inserted_self] at hj' ⊢
      cases h.symm.trans hj'
      exact loadBytes_congr fun x hx => ht.original hb ha h hf hx
    · rw [inserted_of_ne t hji] at hj hj' ⊢
      exact ht.saved j r' o' hj hj'

theorem restored_removed (hi : (t.breakPoints i).used = true)
    (hia : (t.breakPoints i).addr = a) : Restored P s (t.removed i a r o) := by
  have hval : (t.breakPoints i).value = loadBytes (s.ram r) o 4 :=
    ht.saved i r o hi (by rw [hia, h])
  constructor
  · intro b hbc r' o' hb'
    obtain ⟨hba, hbc⟩ := Finset.mem_erase.1 hbc
    have hne : P.ramAt b ≠ P.ramAt a := by
      obtain ⟨j, hj, hjb⟩ := (ht.client b).1 hbc
      intro heq
      have hji := ht.distinct j i hj hi (by rw [hia, hjb, heq])
      exact hba (by rw [← hjb, hji, hia])
    rw [← ht.restored.inserted b hbc r' o' hb']
    exact loadBytes_congr fun x hx =>
      poke_other hb ha (ht.client_atRam hbc) h hb' hne t.machine _ hx
  · intro r' x hx
    by_cases hin : r' = r ∧ InWord o x
    · obtain ⟨rfl, hin⟩ := hin
      rw [Session.removed, poke_ram, hval]
      exact storeBytes_loadBytes _ _ hin
    · have hkeep : (t.removed i a r o).machine.ram r' x = t.machine.ram r' x := by
        by_cases hr : r' = r
        · subst hr
          rw [Session.removed, poke_ram]
          exact storeBytes_of_not_inWord _ fun h => hin ⟨rfl, h⟩
        · rw [Session.removed, poke_ram_of_ne _ hr]
      refine hkeep.trans (ht.restored.others r' x fun b hbc o' ho' hx' => ?_)
      by_cases hba : b = a
      · subst hba
        cases h.symm.trans ho'
        exact hin ⟨rfl, hx'⟩
      · exact hx b (Finset.mem_erase.2 ⟨hba, hbc⟩) o' ho' hx'

theorem saves_removed (hi : (t.breakPoints i).used = true) (hia : (t.breakPoints i).addr = a) :
    Saves P s (t.removed i a r o) := by
  refine ⟨?_, ?_, ?_, ?_, restored_removed hb ht ha h hi hia⟩
  · intro j hj
    obtain ⟨hji, hj⟩ := removed_used hj
    rw [removed_of_ne t hji]
    exact ht.atRam j hj
  · intro j k hj hk hjk
    obtain ⟨hji, hj⟩ := removed_used hj
    obtain ⟨hki, hk⟩ := removed_used hk
    rw [removed_of_ne t hji, removed_of_ne t hki] at hjk
    exact ht.distinct j k hj hk hjk
  · intro b
    have hclient : b ∈ (t.removed i a r o).client ↔ b ≠ a ∧ b ∈ t.client := Finset.mem_erase
    rw [hclient, ht.client b]
    constructor
    · rintro ⟨hba, j, hj, hjb⟩
      have hji : j ≠ i := by
        rintro rfl
        exact hba (hjb.symm.trans hia)
      exact ⟨j, by rw [removed_of_ne t hji]; exact ⟨hj, hjb⟩⟩
    · rintro ⟨j, hj, hjb⟩
      obtain ⟨hji, hused⟩ := removed_used hj
      rw [removed_of_ne t hji] at hjb
      refine ⟨fun hba => hji (ht.distinct j i hused hi ?_), j, hused, hjb⟩
      rw [hia, hjb, hba]
  · intro j r' o' hj hj'
    obtain ⟨hji, hj⟩ := removed_used hj
    rw [removed_of_ne t hji] at hj' ⊢
    exact ht.saved j r' o' hj hj'

end Saves

omit hb in
theorem step_of_serve {t : Session D} {q : Request} {reply : String} {g : GdbState D}
    (h : q.serve P t.toGdbState = .ok reply g) :
    t.step P q = some { toGdbState := g, client := q.heard reply t.client } := by
  rw [Session.step, h]

/-- Every request is answered, and keeps the invariant. -/
theorem step_saves {s : Machine D} {t : Session D} (ht : Saves P s t) {q : Request}
    (hq : AtRam P q.addr) (hf : Fresh P t q) :
    ∃ t', t.step P q = some t' ∧ Saves P s t' := by
  obtain ⟨⟨r, o⟩, h⟩ := Option.isSome_iff_exists.1 hq.ram
  cases q with
  | insert a =>
    rcases gdbInsertBreakPoint_cases hb hq h t.toGdbState with ⟨-, he⟩ | ⟨i, hi, he⟩
    · exact ⟨t, step_of_serve (q := .insert a) he, ht⟩
    · have hfresh : ∀ b ∈ t.client, P.ramAt b ≠ P.ramAt a := by
        rcases hf with hfull | hf
        · exact absurd ((hfull i).symm.trans hi) (by decide)
        · exact hf
      exact ⟨t.inserted i a r o, step_of_serve (q := .insert a) he,
        saves_inserted hb ht hq h hi hfresh⟩
  | remove a =>
    rcases gdbRemoveBreakPoint_cases hb hq h t.toGdbState with ⟨-, he⟩ | ⟨i, hi, hia, he⟩
    · exact ⟨t, step_of_serve (q := .remove a) he, ht⟩
    · exact ⟨t.removed i a r o, step_of_serve (q := .remove a) he,
        saves_removed hb ht hq h hi hia⟩

theorem serve_empty {q : Request} (hq : AtRam P q.addr) {g g' : GdbState D}
    (h : q.serve P g = .ok "" g') : g' = g := by
  obtain ⟨⟨r, o⟩, hr⟩ := Option.isSome_iff_exists.1 hq.ram
  cases q with
  | insert a =>
    rcases gdbInsertBreakPoint_cases hb hq hr g with ⟨-, he⟩ | ⟨i, hi, he⟩
    · cases he.symm.trans h
      rfl
    · injection he.symm.trans h with hreply
      exact absurd hreply (by decide)
  | remove a =>
    rcases gdbRemoveBreakPoint_cases hb hq hr g with ⟨-, he⟩ | ⟨i, hi, hia, he⟩
    · cases he.symm.trans h
      rfl
    · injection he.symm.trans h with hreply
      exact absurd hreply (by decide)

/-- The invariant along a whole session. -/
theorem trace_saves {s : Machine D} {t : Session D} (ht : Saves P s t) {qs : List Request}
    (hq : ∀ q ∈ qs, AtRam P q.addr) (hf : Along (Session.step P) (Fresh P) t qs) :
    (trace (Session.step P) t qs).length = qs.length ∧
      ∀ t' ∈ trace (Session.step P) t qs, Saves P s t' := by
  induction qs generalizing t with
  | nil => exact ⟨rfl, fun t' h => by cases h⟩
  | cons q qs ih =>
    obtain ⟨hfq, hfs⟩ := hf
    obtain ⟨t₁, h₁, hs₁⟩ := step_saves hb ht (hq q List.mem_cons_self) hfq
    obtain ⟨hlen, hall⟩ := ih hs₁ (fun q' h => hq q' (List.mem_cons_of_mem q h)) (hfs t₁ h₁)
    simp only [trace, h₁]
    exact ⟨by rw [List.length_cons, List.length_cons, hlen], List.forall_mem_cons.2 ⟨hs₁, hall⟩⟩

end Step

/-- In a session without a Z request for a word that has a breakpoint, every request is
    answered; after each of them the memory is the initial one but for the client's
    breakpoints, and equal to it when there are none; and the requests answered with an empty
    string change nothing. -/
theorem session_restores {P : Platform D} {bases : List (DevName × Word)}
    (hb : P.board.Realizes bases) (s : Machine D) {qs : List Request}
    (hq : ∀ q ∈ qs, AtRam P q.addr)
    (hf : Along (Session.step P) (Fresh P) (Session.start s) qs) :
    (trace (Session.step P) (Session.start s) qs).length = qs.length ∧
    ∀ t ∈ trace (Session.step P) (Session.start s) qs,
      Restored P s t ∧ (t.client = ∅ → t.machine.ram = s.ram) ∧
      ∀ (q : Request) (g : GdbState D), AtRam P q.addr →
        q.serve P t.toGdbState = .ok "" g → g = t.toGdbState := by
  obtain ⟨hlen, hall⟩ := trace_saves hb (saves_start P s) hq hf
  refine ⟨hlen, fun t ht => ⟨(hall t ht).restored, ?_, fun q g hat h => serve_empty hb hat h⟩⟩
  intro hnone
  funext r x
  refine (hall t ht).restored.others r x fun a ha => ?_
  rw [hnone] at ha
  simp at ha

/-- A machine whose RAM is zero. -/
def zeroed : Machine Unit := Machine.boot (fun _ _ => 0) ()

theorem session_restores_two :
    AtRam mips32r1 0x80001000 ∧
    ∀ t ∈ trace (Session.step mips32r1) (Session.start zeroed)
      [.insert 0x80001000, .remove 0x80001000], t.client = ∅ → t.machine.ram = zeroed.ram := by
  have hat : AtRam mips32r1 0x80001000 := ⟨by decide, by decide, by decide⟩
  refine ⟨hat, fun t ht => ((session_restores ramBoard_realizes zeroed ?_ ?_).2 t ht).2.1⟩
  · intro q hq
    rcases List.mem_cons.1 hq with rfl | hq
    · exact hat
    · rcases List.mem_cons.1 hq with rfl | hq
      · exact hat
      · cases hq
  · exact ⟨.inr fun b hb => by simp [Session.start] at hb, fun _ _ => ⟨trivial, fun _ _ => trivial⟩⟩

/-- The second of two insertions at one address saves the BREAK of the first, and the second
    removal writes it back: the client has no breakpoints left, the memory has one. -/
theorem not_restored_twice :
    mips32r1.board.Realizes ramDevices ∧ AtRam mips32r1 0x80001000 ∧
    ((trace (Session.step mips32r1) (Session.start zeroed)
        [.insert 0x80001000, .insert 0x80001000, .remove 0x80001000, .remove 0x80001000]).getLast?.map
      fun t => (t.client, loadBytes (t.machine.ram .ddr) 0x1000 4)) = some (∅, breakWord) ∧
    loadBytes (zeroed.ram .ddr) 0x1000 4 = 0 :=
  ⟨ramBoard_realizes, ⟨by decide, by decide, by decide⟩, by decide, by decide⟩

end NemuMips32
