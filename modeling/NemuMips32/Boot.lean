/-
  From `load_rom` to the first instruction of the loaded program. `load_rom` writes a stub of
  four instructions at `CPU_INIT_PC` that loads the entry point into `t0` and jumps there;
  `init_cpu` then resets CP0 and may store a command line.

  `Stage k` is the state before the `k`-th instruction of the stub. Each instruction leads from
  one stage to the next (`Stage.step`), whatever the devices do in between and however often
  `cpu_exec` is entered again, with every combination of the two caches (`boot_stub`).
-/
import NemuMips32.Gdb
import NemuMips32.DecodeEntry
import NemuMips32.Interrupt
import NemuMips32.Operands

namespace NemuMips32

open StateExcept

variable {D : Type}

def CPU_INIT_PC : Word := 0xbfc00000

/-! ## The program -/

/-- `vaddr_map`. -/
def vaddrMap (P : Platform D) (addr len : Word) : Exec D (Ram × Word) := do
  unless 0x80000000 ≤ addr ∧ addr < 0xc0000000 do halt .assert
  match P.findDevice (ioremap addr) with
  | none => halt .assert
  | some dev =>
    match dev.name.ram with
    | none => halt .assert
    | some r => do
      unless checkIoaddr (ioremap addr - dev.start) len.toNat r.size do halt .cpuAssert
      return (r, ioremap addr - dev.start)

/-- `load_rom`. -/
def loadRom (P : Platform D) (entry : Word) : Exec D Unit := do
  let p ← vaddrMap P CPU_INIT_PC 16
  hostWrite (some p) 0 4 ((0x3c080000 : Word) ||| (entry >>> 16)) -- lui t0, %hi(entry)
  hostWrite (some p) 4 4 ((0x35080000 : Word) ||| (entry &&& 0xFFFF)) -- ori t0, t0, %lo(entry)
  hostWrite (some p) 8 4 0x01000008 -- jr t0
  hostWrite (some p) 12 4 0x00000000 -- nop

/-- `load_rom`, and then `init_cpu` as `init_monitor` calls it. -/
def boot (P : Platform D) (entry : Word) (cmdline : List (BitVec 8)) : Exec D Unit := do
  loadRom P entry
  initCpu P CPU_INIT_PC cmdline

/-! ## Unmapped RAM -/

theorem translate_unmapped (P : Platform D) (a : Arch D) (rw : Access) {addr : Word}
    (h : Unmapped addr) : P.translate a addr rw = .ok (ioremap addr) false := by
  unfold Platform.translate
  obtain h | h := h
  · simp only [h]
  · simp only [h]

section Unmapped

variable {P : Platform D} {bases : List (DevName × Word)} (hb : P.board.Realizes bases)
  {a : Word} {r : Ram} {o : Word} (h : P.ramAt a = some (r, o))
include hb h

/-- The device behind an address of RAM, with the check that `update_mmu_cache` makes. -/
theorem page_ramAt : ∃ d, P.findDevice (ioremap a) = some d ∧ d.name.ram = some r ∧
    o = ioremap a - d.start ∧
    checkIoaddr ((ioremap a &&& ~~~0xFFF) - d.start) 0 r.size = true := by
  obtain ⟨d, hd, hr, ho⟩ := ramAt_eq_some h
  have hlt : (ioremap a).toNat < 2 ^ 29 := by
    rw [toNat_ioremap]
    omega
  have hpage := (inside_of_lt hb hlt hd).page
  have hsize := size_ram_aligned r
  rw [findDevice_size hb hd, size_ram hr, roundUp] at hpage
  refine ⟨d, hd, hr, ho, ?_⟩
  generalize (ioremap a &&& ~~~0xFFF) - d.start = x at hpage
  have h0 : (BitVec.ofNat 32 0).toNat = 0 := rfl
  simp only [checkIoaddr, Bool.and_eq_true, decide_eq_true_eq, BitVec.le_def, BitVec.toNat_add, h0]
  omega

variable (ha : Unmapped a) {len : Nat} (hl : checkIoaddr o len r.size = true) {s : Machine D}
  (hc : P.cfg.mmuCache = true → Coherent P s)
include ha hl hc

/-- A load from unmapped RAM moves nothing but the MMU cache. -/
theorem vaddrRead_ram : ∃ mc, vaddrRead P a len s =
      .ok (loadBytes (s.ram r) o len) { s with mmuCache := mc } ∧
    (P.cfg.mmuCache = true → Coherent P { s with mmuCache := mc }) := by
  obtain ⟨d, hd, hr, rfl, hpage⟩ := page_ramAt hb h
  obtain ⟨mc, hplain⟩ := readPaddr_of_ram (P := P.plain) hd hr hpage hl a false s
  rw [← vaddrRead_of_translate (translate_unmapped P s.toArch .load ha)] at hplain
  have hsim := vaddrRead_sim ⟨rfl, hc⟩ a len fun _ => trivial
  have hq := vaddrRead_quiet (faultOf_unmapped P s .load ha) len
  rw [hplain] at hsim
  cases hv : vaddrRead P a len s with
  | error e t => rw [hv] at hsim; exact hsim.elim
  | ok w t =>
    rw [hv] at hsim hq
    obtain ⟨rfl, ht⟩ := hsim
    obtain ⟨x, m, mc', rfl, -⟩ := hq
    have harch : (s.access x m mc').toArch = s.toArch := ht.arch
    have heq : s.access x m mc' = { s with mmuCache := mc' } :=
      congrArg (fun a => ({ toArch := a, mmuCache := mc', dc := s.dc } : Machine D)) harch
    rw [heq] at ht ⊢
    exact ⟨mc', rfl, ht.coherent⟩

/-- A store to unmapped RAM. -/
theorem vaddrWrite_ram (data : Word) : ∃ mc, vaddrWrite P a len data s =
      .ok () { s with ram := s.ram.store r o len data, mmuCache := mc } ∧
    (P.cfg.mmuCache = true →
      Coherent P { s with ram := s.ram.store r o len data, mmuCache := mc }) := by
  obtain ⟨d, hd, hr, rfl, hpage⟩ := page_ramAt hb h
  obtain ⟨mc, hmc⟩ := updateMmuCache_ok hr hpage a true s
  have hwrite : P.plain.devWrite d.name = some (ramWrite r) := by simp only [Platform.devWrite, hr]
  have hd' : P.plain.findDevice (ioremap a) = some d := hd
  have htr : P.plain.translate s.toArch a .store = .ok (ioremap a) false :=
    translate_unmapped P.plain s.toArch .store ha
  have hplain : vaddrWrite P.plain a len data s =
      .ok () { s with ram := s.ram.store r (ioremap a - d.start) len data, mmuCache := mc } := by
    rw [vaddrWrite_eq, if_neg (not_cached_plain .store a), htr]
    simp only [writePaddr, hd', hwrite]
    rw [bind_of_ok hmc]
    simp only [ramWrite, hl, if_true, modifyArch_apply]
  have hsim := vaddrWrite_sim ⟨rfl, hc⟩ a len data fun _ => trivial
  have hq := vaddrWrite_quiet (faultOf_unmapped P s .store ha) len data
  rw [hplain] at hsim
  cases hv : vaddrWrite P a len data s with
  | error e t => rw [hv] at hsim; exact hsim.elim
  | ok w t =>
    rw [hv] at hsim hq
    obtain ⟨-, ht⟩ := hsim
    obtain ⟨x, m, mc', rfl, -⟩ := hq
    have harch := ht.arch
    have heq : s.access x m mc' =
        { s with ram := s.ram.store r (ioremap a - d.start) len data, mmuCache := mc' } :=
      congrArg (fun a => ({ toArch := a, mmuCache := mc', dc := s.dc } : Machine D)) harch
    rw [heq] at ht ⊢
    exact ⟨mc', rfl, ht.coherent⟩

end Unmapped

/-! ## The stub -/

/-- The words that `load_rom` stores. -/
def stubWord (entry : Word) : Nat → Word
  | 0 => (0x3c080000 : Word) ||| (entry >>> 16)
  | 1 => (0x35080000 : Word) ||| (entry &&& 0xFFFF)
  | 2 => 0x01000008
  | _ => 0

/-- The stub for `entry` is at offset `o` of array `r`. -/
def HasStub (r : Ram) (o entry : Word) (m : Memory) : Prop :=
  ∀ j < 4, loadBytes (m r) (o + BitVec.ofNat 32 (4 * j)) 4 = stubWord entry j

/-- The array after `load_rom`. -/
def stored (m : Memory) (r : Ram) (o entry : Word) : Memory :=
  (((m.store r (o + 0) 4 (stubWord entry 0)).store r (o + 4) 4 (stubWord entry 1)).store
    r (o + 8) 4 (stubWord entry 2)).store r (o + 12) 4 (stubWord entry 3)

theorem loadBytes_store_self (m : Memory) (r : Ram) (o v : Word) :
    loadBytes (m.store r o 4 v r) o 4 = v := by
  rw [Memory.store, Function.update_self]
  exact loadBytes_storeBytes (m r) o v

/-- A store that starts behind a word, or ends before it. -/
theorem loadBytes_store_of_off (m : Memory) (r : Ram) {o x : Word} {len : Nat} (v : Word)
    (hw : o.toNat + 4 ≤ 2 ^ 32) (hx : x.toNat + len ≤ 2 ^ 32)
    (h : o.toNat + 4 ≤ x.toNat ∨ x.toNat + len ≤ o.toNat) :
    loadBytes (m.store r x len v r) o 4 = loadBytes (m r) o 4 := by
  rw [Memory.store, Function.update_self]
  refine loadBytes_congr fun y hy => if_neg ?_
  have hin : (y - o).toNat < 4 := hy
  have hyl := y.isLt
  rw [BitVec.toNat_sub] at hin ⊢
  omega

theorem toNat_add_ofNat {o : Word} {k : Nat} (h : o.toNat + k < 2 ^ 32) :
    (o + BitVec.ofNat 32 k).toNat = o.toNat + k := by
  rw [BitVec.toNat_add, BitVec.toNat_ofNat]
  omega

theorem HasStub.store_of_ne {r r' : Ram} {o entry : Word} {m : Memory} (h : HasStub r o entry m)
    (hr : r' ≠ r) (x : Word) (len : Nat) (v : Word) : HasStub r o entry (m.store r' x len v) := by
  intro j hj
  rw [Memory.store, Function.update_of_ne hr.symm]
  exact h j hj

theorem HasStub.store_of_off {r : Ram} {o entry : Word} {m : Memory} (h : HasStub r o entry m)
    {x : Word} {len : Nat} (ho : o.toNat + 16 ≤ 2 ^ 32) (hx : x.toNat + len ≤ 2 ^ 32)
    (hoff : o.toNat + 16 ≤ x.toNat ∨ x.toNat + len ≤ o.toNat) (v : Word) :
    HasStub r o entry (m.store r x len v) := by
  intro j hj
  have hsum := toNat_add_ofNat (o := o) (k := 4 * j) (by omega)
  rw [loadBytes_store_of_off m r v (by omega) hx (by omega)]
  exact h j hj

theorem hasStub_stored (m : Memory) (r : Ram) {o : Word} (ho : o.toNat + 16 ≤ 2 ^ 32)
    (entry : Word) : HasStub r o entry (stored m r o entry) := by
  have h0 : (o + 0).toNat = o.toNat + 0 := toNat_add_ofNat (k := 0) (by omega)
  have h4 : (o + 4).toNat = o.toNat + 4 := toNat_add_ofNat (k := 4) (by omega)
  have h8 : (o + 8).toNat = o.toNat + 8 := toNat_add_ofNat (k := 8) (by omega)
  have h12 : (o + 12).toNat = o.toNat + 12 := toNat_add_ofNat (k := 12) (by omega)
  intro j hj
  unfold stored
  have hcases : j = 0 ∨ j = 1 ∨ j = 2 ∨ j = 3 := by omega
  rcases hcases with rfl | rfl | rfl | rfl
  · change loadBytes _ (o + 0) 4 = _
    rw [loadBytes_store_of_off _ r _ (by omega) (by omega) (by omega),
      loadBytes_store_of_off _ r _ (by omega) (by omega) (by omega),
      loadBytes_store_of_off _ r _ (by omega) (by omega) (by omega), loadBytes_store_self]
  · change loadBytes _ (o + 4) 4 = _
    rw [loadBytes_store_of_off _ r _ (by omega) (by omega) (by omega),
      loadBytes_store_of_off _ r _ (by omega) (by omega) (by omega), loadBytes_store_self]
  · change loadBytes _ (o + 8) 4 = _
    rw [loadBytes_store_of_off _ r _ (by omega) (by omega) (by omega), loadBytes_store_self]
  · exact loadBytes_store_self ..

/-- The page of the reset vector. -/
structure StubAt (P : Platform D) (r : Ram) (o : Word) : Prop where
  ramAt : ∀ j < 4, P.ramAt (CPU_INIT_PC + BitVec.ofNat 32 (4 * j)) =
    some (r, o + BitVec.ofNat 32 (4 * j))
  bound : o.toNat + 16 ≤ r.size.toNat

theorem StubAt.base {P : Platform D} {r : Ram} {o : Word} (h : StubAt P r o) :
    P.ramAt CPU_INIT_PC = some (r, o) := by
  have h0 : o + BitVec.ofNat 32 0 = o := BitVec.add_zero o
  exact h0 ▸ h.ramAt 0 (by omega)

theorem size_lt (r : Ram) : r.size.toNat < 2 ^ 29 := by
  have := (size_ram_aligned r).2
  omega

theorem stubAt {P : Platform D} {bases : List (DevName × Word)} (hb : P.board.Realizes bases)
    {r : Ram} {o : Word} (h : P.ramAt CPU_INIT_PC = some (r, o)) : StubAt P r o := by
  obtain ⟨hlt, hoff⟩ := offset_ramAt hb h
  have hpc : CPU_INIT_PC.toNat % 4096 = 0 := by decide
  refine ⟨fun j hj => ?_, ?_⟩
  · have hio : ∀ j < 4, ioremap (CPU_INIT_PC + BitVec.ofNat 32 (4 * j)) =
        ioremap CPU_INIT_PC + BitVec.ofNat 32 (4 * j) ∧
        mrIndex (ioremap (ioremap (CPU_INIT_PC + BitVec.ofNat 32 (4 * j)))) =
          mrIndex (ioremap (ioremap CPU_INIT_PC)) := by decide
    obtain ⟨d, hd, hr, rfl⟩ := ramAt_eq_some h
    obtain ⟨hadd, hidx⟩ := hio j hj
    have hd' : P.findDevice (ioremap (CPU_INIT_PC + BitVec.ofNat 32 (4 * j))) = some d := by
      rw [Platform.findDevice, hidx]
      exact hd
    rw [Platform.ramAt, hd', Option.bind_some, hr, Option.map_some, hadd, sub_add_eq_add_sub]
  · have hsize := size_ram_aligned r
    omega

/-! ## `load_rom` and `init_cpu` -/

theorem checkIoaddr_of_le {r : Ram} {o : Word} {len : Nat} (h : o.toNat + len ≤ r.size.toNat) :
    checkIoaddr o len r.size = true := by
  have hsize := size_lt r
  simp only [checkIoaddr, Bool.and_eq_true, decide_eq_true_eq, BitVec.le_def, BitVec.toNat_add,
    BitVec.toNat_ofNat]
  omega

theorem hostWrite_of_le {r : Ram} {o off : Word} {len : Nat} (v : Word)
    (h : (o + off).toNat + len ≤ r.size.toNat) (s : Machine D) :
    hostWrite (some (r, o)) off len v s =
      .ok () { s with ram := s.ram.store r (o + off) len v } := by
  simp only [hostWrite, hostInBounds, checkIoaddr_of_le h, if_true]
  rfl

theorem loadRom_apply {P : Platform D} {r : Ram} {o : Word} (hro : P.ramAt CPU_INIT_PC = some (r, o))
    (hbound : o.toNat + 16 ≤ r.size.toNat) (entry : Word) (s : Machine D) :
    loadRom P entry s = .ok () { s with ram := stored s.ram r o entry } := by
  obtain ⟨d, hd, hr, ho⟩ := ramAt_eq_some hro
  have hsize := size_lt r
  have hmap : vaddrMap P CPU_INIT_PC 16 s = .ok (r, o) s := by
    have hlen : (16 : Word).toNat = 16 := rfl
    have hin : (0x80000000 : Word) ≤ CPU_INIT_PC ∧ CPU_INIT_PC < 0xc0000000 := by decide
    unfold vaddrMap
    simp only [hin, hd, hr, ← ho, hlen, checkIoaddr_of_le hbound]
    rfl
  have hoff : ∀ k < 13, (o + BitVec.ofNat 32 k).toNat + 4 ≤ r.size.toNat := by
    intro k hk
    rw [toNat_add_ofNat (by omega)]
    omega
  have hoff0 : (o + 0).toNat + 4 ≤ r.size.toNat := hoff 0 (by omega)
  have hoff4 : (o + 4).toNat + 4 ≤ r.size.toNat := hoff 4 (by omega)
  have hoff8 : (o + 8).toNat + 4 ≤ r.size.toNat := hoff 8 (by omega)
  have hoff12 : (o + 12).toNat + 4 ≤ r.size.toNat := hoff 12 (by omega)
  unfold loadRom
  rw [bind_of_ok hmap, bind_of_ok (hostWrite_of_le _ hoff0 _), bind_of_ok (hostWrite_of_le _ hoff4 _),
    bind_of_ok (hostWrite_of_le _ hoff8 _), hostWrite_of_le _ hoff12 _]
  rfl

/-- `len` bytes of unmapped RAM, off the stub. -/
structure OffStub (P : Platform D) (a : Word) (len : Nat) : Prop where
  unmapped : Unmapped a
  ram : ∃ r o, P.ramAt a = some (r, o) ∧ o.toNat + len ≤ r.size.toNat ∧
    ∀ o', P.ramAt CPU_INIT_PC = some (r, o') → o'.toNat + 16 ≤ o.toNat ∨ o.toNat + len ≤ o'.toNat

/-- The command line is stored in unmapped RAM, off the stub. Every defconfig puts it at
    0xbfc10000. -/
structure CmdlineFits (P : Platform D) (cmdline : List (BitVec 8)) : Prop where
  argv : OffStub P P.cfg.cmdlineAddr 4 ∧ OffStub P (P.cfg.cmdlineAddr + 4) 4
  bytes : ∀ i ≤ cmdline.length, OffStub P (P.cfg.cmdlineAddr + 8 + BitVec.ofNat 32 i) 1

/-- Stores to RAM, off the stub, lead from `s` to `t`. -/
structure Aside (P : Platform D) (r : Ram) (o entry : Word) (s t : Machine D) : Prop where
  eq : ∃ m mc, t = { s with ram := m, mmuCache := mc }
  stub : HasStub r o entry t.ram
  coherent : P.cfg.mmuCache = true → Coherent P t

section Aside

variable {P : Platform D} {bases : List (DevName × Word)} (hb : P.board.Realizes bases)
  {r : Ram} {o entry : Word} (hs : StubAt P r o)
include hb hs

theorem Aside.write {s t : Machine D} (h : Aside P r o entry s t) {a : Word} {len : Nat}
    (ha : OffStub P a len) (v : Word) :
    ∃ u, vaddrWrite P a len v t = .ok () u ∧ Aside P r o entry s u := by
  obtain ⟨hun, r', o', hr, hle, hoff⟩ := ha
  obtain ⟨m, mc, rfl⟩ := h.eq
  obtain ⟨mc', hw, hcoh⟩ := vaddrWrite_ram hb hr hun (checkIoaddr_of_le hle) h.coherent v
  have hlt := size_lt r
  have hlt' := size_lt r'
  have hbound := hs.bound
  refine ⟨_, hw, ⟨⟨_, mc', rfl⟩, ?_, hcoh⟩⟩
  by_cases hrr : r' = r
  · subst hrr
    exact h.stub.store_of_off (by omega) (by omega) (hoff o hs.base) v
  · exact h.stub.store_of_ne hrr o' len v

theorem aside_storeCmdline (bs : List (BitVec 8)) {s t : Machine D} (h : Aside P r o entry s t)
    {a : Word} (ha : ∀ i ≤ bs.length, OffStub P (a + BitVec.ofNat 32 i) 1) :
    ∃ u, storeCmdline P a bs t = .ok () u ∧ Aside P r o entry s u := by
  have h0 : OffStub P a 1 := BitVec.add_zero a ▸ ha 0 (Nat.zero_le _)
  induction bs generalizing a t with
  | nil => exact h.write hb hs h0 0
  | cons b bs ih =>
    obtain ⟨u, hu, hau⟩ := h.write hb hs h0 (b.setWidth 32)
    have hstep : ∀ i ≤ bs.length, OffStub P (a + 1 + BitVec.ofNat 32 i) 1 := by
      intro i hi
      have hsum := add_ofNat_assoc a 1 i
      rw [Nat.add_comm] at hsum
      exact hsum ▸ ha (i + 1) (Nat.succ_le_succ hi)
    obtain ⟨v, hv, hav⟩ := ih hau hstep (BitVec.add_zero (a + 1) ▸ hstep 0 (Nat.zero_le _))
    refine ⟨v, ?_, hav⟩
    unfold storeCmdline
    rw [bind_of_ok hu, hv]

end Aside

/-- The registers with the command line passed to the kernel. -/
def bootRegs (P : Platform D) (cmdline : List (BitVec 8)) (r : Regs) : Regs :=
  if cmdline = [] then r else (r.setGpr 4 1).setGpr 5 P.cfg.cmdlineAddr

/-- What holds from `init_cpu` until the stub has run: nothing is pending, no interrupt is
    enabled, and the stub is in place. -/
structure Ready (P : Platform D) (r : Ram) (o entry : Word) (raised : List Raised)
    (s : Machine D) : Prop where
  hasException : s.cpu.hasException = false
  im : s.cpu.cp0.status.IM = 0
  raised : s.raised = raised
  stub : HasStub r o entry s.ram
  coherent : P.cfg.mmuCache = true → Coherent P s

/-- `init_monitor` has set up nothing but registers and memory: the rest is as static storage
    leaves it. -/
structure AtReset (s : Machine D) : Prop where
  isDelayslot : s.cpu.isDelayslot = false
  hasException : s.cpu.hasException = false
  chained : s.dc.Chained

/-- The machine that `init_cpu` leaves. -/
structure AtVector (P : Platform D) (r : Ram) (o entry : Word) (cmdline : List (BitVec 8))
    (s₀ s : Machine D) : Prop where
  regs : s.cpu.toRegs = bootRegs P cmdline s₀.cpu.toRegs
  pc : s.cpu.pc = CPU_INIT_PC
  isDelayslot : s.cpu.isDelayslot = false
  dc : s.dc = s₀.dc.clear
  ready : Ready P r o entry s₀.raised s

theorem boot_ok {P : Platform D} {bases : List (DevName × Word)} (hb : P.board.Realizes bases)
    {r : Ram} {o entry : Word} (hs : StubAt P r o) {cmdline : List (BitVec 8)}
    (hc : cmdline ≠ [] → CmdlineFits P cmdline) {s₀ : Machine D} (h₀ : AtReset s₀) :
    ∃ s₁, boot P entry cmdline s₀ = .ok () s₁ ∧ AtVector P r o entry cmdline s₀ s₁ := by
  have hbound := hs.bound
  have hsize := size_lt r
  have hstub := hasStub_stored s₀.ram r (show o.toNat + 16 ≤ 2 ^ 32 by omega) entry
  generalize hm : stored s₀.ram r o entry = m at hstub
  have hboot : boot P entry cmdline s₀ = initCpu P CPU_INIT_PC cmdline { s₀ with ram := m } := by
    unfold boot
    rw [bind_of_ok (loadRom_apply hs.base hbound entry s₀), hm]
  generalize hu : ({ s₀ with
    ram := m
    cpu := { s₀.cpu with cp0 := s₀.cpu.cp0.init P.cfg, pc := CPU_INIT_PC }
    mmuCache := clearMmu s₀.mmuCache
    dc := s₀.dc.clear } : Machine D) = u
  have hau : Aside P r o entry u u := by
    refine ⟨⟨u.ram, u.mmuCache, rfl⟩, hu ▸ hstub, fun _ => ?_⟩
    exact coherent_of_clear (m := s₀.mmuCache) (by rw [← hu])
  by_cases hcl : cmdline = []
  · subst hcl
    refine ⟨u, ?_, ?_⟩
    · rw [hboot, ← hu]
      rfl
    · have hready : Ready P r o entry s₀.raised u := by
        refine ⟨?_, ?_, ?_, hau.stub, hau.coherent⟩
        all_goals rw [← hu]
        · exact h₀.hasException
        · rfl
      refine ⟨?_, ?_, ?_, ?_, hready⟩
      all_goals rw [← hu]
      · rfl
      · exact h₀.isDelayslot
  · obtain ⟨hargv, hbytes⟩ := hc hcl
    obtain ⟨v, hv, hav⟩ := hau.write hb hs hargv.1 (P.cfg.cmdlineAddr + 8)
    obtain ⟨w, hw, haw⟩ := hav.write hb hs hargv.2 0
    obtain ⟨x, hx, hax⟩ := aside_storeCmdline hb hs cmdline haw hbytes
    obtain ⟨m', mc, hxe⟩ := hax.eq
    refine ⟨x.setRegs ((x.cpu.setGpr 4 1).setGpr 5 P.cfg.cmdlineAddr), ?_, ?_⟩
    · have hinit : initCpu P CPU_INIT_PC cmdline { s₀ with ram := m } =
          (vaddrWrite P P.cfg.cmdlineAddr 4 (P.cfg.cmdlineAddr + 8) >>= fun _ =>
            vaddrWrite P (P.cfg.cmdlineAddr + 4) 4 0 >>= fun _ =>
            storeCmdline P (P.cfg.cmdlineAddr + 8) cmdline >>= fun _ =>
            modifyRegs fun c => (c.setGpr 4 1).setGpr 5 P.cfg.cmdlineAddr) u := by
        rw [← hu]
        unfold initCpu
        rw [bind_of_ok (modifyCpu_apply _ _), bind_of_ok (clearMmuCache_apply _),
          bind_of_ok (clearDecodeCache_apply _), if_pos hcl]
      rw [hboot, hinit, bind_of_ok hv, bind_of_ok hw, bind_of_ok hx]
      rfl
    · have hready : Ready P r o entry s₀.raised
          (x.setRegs ((x.cpu.setGpr 4 1).setGpr 5 P.cfg.cmdlineAddr)) := by
        refine ⟨?_, ?_, ?_, hax.stub, fun h => (hax.coherent h).of_sameMapping ⟨rfl, rfl, rfl⟩ rfl⟩
        all_goals rw [hxe, ← hu]
        · exact h₀.hasException
        · rfl
        · rfl
      refine ⟨?_, ?_, ?_, ?_, hready⟩
      all_goals rw [hxe, ← hu]
      · simp only [bootRegs, if_neg hcl]
        rfl
      · rfl
      · exact h₀.isDelayslot
      · rfl

/-! ## Fetching the stub -/

/-- The address of the `k`-th instruction of the stub. -/
def stubPc (k : Nat) : Word := CPU_INIT_PC + BitVec.ofNat 32 (4 * k)

/-- The decode cache before the `k`-th instruction: `ds` is the last of its chain, and no chain
    starts at one of the instructions that are left. -/
structure StubDc (k : Nat) (c : DecodeCache) : Prop where
  chained : c.Chained
  live : c.DsLive
  next : c.nextOf c.ds = none
  head : ∀ i, c.ds = .head i → i = BitVec.ofNat 12 k
  rest : ∀ j, k ≤ j → j < 4 → (c.heads (BitVec.ofNat 12 j)).next = none

theorem stubDc_fetch {k : Nat} (hk : k < 4) {c : DecodeCache} (hch : c.Chained)
    (hr : ∀ j, k ≤ j → j < 4 → (c.heads (BitVec.ofNat 12 j)).next = none) :
    ∃ c', c.fetch (stubPc k) = some c' ∧ StubDc k c' := by
  have hidx : ∀ k < 4, decodeCacheIndex (stubPc k) = BitVec.ofNat 12 k := by decide
  obtain ⟨c', hc', hf⟩ := fetch_chained hch (stubPc k)
  have hds : c'.ds = .head (BitVec.ofNat 12 k) := by rw [hf.ds, hidx k hk]
  have hrest : ∀ j, k ≤ j → j < 4 → (c'.heads (BitVec.ofNat 12 j)).next = none := by
    intro j hkj hj
    obtain h | h := hf.heads (BitVec.ofNat 12 j)
    · rw [h]
      exact hr j hkj hj
    · exact h
  refine ⟨c', hc', hf.chained, fun n hn => ?_, ?_, fun i hi => ?_, hrest⟩
  · rw [hds] at hn
    cases hn
  · rw [hds]
    exact hrest k (Nat.le_refl k) hk
  · rw [hds] at hi
    cases hi
    rfl

theorem stubDc_grown {k : Nat} (hk : k < 4) {c c' : DecodeCache} (h : StubDc k c) {d : DecodeState}
    (hg : Grown d c c') (hd : d.next = none) : StubDc (k + 1) c' := by
  have hend : c'.nextOf (.node c.brk) = none := (nextOf_node hg.fresh).trans hd
  refine ⟨?_, fun n hn => ?_, ?_, fun i hi => ?_, fun j hkj hj => ?_⟩
  · unfold DecodeCache.Chained
    rw [hg.brk]
    exact h.chained.grow h.live hg.next hend (fun _ => hg.nextOf) hg.live
  · rw [hg.ds] at hn
    cases hn
    exact (hg.live _).2 (.inr rfl)
  · rw [hg.ds]
    exact hend
  · rw [hg.ds] at hi
    cases hi
  · have hne : Ptr.head (BitVec.ofNat 12 j) ≠ c.ds := by
      intro he
      have heq := congrArg BitVec.toNat (h.head _ he.symm)
      rw [BitVec.toNat_ofNat, BitVec.toNat_ofNat] at heq
      omega
    have hnode : Ptr.head (BitVec.ofNat 12 j) ≠ .node c.brk := by
      intro he
      cases he
    rw [← nextOf_head, hg.nextOf hne hnode, nextOf_head]
    exact h.rest j (by omega) hj

/-- `make_entry` on the `k`-th instruction of the stub. -/
structure EntersStub (P : Platform D) (entry : Word) (k : Nat) (s : Machine D) (o : Ops)
    (mc : BitVec 12 → MmuCacheEntry) (c : DecodeCache) : Prop where
  enters : makeEntry P s =
    .ok (decoderGetHandler (stubWord entry k), o) { s.zeroGpr with mmuCache := mc, dc := c }
  operands : OperandsOf P (stubWord entry k) o
  coherent : P.cfg.mmuCache = true → Coherent P { s.zeroGpr with mmuCache := mc, dc := c }
  dc : P.cfg.decodeCache = true → StubDc (k + 1) c

theorem makeEntry_stub {P : Platform D} {bases : List (DevName × Word)}
    (hb : P.board.Realizes bases) {r : Ram} {o entry : Word} (hs : StubAt P r o) {k : Nat}
    (hk : k < 4) {s : Machine D} {l : List Raised} (h : Ready P r o entry l s)
    (hpc : s.cpu.pc = stubPc k) (hdc : P.cfg.decodeCache = true → StubDc k s.dc) :
    ∃ o' mc c, EntersStub P entry k s o' mc c := by
  have hun : ∀ k < 4, Unmapped (stubPc k) := by decide
  have hbound := hs.bound
  have hsize := size_lt r
  have hoff : checkIoaddr (o + BitVec.ofNat 32 (4 * k)) 4 r.size = true := by
    refine checkIoaddr_of_le ?_
    rw [toNat_add_ofNat (by omega)]
    omega
  -- the fetch, with whatever decode state has been linked in before it
  have hfetch : ∀ c, ∃ mc, fetchInst P (s.zeroGpr.withDc c) =
      .ok (stubWord entry k) { s.zeroGpr.withDc c with mmuCache := mc } ∧
      (P.cfg.mmuCache = true → Coherent P { s.zeroGpr.withDc c with mmuCache := mc }) := by
    intro c
    obtain ⟨mc, hmc, hcoh⟩ := vaddrRead_ram hb (hs.ramAt k hk) (hun k hk) hoff
      (s := s.zeroGpr.withDc c) fun hm => (h.coherent hm).of_sameMapping ⟨rfl, rfl, rfl⟩ rfl
    refine ⟨mc, ?_, hcoh⟩
    have hpc' : (s.zeroGpr.withDc c).cpu.pc = stubPc k := hpc
    have hword : loadBytes ((s.zeroGpr.withDc c).ram r) (o + BitVec.ofNat 32 (4 * k)) 4 =
        stubWord entry k := h.stub k hk
    unfold fetchInst
    rw [bind_of_ok (getCpu_apply _), hpc', ← hword]
    exact hmc
  by_cases hd : P.cfg.decodeCache = true
  · have hst := hdc hd
    obtain ⟨d, hderef, hentry⟩ :=
      makeEntryCached_miss (P := P) (s := s.zeroGpr) hst.live hst.next
    have hgrown := grown_fill hst.chained hst.live hderef (P.malloc s.dc.brk) (stubWord entry k)
    have hfill := fill_eq (c := s.dc.linked d (P.malloc s.dc.brk)) (n := s.dc.brk) rfl
      (Function.update_self ..) (stubWord entry k)
    have hops := (filled_decodes (P.malloc s.dc.brk) (stubWord entry k)).ops
    have hnext := filled_next (P.malloc s.dc.brk) (stubWord entry k)
    obtain ⟨mc, hmc, hcoh⟩ := hfetch (s.dc.linked d (P.malloc s.dc.brk))
    generalize filled (P.malloc s.dc.brk) (stubWord entry k) = f at hgrown hfill hops hnext
    have hon : onDecodeCache (fun c => c.fill (stubWord entry k))
        ({ s.zeroGpr.withDc (s.dc.linked d (P.malloc s.dc.brk)) with mmuCache := mc } :
          Machine D) =
        .ok f.ops { s.zeroGpr with
          mmuCache := mc, dc := (s.dc.linked d (P.malloc s.dc.brk)).fillFresh s.dc.brk f } := by
      have hfill' : DecodeCache.fill ({ s.zeroGpr.withDc (s.dc.linked d (P.malloc s.dc.brk)) with
        mmuCache := mc } : Machine D).dc (stubWord entry k) = _ := hfill
      simp only [onDecodeCache, hfill']
      rfl
    refine ⟨f.ops, mc, (s.dc.linked d (P.malloc s.dc.brk)).fillFresh s.dc.brk f, ⟨?_, ?_,
      fun hm => (hcoh hm).of_sameMapping ⟨rfl, rfl, rfl⟩ rfl,
      fun _ => stubDc_grown hk hst hgrown hnext⟩⟩
    · rw [makeEntry_cached hd]
      refine hentry.trans ((bind_of_ok hmc _).trans ?_)
      exact bind_of_ok hon _
    · rw [OperandsOf, if_pos hd]
      exact hops
  · obtain ⟨mc, hmc, hcoh⟩ := hfetch s.dc
    refine ⟨Inst.ops (stubWord entry k), mc, s.dc, ⟨?_, ?_, hcoh, fun hd' => absurd hd' hd⟩⟩
    · unfold makeEntry
      rw [bind_of_ok (modifyRegs_apply s _), if_neg hd]
      exact bind_of_ok hmc _
    · rw [OperandsOf, if_neg hd]

/-! ## The four instructions -/

section Immediate

variable {h x : Word} (hx : x.toNat < 2 ^ 16)
include hx

/-- The fields above the immediate. -/
theorem extract_or_immediate {lo n : Nat} (hlo : 16 ≤ lo) :
    (h ||| x).extractLsb' lo n = h.extractLsb' lo n := by
  have hzero : x.extractLsb' lo n = 0#n := by
    apply BitVec.eq_of_getLsbD_eq
    intro i hi
    have hbit : x.getLsbD (lo + i) = false :=
      Nat.testBit_lt_two_pow (Nat.lt_of_lt_of_le hx (Nat.pow_le_pow_right (by omega) (by omega)))
    simp [hi, hbit]
  rw [BitVec.extractLsb'_or, hzero, BitVec.or_zero]

omit hx in
theorem uimm_or_immediate (hh : h.extractLsb' 0 16 = 0#16) :
    Inst.uimm (h ||| x) = x.setWidth 16 := by
  rw [Inst.uimm, BitVec.extractLsb'_or, hh, BitVec.zero_or]
  exact (BitVec.setWidth_eq_extractLsb' (by omega)).symm

end Immediate

/-- The two halves of the entry point, as `lui` and `ori` put them together. -/
theorem halves (entry : Word) :
    ((entry >>> 16).setWidth 16).setWidth 32 <<< 16 |||
      ((entry &&& 0xFFFF).setWidth 16).setWidth 32 = entry := by
  apply BitVec.eq_of_getLsbD_eq
  intro i hi
  by_cases hlow : i < 16
  · have hmask : ∀ i < 16, (0xFFFF : Word).getLsbD i = true := by decide
    simp only [BitVec.getLsbD_or, BitVec.getLsbD_shiftLeft, BitVec.getLsbD_setWidth,
      BitVec.getLsbD_and, hmask i hlow]
    simp [hlow, hi]
  · have hsum : 16 + (i - 16) = i := by omega
    simp [hlow, hi, hsum, show i - 16 < 16 by omega]

theorem toNat_high (entry : Word) : (entry >>> 16).toNat < 2 ^ 16 := by
  have := entry.isLt
  rw [BitVec.toNat_ushiftRight, Nat.shiftRight_eq_div_pow]
  omega

theorem toNat_low (entry : Word) : (entry &&& 0xFFFF).toNat < 2 ^ 16 := by
  rw [BitVec.toNat_and]
  exact Nat.lt_of_le_of_lt Nat.and_le_right (by decide)

theorem handler_lui (entry : Word) : decoderGetHandler (stubWord entry 0) = .lui := by
  have hop : Inst.op (stubWord entry 0) = 0x0f := extract_or_immediate (toNat_high entry) (by omega)
  unfold decoderGetHandler
  rw [hop]
  rfl

theorem handler_ori (entry : Word) : decoderGetHandler (stubWord entry 1) = .ori := by
  have hop : Inst.op (stubWord entry 1) = 0x0d := extract_or_immediate (toNat_low entry) (by omega)
  unfold decoderGetHandler
  rw [hop]
  rfl

/-- What an instruction of the stub leaves in `t0`. -/
def stubT0 (entry : Word) : Nat → Word
  | 0 => ((entry >>> 16).setWidth 16).setWidth 32 <<< 16
  | _ => entry

section Exec

variable (P : Platform D) (entry : Word) {o : Ops} (s : Machine D)

theorem exec_lui (ho : OperandsOf P (stubWord entry 0) o) :
    exec P o (decoderGetHandler (stubWord entry 0)) s =
      .ok () (s.setRegs (s.cpu.setGpr 8 (stubT0 entry 0))) := by
  have hh := handler_lui entry
  have hrs : (Inst.ops (stubWord entry 0)).rs = 0 :=
    extract_or_immediate (toNat_high entry) (by omega)
  have hrt : (Inst.ops (stubWord entry 0)).rt = 8 :=
    extract_or_immediate (toNat_high entry) (by omega)
  have himm : (Inst.ops (stubWord entry 0)).uimm = (entry >>> 16).setWidth 16 :=
    uimm_or_immediate (by decide)
  rw [ho.exec_eq (by rw [hh]; decide), hh]
  unfold exec body lui
  rw [hrs, hrt, himm]
  rfl

theorem exec_ori (ho : OperandsOf P (stubWord entry 1) o) (h8 : s.cpu.gpr 8 = stubT0 entry 0) :
    exec P o (decoderGetHandler (stubWord entry 1)) s =
      .ok () (s.setRegs (s.cpu.setGpr 8 entry)) := by
  have hh := handler_ori entry
  have hrs : (Inst.ops (stubWord entry 1)).rs = 8 :=
    extract_or_immediate (toNat_low entry) (by omega)
  have hrt : (Inst.ops (stubWord entry 1)).rt = 8 :=
    extract_or_immediate (toNat_low entry) (by omega)
  have himm : (Inst.ops (stubWord entry 1)).uimm = (entry &&& 0xFFFF).setWidth 16 :=
    uimm_or_immediate (by decide)
  have hval : s.cpu.gpr 8 ||| ((entry &&& 0xFFFF).setWidth 16).setWidth 32 = entry := by
    rw [h8]
    exact halves entry
  rw [ho.exec_eq (by rw [hh]; decide), hh]
  unfold exec body ori
  rw [hrs, hrt, himm]
  have hrun : (Body.ofRegs fun c => c.setGpr 8
      (c.gpr 8 ||| ((entry &&& 0xFFFF).setWidth 16).setWidth 32)).run P s =
      .ok () (s.setRegs (s.cpu.setGpr 8
        (s.cpu.gpr 8 ||| ((entry &&& 0xFFFF).setWidth 16).setWidth 32))) := rfl
  rw [hrun, hval]

theorem exec_jr (ho : OperandsOf P (stubWord entry 2) o) :
    exec P o (decoderGetHandler (stubWord entry 2)) s =
      .error .delayslot (s.branchTo s.cpu.toRegs (s.cpu.gpr 8)) := by
  have hw : stubWord entry 2 = 0x01000008 := rfl
  have hh : decoderGetHandler 0x01000008 = .jr := by decide
  have hrs : (Inst.ops 0x01000008).rs = 8 := by decide
  have hmbz : ((Inst.ops 0x01000008).rt == 0 && (Inst.ops 0x01000008).rd == 0) = true := by decide
  rw [hw] at ho ⊢
  rw [ho.exec_eq (by rw [hh]; decide), hh]
  unfold exec body jr
  rw [hrs, hmbz]
  exact run_branch P noLink _ s

theorem exec_nop (ho : OperandsOf P (stubWord entry 3) o) :
    exec P o (decoderGetHandler (stubWord entry 3)) s =
      .ok () (s.setRegs (s.cpu.setGpr 0 (s.cpu.gpr 0 <<< 0))) := by
  have hw : stubWord entry 3 = 0 := rfl
  have hh : decoderGetHandler 0 = .sll := by decide
  rw [hw] at ho ⊢
  rw [ho.exec_eq (by rw [hh]; decide), hh]
  rfl

end Exec

/-! ## The stages -/

/-- The machine before the `k`-th instruction of the stub, and after the last for `k = 4`. -/
structure Stage (P : Platform D) (r : Ram) (o entry : Word) (s₁ : Machine D) (k : Nat)
    (s : Machine D) : Prop where
  ready : Ready P r o entry s₁.raised s
  others : ∀ i, i ≠ 0 → i ≠ 8 → s.cpu.gpr i = s₁.cpu.gpr i
  hi : s.cpu.hi = s₁.cpu.hi
  lo : s.cpu.lo = s₁.cpu.lo
  t0 : ∀ j, k = j + 1 → s.cpu.gpr 8 = stubT0 entry j
  pc : s.cpu.pc = if k = 4 then entry else stubPc k
  slot : s.cpu.isDelayslot = decide (k = 3)
  target : k = 3 → s.cpu.brTarget = entry
  dc : k < 4 → P.cfg.decodeCache = true → StubDc k s.dc

section Stage

variable {P : Platform D} {r : Ram} {o entry : Word} {s₁ s : Machine D} {k : Nat}

/-- The next stage, from what the instruction and what follows it do to the processor. -/
theorem Stage.advance (h : Stage P r o entry s₁ k s) {c : CpuState}
    {mc : BitVec 12 → MmuCacheEntry} {dc : DecodeCache}
    (hcp0 : c.cp0 = s.cpu.cp0) (hexc : c.hasException = s.cpu.hasException)
    (hoth : ∀ i, i ≠ 0 → i ≠ 8 → c.gpr i = s.cpu.gpr i)
    (hhi : c.hi = s.cpu.hi) (hlo : c.lo = s.cpu.lo) (ht0 : c.gpr 8 = stubT0 entry k)
    (hpc : c.pc = if k + 1 = 4 then entry else stubPc (k + 1))
    (hslot : c.isDelayslot = decide (k + 1 = 3)) (htarget : k + 1 = 3 → c.brTarget = entry)
    (hcoh : P.cfg.mmuCache = true → Coherent P { s.zeroGpr with mmuCache := mc })
    (hdc : k + 1 < 4 → P.cfg.decodeCache = true → StubDc (k + 1) dc) :
    Stage P r o entry s₁ (k + 1) { s with cpu := c, mmuCache := mc, dc := dc } := by
  have hready : Ready P r o entry s₁.raised { s with cpu := c, mmuCache := mc, dc := dc } := by
    refine ⟨hexc.trans h.ready.hasException, ?_, h.ready.raised, h.ready.stub, fun hm => ?_⟩
    · rw [← h.ready.im, ← hcp0]
    · refine (hcoh hm).of_sameMapping ⟨rfl, ?_, ?_⟩ rfl
      · rw [← show c.cp0 = s.zeroGpr.cpu.cp0 from hcp0]
      · rw [← show c.cp0 = s.zeroGpr.cpu.cp0 from hcp0]
  refine ⟨hready, fun i h0 h8 => (hoth i h0 h8).trans (h.others i h0 h8), hhi.trans h.hi,
    hlo.trans h.lo, fun j hj => ?_, hpc, hslot, htarget, hdc⟩
  obtain rfl : j = k := by omega
  exact ht0

theorem Stage.tick (h : Stage P r o entry s₁ k s) : Stage P r o entry s₁ k (s.tick P) := by
  unfold Machine.tick
  split
  · have hmap := tick_mapping s.cpu.cp0
    refine ⟨⟨h.ready.hasException, ?_, h.ready.raised, h.ready.stub, fun hm => ?_⟩, h.others, h.hi,
      h.lo, h.t0, h.pc, h.slot, h.target, h.dc⟩
    · rw [← h.ready.im]
      exact congrArg Cp0Status.IM (tick_status s.cpu.cp0)
    · exact (h.ready.coherent hm).of_sameMapping ⟨rfl, hmap.1.symm, hmap.2.symm⟩ rfl
  · exact h

/-- A device callback between two instructions. -/
theorem Stage.host (h : Stage P r o entry s₁ k s) (f : DevCtx D → DevCtx D) :
    Stage P r o entry s₁ k { s with toArch := s.putDev (f s.devCtx) } :=
  ⟨⟨h.ready.hasException, h.ready.im, h.ready.raised, h.ready.stub,
    fun hm => (h.ready.coherent hm).of_sameMapping ⟨rfl, rfl, rfl⟩ rfl⟩, h.others, h.hi, h.lo, h.t0,
    h.pc, h.slot, h.target, h.dc⟩

/-- The exception check after a stage takes no interrupt, because none is enabled. -/
theorem Stage.settle (h : Stage P r o entry s₁ k s) : s.settle P = s.tick P := by
  refine settle_of_quiet h.ready.hasException ?_
  have him := h.tick.ready.im
  unfold Cp0.takesIntr
  rw [him]
  simp

end Stage

theorem instEnd_of_not_slot {P : Platform D} (hx : P.cfg.exception = true) (h : Handler)
    {s : Machine D} (hd : s.cpu.isDelayslot = false) :
    instEnd P h s = .ok () { s with cpu := { s.cpu with pc := s.cpu.pc + 4 } } := by
  rw [instEnd_next hx h hd, Machine.instEnd, if_neg (by simp [hd])]

/-- The end of a delay slot, where the decode cache looks up the target. -/
theorem instEnd_of_slot {P : Platform D} (hx : P.cfg.exception = true) (h : Handler)
    {s : Machine D} (hd : s.cpu.isDelayslot = true)
    (hch : P.cfg.decodeCache = true → s.dc.Chained) :
    ∃ c, instEnd P h s = .ok () { s with
      cpu := { s.cpu with pc := s.cpu.brTarget, isDelayslot := false }
      dc := c } := by
  by_cases hc : P.cfg.decodeCache = true
  · obtain ⟨c, hc', -⟩ := fetch_chained (hch hc) s.cpu.brTarget
    refine ⟨c, ?_⟩
    rw [instEnd_fetch hx hc h hd hc', Machine.instEnd, if_pos hd]
    rfl
  · refine ⟨s.dc, ?_⟩
    unfold instEnd
    simp only [delayslot_of_exception hx, if_true]
    rw [bind_of_ok (getCpu_apply s), if_pos hd, bind_of_ok (modifyCpu_apply s _), if_neg hc]
    rfl

section Exec

variable {P : Platform D} (hx : P.cfg.exception = true) {r : Ram} {o entry : Word}
  {s₁ s : Machine D} {k : Nat} {o' : Ops} {mc : BitVec 12 → MmuCacheEntry} {c : DecodeCache}

theorem EntersStub.execInst (he : EntersStub P entry k s o' mc c) (ha : s.cpu.pc &&& 3 = 0) :
    execInst P s = dispatch P (decoderGetHandler (stubWord entry k)) o'
      { s.zeroGpr with mmuCache := mc, dc := c } := by
  rw [execInst_of_aligned ha, bind_of_ok he.enters]

include hx

/-- An instruction that loads `t0`. -/
theorem Stage.load (h : Stage P r o entry s₁ k s) (hk : k < 2)
    (he : EntersStub P entry k s o' mc c)
    (hexec : exec P o' (decoderGetHandler (stubWord entry k))
      { s.zeroGpr with mmuCache := mc, dc := c } = .ok ()
        (({ s.zeroGpr with mmuCache := mc, dc := c } : Machine D).setRegs
          (s.zeroGpr.cpu.setGpr 8 (stubT0 entry k)))) :
    ∃ t, dispatch P (decoderGetHandler (stubWord entry k)) o'
      { s.zeroGpr with mmuCache := mc, dc := c } = .ok () t ∧
      Stage P r o entry s₁ (k + 1) t := by
  have hslot : s.cpu.isDelayslot = false := by simp [h.slot, show k ≠ 3 by omega]
  refine ⟨{ s with
    cpu := { s.cpu with
      toRegs := (s.cpu.setGpr 0 0).setGpr 8 (stubT0 entry k), pc := s.cpu.pc + 4 }
    mmuCache := mc
    dc := c }, ?_, ?_⟩
  · unfold dispatch
    rw [hexec]
    exact instEnd_of_not_slot hx _ hslot
  · refine h.advance rfl rfl (fun i h0 h8 => ?_) rfl rfl ?_ ?_ ?_ ?_ he.coherent fun _ => he.dc
    · exact (gpr_setGpr_of_ne h8 _).trans (gpr_setGpr_of_ne h0 _)
    · simp
    · have hpc := h.pc
      rw [if_neg (by omega)] at hpc ⊢
      have hstep : ∀ k < 2, stubPc k + 4 = stubPc (k + 1) := by decide
      exact (congrArg (· + 4) hpc).trans (hstep k hk)
    · simp [hslot, show k + 1 ≠ 3 by omega]
    · omega

theorem Stage.jump (h : Stage P r o entry s₁ 2 s) (he : EntersStub P entry 2 s o' mc c) :
    ∃ t, dispatch P (decoderGetHandler (stubWord entry 2)) o'
      { s.zeroGpr with mmuCache := mc, dc := c } = .ok () t ∧ Stage P r o entry s₁ 3 t := by
  have h8 : (s.cpu.setGpr 0 0).gpr 8 = entry := by simpa [stubT0] using h.t0 1 rfl
  refine ⟨{ s with
    cpu := { s.cpu with
      toRegs := s.cpu.setGpr 0 0, brTarget := (s.cpu.setGpr 0 0).gpr 8, isDelayslot := true
      pc := s.cpu.pc + 4 }
    mmuCache := mc
    dc := c }, ?_, ?_⟩
  · unfold dispatch
    rw [exec_jr P entry _ he.operands]
    exact enterDelayslot_apply hx _
  · refine h.advance rfl rfl (fun i h0 _ => ?_) rfl rfl h8 ?_ rfl (fun _ => h8) he.coherent
      fun _ => he.dc
    · exact gpr_setGpr_of_ne h0 _
    · have hpc : s.cpu.pc = stubPc 2 := h.pc
      exact congrArg (· + 4) hpc

theorem Stage.finish (h : Stage P r o entry s₁ 3 s) (he : EntersStub P entry 3 s o' mc c) :
    ∃ t, dispatch P (decoderGetHandler (stubWord entry 3)) o'
      { s.zeroGpr with mmuCache := mc, dc := c } = .ok () t ∧ Stage P r o entry s₁ 4 t := by
  have h8 : s.cpu.gpr 8 = entry := h.t0 2 rfl
  generalize hr : (s.cpu.setGpr 0 0).setGpr 0 ((s.cpu.setGpr 0 0).gpr 0 <<< 0) = r'
  obtain ⟨c', hc'⟩ := instEnd_of_slot hx (decoderGetHandler (stubWord entry 3))
    (s := { s with cpu := { s.cpu with toRegs := r' }, mmuCache := mc, dc := c }) h.slot
    fun hd => (he.dc hd).chained
  refine ⟨{ s with
    cpu := { s.cpu with toRegs := r', pc := s.cpu.brTarget, isDelayslot := false }
    mmuCache := mc
    dc := c' }, ?_, ?_⟩
  · unfold dispatch
    rw [exec_nop P entry _ he.operands]
    rw [← hr] at hc' ⊢
    exact hc'
  · refine h.advance rfl rfl (fun i h0 _ => ?_) ?_ ?_ ?_ (h.target rfl) rfl
      (fun hk => absurd hk (by decide)) he.coherent (fun hk => absurd hk (by decide))
    · rw [← hr]
      exact (gpr_setGpr_of_ne h0 _).trans (gpr_setGpr_of_ne h0 _)
    · rw [← hr]
      rfl
    · rw [← hr]
      rfl
    · rw [← hr]
      have h08 : (8 : BitVec 5) ≠ 0 := by decide
      exact (gpr_setGpr_of_ne h08 _).trans ((gpr_setGpr_of_ne h08 _).trans h8)

variable {bases : List (DevName × Word)} (hb : P.board.Realizes bases) (hs : StubAt P r o)
include hb hs

/-- One instruction of the stub. -/
theorem Stage.step (h : Stage P r o entry s₁ k s) (hk : k < 4) :
    iteration P s = .ok () (final (iteration P s)) ∧
      Stage P r o entry s₁ (k + 1) (final (iteration P s)) := by
  have hpc : s.cpu.pc = stubPc k := by
    rw [h.pc, if_neg (by omega)]
  have haligned : ∀ k < 4, stubPc k &&& 3 = 0 := by decide
  obtain ⟨o', mc, c, he⟩ := makeEntry_stub hb hs hk h.ready hpc (h.dc hk)
  have hexec := he.execInst (by rw [hpc]; exact haligned k hk)
  have hdispatch : ∃ t, dispatch P (decoderGetHandler (stubWord entry k)) o'
      { s.zeroGpr with mmuCache := mc, dc := c } = .ok () t ∧
      Stage P r o entry s₁ (k + 1) t := by
    have hcases : k = 0 ∨ k = 1 ∨ k = 2 ∨ k = 3 := by omega
    rcases hcases with rfl | rfl | rfl | rfl
    · exact h.load hx (by omega) he (exec_lui P entry _ he.operands)
    · have h8 : (s.cpu.setGpr 0 0).gpr 8 = stubT0 entry 0 := by simpa using h.t0 0 rfl
      exact h.load hx (by omega) he (exec_ori P entry _ he.operands h8)
    · exact h.jump hx he
    · exact h.finish hx he
  obtain ⟨t, ht, hst⟩ := hdispatch
  have hit : iteration P s = .ok () (t.tick P) := by
    rw [iteration_apply hx, hexec, ht, ← hst.settle]
  rw [hit]
  exact ⟨rfl, hst.tick⟩

end Exec

/-! ## Runs -/

/-- `n` instructions have been executed from `s₁` on. `cpu_exec` is entered first; devices may
    call back and `cpu_exec` may be entered again between two instructions. -/
inductive Executed (P : Platform D) (s₁ : Machine D) : Nat → Machine D → Prop where
  | start {s} (he : enterLoop P s₁ = .ok () s) : Executed P s₁ 0 s
  | iterate {n s s'} (h : Executed P s₁ n s) (hi : iteration P s = .ok () s') :
    Executed P s₁ (n + 1) s'
  | host {n s} (h : Executed P s₁ n s) (f : DevCtx D → DevCtx D) :
    Executed P s₁ n { s with toArch := s.putDev (f s.devCtx) }
  | enter {n s s'} (h : Executed P s₁ n s) (he : enterLoop P s = .ok () s') :
    Executed P s₁ n s'

theorem enterLoop_stub {P : Platform D} {s : Machine D} {k : Nat} (hk : k < 4)
    (hpc : s.cpu.pc = stubPc k) (hch : P.cfg.decodeCache = true → s.dc.Chained)
    (hr : P.cfg.decodeCache = true → ∀ j, k ≤ j → j < 4 →
      (s.dc.heads (BitVec.ofNat 12 j)).next = none) :
    ∃ c, enterLoop P s = .ok () { s with nemuState := .running, dc := c } ∧
      (P.cfg.decodeCache = true → StubDc k c) := by
  unfold enterLoop setNemuState
  rw [bind_of_ok (modifyArch_apply s _)]
  by_cases hd : P.cfg.decodeCache = true
  · obtain ⟨c, hc, hst⟩ := stubDc_fetch hk (hch hd) (hr hd)
    refine ⟨c, ?_, fun _ => hst⟩
    rw [if_pos hd, bind_of_ok (getCpu_apply _), hpc]
    simp only [decodeCacheFetch, onDecodeCache, hc, Option.map_some]
  · refine ⟨s.dc, ?_, fun hd' => absurd hd' hd⟩
    rw [if_neg hd]
    rfl

section Runs

variable {P : Platform D} {r : Ram} {o entry : Word} {s₁ s s' : Machine D} {k : Nat}

theorem Stage.enter (h : Stage P r o entry s₁ k s) (he : enterLoop P s = .ok () s') :
    Stage P r o entry s₁ k s' := by
  obtain ⟨c, rfl⟩ := enterLoop_shape he
  refine ⟨⟨h.ready.hasException, h.ready.im, h.ready.raised, h.ready.stub,
    fun hm => (h.ready.coherent hm).of_sameMapping ⟨rfl, rfl, rfl⟩ rfl⟩, h.others, h.hi, h.lo, h.t0,
    h.pc, h.slot, h.target, fun hk hd => ?_⟩
  have hpc : s.cpu.pc = stubPc k := by
    rw [h.pc, if_neg (by omega)]
  obtain ⟨c', he', hst⟩ := enterLoop_stub hk hpc (fun hd => (h.dc hk hd).chained)
    fun hd => (h.dc hk hd).rest
  rw [he'] at he
  cases he
  exact hst hd

/-- The first entry of `cpu_exec`. -/
theorem AtVector.enter {s₀ : Machine D} {cmdline : List (BitVec 8)}
    (h : AtVector P r o entry cmdline s₀ s₁) (hch : s₀.dc.Chained) :
    ∃ s, enterLoop P s₁ = .ok () s ∧ Stage P r o entry s₁ 0 s := by
  have hpc : s₁.cpu.pc = stubPc 0 := h.pc
  obtain ⟨c, he, hst⟩ := enterLoop_stub (by omega) hpc (fun _ => h.dc ▸ chained_clear hch)
    fun _ j _ _ => by rw [h.dc]; rfl
  refine ⟨_, he, ⟨h.ready.hasException, h.ready.im, rfl, h.ready.stub, fun hm =>
    (h.ready.coherent hm).of_sameMapping ⟨rfl, rfl, rfl⟩ rfl⟩, fun _ _ _ => rfl, rfl, rfl,
    fun j hj => absurd hj (by omega), hpc, h.isDelayslot, fun h0 => absurd h0 (by decide),
    fun _ => hst⟩

end Runs

/-- The stub has jumped to the entry point. -/
structure AtEntry (entry : Word) (s₁ s : Machine D) : Prop where
  pc : s.cpu.pc = entry
  isDelayslot : s.cpu.isDelayslot = false
  t0 : s.cpu.gpr 8 = entry
  others : ∀ i, i ≠ 0 → i ≠ 8 → s.cpu.gpr i = s₁.cpu.gpr i
  hi : s.cpu.hi = s₁.cpu.hi
  lo : s.cpu.lo = s₁.cpu.lo
  hasException : s.cpu.hasException = false
  raised : s.raised = s₁.raised

/-- The boot stub reaches the entry point: `load_rom` and `init_cpu` succeed, the next four
    instructions run, and whatever the devices do in between, they end at `entry` having changed
    nothing but `t0` and raised nothing. -/
theorem boot_stub {P : Platform D} (hx : P.cfg.delayslot = true) {bases : List (DevName × Word)}
    (hb : P.board.Realizes bases) (hram : (P.ramAt CPU_INIT_PC).isSome = true) (entry : Word)
    {cmdline : List (BitVec 8)} (hc : cmdline ≠ [] → CmdlineFits P cmdline) {s₀ : Machine D}
    (h₀ : AtReset s₀) :
    ∃ s₁, boot P entry cmdline s₀ = .ok () s₁ ∧
      s₁.cpu.toRegs = bootRegs P cmdline s₀.cpu.toRegs ∧ s₁.cpu.pc = CPU_INIT_PC ∧
      (∃ s, Executed P s₁ 4 s) ∧
      (∀ n s, n < 4 → Executed P s₁ n s → ∃ s', iteration P s = .ok () s') ∧
      ∀ s, Executed P s₁ 4 s → AtEntry entry s₁ s := by
  obtain ⟨⟨r, o⟩, hro⟩ := Option.isSome_iff_exists.1 hram
  have hs := stubAt hb hro
  obtain ⟨s₁, hboot, hvec⟩ : ∃ s₁, boot P entry cmdline s₀ = .ok () s₁ ∧
      AtVector P r o entry cmdline s₀ s₁ := boot_ok hb hs hc h₀
  obtain ⟨s, he, hst⟩ := hvec.enter h₀.chained
  have hstage : ∀ n s, n ≤ 4 → Executed P s₁ n s → Stage P r o entry s₁ n s := by
    intro n s hn h
    induction h with
    | start he' =>
      rw [he] at he'
      cases he'
      exact hst
    | iterate _ hi ih =>
      have hstep := (ih (by omega)).step hx hb hs (by omega)
      rw [hi] at hstep
      exact hstep.2
    | host _ f ih => exact (ih hn).host f
    | enter _ he ih => exact (ih hn).enter he
  have hprogress : ∀ n s, n < 4 → Executed P s₁ n s → ∃ s', iteration P s = .ok () s' :=
    fun n s hn h => ⟨_, ((hstage n s (by omega) h).step hx hb hs hn).1⟩
  have hreach : ∀ n ≤ 4, ∃ s, Executed P s₁ n s := by
    intro n hn
    induction n with
    | zero => exact ⟨s, .start he⟩
    | succ n ih =>
      obtain ⟨u, hu⟩ := ih (by omega)
      obtain ⟨v, hv⟩ := hprogress n u (by omega) hu
      exact ⟨v, hu.iterate hv⟩
  refine ⟨s₁, hboot, hvec.regs, hvec.pc, hreach 4 (Nat.le_refl 4), hprogress, fun s h => ?_⟩
  have h4 := hstage 4 s (Nat.le_refl 4) h
  exact ⟨h4.pc, h4.slot, h4.t0 3 rfl, h4.others, h4.hi, h4.lo, h4.ready.hasException,
    h4.ready.raised⟩

/-- Static storage is zero: no decode state has been allocated. -/
theorem chained_boot (ram : Memory) (dev : D) : (Machine.boot ram dev).dc.Chained := by
  have hnone : ∀ {p m}, (Machine.boot ram dev).dc.nextOf p = some m → False := by
    intro p m h
    cases p with
    | head i => cases h
    | node n => cases h
  have hdead : ∀ n, ¬(Machine.boot ram dev).dc.Live n := fun n h => Bool.false_ne_true h
  exact ⟨fun hp => (hnone hp).elim, fun hp => (hnone hp).elim, fun hn => absurd hn (hdead _),
    fun hp => (hnone hp).elim⟩

/-- An entry point with bits 15 and 31 set, and the command line "n". -/
theorem boot_stub_high : ∃ s₁, boot mips32r1 0x8000f004 [0x6e] zeroed = .ok () s₁ ∧
    s₁.cpu.gpr 5 = 0xbfc10000 ∧ ∀ s, Executed mips32r1 s₁ 4 s → AtEntry 0x8000f004 s₁ s := by
  have hoff : ∀ {a o : Word} {len : Nat}, Unmapped a → mips32r1.ramAt a = some (.bram, o) →
      16 ≤ o.toNat → o.toNat + len ≤ 0x100000 → OffStub mips32r1 a len := by
    intro a o len hun hr hlow hhigh
    refine ⟨hun, .bram, o, hr, hhigh, fun o' h => ?_⟩
    have hz : mips32r1.ramAt CPU_INIT_PC = some (.bram, 0) := by decide
    rw [hz] at h
    cases h
    exact .inl hlow
  have hfits : CmdlineFits mips32r1 [0x6e] := by
    refine ⟨⟨hoff (o := 0x10000) (by decide) (by decide) (by decide) (by decide),
      hoff (o := 0x10004) (by decide) (by decide) (by decide) (by decide)⟩, fun i hi => ?_⟩
    have hcases : i = 0 ∨ i = 1 := by
      have : i ≤ 1 := hi
      omega
    rcases hcases with rfl | rfl
    · exact hoff (o := 0x10008) (by decide) (by decide) (by decide) (by decide)
    · exact hoff (o := 0x10009) (by decide) (by decide) (by decide) (by decide)
  have h₀ : AtReset zeroed := ⟨rfl, rfl, chained_boot _ _⟩
  obtain ⟨s₁, hboot, hregs, -, -, -, hend⟩ := boot_stub (P := mips32r1) rfl ramBoard_realizes
    (by decide) 0x8000f004 (fun _ => hfits) h₀
  refine ⟨s₁, hboot, ?_, hend⟩
  have h5 := congrArg (fun r => Regs.gpr r 5) hregs
  exact h5

end NemuMips32
