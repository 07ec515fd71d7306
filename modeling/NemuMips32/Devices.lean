/-
  The memory regions (`realize_device` and `init_mmio` of `memory.c`) and the accesses of the
  debugger.

  A device takes the pages from its start to its end, and no page that is taken already; so
  what `find_device` finds covers the page of the address it was asked for (`covers_initMmio`).
  But `find_device` looks at the lower 29 bits of the address only, while the offset handed to
  the device is formed from all 32. The two agree for every address that
  `prot_addr_with_attr` has mapped or masked, and not for those it passes through as they are:
  `inside_iff`.
-/
import NemuMips32.Board
import NemuMips32.Translate

namespace NemuMips32

open StateExcept

variable {D : Type}

/-! ## init_mmio -/

/-- The sizes of the devices, each from the file that defines it. -/
def DevName.size : DevName → Word
  | .bram => 0x100000
  | .ddr => 0x10000000
  | .blackhole => 0x1000
  | .nemuTrap => 0x1000
  | .nemuKeyboard => 0x10
  | .nemuClock => 0x4
  | .nemuPmu => 0x1000
  | .nemuVgaCtrl => 4
  | .nemuVga => 0x100000
  | .nemuDisk => 0x1000
  | .xlnxUlite => 0x10
  | .xlnxSpi => 0x7C
  | .xlnxElite => 0x10000

/-- A device as its file defines it, at the base address of the configuration. -/
def deviceAt (name : DevName) (base : Word) : Device := { name, start := base, size := name.size }

abbrev Regions := Word → Option Device

/-- The loop of `realize_device`; `none` is its failed assertion. The loop visits no page
    twice, so the fuel that `realizeDevice` gives it is never the reason to stop. -/
def realizePages (dev : Device) : Nat → Word → Regions → Option Regions
  | 0, _, _ => none
  | fuel + 1, i, m =>
    if i < dev.start + dev.size then
      if (m (mrIndex i)).isSome then none
      else realizePages dev fuel (i + 4096) (Function.update m (mrIndex i) (some dev))
    else some m

def realizeDevice (m : Regions) (dev : Device) : Option Regions :=
  if dev.start &&& 0xFFF = 0 then realizePages dev (2 ^ 20 + 1) dev.start m else none

/-- `init_mmio` on the device list. -/
def initMmio (devs : List Device) : Option Regions := devs.foldlM realizeDevice fun _ => none

/-! ## Debugger accesses -/

/-- `dbg_vaddr_read`. -/
def dbgVaddrRead (P : Platform D) (addr : Word) (len : Nat) : Exec D Word := do
  let (paddr, _) ← protAddrWithAttr P addr (.init .load false)
  match P.findDevice paddr with
  | none => return 0
  | some dev =>
    match P.devRead dev.name with
    | none => return 0
    | some read => read (paddr - dev.start) len

/-- `dbg_vaddr_write`. -/
def dbgVaddrWrite (P : Platform D) (addr : Word) (len : Nat) (data : Word) : Exec D Unit := do
  let (paddr, _) ← protAddrWithAttr P addr (.init .store false)
  match P.findDevice paddr with
  | none => return
  | some dev =>
    match P.devWrite dev.name with
    | none => return
    | some write => do
      write (paddr - dev.start) len data
      clearDecodeCache

/-! ## What the regions cover -/

/-- The page of index `p` is one of the pages of `d`. -/
structure OnPage (d : Device) (p : Word) : Prop where
  aligned : d.start.toNat % 4096 = 0
  start_le : d.start.toNat ≤ 4096 * p.toNat
  lt_end : 4096 * p.toNat < d.start.toNat + d.size.toNat

/-- Every region is a page of a device in the list. -/
def Covers (devs : List Device) (m : Regions) : Prop :=
  ∀ p d, m p = some d → d ∈ devs ∧ OnPage d p

theorem toNat_mrIndex (i : Word) : (mrIndex i).toNat = i.toNat / 4096 := BitVec.toNat_udiv

theorem toNat_nextPage (i : Word) : (i + 4096).toNat = (i.toNat + 4096) % 2 ^ 32 :=
  BitVec.toNat_add i 4096

theorem aligned_iff (a : Word) : a &&& 0xFFF = 0 ↔ a.toNat % 4096 = 0 := by
  have h : (a &&& 0xFFF).toNat = a.toNat % 4096 := by
    rw [BitVec.toNat_and]
    exact Nat.and_two_pow_sub_one_eq_mod a.toNat 12
  rw [← BitVec.toNat_inj, h]
  rfl

section Realize

variable {dev : Device} (hs : dev.start.toNat % 4096 = 0)
include hs

/-- Once the address has wrapped around, the loop runs into the first page of the device. -/
theorem realizePages_wrapped {fuel : Nat} {i : Word} {m : Regions} (hi : i.toNat % 4096 = 0)
    (hle : i ≤ dev.start) (hlt : dev.start < dev.start + dev.size)
    (hm : (m (mrIndex dev.start)).isSome = true) : realizePages dev fuel i m = none := by
  induction fuel generalizing i m with
  | zero => rfl
  | succ fuel ih =>
    have hend : i < dev.start + dev.size := Nat.lt_of_le_of_lt hle hlt
    rw [realizePages, if_pos hend]
    split
    · rfl
    · rename_i hfree
      have hne : i ≠ dev.start := by
        rintro rfl
        exact hfree hm
      have hilt : i.toNat < dev.start.toNat := by
        have h1 : i.toNat ≤ dev.start.toNat := hle
        have h2 : i.toNat ≠ dev.start.toNat := fun h => hne (BitVec.eq_of_toNat_eq h)
        omega
      have hnext : (i + 4096).toNat = i.toNat + 4096 := by
        have := dev.start.isLt
        rw [toNat_nextPage]
        omega
      refine ih (by omega) ?_ ?_
      · have : (i + 4096).toNat ≤ dev.start.toNat := by omega
        exact this
      · rw [Function.update_apply]
        split
        · rfl
        · exact hm

theorem realizePages_covers {devs : List Device} (hd : dev ∈ devs) {fuel : Nat} {i : Word}
    {m m' : Regions} (hi : i.toNat % 4096 = 0) (hle : dev.start ≤ i)
    (hfirst : i ≠ dev.start → (m (mrIndex dev.start)).isSome = true) (hm : Covers devs m)
    (h : realizePages dev fuel i m = some m') : Covers devs m' := by
  induction fuel generalizing i m with
  | zero => cases h
  | succ fuel ih =>
    rw [realizePages] at h
    split at h
    · rename_i hend
      split at h
      · cases h
      · have hle' : dev.start.toNat ≤ i.toNat := hle
        have hend' : i.toNat < (dev.start.toNat + dev.size.toNat) % 2 ^ 32 := by
          rw [← BitVec.toNat_add]
          exact hend
        have hsz := dev.size.isLt
        have hst := dev.start.isLt
        -- the end of the device has not wrapped, or the loop would have ended here
        have hsum : i.toNat < dev.start.toNat + dev.size.toNat := by omega
        have hcov : Covers devs (Function.update m (mrIndex i) (some dev)) := by
          intro p d hp
          rw [Function.update_apply] at hp
          split at hp
          · rename_i hpi
            cases hp
            have hpn : p.toNat = i.toNat / 4096 := by rw [hpi, toNat_mrIndex]
            exact ⟨hd, hs, by omega, by omega⟩
          · exact hm p d hp
        have hfirst' : ((Function.update m (mrIndex i) (some dev)) (mrIndex dev.start)).isSome =
            true := by
          rw [Function.update_apply]
          split
          · rfl
          · rename_i hne
            exact hfirst fun h => hne (by rw [h])
        by_cases hwrap : i.toNat + 4096 < 2 ^ 32
        · have hnext : (i + 4096).toNat = i.toNat + 4096 := by
            rw [toNat_nextPage, Nat.mod_eq_of_lt hwrap]
          refine ih (by omega) ?_ (fun _ => hfirst') hcov h
          have : dev.start.toNat ≤ (i + 4096).toNat := by omega
          exact this
        · have hnext : (i + 4096).toNat = 0 := by
            have := i.isLt
            rw [toNat_nextPage]
            omega
          rw [realizePages_wrapped hs (by omega) _ _ hfirst'] at h
          · cases h
          · have : (i + 4096).toNat ≤ dev.start.toNat := by omega
            exact this
          · exact Nat.lt_of_le_of_lt hle hend
    · cases h
      exact hm

end Realize

theorem realizeDevice_covers {devs : List Device} {dev : Device} (hd : dev ∈ devs)
    {m m' : Regions} (hm : Covers devs m) (h : realizeDevice m dev = some m') :
    Covers devs m' := by
  unfold realizeDevice at h
  split at h
  · rename_i ha
    have hs := (aligned_iff dev.start).1 ha
    exact realizePages_covers hs hd hs (BitVec.le_refl _) (fun h => absurd rfl h) hm h
  · cases h

theorem foldlM_covers {devs l : List Device} (hl : ∀ d ∈ l, d ∈ devs) {m m' : Regions}
    (hm : Covers devs m) (h : l.foldlM realizeDevice m = some m') : Covers devs m' := by
  induction l generalizing m with
  | nil =>
    cases h
    exact hm
  | cons d l ih =>
    rw [List.foldlM_cons, Option.bind_eq_bind, Option.bind_eq_some_iff] at h
    obtain ⟨m₁, h₁, h₂⟩ := h
    exact ih (fun d hd => hl d (List.mem_cons_of_mem _ hd))
      (realizeDevice_covers (hl d List.mem_cons_self) hm h₁) h₂

theorem covers_initMmio {devs : List Device} {m : Regions} (h : initMmio devs = some m) :
    Covers devs m :=
  foldlM_covers (fun _ h => h) (fun _ _ h => by cases h) h

/-! ## What the regions keep -/

theorem realizePages_keeps {dev d : Device} {fuel : Nat} {i p : Word} {m m' : Regions}
    (h : realizePages dev fuel i m = some m') (hp : m p = some d) : m' p = some d := by
  induction fuel generalizing i m with
  | zero => cases h
  | succ fuel ih =>
    rw [realizePages] at h
    split at h
    · split at h
      · cases h
      · rename_i hfree
        refine ih h ?_
        have hne : p ≠ mrIndex i := by
          rintro rfl
          exact hfree (by rw [hp]; rfl)
        rw [Function.update_of_ne hne]
        exact hp
    · cases h
      exact hp

/-- The loop stores every page of the device. -/
theorem realizePages_stores {dev : Device}
    (hend : dev.start.toNat + dev.size.toNat + 4096 ≤ 2 ^ 32) {fuel : Nat} {i p : Word}
    {m m' : Regions} (hi : i.toNat % 4096 = 0) (h : realizePages dev fuel i m = some m')
    (hlo : i.toNat ≤ 4096 * p.toNat) (hhi : 4096 * p.toNat < dev.start.toNat + dev.size.toNat) :
    m' p = some dev := by
  have hsum : (dev.start + dev.size).toNat = dev.start.toNat + dev.size.toNat := by
    rw [BitVec.toNat_add]
    omega
  induction fuel generalizing i m with
  | zero => cases h
  | succ fuel ih =>
    have hlt : i < dev.start + dev.size := by
      rw [BitVec.lt_def, hsum]
      omega
    rw [realizePages, if_pos hlt] at h
    split at h
    · cases h
    · have hnext : (i + 4096).toNat = i.toNat + 4096 := by
        rw [toNat_nextPage]
        omega
      by_cases hp : p = mrIndex i
      · refine realizePages_keeps h ?_
        rw [hp, Function.update_self]
      · have hne : p.toNat ≠ i.toNat / 4096 := by
          rw [← toNat_mrIndex]
          exact fun hn => hp (BitVec.eq_of_toNat_eq hn)
        exact ih (by omega) h (by omega)

theorem foldlM_keeps {l : List Device} {m m' : Regions} (h : l.foldlM realizeDevice m = some m')
    {p : Word} {d : Device} (hp : m p = some d) : m' p = some d := by
  induction l generalizing m with
  | nil =>
    cases h
    exact hp
  | cons d' l ih =>
    rw [List.foldlM_cons, Option.bind_eq_bind, Option.bind_eq_some_iff] at h
    obtain ⟨m₁, h₁, h₂⟩ := h
    refine ih h₂ ?_
    unfold realizeDevice at h₁
    split at h₁
    · exact realizePages_keeps h₁ hp
    · cases h₁

theorem foldlM_stores {l : List Device} {m m' : Regions} (h : l.foldlM realizeDevice m = some m')
    {d : Device} (hd : d ∈ l) (hend : d.start.toNat + d.size.toNat + 4096 ≤ 2 ^ 32) {p : Word}
    (hlo : d.start.toNat ≤ 4096 * p.toNat)
    (hhi : 4096 * p.toNat < d.start.toNat + d.size.toNat) : m' p = some d := by
  induction l generalizing m with
  | nil => cases hd
  | cons d' l ih =>
    rw [List.foldlM_cons, Option.bind_eq_bind, Option.bind_eq_some_iff] at h
    obtain ⟨m₁, h₁, h₂⟩ := h
    obtain rfl | hd := List.mem_cons.1 hd
    · refine foldlM_keeps h₂ ?_
      unfold realizeDevice at h₁
      split at h₁
      · rename_i ha
        exact realizePages_stores hend ((aligned_iff _).1 ha) h₁ hlo hhi
      · cases h₁
    · exact ih h₂ hd

/-! ## Boards that are realized -/

theorem toNat_ioremap (a : Word) : (ioremap a).toNat = a.toNat % 2 ^ 29 := by
  rw [ioremap, BitVec.toNat_and]
  exact Nat.and_two_pow_sub_one_eq_mod a.toNat 29

/-- The pages of `dev` from the one at `i` on, over the regions `m`. -/
def withPages (dev : Device) (i : Word) (m : Regions) : Regions := fun p =>
  if i.toNat ≤ 4096 * p.toNat ∧ 4096 * p.toNat < dev.start.toNat + dev.size.toNat then some dev
  else m p

/-- Where the pages are free the loop takes them all. -/
theorem realizePages_free {dev : Device} (hend : dev.start.toNat + dev.size.toNat + 4096 ≤ 2 ^ 32)
    {fuel : Nat} {i : Word} {m : Regions} (hi : i.toNat % 4096 = 0)
    (hfuel : dev.start.toNat + dev.size.toNat ≤ i.toNat + 4096 * fuel)
    (hfree : ∀ p, i.toNat ≤ 4096 * p.toNat →
      4096 * p.toNat < dev.start.toNat + dev.size.toNat → m p = none) :
    realizePages dev (fuel + 1) i m = some (withPages dev i m) := by
  have hsum : (dev.start + dev.size).toNat = dev.start.toNat + dev.size.toNat := by
    rw [BitVec.toNat_add]
    omega
  induction fuel generalizing i m with
  | zero =>
    have hge : ¬i < dev.start + dev.size := by
      rw [BitVec.lt_def, hsum]
      omega
    rw [realizePages, if_neg hge]
    refine congrArg some (funext fun p => ?_)
    rw [withPages, if_neg (by omega)]
  | succ fuel ih =>
    rw [realizePages]
    split
    · rename_i hlt
      rw [BitVec.lt_def, hsum] at hlt
      have hidx : 4096 * (mrIndex i).toNat = i.toNat := by
        rw [toNat_mrIndex]
        omega
      have hnext : (i + 4096).toNat = i.toNat + 4096 := by
        rw [toNat_nextPage]
        omega
      rw [hfree (mrIndex i) (by omega) (by omega), if_neg (by simp), ih (by omega) (by omega)]
      · refine congrArg some (funext fun p => ?_)
        simp only [withPages, Function.update_apply]
        by_cases hp : p = mrIndex i
        · have hin : i.toNat ≤ 4096 * p.toNat ∧
              4096 * p.toNat < dev.start.toNat + dev.size.toNat := by
            rw [hp]
            omega
          rw [if_pos hp, ite_self, if_pos hin]
        · have hne : 4096 * p.toNat ≠ i.toNat := by
            intro h
            apply hp
            apply BitVec.eq_of_toNat_eq
            omega
          have hiff : (i + 4096).toNat ≤ 4096 * p.toNat ↔ i.toNat ≤ 4096 * p.toNat := by omega
          simp only [if_neg hp, hiff]
      · intro p h1 h2
        have hp : p ≠ mrIndex i := by
          rintro rfl
          omega
        rw [Function.update_of_ne hp]
        exact hfree p (by omega) h2
    · rename_i hge
      rw [BitVec.lt_def, hsum] at hge
      refine congrArg some (funext fun p => ?_)
      rw [withPages, if_neg (by omega)]

theorem realizeDevice_free {dev : Device} (hs : dev.start.toNat % 4096 = 0)
    (hend : dev.start.toNat + dev.size.toNat + 4096 ≤ 2 ^ 32) {m : Regions}
    (hfree : ∀ p, dev.start.toNat ≤ 4096 * p.toNat →
      4096 * p.toNat < dev.start.toNat + dev.size.toNat → m p = none) :
    realizeDevice m dev = some (withPages dev dev.start m) := by
  rw [realizeDevice, if_pos ((aligned_iff _).2 hs)]
  exact realizePages_free hend hs (by omega) hfree

/-- The devices of `ramBoard`. -/
def ramDevices : List (DevName × Word) :=
  [(.ddr, 0), (.bram, 0x1fc00000), (.blackhole, 0x1fe96000)]

/-- A board that `init_mmio` sets up from devices at configured base addresses. -/
def Board.Realizes (b : Board) (bases : List (DevName × Word)) : Prop :=
  initMmio (bases.map fun x => deviceAt x.1 x.2) = some b.regions

/-- One device of the list after the other. -/
theorem foldlM_cons_of_eq_some {α σ : Type} {f : σ → α → Option σ} {s t : σ} {a : α} {l : List α}
    (h : f s a = some t) : (a :: l).foldlM f s = l.foldlM f t := by
  rw [List.foldlM_cons, h]
  rfl

theorem ramBoard_realizes : ramBoard.Realizes ramDevices := by
  have hddr : (ddrDev.start.toNat = 0 ∧ ddrDev.size.toNat = 0x10000000) := by decide
  have hbram : (bramDev.start.toNat = 0x1fc00000 ∧ bramDev.size.toNat = 0x100000) := by decide
  have hhole : (blackholeDev.start.toNat = 0x1fe96000 ∧ blackholeDev.size.toNat = 0x1000) := by
    decide
  have h1 : realizeDevice (fun _ => none) ddrDev = some (withPages ddrDev ddrDev.start _) :=
    realizeDevice_free (by omega) (by omega) fun _ _ _ => rfl
  have h2 : realizeDevice (withPages ddrDev ddrDev.start fun _ => none) bramDev =
      some (withPages bramDev bramDev.start _) :=
    realizeDevice_free (by omega) (by omega) fun p _ _ => by rw [withPages, if_neg (by omega)]
  have h3 : realizeDevice
      (withPages bramDev bramDev.start (withPages ddrDev ddrDev.start fun _ => none)) blackholeDev =
      some (withPages blackholeDev blackholeDev.start _) :=
    realizeDevice_free (by omega) (by omega) fun p _ _ => by
      rw [withPages, if_neg (by omega), withPages, if_neg (by omega)]
  have hlist : ramDevices.map (fun x => deviceAt x.1 x.2) = [ddrDev, bramDev, blackholeDev] := by
    decide
  rw [Board.Realizes, hlist, initMmio, foldlM_cons_of_eq_some h1, foldlM_cons_of_eq_some h2,
    foldlM_cons_of_eq_some h3, List.foldlM_nil]
  refine congrArg some (funext fun p => ?_)
  have hp : p = 0x1fe96 ↔ p.toNat = 0x1fe96 := BitVec.toNat_inj.symm
  simp only [withPages, ramBoard, hddr, hbram, hhole, hp, BitVec.lt_def, BitVec.le_def,
    BitVec.reduceToNat]
  grind

/-! ## Offsets -/

def roundUp (n : Nat) : Nat := (n + 4095) / 4096 * 4096

/-- The offsets that `dev->read`, `dev->write` and, from `update_mmu_cache`, `dev->map` get for
    the address `p` lie in the pages of the device. -/
structure Inside (d : Device) (p : Word) : Prop where
  offset : (p - d.start).toNat < roundUp d.size.toNat
  page : ((p &&& ~~~0xFFF) - d.start).toNat < roundUp d.size.toNat

/-- `prot_addr_with_attr` returns the address `v` as it is. -/
def Direct (P : Platform D) (a : Arch D) (v : Word) : Prop :=
  (P.cfg.paging = false ∧ (v.toNat / 2 ^ 29 = 6 ∨ v.toNat / 2 ^ 29 < 4)) ∨
    (a.cpu.cp0.status.ERL = true ∧ v.toNat / 2 ^ 29 < 4)

theorem size_le (n : DevName) : n.size.toNat ≤ 2 ^ 28 := by
  cases n <;> decide

theorem toNat_segment (v : Word) : (v >>> 29).toNat = v.toNat / 2 ^ 29 := by
  rw [BitVec.toNat_ushiftRight, Nat.shiftRight_eq_div_pow]

theorem toNat_pageOf (p : Word) : (p &&& ~~~0xFFF).toNat = p.toNat / 4096 * 4096 := by
  have h : p &&& ~~~(0xFFF : Word) = p >>> 12 <<< 12 := by
    apply BitVec.eq_of_getLsbD_eq
    intro i hi
    have hm : (~~~(0xFFF : Word)).getLsbD i = decide (12 ≤ i) := by
      revert i
      decide
    rw [BitVec.getLsbD_and, hm]
    simp only [BitVec.getLsbD_shiftLeft, BitVec.getLsbD_ushiftRight]
    by_cases h12 : 12 ≤ i
    · simp [h12, hi, Nat.not_lt.2 h12]
    · simp [h12, Nat.lt_of_not_le h12]
  have := p.isLt
  rw [h, BitVec.toNat_shiftLeft, BitVec.toNat_ushiftRight, Nat.shiftRight_eq_div_pow,
    Nat.shiftLeft_eq]
  omega

theorem translate_direct {P : Platform D} {a : Arch D} {v : Word} (rw : Access)
    (h : Direct P a v) : P.translate a v rw = .ok v false := by
  unfold Platform.translate
  rw [toNat_segment]
  unfold Direct at h
  generalize v.toNat / 2 ^ 29 = k at h
  have hk : k = 6 ∨ k = 0 ∨ k = 1 ∨ k = 2 ∨ k = 3 := by omega
  rcases hk with rfl | rfl | rfl | rfl | rfl
  · have hp : P.cfg.paging = false := by simpa using h
    simp [hp]
  all_goals
    have hc : (!P.cfg.paging || a.cpu.cp0.status.ERL) = true := by simpa using h
    exact if_pos hc

/-- All other addresses are remapped. -/
theorem translate_remapped {P : Platform D} {a : Arch D} {v p : Word} {rw : Access} {d : Bool}
    (hd : ¬Direct P a v) (h : P.translate a v rw = .ok p d) : p.toNat < 2 ^ 29 := by
  have hio : ∀ q : Word, (ioremap q).toNat < 2 ^ 29 := by
    intro q
    rw [toNat_ioremap]
    omega
  have hremap : (a.pageVerdict v rw).remap = .ok p d → p.toNat < 2 ^ 29 := by
    intro hx
    cases hv : a.pageVerdict v rw with
    | ok q dq =>
      rw [hv] at hx
      cases hx
      exact hio q
    | fault f =>
      rw [hv] at hx
      cases hx
    | abort why =>
      rw [hv] at hx
      cases hx
  have hlt : v.toNat / 2 ^ 29 < 8 := by
    have := v.isLt
    omega
  unfold Platform.translate at h
  rw [toNat_segment] at h
  unfold Direct at hd
  generalize v.toNat / 2 ^ 29 = k at h hd hlt
  have hk : k = 4 ∨ k = 5 ∨ k = 7 ∨ k = 6 ∨ k = 0 ∨ k = 1 ∨ k = 2 ∨ k = 3 := by omega
  rcases hk with rfl | rfl | rfl | rfl | rfl | rfl | rfl | rfl
  · cases h
    exact hio v
  · cases h
    exact hio v
  · cases h
  · have hc : ¬(!P.cfg.paging) = true := by simpa using hd
    exact hremap ((if_neg hc).symm.trans h)
  all_goals
    have hc : ¬(!P.cfg.paging || a.cpu.cp0.status.ERL) = true := by simpa using hd
    exact hremap ((if_neg hc).symm.trans h)

section Regions

variable {P : Platform D} {bases : List (DevName × Word)} (hb : P.board.Realizes bases)
include hb

theorem findDevice_covers {p : Word} {d : Device} (h : P.findDevice p = some d) :
    d.size.toNat ≤ 2 ^ 28 ∧ OnPage d (mrIndex (ioremap p)) := by
  obtain ⟨hmem, hon⟩ := covers_initMmio hb _ _ h
  obtain ⟨x, -, rfl⟩ := List.mem_map.1 hmem
  exact ⟨size_le x.1, hon⟩

/-- `find_device` and the offset agree on the addresses below 2^29. -/
theorem inside_of_lt {p : Word} {d : Device} (hp : p.toNat < 2 ^ 29)
    (h : P.findDevice p = some d) : Inside d p := by
  obtain ⟨hsz, ha, hle, hlt⟩ := findDevice_covers hb h
  rw [toNat_mrIndex, toNat_ioremap, Nat.mod_eq_of_lt hp] at hle hlt
  constructor
  · rw [BitVec.toNat_sub_of_le (BitVec.le_def.2 (by omega)), roundUp]
    omega
  · have hpage := toNat_pageOf p
    rw [BitVec.toNat_sub_of_le (BitVec.le_def.2 (by omega)), hpage, roundUp]
    omega

/-- All addresses of a device lead to it, up to 2^29. -/
theorem findDevice_of_mem {p q : Word} {d : Device} (h : P.findDevice p = some d)
    (hq : q.toNat < 2 ^ 29) (hlo : d.start.toNat ≤ q.toNat)
    (hhi : q.toNat < d.start.toNat + d.size.toNat) : P.findDevice q = some d := by
  obtain ⟨hsz, ⟨ha, -, -⟩⟩ := findDevice_covers hb h
  have hmem := (covers_initMmio hb _ _ h).1
  have hidx : (mrIndex (ioremap q)).toNat = q.toNat / 4096 := by
    rw [toNat_mrIndex, toNat_ioremap, Nat.mod_eq_of_lt hq]
  exact foldlM_stores hb hmem (by omega) (by omega) (by omega)

/-- They never agree on the addresses above. -/
theorem not_inside_of_ge {p : Word} {d : Device} (hp : 2 ^ 29 ≤ p.toNat)
    (h : P.findDevice p = some d) : ¬Inside d p := by
  obtain ⟨hsz, ha, hle, hlt⟩ := findDevice_covers hb h
  rw [toNat_mrIndex, toNat_ioremap] at hle hlt
  intro hin
  have hoff := hin.offset
  rw [BitVec.toNat_sub_of_le (BitVec.le_def.2 (by omega)), roundUp] at hoff
  omega

end Regions

/-- An access, of the program or of the debugger, stays inside the device it is routed to
    unless its address is passed through untranslated and has one of its upper three bits set. -/
theorem inside_iff {P : Platform D} {bases : List (DevName × Word)}
    (hb : P.board.Realizes bases) {v p : Word} {rw : Access} {exbit : Bool} {attr : MmuAttr}
    {s s' : Machine D} (h : protAddrWithAttr P v (.init rw exbit) s = .ok (p, attr) s') :
    (∀ d, P.findDevice p = some d → Inside d p) ↔
      ¬(Direct P s.toArch v ∧ 2 ^ 29 ≤ v.toNat ∧ (P.findDevice v).isSome = true) := by
  rw [protAddrWithAttr_eq] at h
  by_cases hdir : Direct P s.toArch v
  · rw [translate_direct rw hdir] at h
    cases h
    constructor
    · rintro hin ⟨-, hge, hsome⟩
      obtain ⟨d, hd⟩ := Option.isSome_iff_exists.1 hsome
      exact not_inside_of_ge hb hge hd (hin d hd)
    · intro hc d hd
      have hlt : v.toNat < 2 ^ 29 := by
        by_contra hge
        exact hc ⟨hdir, Nat.le_of_not_lt hge, by rw [hd]; rfl⟩
      exact inside_of_lt hb hlt hd
  · refine iff_of_true (fun d hd => inside_of_lt hb ?_ hd) fun hc => hdir hc.1
    cases ht : P.translate s.toArch v rw with
    | ok q dq =>
      rw [ht] at h
      cases h
      exact translate_remapped hdir ht
    | fault f =>
      rw [ht] at h
      cases h
      decide
    | abort why =>
      rw [ht] at h
      cases h

/-- The kseg0 address of a word of the DDR. -/
theorem inside_kseg0 :
    (mips32r1.findDevice 0x1000).isSome = true ∧
    ∀ d, mips32r1.findDevice 0x1000 = some d → Inside d 0x1000 := by
  have hok : protAddrWithAttr mips32r1 0x80001000 (.init .load true) (started mips32r1 []) =
      .ok (0x1000, _) _ := rfl
  refine ⟨by decide, (inside_iff ramBoard_realizes hok).2 fun h => ?_⟩
  have hs : ¬(mips32r1.cfg.paging = false) := by decide
  rcases h.1 with h1 | h1
  · exact hs h1.1
  · exact absurd h1.2 (by decide)

/-- A machine at the error level, as after an MTC0 that sets Status.ERL. -/
def atErrorLevel : Machine Unit :=
  let s := started mips32r1 []
  { s with cpu := { s.cpu with
      cp0 := { s.cpu.cp0 with status := { s.cpu.cp0.status with ERL := true } } } }

/-- At the error level kuseg is unmapped: the DDR, a quarter of a gigabyte long, is asked for
    its byte at half a gigabyte. -/
theorem not_inside_kuseg :
    mips32r1.board.Realizes ramDevices ∧
    protAddrWithAttr mips32r1 0x20000000 (.init .load true) atErrorLevel =
      .ok (0x20000000, .init .load true) atErrorLevel ∧
    mips32r1.findDevice 0x20000000 = some ddrDev ∧
    ¬(0x20000000 - ddrDev.start).toNat < roundUp ddrDev.size.toNat :=
  ⟨ramBoard_realizes, rfl, rfl, by decide⟩

end NemuMips32
