/-
  The video memory (`nemu-vga.c`). The guest sees a screen of 400 by 300 pixels of four bytes,
  and the window has four copies of each pixel. `nemu_vga_write` writes to all copies and
  `nemu_vga_read` reads the upper left one. `vga_doubles`: in every run of writes the window
  remains the doubled screen, and the screen is a memory of 480000 bytes.
-/
import NemuMips32.DebugRead
import Mathlib.Tactic.IntervalCases

namespace NemuMips32

variable {F : Type}

/-! ## Program -/

namespace Peripherals

/-- `(void *)&ptr[y][x] + offset`. -/
def pixelAddr (y x offset : Word) : Word := (y * WINDOW_W + x) * 4 + offset

/-- The four calls of `memcpy` in `nemu_vga_write`. -/
def copyPixel (y x offset : Word) (len : Nat) (data : Word) (ptr : Word → BitVec 8) :
    Word → BitVec 8 :=
  let ptr := storeBytes ptr (pixelAddr (2 * y) (2 * x) offset) len data
  let ptr := storeBytes ptr (pixelAddr (2 * y + 1) (2 * x) offset) len data
  let ptr := storeBytes ptr (pixelAddr (2 * y) (2 * x + 1) offset) len data
  storeBytes ptr (pixelAddr (2 * y + 1) (2 * x + 1) offset) len data

/-- `nemu_vga_write`. -/
def nemuVgaWrite (addr : Word) (len : Nat) (data : Word) (d : Peripherals F) :
    Except Halt (Peripherals F) :=
  if !checkIoaddr addr len VMEM_SIZE then .error .cpuAssert
  else
    match d.pixels with
    | none => .error .assert
    | some ptr =>
      if getX addr < SCR_W ∧ getY addr < SCR_H then
        .ok { d with pixels := some (copyPixel (getY addr) (getX addr) (addr % 4) len data ptr) }
      else .error .assert

end Peripherals

/-- The bytes that an access of the guest covers are in video memory and in one pixel. -/
structure InPixel (addr : Word) (len : Nat) : Prop where
  pos : 0 < len
  inside : addr.toNat + len ≤ 480000
  aligned : addr.toNat % 4 + len ≤ 4

/-- A write of the guest. -/
structure VgaWrite where
  addr : Word
  len : Nat
  data : Word
  inPixel : InPixel addr len

def vgaWrites (d : Peripherals F) (ws : List VgaWrite) : Except Halt (Peripherals F) :=
  ws.foldlM (fun d w => d.nemuVgaWrite w.addr w.len w.data) d

/-! ## The doubled screen -/

/-- Byte `k` of the pixel at column `X` and row `Y` of the window. -/
def windowAt (X Y k : Nat) : Word := BitVec.ofNat 32 ((Y * 800 + X) * 4 + k)

/-- The four copies of each pixel are equal. -/
def Uniform (ptr : Word → BitVec 8) : Prop :=
  ∀ X < 800, ∀ Y < 600, ∀ k < 4,
    ptr (windowAt X Y k) = ptr (windowAt (2 * (X / 2)) (2 * (Y / 2)) k)

/-- The window shows the screen `g`, a memory of the guest. -/
def Doubles (ptr : Word → BitVec 8) (g : Nat → BitVec 8) : Prop :=
  ∀ X < 800, ∀ Y < 600, ∀ k < 4, ptr (windowAt X Y k) = g ((Y / 2 * 400 + X / 2) * 4 + k)

/-- The screen that a uniform window shows. -/
def screenOf (ptr : Word → BitVec 8) (a : Nat) : BitVec 8 :=
  ptr (windowAt (2 * (a / 4 % 400)) (2 * (a / 4 / 400)) (a % 4))

/-- A write to the screen as a memory. -/
def VgaWrite.store (w : VgaWrite) (g : Nat → BitVec 8) (a : Nat) : BitVec 8 :=
  if w.addr.toNat ≤ a ∧ a < w.addr.toNat + w.len then Words.byte w.data (a - w.addr.toNat) else g a

/-- The screen after some writes: the bytes last written, and what was there before. -/
def screenAfter (ptr : Word → BitVec 8) (ws : List VgaWrite) : Nat → BitVec 8 :=
  ws.foldl (fun g w => w.store g) (screenOf ptr)

/-- Some byte of the four copies of the pixel at `addr`. -/
def OfPixel (addr : Word) (i : Word) : Prop :=
  ∃ X Y k, X / 2 = addr.toNat / 4 % 400 ∧ Y / 2 = addr.toNat / 4 / 400 ∧ k < 4 ∧
    i = windowAt X Y k

/-! ## Addresses -/

open Peripherals

variable {addr : Word} {len : Nat}

theorem getX_eq (addr : Word) : getX addr = BitVec.ofNat 32 (addr.toNat / 4 % 400) := by
  apply BitVec.eq_of_toNat_eq
  have h : (getX addr).toNat = addr.toNat / 4 % 400 := by
    rw [getX, BitVec.toNat_umod, BitVec.toNat_udiv]
    rfl
  rw [h, BitVec.toNat_ofNat]
  omega

theorem getY_eq (addr : Word) : getY addr = BitVec.ofNat 32 (addr.toNat / 4 / 400) := by
  apply BitVec.eq_of_toNat_eq
  have h : (getY addr).toNat = addr.toNat / 4 / 400 := by
    rw [getY, BitVec.toNat_udiv, BitVec.toNat_udiv]
    rfl
  have := addr.isLt
  rw [h, BitVec.toNat_ofNat]
  omega

theorem offset_eq (addr : Word) : addr % 4 = BitVec.ofNat 32 (addr.toNat % 4) := by
  apply BitVec.eq_of_toNat_eq
  have h : (addr % 4).toNat = addr.toNat % 4 := by
    rw [BitVec.toNat_umod]
    rfl
  rw [h, BitVec.toNat_ofNat]
  omega

theorem pixelAddr_eq (X Y k : Nat) :
    pixelAddr (BitVec.ofNat 32 Y) (BitVec.ofNat 32 X) (BitVec.ofNat 32 k) = windowAt X Y k := by
  rw [windowAt, pixelAddr, BitVec.ofNat_add, BitVec.ofNat_mul, BitVec.ofNat_add, BitVec.ofNat_mul]
  rfl

theorem double_eq (n : Nat) : 2 * BitVec.ofNat 32 n = BitVec.ofNat 32 (2 * n) := by
  rw [BitVec.ofNat_mul]
  rfl

theorem succ_eq (n : Nat) : BitVec.ofNat 32 n + 1 = BitVec.ofNat 32 (n + 1) := by
  rw [BitVec.ofNat_add]
  rfl

theorem windowAt_add (X Y k i : Nat) :
    windowAt X Y k + BitVec.ofNat 32 i = windowAt X Y (k + i) := by
  rw [windowAt, windowAt, ← BitVec.ofNat_add, Nat.add_assoc]

theorem toNat_windowAt {X Y k : Nat} (hX : X < 800) (hY : Y < 600) (hk : k < 4) :
    (windowAt X Y k).toNat = (Y * 800 + X) * 4 + k := by
  rw [windowAt, BitVec.toNat_ofNat]
  omega

/-- An access in a pixel passes the checks. -/
theorem InPixel.checks (h : InPixel addr len) :
    checkIoaddr addr len VMEM_SIZE = true ∧ getX addr < SCR_W ∧ getY addr < SCR_H := by
  have hpos := h.pos
  have hin := h.inside
  have hal := h.aligned
  refine ⟨?_, ?_, ?_⟩
  · have hsize : VMEM_SIZE = 480000#32 := by decide
    simp only [checkIoaddr, hsize, Bool.and_eq_true, decide_eq_true_eq, BitVec.le_def,
      BitVec.toNat_add, BitVec.toNat_ofNat]
    omega
  · rw [getX_eq, BitVec.lt_def, BitVec.toNat_ofNat]
    change _ < 400
    omega
  · rw [getY_eq, BitVec.lt_def, BitVec.toNat_ofNat]
    change _ < 300
    omega

/-! ## One write -/

/-- A byte less than `len` behind one that has `len` bytes of its pixel before it is in the same
    pixel. -/
theorem same_pixel {P P₀ k off : Nat} (hP : P < 480000) (hP₀ : P₀ < 480000) (hk : k < 4)
    (hpos : 0 < len) (hoff : off + len ≤ 4)
    (hlt : (2 ^ 32 - (P₀ * 4 + off) + (P * 4 + k)) % 2 ^ 32 < len) :
    P = P₀ ∧ off ≤ k ∧ k < off + len := by
  omega

/-- A store in a pixel of the window changes the bytes of this pixel that it covers. -/
theorem store_at (m : Word → BitVec 8) (data : Word) {X Y k X₀ Y₀ off : Nat} (hX : X < 800)
    (hY : Y < 600) (hk : k < 4) (hX₀ : X₀ < 800) (hY₀ : Y₀ < 600) (hpos : 0 < len)
    (hoff : off + len ≤ 4) :
    storeBytes m (windowAt X₀ Y₀ off) len data (windowAt X Y k) =
      if X = X₀ ∧ Y = Y₀ ∧ off ≤ k ∧ k < off + len then Words.byte data (k - off)
      else m (windowAt X Y k) := by
  have h := toNat_windowAt hX hY hk
  have h₀ := toNat_windowAt hX₀ hY₀ (show off < 4 by omega)
  have hsub : (windowAt X Y k - windowAt X₀ Y₀ off).toNat =
      (2 ^ 32 - ((Y₀ * 800 + X₀) * 4 + off) + ((Y * 800 + X) * 4 + k)) % 2 ^ 32 := by
    rw [BitVec.toNat_sub, h, h₀]
  rw [storeBytes, hsub]
  by_cases hcov : X = X₀ ∧ Y = Y₀ ∧ off ≤ k ∧ k < off + len
  · obtain ⟨rfl, rfl, hle, hlt⟩ := hcov
    have hdist : (2 ^ 32 - ((Y * 800 + X) * 4 + off) + ((Y * 800 + X) * 4 + k)) % 2 ^ 32 =
        k - off := by omega
    rw [hdist, if_pos (by omega), if_pos ⟨rfl, rfl, hle, hlt⟩]
    rfl
  · rw [if_neg hcov, if_neg]
    intro hlt
    obtain ⟨hpixel, hle, hlt⟩ := same_pixel (by omega) (by omega) hk hpos hoff hlt
    exact hcov ⟨by omega, by omega, hle, hlt⟩

/-- And nothing else. -/
theorem store_frame (m : Word → BitVec 8) (data i : Word) {X₀ Y₀ off : Nat}
    (hoff : off + len ≤ 4) (hi : ∀ k < 4, i ≠ windowAt X₀ Y₀ k) :
    storeBytes m (windowAt X₀ Y₀ off) len data i = m i := by
  rw [storeBytes, if_neg]
  intro hlt
  have hk : i = windowAt X₀ Y₀ (off + (i - windowAt X₀ Y₀ off).toNat) := by
    rw [← windowAt_add, BitVec.ofNat_toNat, BitVec.setWidth_eq, BitVec.add_comm,
      BitVec.sub_add_cancel]
  exact hi _ (by omega) hk

/-- All four copies of the pixel at `addr`. -/
theorem copyPixel_eq (addr : Word) (len : Nat) (data : Word) (ptr : Word → BitVec 8) :
    copyPixel (getY addr) (getX addr) (addr % 4) len data ptr =
      (let x := addr.toNat / 4 % 400
       let y := addr.toNat / 4 / 400
       let off := addr.toNat % 4
       let ptr := storeBytes ptr (windowAt (2 * x) (2 * y) off) len data
       let ptr := storeBytes ptr (windowAt (2 * x) (2 * y + 1) off) len data
       let ptr := storeBytes ptr (windowAt (2 * x + 1) (2 * y) off) len data
       storeBytes ptr (windowAt (2 * x + 1) (2 * y + 1) off) len data) := by
  simp only [copyPixel, getX_eq, getY_eq, offset_eq, double_eq, succ_eq, pixelAddr_eq]

theorem copyPixel_at (h : InPixel addr len) (data : Word) (ptr : Word → BitVec 8) {X Y k : Nat}
    (hX : X < 800) (hY : Y < 600) (hk : k < 4) :
    copyPixel (getY addr) (getX addr) (addr % 4) len data ptr (windowAt X Y k) =
      if X / 2 = addr.toNat / 4 % 400 ∧ Y / 2 = addr.toNat / 4 / 400 ∧ addr.toNat % 4 ≤ k ∧
          k < addr.toNat % 4 + len then Words.byte data (k - addr.toNat % 4)
      else ptr (windowAt X Y k) := by
  have hpos := h.pos
  have hin := h.inside
  have hal := h.aligned
  rw [copyPixel_eq]
  simp only
  rw [store_at _ data hX hY hk (by omega) (by omega) hpos hal,
    store_at _ data hX hY hk (by omega) (by omega) hpos hal,
    store_at _ data hX hY hk (by omega) (by omega) hpos hal,
    store_at _ data hX hY hk (by omega) (by omega) hpos hal]
  by_cases hcov : X / 2 = addr.toNat / 4 % 400 ∧ Y / 2 = addr.toNat / 4 / 400 ∧
      addr.toNat % 4 ≤ k ∧ k < addr.toNat % 4 + len
  · rw [if_pos hcov]
    split_ifs <;> first | rfl | omega
  · rw [if_neg hcov]
    split_ifs <;> first | rfl | omega

theorem copyPixel_frame (h : InPixel addr len) (data : Word) (ptr : Word → BitVec 8) {i : Word}
    (hi : ¬OfPixel addr i) :
    copyPixel (getY addr) (getX addr) (addr % 4) len data ptr i = ptr i := by
  have hal := h.aligned
  have hcopy : ∀ X Y, X / 2 = addr.toNat / 4 % 400 → Y / 2 = addr.toNat / 4 / 400 →
      ∀ k < 4, i ≠ windowAt X Y k := by
    intro X Y hX hY k hk heq
    exact hi ⟨X, Y, k, hX, hY, hk, heq⟩
  rw [copyPixel_eq]
  simp only
  rw [store_frame _ _ _ hal (hcopy _ _ (by omega) (by omega)),
    store_frame _ _ _ hal (hcopy _ _ (by omega) (by omega)),
    store_frame _ _ _ hal (hcopy _ _ (by omega) (by omega)),
    store_frame _ _ _ hal (hcopy _ _ (by omega) (by omega))]

theorem nemuVgaWrite_ok {d : Peripherals F} {ptr : Word → BitVec 8} (hp : d.pixels = some ptr)
    (h : InPixel addr len) (data : Word) :
    d.nemuVgaWrite addr len data = .ok { d with
      pixels := some (copyPixel (getY addr) (getX addr) (addr % 4) len data ptr) } := by
  obtain ⟨hcheck, hx, hy⟩ := h.checks
  rw [nemuVgaWrite, hcheck, hp]
  exact if_pos (And.intro hx hy)

/-- A write to a doubled screen. -/
theorem Doubles.write {ptr : Word → BitVec 8} {g : Nat → BitVec 8} (hd : Doubles ptr g)
    (w : VgaWrite) :
    Doubles (copyPixel (getY w.addr) (getX w.addr) (w.addr % 4) w.len w.data ptr) (w.store g) := by
  intro X hX Y hY k hk
  have hin := w.inPixel.inside
  have hpos := w.inPixel.pos
  rw [copyPixel_at w.inPixel w.data ptr hX hY hk, hd X hX Y hY k hk, VgaWrite.store]
  by_cases hcov : X / 2 = w.addr.toNat / 4 % 400 ∧ Y / 2 = w.addr.toNat / 4 / 400 ∧
      w.addr.toNat % 4 ≤ k ∧ k < w.addr.toNat % 4 + w.len
  · have hdist : (Y / 2 * 400 + X / 2) * 4 + k - w.addr.toNat = k - w.addr.toNat % 4 := by omega
    rw [if_pos hcov, if_pos (by omega), hdist]
  · have hal := w.inPixel.aligned
    rw [if_neg hcov, if_neg]
    intro hlt
    apply hcov
    omega

/-! ## Runs -/

theorem doubles_uniform {ptr : Word → BitVec 8} (hu : Uniform ptr) :
    Doubles ptr (screenOf ptr) := by
  intro X hX Y hY k hk
  have hx : ((Y / 2 * 400 + X / 2) * 4 + k) / 4 % 400 = X / 2 := by omega
  have hy : ((Y / 2 * 400 + X / 2) * 4 + k) / 4 / 400 = Y / 2 := by omega
  have hoff : ((Y / 2 * 400 + X / 2) * 4 + k) % 4 = k := by omega
  rw [hu X hX Y hY k hk, screenOf, hx, hy, hoff]

theorem vgaWrites_ok (ws : List VgaWrite) {d : Peripherals F} {ptr : Word → BitVec 8}
    {g : Nat → BitVec 8} (hp : d.pixels = some ptr) (hd : Doubles ptr g) :
    ∃ d' ptr', vgaWrites d ws = .ok d' ∧ d'.pixels = some ptr' ∧
      Doubles ptr' (ws.foldl (fun g w => w.store g) g) := by
  induction ws generalizing d ptr g with
  | nil => exact ⟨d, ptr, rfl, hp, hd⟩
  | cons w ws ih =>
    rw [vgaWrites, List.foldlM_cons, nemuVgaWrite_ok hp w.inPixel]
    exact ih rfl (hd.write w)

/-- A read of a doubled screen gives the bytes of the screen. -/
theorem nemuVgaRead_screen {d : Peripherals F} {ptr : Word → BitVec 8} {g : Nat → BitVec 8}
    (hp : d.pixels = some ptr) (hd : Doubles ptr g) (h : InPixel addr len) :
    ∃ v, d.nemuVgaRead addr len = .ok v ∧
      (∀ i < len, Words.byte v i = g (addr.toNat + i)) ∧ v.toNat < 2 ^ (8 * len) := by
  obtain ⟨hcheck, hx, hy⟩ := h.checks
  have hin := h.inside
  have hal := h.aligned
  have hread : d.nemuVgaRead addr len = .ok (loadBytes ptr
      (pixelAddr (2 * getY addr) (2 * getX addr) (addr % 4)) len) := by
    rw [nemuVgaRead, hcheck, hp]
    exact if_pos (And.intro hx hy)
  rw [getX_eq, getY_eq, offset_eq, double_eq, double_eq, pixelAddr_eq] at hread
  refine ⟨_, hread, fun i hi => ?_, ?_⟩
  · rw [byte_loadBytes ptr _ (by omega) hi, windowAt_add,
      hd _ (by omega) _ (by omega) _ (by omega)]
    congr 1
    omega
  · have hlen : len ≤ 4 := by omega
    rw [loadBytes, BitVec.toNat_and]
    refine lt_of_le_of_lt Nat.and_le_right ?_
    clear hread hin hal h hcheck
    interval_cases len <;> decide

/-- In every run of writes from a uniform window no assertion fails, the window is the doubled
    screen, and reads give what was last written; and a further write changes nothing outside
    the four copies of its pixel. -/
theorem vga_doubles (d : Peripherals F) (ptr : Word → BitVec 8) (hp : d.pixels = some ptr)
    (hu : Uniform ptr) (ws : List VgaWrite) :
    ∃ d' ptr', vgaWrites d ws = .ok d' ∧ d'.pixels = some ptr' ∧
      Doubles ptr' (screenAfter ptr ws) ∧
      (∀ addr len, InPixel addr len → ∃ v, d'.nemuVgaRead addr len = .ok v ∧
        (∀ i < len, Words.byte v i = screenAfter ptr ws (addr.toNat + i)) ∧
        v.toNat < 2 ^ (8 * len)) ∧
      ∀ w : VgaWrite, ∃ d'' ptr'', d'.nemuVgaWrite w.addr w.len w.data = .ok d'' ∧
        d''.pixels = some ptr'' ∧ ∀ i, ¬OfPixel w.addr i → ptr'' i = ptr' i := by
  obtain ⟨d', ptr', hrun, hp', hd⟩ := vgaWrites_ok ws hp (doubles_uniform hu)
  refine ⟨d', ptr', hrun, hp', hd, fun addr len h => nemuVgaRead_screen hp' hd h, fun w => ?_⟩
  exact ⟨_, _, nemuVgaWrite_ok hp' w.inPixel w.data, rfl,
    fun i hi => copyPixel_frame w.inPixel w.data ptr' hi⟩

/-- A half word in the last pixel of a black screen. -/
theorem vga_doubles_last :
    ∃ d' ptr', vgaWrites { idlePeripherals with pixels := some fun _ => 0 }
        [⟨479998, 2, 0xFFFF, ⟨by decide, by decide, by decide⟩⟩] = .ok d' ∧
      d'.pixels = some ptr' ∧ Doubles ptr' (screenAfter (fun _ => 0)
        [⟨479998, 2, 0xFFFF, ⟨by decide, by decide, by decide⟩⟩]) := by
  obtain ⟨d', ptr', hrun, hp, hd, _⟩ := vga_doubles
    { idlePeripherals with pixels := some fun _ => 0 } (fun _ => 0) rfl (fun _ _ _ _ _ _ => rfl)
    [⟨479998, 2, 0xFFFF, ⟨by decide, by decide, by decide⟩⟩]
  exact ⟨d', ptr', hrun, hp, hd⟩

end NemuMips32
