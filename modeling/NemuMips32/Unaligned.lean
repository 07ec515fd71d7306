/-
  Unaligned words. `swl` and `swr` (`lwl` and `lwr`) split the four bytes at an arbitrary
  address between two accesses, each inside an aligned word and hence inside a page; the two
  pages may be mapped to unrelated frames. Each handler moves its own bytes and no others
  (`StoreStep`, `LoadStep`), and the two parts cover the word, so the pairs compose in either
  order (`unaligned_word`).
-/
import NemuMips32.Lib.Words
import NemuMips32.HostPage
import NemuMips32.Gdb
import NemuMips32.Board

namespace NemuMips32

open StateExcept Words

variable {D : Type}

/-! ## Bytes moved -/

/-- The bytes `i` of `x` with `I i` are stored at their places, and nothing else changes. -/
structure Stored (place : Nat → Option (Ram × Word)) (I : Nat → Prop) (x : Word)
    (m m' : Memory) : Prop where
  bytes : ∀ i, I i → ∀ r y, place i = some (r, y) → m' r y = byte x i
  frame : ∀ r y, (∀ i, I i → place i ≠ some (r, y)) → m' r y = m r y

theorem Stored.trans {place : Nat → Option (Ram × Word)} {I J K : Nat → Prop} {x : Word}
    {m m₁ m₂ : Memory} (hK : ∀ i, K i ↔ I i ∨ J i)
    (hinj : ∀ i j y, K i → K j → place i = some y → place j = some y → i = j)
    (h : Stored place I x m m₁) (h' : Stored place J x m₁ m₂) : Stored place K x m m₂ where
  bytes i hi r y hp := by
    by_cases hj : J i
    · exact h'.bytes i hj r y hp
    · -- the second store is elsewhere
      have hI : I i := ((hK i).1 hi).resolve_right hj
      rw [h'.frame r y fun j hj' he => ?_]
      · exact h.bytes i hI r y hp
      · have hij := hinj i j _ hi ((hK j).2 (.inr hj')) hp he
        exact hj (hij ▸ hj')
  frame r y hn := by
    rw [h'.frame r y fun j hj => hn j ((hK j).2 (.inr hj)),
      h.frame r y fun i hi => hn i ((hK i).2 (.inl hi))]

/-- The bytes `lo`, ..., `lo + n - 1` of those at `a`, inside an aligned word. -/
structure Part (a : Word) (lo n : Nat) : Prop where
  pos : 0 < n
  le : lo + n ≤ 4
  inWord : InWordOf (a + BitVec.ofNat 32 lo) n

theorem add_ofNat_split {a : Word} {lo i : Nat} (hi : lo ≤ i) :
    a + BitVec.ofNat 32 i = a + BitVec.ofNat 32 lo + BitVec.ofNat 32 (i - lo) := by
  rw [add_ofNat_assoc, show lo + (i - lo) = i by omega]

theorem Part.place {a : Word} {lo n i : Nat} (h : Part a lo n) (hi : lo ≤ i) (hi' : i < lo + n)
    {P : Platform D} {s : Machine D} {rw : Access} {r : Ram} {x : Word}
    (hp : s.place P rw (a + BitVec.ofNat 32 lo) = some (r, x)) :
    s.place P rw (a + BitVec.ofNat 32 i) = some (r, x + BitVec.ofNat 32 (i - lo)) := by
  rw [add_ofNat_split hi]
  exact place_add h.inWord (by omega) hp

theorem toNat_add_sub {y : Word} {j : Nat} (hj : j < 4) :
    (y + BitVec.ofNat 32 j - y).toNat = j := by
  have := y.isLt
  rw [BitVec.toNat_sub, BitVec.toNat_add, BitVec.toNat_ofNat]
  omega

theorem stored_store {a : Word} {lo n : Nat} (h : Part a lo n) {P : Platform D} {s : Machine D}
    {r : Ram} {y : Word} (hp : s.place P .store (a + BitVec.ofNat 32 lo) = some (r, y))
    {data x : Word} (hd : ∀ j < n, byte data j = byte x (lo + j)) (m : Memory) :
    Stored (fun i => s.place P .store (a + BitVec.ofNat 32 i)) (fun i => lo ≤ i ∧ i < lo + n) x m
      (m.store r y n data) where
  bytes := by
    intro i hi r' y' hy
    rw [h.place hi.1 hi.2 hp] at hy
    obtain ⟨rfl, rfl⟩ := Prod.mk.inj (Option.some.inj hy)
    have hle := h.le
    have hj := toNat_add_sub (y := y) (show i - lo < 4 by omega)
    have hb := hd (i - lo) (by omega)
    rw [show lo + (i - lo) = i by omega] at hb
    simp only [Memory.store, Function.update_self, storeBytes, hj]
    rw [if_pos (by omega), ← hb, byte]
  frame := by
    intro r' y' hn
    by_cases hr : r' = r
    · subst hr
      simp only [Memory.store, Function.update_self, storeBytes]
      refine if_neg fun hlt => hn (lo + (y' - y).toNat) ⟨by omega, by omega⟩ ?_
      rw [h.place (by omega) (by omega) hp, Nat.add_sub_cancel_left, BitVec.ofNat_toNat,
        BitVec.setWidth_eq, BitVec.add_comm, BitVec.sub_add_cancel]
    · simp only [Memory.store, Function.update_of_ne hr]

/-- Two of the four addresses are on one page, or their pages have different indices. -/
theorem samePage_or {a : Word} {i j : Nat} (hi : i < 4) (hj : j < 4) :
    SamePage (a + BitVec.ofNat 32 i) (a + BitVec.ofNat 32 j) ∨
    mmuCacheIndex (a + BitVec.ofNat 32 j) ≠ mmuCacheIndex (a + BitVec.ofNat 32 i) := by
  by_cases h : mmuCacheIndex (a + BitVec.ofNat 32 j) = mmuCacheIndex (a + BitVec.ofNat 32 i)
  · left
    have ha := a.isLt
    have h := congrArg BitVec.toNat h
    apply BitVec.eq_of_toNat_eq
    simp only [mmuCacheIndex, BitVec.toNat_setWidth, BitVec.toNat_ushiftRight, BitVec.toNat_add,
      BitVec.toNat_ofNat, Nat.shiftRight_eq_div_pow] at h ⊢
    omega
  · exact .inr h

section Steps

variable {P : Platform D}

/-- A store of the bytes `i` with `I i`. Places stay what they are, and loads of the bytes it
    stored go where it went. -/
structure StoreStep (P : Platform D) (a : Word) (I : Nat → Prop) (x : Word) (s t : Machine D) :
    Prop where
  eq : t = { s with ram := t.ram, mmuCache := t.mmuCache }
  paged : t.Paged
  stored : Stored (fun i => s.place P .store (a + BitVec.ofNat 32 i)) I x s.ram t.ram
  places : ∀ i < 4, t.place P .store (a + BitVec.ofNat 32 i) =
    s.place P .store (a + BitVec.ofNat 32 i)
  loads : ∀ i < 4, t.place P .load (a + BitVec.ofNat 32 i) =
      s.place P .store (a + BitVec.ofNat 32 i) ∨
    ¬ I i ∧ t.place P .load (a + BitVec.ofNat 32 i) = s.place P .load (a + BitVec.ofNat 32 i)

/-- A load of the bytes `i` with `I i` into the register `rt`. -/
structure LoadStep (P : Platform D) (a : Word) (rt : BitVec 5) (I : Nat → Prop)
    (s t : Machine D) : Prop where
  eq : t = { s with
    cpu := { s.cpu with toRegs := s.cpu.setGpr rt (t.cpu.gpr rt) }, mmuCache := t.mmuCache }
  paged : t.Paged
  loaded : ∀ i < 4, I i → ∀ r y, s.place P .load (a + BitVec.ofNat 32 i) = some (r, y) →
    byte (t.cpu.gpr rt) i = s.ram r y
  kept : ∀ i < 4, ¬ I i → byte (t.cpu.gpr rt) i = byte (s.cpu.gpr rt) i
  places : ∀ i < 4, t.place P .load (a + BitVec.ofNat 32 i) =
    s.place P .load (a + BitVec.ofNat 32 i)

theorem StoreStep.trans {bases : List (DevName × Word)} (hb : P.board.Realizes bases)
    {a x : Word} {I J : Nat → Prop} {s t u : Machine D} (hp : s.Paged)
    (hK : ∀ i, i < 4 ↔ I i ∨ J i) (h : StoreStep P a I x s t) (h' : StoreStep P a J x t u) :
    StoreStep P a (· < 4) x s u where
  eq := by
    have he := h'.eq
    rw [h.eq] at he
    exact he
  paged := h'.paged
  stored := by
    refine h.stored.trans hK (fun i j y hi hj hy hy' => place_inj hb hp hi hj hy hy') ?_
    refine ⟨fun i hi r y hy => h'.stored.bytes i hi r y ?_, fun r y hn => h'.stored.frame r y ?_⟩
    · exact (h.places i ((hK i).2 (.inr hi))).trans hy
    · exact fun i hi hy => hn i hi ((h.places i ((hK i).2 (.inr hi))).symm.trans hy)
  places i hi := (h'.places i hi).trans (h.places i hi)
  loads := by
    intro i hi
    left
    obtain hl | ⟨hJ, hl⟩ := h'.loads i hi
    · exact hl.trans (h.places i hi)
    · obtain hl' | ⟨hI, -⟩ := h.loads i hi
      · exact hl.trans hl'
      · exact absurd ((hK i).1 hi) (not_or.2 ⟨hI, hJ⟩)

theorem LoadStep.trans {a : Word} {rt : BitVec 5} {I J : Nat → Prop} {s t u : Machine D}
    (hK : ∀ i, i < 4 ↔ I i ∨ J i) (h : LoadStep P a rt I s t) (h' : LoadStep P a rt J t u) :
    LoadStep P a rt (· < 4) s u where
  eq := by
    have he := h'.eq
    rw [h.eq] at he
    simpa [Regs.setGpr] using he
  paged := h'.paged
  loaded := by
    intro i hi _ r y hy
    have hram : t.ram = s.ram := by rw [h.eq]
    by_cases hJ : J i
    · rw [h'.loaded i hi hJ r y ((h.places i hi).trans hy), hram]
    · rw [h'.kept i hi hJ]
      exact h.loaded i hi (((hK i).1 hi).resolve_right hJ) r y hy
  kept i hi hn := absurd hi hn
  places i hi := (h'.places i hi).trans (h.places i hi)

theorem SamePlaces.place {rw : Access} {a : Word} {lo : Nat} (hlo : lo < 4) {s t : Machine D}
    (h : SamePlaces P rw (a + BitVec.ofNat 32 lo) s t) {i : Nat} (hi : i < 4) :
    t.place P rw (a + BitVec.ofNat 32 i) = s.place P rw (a + BitVec.ofNat 32 i) := by
  unfold Machine.place
  obtain hs | hs := samePage_or (a := a) hlo hi
  · rw [h.own _ rw hs id]
  · rw [h.other _ rw hs]

end Steps

section Parts

variable {P : Platform D} {bases : List (DevName × Word)} (hb : P.board.Realizes bases)
  {s : Machine D} (hp : s.Paged) (hx : s.cpu.hasException = false) {a : Word} {lo n : Nat}
  (h : Part a lo n)
include hb hp hx h

theorem vaddrWrite_part (hin : ∀ i < 4, s.InRam P .store (a + BitVec.ofNat 32 i)) {data x : Word}
    (hd : ∀ j < n, byte data j = byte x (lo + j)) :
    ∃ t, vaddrWrite P (a + BitVec.ofNat 32 lo) n data s = .ok () t ∧
      StoreStep P a (fun i => lo ≤ i ∧ i < lo + n) x s t := by
  have hle := h.le
  have hpos := h.pos
  have hbytes : ∀ j < n, s.InRam P .store (a + BitVec.ofNat 32 lo + BitVec.ofNat 32 j) := by
    intro j hj
    rw [add_ofNat_assoc]
    exact hin _ (by omega)
  obtain ⟨r, y, mc, hy, hw, hsame, hpaged⟩ :=
    vaddrWrite_place hb hp hx hpos h.inWord hbytes data
  refine ⟨_, hw, rfl, hpaged, stored_store h hy hd s.ram, fun i hi => hsame.place (by omega) hi,
    fun i hi => ?_⟩
  obtain hs | hs := samePage_or (a := a) (show lo < 4 by omega) hi
  · left
    unfold Machine.place
    rw [hsame.own _ .load hs (by simp)]
  · refine .inr ⟨fun hI => hs ?_, ?_⟩
    · have hpage := samePage_add h.inWord (show i - lo < n by omega)
      rw [← add_ofNat_split hI.1] at hpage
      exact hpage.mmuCacheIndex.symm
    · unfold Machine.place
      rw [hsame.other _ .load hs]

theorem vaddrRead_part (hin : ∀ i < 4, s.InRam P .load (a + BitVec.ofNat 32 i)) :
    ∃ v mc, vaddrRead P (a + BitVec.ofNat 32 lo) n s = .ok v { s with mmuCache := mc } ∧
      ({ s with mmuCache := mc } : Machine D).Paged ∧
      (∀ j < n, ∀ r y, s.place P .load (a + BitVec.ofNat 32 (lo + j)) = some (r, y) →
        byte v j = s.ram r y) ∧
      ∀ i < 4, ({ s with mmuCache := mc } : Machine D).place P .load (a + BitVec.ofNat 32 i) =
        s.place P .load (a + BitVec.ofNat 32 i) := by
  have hle := h.le
  have hpos := h.pos
  have hbytes : ∀ j < n, s.InRam P .load (a + BitVec.ofNat 32 lo + BitVec.ofNat 32 j) := by
    intro j hj
    rw [add_ofNat_assoc]
    exact hin _ (by omega)
  obtain ⟨r, y, mc, hy, hr, hsame, hpaged⟩ := vaddrRead_place hb hp hx hpos h.inWord hbytes
  refine ⟨_, mc, hr, hpaged, fun j hj r' y' hy' => ?_, fun i hi => hsame.place (by omega) hi⟩
  rw [h.place (by omega) (by omega) hy, Nat.add_sub_cancel_left] at hy'
  obtain ⟨rfl, rfl⟩ := Prod.mk.inj (Option.some.inj hy')
  exact byte_loadBytes _ _ (by omega) hj

end Parts

/-! ## The handlers -/

theorem toNat_byteIdx (a : Word) : (a &&& 3).toNat = a.toNat % 4 := by
  rw [BitVec.toNat_and, show (3 : Word).toNat = 2 ^ 2 - 1 from rfl, Nat.and_two_pow_sub_one_eq_mod]

theorem toNat_add_three (a : Word) : ((a + 3) &&& 3).toNat = (a.toNat + 3) % 4 := by
  have := a.isLt
  rw [toNat_byteIdx, BitVec.toNat_add, show (3 : Word).toNat = 3 from rfl]
  omega

/-- The part of `lwr` and `swr`. -/
theorem right_part (a : Word) : Part a 0 (4 - (a &&& 3).toNat) := by
  have := toNat_byteIdx a
  refine ⟨by omega, by omega, ?_⟩
  rw [InWordOf, show a + BitVec.ofNat 32 0 = a from BitVec.add_zero a]
  omega

/-- The part of `lwl` and `swl`. -/
theorem left_part (a : Word) :
    Part a (3 - ((a + 3) &&& 3).toNat) (((a + 3) &&& 3).toNat + 1) := by
  have := toNat_add_three a
  have := a.isLt
  refine ⟨by omega, by omega, ?_⟩
  rw [InWordOf, BitVec.toNat_add, BitVec.toNat_ofNat]
  omega

theorem wordAddr_add_three (a : Word) :
    wordAddr (a + 3) = a + BitVec.ofNat 32 (3 - ((a + 3) &&& 3).toNat) := by
  have := toNat_add_three a
  have := a.isLt
  apply BitVec.eq_of_toNat_eq
  rw [wordAddr, BitVec.toNat_shiftLeft, BitVec.toNat_ushiftRight, Nat.shiftRight_eq_div_pow,
    Nat.shiftLeft_eq, BitVec.toNat_add, BitVec.toNat_add, BitVec.toNat_ofNat,
    show (3 : Word).toNat = 3 from rfl]
  omega

/-- The two parts cover the word. -/
theorem parts_cover (a : Word) (i : Nat) :
    i < 4 ↔
      (3 - ((a + 3) &&& 3).toNat ≤ i ∧
        i < 3 - ((a + 3) &&& 3).toNat + (((a + 3) &&& 3).toNat + 1)) ∨
      (0 ≤ i ∧ i < 0 + (4 - (a &&& 3).toNat)) := by
  have h3 := toNat_add_three a
  have h0 := toNat_byteIdx a
  omega

/-- Shifting up and down again clears the upper bytes. -/
theorem byte_low (x : Word) {n i : Nat} (hi : i < 4) :
    byte ((x <<< (n * 8)) >>> (n * 8)) i = if i + n < 4 then byte x i else 0 := by
  rw [byte_ushiftRight]
  split
  · rw [byte_shiftLeft x n ‹_›, if_neg (by omega), Nat.add_sub_cancel]
  · exact byte_of_ge _ (by omega)

/-- Shifting down and up again clears the lower bytes. -/
theorem byte_high (x : Word) {n i : Nat} (hi : i < 4) :
    byte ((x >>> (n * 8)) <<< (n * 8)) i = if i < n then 0 else byte x i := by
  rw [byte_shiftLeft _ n hi]
  split
  · rfl
  · rw [byte_ushiftRight, Nat.sub_add_cancel (by omega)]

theorem byte_lwlMerge {len i : Nat} (hl : 0 < len) (hl' : len ≤ 4) (hi : i < 4)
    (rdata old : Word) :
    byte (lwlMerge len rdata old) i =
      if 4 - len ≤ i then byte rdata (i - (4 - len)) else byte old i := by
  unfold lwlMerge
  by_cases h4 : len < 4
  · rw [if_pos h4, byte_or, byte_shiftLeft _ _ hi, byte_low old hi]
    by_cases hlow : 4 - len ≤ i
    · rw [if_neg (by omega), if_neg (by omega), if_pos hlow]
      exact BitVec.or_zero
    · rw [if_pos (by omega), if_pos (by omega), if_neg hlow]
      exact BitVec.zero_or
  · rw [if_neg h4, if_pos (by omega), show i - (4 - len) = i by omega]

theorem byte_lwrMerge {idx i : Nat} (hx : idx < 4) (hi : i < 4) (rdata old : Word) :
    byte (lwrMerge idx rdata old) i = if i < 4 - idx then byte rdata i else byte old i := by
  unfold lwrMerge
  by_cases h4 : 4 - idx < 4
  · simp only [if_pos h4]
    rw [byte_or, byte_low rdata hi, byte_high old hi]
    by_cases hlow : i < 4 - idx
    · rw [if_pos (by omega), if_pos hlow, if_pos hlow]
      exact BitVec.or_zero
    · rw [if_neg (by omega), if_neg hlow, if_neg hlow]
      exact BitVec.zero_or
  · simp only [if_neg h4]
    rw [byte_low rdata hi, if_pos (by omega), if_pos (by omega)]

theorem writeOp_of_access {P : Platform D} {op : AccessOp} (ha : op.align = none)
    {data : CpuState → Word} {s t : Machine D}
    (hw : vaddrWrite P (op.addr s.cpu) (op.len s.cpu) (data s.cpu) s = .ok () t)
    (ht : t.cpu.hasException = false) :
    writeOp P op data (fun c => c.toRegs) s = .ok () t := by
  have hc : op.check P .AdES s.cpu = pure () := by
    unfold AccessOp.check
    rw [ha]
  unfold writeOp
  rw [bind_of_ok (getCpu_apply s), hc, bind_of_ok (pure_apply () s), bind_of_ok hw,
    bind_of_ok (getCpu_apply t), ht]
  rfl

theorem readOp_of_access {P : Platform D} {op : AccessOp} (ha : op.align = none)
    {put : CpuState → Word → CpuState → Regs} {s t : Machine D} {v : Word}
    (hr : vaddrRead P (op.addr s.cpu) (op.len s.cpu) s = .ok v t)
    (ht : t.cpu.hasException = false) :
    readOp P op put s =
      .ok () { t with cpu := { t.cpu with toRegs := put s.cpu v t.cpu } } := by
  have hc : op.check P .AdEL s.cpu = pure () := by
    unfold AccessOp.check
    rw [ha]
  unfold readOp
  rw [bind_of_ok (getCpu_apply s), hc, bind_of_ok (pure_apply () s), bind_of_ok hr,
    bind_of_ok (getCpu_apply t), ht]
  rfl

section Handlers

variable {P : Platform D} {bases : List (DevName × Word)} (hb : P.board.Realizes bases)
  {s : Machine D} (hp : s.Paged) (hx : s.cpu.hasException = false) {a : Word} {o : Ops}
include hb hp hx

theorem exec_swl (ho : effAddr o s.cpu = a + 3)
    (hin : ∀ i < 4, s.InRam P .store (a + BitVec.ofNat 32 i)) :
    ∃ t, exec P o .swl s = .ok () t ∧
      StoreStep P a (fun i => 3 - ((a + 3) &&& 3).toNat ≤ i ∧
        i < 3 - ((a + 3) &&& 3).toNat + (((a + 3) &&& 3).toNat + 1)) (s.cpu.gpr o.rt) s t := by
  have hd : ∀ j < ((a + 3) &&& 3).toNat + 1,
      byte (s.cpu.gpr o.rt >>> ((3 - ((a + 3) &&& 3).toNat) * 8)) j =
        byte (s.cpu.gpr o.rt) (3 - ((a + 3) &&& 3).toNat + j) := by
    intro j _
    rw [byte_ushiftRight, Nat.add_comm]
  obtain ⟨t, hw, hstep⟩ := vaddrWrite_part hb hp hx (left_part a) hin hd
  refine ⟨t, writeOp_of_access rfl ?_ ?_, hstep⟩
  · rw [← wordAddr_add_three] at hw
    simp only [leftOp, byteIdx, ho]
    exact hw
  · rw [hstep.eq]
    exact hx

theorem exec_swr (ho : effAddr o s.cpu = a)
    (hin : ∀ i < 4, s.InRam P .store (a + BitVec.ofNat 32 i)) :
    ∃ t, exec P o .swr s = .ok () t ∧
      StoreStep P a (fun i => 0 ≤ i ∧ i < 0 + (4 - (a &&& 3).toNat)) (s.cpu.gpr o.rt) s t := by
  have hd : ∀ j < 4 - (a &&& 3).toNat,
      byte (s.cpu.gpr o.rt) j = byte (s.cpu.gpr o.rt) (0 + j) := by
    intro j _
    rw [Nat.zero_add]
  obtain ⟨t, hw, hstep⟩ := vaddrWrite_part hb hp hx (right_part a) hin hd
  refine ⟨t, writeOp_of_access rfl ?_ ?_, hstep⟩
  · rw [show a + BitVec.ofNat 32 0 = a from BitVec.add_zero a] at hw
    simp only [rightOp, byteIdx, ho]
    exact hw
  · rw [hstep.eq]
    exact hx

/-- What a load leaves in `rt`, by the byte. -/
theorem loadStep_of_read {lo n : Nat} (hpart : Part a lo n)
    (hin : ∀ i < 4, s.InRam P .load (a + BitVec.ofNat 32 i)) {merge : Word → Word → Word}
    (hmerge : ∀ v old i, i < 4 → byte (merge v old) i =
      if lo ≤ i ∧ i < lo + n then byte v (i - lo) else byte old i) (rt : BitVec 5) :
    ∃ v mc, vaddrRead P (a + BitVec.ofNat 32 lo) n s = .ok v { s with mmuCache := mc } ∧
      LoadStep P a rt (fun i => lo ≤ i ∧ i < lo + n) s
        { s with
          cpu := { s.cpu with toRegs := s.cpu.setGpr rt (merge v (s.cpu.gpr rt)) }
          mmuCache := mc } := by
  obtain ⟨v, mc, hr, hpaged, hbytes, hplaces⟩ := vaddrRead_part hb hp hx hpart hin
  have hgpr : (s.cpu.setGpr rt (merge v (s.cpu.gpr rt))).gpr rt = merge v (s.cpu.gpr rt) := by
    rw [gpr_setGpr, if_pos rfl]
  refine ⟨v, mc, hr, by rw [hgpr], hpaged, fun i hi hI r y hy => ?_, fun i hi hI => ?_,
    fun i hi => ?_⟩
  · rw [hgpr, hmerge v _ i hi, if_pos hI]
    refine hbytes (i - lo) (by omega) r y ?_
    rwa [show lo + (i - lo) = i by omega]
  · rw [hgpr, hmerge v _ i hi, if_neg hI]
  · let u : Machine D :=
      { s with
        cpu := { s.cpu with toRegs := s.cpu.setGpr rt (merge v (s.cpu.gpr rt)) }, mmuCache := mc }
    have hm : SameMapping ({ s with mmuCache := mc } : Machine D).toArch u.toArch :=
      ⟨rfl, rfl, rfl⟩
    exact (congrArg (Option.map _) (hostPage_congr hm .load rfl)).trans (hplaces i hi)

theorem exec_lwl (ho : effAddr o s.cpu = a + 3)
    (hin : ∀ i < 4, s.InRam P .load (a + BitVec.ofNat 32 i)) :
    ∃ t, exec P o .lwl s = .ok () t ∧
      LoadStep P a o.rt (fun i => 3 - ((a + 3) &&& 3).toNat ≤ i ∧
        i < 3 - ((a + 3) &&& 3).toNat + (((a + 3) &&& 3).toNat + 1)) s t := by
  have hlt := toNat_add_three a
  have hmerge : ∀ v old i, i < 4 → byte (lwlMerge (((a + 3) &&& 3).toNat + 1) v old) i =
      if 3 - ((a + 3) &&& 3).toNat ≤ i ∧
          i < 3 - ((a + 3) &&& 3).toNat + (((a + 3) &&& 3).toNat + 1) then
        byte v (i - (3 - ((a + 3) &&& 3).toNat)) else byte old i := by
    intro v old i hi
    rw [byte_lwlMerge (by omega) (by omega) hi,
      show 4 - (((a + 3) &&& 3).toNat + 1) = 3 - ((a + 3) &&& 3).toNat by omega]
    exact if_congr (by omega) rfl rfl
  obtain ⟨v, mc, hr, hstep⟩ := loadStep_of_read hb hp hx (left_part a) hin hmerge o.rt
  refine ⟨_, ?_, hstep⟩
  have hread : vaddrRead P ((leftOp o).addr s.cpu) ((leftOp o).len s.cpu) s =
      .ok v { s with mmuCache := mc } := by
    simp only [leftOp, byteIdx, ho, wordAddr_add_three]
    exact hr
  refine (readOp_of_access rfl hread hx).trans ?_
  simp only [byteIdx, ho]

theorem exec_lwr (ho : effAddr o s.cpu = a)
    (hin : ∀ i < 4, s.InRam P .load (a + BitVec.ofNat 32 i)) :
    ∃ t, exec P o .lwr s = .ok () t ∧
      LoadStep P a o.rt (fun i => 0 ≤ i ∧ i < 0 + (4 - (a &&& 3).toNat)) s t := by
  have hlt := toNat_byteIdx a
  have hmerge : ∀ v old i, i < 4 → byte (lwrMerge (a &&& 3).toNat v old) i =
      if 0 ≤ i ∧ i < 0 + (4 - (a &&& 3).toNat) then byte v (i - 0) else byte old i := by
    intro v old i hi
    rw [byte_lwrMerge (by omega) hi]
    exact if_congr (by omega) rfl rfl
  obtain ⟨v, mc, hr, hstep⟩ := loadStep_of_read hb hp hx (right_part a) hin hmerge o.rt
  refine ⟨_, ?_, hstep⟩
  have hread : vaddrRead P ((rightOp o).addr s.cpu) ((rightOp o).len s.cpu) s =
      .ok v { s with mmuCache := mc } := by
    rw [show a + BitVec.ofNat 32 0 = a from BitVec.add_zero a] at hr
    simp only [rightOp, byteIdx, ho]
    exact hr
  refine (readOp_of_access rfl hread hx).trans ?_
  simp only [byteIdx, ho]

end Handlers

/-! ## Pairs -/

/-- Two handlers, one after the other. -/
def inOrder (swap : Bool) (m n : Exec D Unit) : Exec D Unit :=
  if swap then do
    n
    m
  else do
    m
    n

/-- The operands of a pair that accesses the word at `a` through `rt`. -/
structure PairAt (a : Word) (rt : BitVec 5) (oL oR : Ops) (c : CpuState) : Prop where
  left : effAddr oL c = a + 3
  right : effAddr oR c = a
  left_rt : oL.rt = rt
  right_rt : oR.rt = rt
  left_rs : oL.rs ≠ rt
  right_rs : oR.rs ≠ rt

theorem PairAt.of_gpr {a : Word} {rt : BitVec 5} {oL oR : Ops} {c c' : CpuState}
    (h : PairAt a rt oL oR c) (hc : ∀ i, i ≠ rt → c'.gpr i = c.gpr i) : PairAt a rt oL oR c' where
  left := by
    rw [effAddr, hc _ h.left_rs]
    exact h.left
  right := by
    rw [effAddr, hc _ h.right_rs]
    exact h.right
  left_rt := h.left_rt
  right_rt := h.right_rt
  left_rs := h.left_rs
  right_rs := h.right_rs

theorem StoreStep.cpu {P : Platform D} {a x : Word} {I : Nat → Prop} {s t : Machine D}
    (h : StoreStep P a I x s t) : t.cpu = s.cpu := by
  rw [h.eq]

theorem StoreStep.inRam {P : Platform D} {a x : Word} {I : Nat → Prop} {s t : Machine D}
    (h : StoreStep P a I x s t) (hin : ∀ i < 4, s.InRam P .store (a + BitVec.ofNat 32 i)) :
    ∀ i < 4, t.InRam P .store (a + BitVec.ofNat 32 i) := by
  intro i hi
  obtain ⟨r, y, hy, hlt⟩ := hin i hi
  exact ⟨r, y, (h.places i hi).trans hy, hlt⟩

theorem LoadStep.gpr {P : Platform D} {a : Word} {rt : BitVec 5} {I : Nat → Prop}
    {s t : Machine D} (h : LoadStep P a rt I s t) {i : BitVec 5} (hi : i ≠ rt) :
    t.cpu.gpr i = s.cpu.gpr i := by
  rw [h.eq, gpr_setGpr, if_neg hi]

theorem LoadStep.inRam {P : Platform D} {a : Word} {rt : BitVec 5} {I : Nat → Prop}
    {s t : Machine D} (h : LoadStep P a rt I s t)
    (hin : ∀ i < 4, s.InRam P .load (a + BitVec.ofNat 32 i)) :
    ∀ i < 4, t.InRam P .load (a + BitVec.ofNat 32 i) := by
  intro i hi
  obtain ⟨r, y, hy, hlt⟩ := hin i hi
  exact ⟨r, y, (h.places i hi).trans hy, hlt⟩

section Pairs

variable {P : Platform D} {bases : List (DevName × Word)} (hb : P.board.Realizes bases)
  {s : Machine D} (hp : s.Paged) (hx : s.cpu.hasException = false) {a : Word} {rt : BitVec 5}
  {oL oR : Ops} (ho : PairAt a rt oL oR s.cpu) (swap : Bool)
include hb hp hx ho

theorem store_pair (hin : ∀ i < 4, s.InRam P .store (a + BitVec.ofNat 32 i)) :
    ∃ t, inOrder swap (exec P oL .swl) (exec P oR .swr) s = .ok () t ∧
      StoreStep P a (· < 4) (s.cpu.gpr rt) s t := by
  cases swap with
  | false =>
    obtain ⟨t, ht, hl⟩ := exec_swl hb hp hx ho.left hin
    obtain ⟨u, hu, hr⟩ := exec_swr hb hl.paged (by rw [hl.cpu]; exact hx)
      (by rw [hl.cpu]; exact ho.right) (hl.inRam hin)
    rw [ho.left_rt] at hl
    rw [ho.right_rt, hl.cpu] at hr
    exact ⟨u, (bind_of_ok ht _).trans hu, hl.trans hb hp (parts_cover a) hr⟩
  | true =>
    obtain ⟨t, ht, hr⟩ := exec_swr hb hp hx ho.right hin
    obtain ⟨u, hu, hl⟩ := exec_swl hb hr.paged (by rw [hr.cpu]; exact hx)
      (by rw [hr.cpu]; exact ho.left) (hr.inRam hin)
    rw [ho.right_rt] at hr
    rw [ho.left_rt, hr.cpu] at hl
    exact ⟨u, (bind_of_ok ht _).trans hu,
      hr.trans hb hp (fun i => (parts_cover a i).trans or_comm) hl⟩

theorem load_pair (hin : ∀ i < 4, s.InRam P .load (a + BitVec.ofNat 32 i)) :
    ∃ t, inOrder swap (exec P oL .lwl) (exec P oR .lwr) s = .ok () t ∧
      LoadStep P a rt (· < 4) s t := by
  cases swap with
  | false =>
    obtain ⟨t, ht, hl⟩ := exec_lwl hb hp hx ho.left hin
    rw [ho.left_rt] at hl
    obtain ⟨u, hu, hr⟩ := exec_lwr hb hl.paged (by rw [hl.eq]; exact hx)
      (ho.of_gpr fun i hi => hl.gpr hi).right (hl.inRam hin)
    rw [ho.right_rt] at hr
    exact ⟨u, (bind_of_ok ht _).trans hu, hl.trans (parts_cover a) hr⟩
  | true =>
    obtain ⟨t, ht, hr⟩ := exec_lwr hb hp hx ho.right hin
    rw [ho.right_rt] at hr
    obtain ⟨u, hu, hl⟩ := exec_lwl hb hr.paged (by rw [hr.eq]; exact hx)
      (ho.of_gpr fun i hi => hr.gpr hi).left (hr.inRam hin)
    rw [ho.left_rt] at hl
    exact ⟨u, (bind_of_ok ht _).trans hu, hr.trans (fun i => (parts_cover a i).trans or_comm) hl⟩

end Pairs

/-- The pairs `swl`, `swr` and `lwl`, `lwr` move the word at any address between a register and
    RAM, in either order, cached or not, whatever the pages involved are mapped to; the load
    pair returns what the store pair stored. -/
theorem unaligned_word {P : Platform D} {bases : List (DevName × Word)}
    (hb : P.board.Realizes bases) {s : Machine D} (hp : s.Paged)
    (hx : s.cpu.hasException = false) {a : Word} {rt : BitVec 5} {oL oR : Ops}
    (ho : PairAt a rt oL oR s.cpu) (swap : Bool) :
    ((∀ i < 4, s.InRam P .store (a + BitVec.ofNat 32 i)) →
      ∃ t, inOrder swap (exec P oL .swl) (exec P oR .swr) s = .ok () t ∧
        t = { s with ram := t.ram, mmuCache := t.mmuCache } ∧
        Stored (fun i => s.place P .store (a + BitVec.ofNat 32 i)) (· < 4) (s.cpu.gpr rt)
          s.ram t.ram) ∧
    ((∀ i < 4, s.InRam P .load (a + BitVec.ofNat 32 i)) →
      ∃ t, inOrder swap (exec P oL .lwl) (exec P oR .lwr) s = .ok () t ∧
        t = { s with
          cpu := { s.cpu with toRegs := s.cpu.setGpr rt (t.cpu.gpr rt) }
          mmuCache := t.mmuCache } ∧
        ∀ i < 4, ∀ r y, s.place P .load (a + BitVec.ofNat 32 i) = some (r, y) →
          byte (t.cpu.gpr rt) i = s.ram r y) ∧
    ((∀ i < 4, s.InRam P .store (a + BitVec.ofNat 32 i)) →
      ∀ (rt' : BitVec 5) (oL' oR' : Ops) (swap' : Bool), PairAt a rt' oL' oR' s.cpu →
        ∃ t, (inOrder swap (exec P oL .swl) (exec P oR .swr) >>= fun _ =>
            inOrder swap' (exec P oL' .lwl) (exec P oR' .lwr)) s = .ok () t ∧
          t.cpu.gpr rt' = s.cpu.gpr rt) := by
  refine ⟨fun hin => ?_, fun hin => ?_, fun hin rt' oL' oR' swap' ho' => ?_⟩
  · obtain ⟨t, ht, hstep⟩ := store_pair hb hp hx ho swap hin
    exact ⟨t, ht, hstep.eq, hstep.stored⟩
  · obtain ⟨t, ht, hstep⟩ := load_pair hb hp hx ho swap hin
    exact ⟨t, ht, hstep.eq, fun i hi => hstep.loaded i hi hi⟩
  · obtain ⟨t, ht, hstep⟩ := store_pair hb hp hx ho swap hin
    -- the loads go where the stores went
    have hloads : ∀ i < 4, t.place P .load (a + BitVec.ofNat 32 i) =
        s.place P .store (a + BitVec.ofNat 32 i) := by
      intro i hi
      obtain h | ⟨h, -⟩ := hstep.loads i hi
      · exact h
      · exact absurd hi h
    have hin' : ∀ i < 4, t.InRam P .load (a + BitVec.ofNat 32 i) := by
      intro i hi
      obtain ⟨r, y, hy, hlt⟩ := hin i hi
      exact ⟨r, y, (hloads i hi).trans hy, hlt⟩
    obtain ⟨u, hu, hload⟩ := load_pair hb hstep.paged (by rw [hstep.cpu]; exact hx)
      (by rw [hstep.cpu]; exact ho') swap' hin'
    refine ⟨u, (bind_of_ok ht _).trans hu, eq_of_byte_eq fun i hi => ?_⟩
    obtain ⟨r, y, hy, -⟩ := hin i hi
    rw [hload.loaded i hi hi r y ((hloads i hi).trans hy), hstep.stored.bytes i hi r y hy]

/-- Two pages side by side, mapped to the frames 5 and 9, with a word across their border. -/
def spanDemo : Machine Unit :=
  let page (n : BitVec 24) : TlbPhyn := { pfn := n, c := 0, d := true, v := true }
  let s := Machine.boot (fun _ _ => 0) ()
  { s with
    cpu := { s.cpu with toRegs := (s.cpu.setGpr 2 0x00000ffe).setGpr 3 0x11223344 }
    tlb := fun _ => { pagemask := 0, vpn := 0, g := true, asid := 0, p0 := page 5, p1 := page 9 } }

def spanPlatform : Platform Unit := ramPlatform (buildOf .mips32R1 true false)

/-- Operands `rt` and `off($2)`. -/
def spanOps (rt : BitVec 5) (off : BitVec 16) : Ops := Inst.ops (0#6 ++ 2#5 ++ rt ++ off)

theorem unaligned_word_spanDemo :
    ∃ t, (inOrder false (exec spanPlatform (spanOps 3 3) .swl)
          (exec spanPlatform (spanOps 3 0) .swr) >>= fun _ =>
        inOrder true (exec spanPlatform (spanOps 4 3) .lwl)
          (exec spanPlatform (spanOps 4 0) .lwr)) spanDemo = .ok () t ∧
      t.cpu.gpr 4 = spanDemo.cpu.gpr 3 := by
  have hp : spanDemo.Paged := by
    intro i r b h
    cases h
  have hs : PairAt 0x00000ffe 3 (spanOps 3 3) (spanOps 3 0) spanDemo.cpu := by
    constructor <;> decide
  have hl : PairAt 0x00000ffe 4 (spanOps 4 3) (spanOps 4 0) spanDemo.cpu := by
    constructor <;> decide
  refine (unaligned_word ramBoard_realizes hp rfl hs false).2.2 ?_ 4 _ _ true hl
  intro i hi
  have h4 : i = 0 ∨ i = 1 ∨ i = 2 ∨ i = 3 := by omega
  rcases h4 with rfl | rfl | rfl | rfl
  · exact ⟨.ddr, 0x5ffe, by decide, by decide⟩
  · exact ⟨.ddr, 0x5fff, by decide, by decide⟩
  · exact ⟨.ddr, 0x9000, by decide, by decide⟩
  · exact ⟨.ddr, 0x9001, by decide, by decide⟩

end NemuMips32
