/-
  Address errors of loads and stores. A handler with an alignment check rejects an address that
  is not a multiple of its access size before it touches memory; an access that passed the
  check, or that has none, can raise TLB exceptions only (`keeps_vaddrRead`,
  `keeps_vaddrWrite`).

  `swc1` is the one handler that lacks the check of its siblings: `addressErrors_iff` says that
  a load or store treats misaligned addresses as the architecture asks exactly if it is not a
  `swc1` at such an address.
-/
import NemuMips32.Board
import NemuMips32.Iteration
import Mathlib.Tactic.IntervalCases

namespace NemuMips32

open StateExcept

variable {D : Type}

/-! ## Address errors -/

def ExcCode.isAddressError : ExcCode → Bool
  | .AdEL => true
  | .AdES => true
  | _ => false

/-- What happened between two states raised no address error. -/
def NoAddressError (s t : Machine D) : Prop :=
  ∃ l, t.raised = s.raised ++ l ∧ ∀ r ∈ l, r.exc.code.isAddressError = false

theorem noAddressError_of_eq {s t : Machine D} (h : t.raised = s.raised) : NoAddressError s t :=
  ⟨[], by rw [h, List.append_nil], by simp⟩

theorem noAddressError_refl (s : Machine D) : NoAddressError s s := noAddressError_of_eq rfl

theorem noAddressError_trans (s t u : Machine D) (h : NoAddressError s t)
    (h' : NoAddressError t u) : NoAddressError s u := by
  obtain ⟨l, hl, hn⟩ := h
  obtain ⟨l', hl', hn'⟩ := h'
  refine ⟨l ++ l', by rw [hl', hl, List.append_assoc], fun r hr => ?_⟩
  rcases List.mem_append.1 hr with hr | hr
  · exact hn r hr
  · exact hn' r hr

theorem noAddressError_raise (P : Platform D) {e : Exception}
    (he : e.code.isAddressError = false) (s : Machine D) : NoAddressError s (s.raise P e) := by
  refine ⟨[Raised.of e (s.cpu.raise P.cfg e)], rfl, fun r hr => ?_⟩
  rw [List.mem_singleton.1 hr]
  exact he

theorem faultOf_not_addressError {P : Platform D} {s : Machine D} {rw : Access} {addr : Word}
    {f : TlbFault} (h : s.faultOf P rw addr = some f) : f.code.isAddressError = false := by
  rcases translate_code (faultOf_eq_some h).2 with hc | hc
  · rw [hc]
    cases rw <;> rfl
  · rw [hc]
    rfl

theorem noAddressError_fault {P : Platform D} {s : Machine D} {rw : Access} {addr : Word}
    {f : TlbFault} (h : s.faultOf P rw addr = some f) :
    NoAddressError s (s.fault P f addr) := by
  have hr := noAddressError_raise P (e := ⟨f.ex, f.code⟩) (faultOf_not_addressError h)
    { s with cpu := { s.cpu with cp0 := s.cpu.cp0.setFault addr f.asid } }
  exact hr

theorem noAddressError_quiet {α : Type} {rw : Access} {s : Machine D}
    {r : EStateM.Result Stop (Machine D) α} (h : Quiet rw s r) : NoAddressError s (final r) := by
  cases r with
  | ok a t =>
    obtain ⟨x, m, mc, rfl, -⟩ := h
    exact noAddressError_of_eq rfl
  | error e t => exact noAddressError_of_eq (congrArg Arch.raised h.2)

/-! ## Accesses -/

theorem keeps_vaddrRead (P : Platform D) (addr : Word) (len : Nat) :
    Keeps NoAddressError (vaddrRead P addr len) := by
  intro s
  cases hf : s.faultOf P .load addr with
  | some f =>
    rw [vaddrRead_of_fault hf]
    exact noAddressError_fault hf
  | none => exact noAddressError_quiet (vaddrRead_quiet hf len)

theorem keeps_vaddrWrite (P : Platform D) (addr : Word) (len : Nat) (data : Word) :
    Keeps NoAddressError (vaddrWrite P addr len data) := by
  intro s
  cases hf : s.faultOf P .store addr with
  | some f =>
    rw [vaddrWrite_of_fault hf]
    exact noAddressError_fault hf
  | none => exact noAddressError_quiet (vaddrWrite_quiet hf len data)

theorem keeps_silent {f : Machine D → Machine D} (hf : ∀ s, (f s).raised = s.raised) :
    Keeps NoAddressError (modify f : Exec D PUnit) :=
  keeps_modify fun s => noAddressError_of_eq (hf s)

theorem keeps_then {α β : Type} {m : Exec D α} {f : α → Exec D β} (hm : Keeps NoAddressError m)
    (hf : ∀ a, Keeps NoAddressError (f a)) : Keeps NoAddressError (m >>= f) :=
  keeps_bind noAddressError_trans hm hf

theorem keeps_getCpu : Keeps NoAddressError (getCpu : Exec D CpuState) := noAddressError_refl

/-! ## Handlers -/

/-- The loads and stores. -/
def memoryHandlers : List Handler :=
  [.lh, .lhu, .lw, .ll, .lwc1, .ldc1, .sh, .sw, .sc, .swc1, .sdc1, .lb, .lbu, .sb, .lwl, .lwr,
   .swl, .swr]

/-- The access size and the exception code of the loads and stores with a natural alignment. -/
def Handler.alignment : Handler → Option (Nat × ExcCode)
  | .lh | .lhu => some (2, .AdEL)
  | .lw | .ll | .lwc1 => some (4, .AdEL)
  | .ldc1 => some (8, .AdEL)
  | .sh => some (2, .AdES)
  | .sw | .sc | .swc1 => some (4, .AdES)
  | .sdc1 => some (8, .AdES)
  | _ => none

/-- `(addr & (align - 1)) != 0` for a power of two. -/
theorem misaligned_iff (k : Nat) (hk : k ≤ 3) (a : Word) :
    misaligned (BitVec.ofNat 32 (2 ^ k)) a = true ↔ ¬ 2 ^ k ∣ a.toNat := by
  have hm : BitVec.ofNat 32 (2 ^ k) - 1 = BitVec.ofNat 32 (2 ^ k - 1) := by
    interval_cases k <;> rfl
  have ha : (a &&& BitVec.ofNat 32 (2 ^ k - 1)).toNat = a.toNat % 2 ^ k := by
    have hlt : 2 ^ k - 1 < 2 ^ 32 := by interval_cases k <;> decide
    rw [BitVec.toNat_and, BitVec.toNat_ofNat, Nat.mod_eq_of_lt hlt,
      Nat.and_two_pow_sub_one_eq_mod]
  rw [misaligned, hm, bne_iff_ne, ne_eq, ← BitVec.toNat_inj, ha, Nat.dvd_iff_mod_eq_zero]
  rfl

theorem misaligned_eq_false {k : Nat} (hk : k ≤ 3) {a : Word} (h : 2 ^ k ∣ a.toNat) :
    misaligned (BitVec.ofNat 32 (2 ^ k)) a = false := by
  rw [← Bool.not_eq_true, misaligned_iff k hk]
  exact not_not.2 h

/-- A misaligned access: the exception is all the handler leaves behind. -/
def rejected (P : Platform D) (code : ExcCode) (addr : Word) (s : Machine D) :
    EStateM.Result Stop (Machine D) Unit :=
  .error .exit ((s.setBadvaddr addr).raise P ⟨.none, code⟩)

section Families

variable {P : Platform D} (hx : P.cfg.exception = true) {s : Machine D}
include hx

theorem checkAligned_rejects {code : ExcCode} (hc : code ≠ .TRAP) {k : Nat} (hk : k ≤ 3)
    {addr : Word} (h : ¬ 2 ^ k ∣ addr.toNat) (f : Unit → Exec D Unit) :
    (checkAlignedAddr P code (BitVec.ofNat 32 (2 ^ k)) addr >>= f) s = rejected P code addr s := by
  have ha := checkAlignedAddr_apply hx s hc (BitVec.ofNat 32 (2 ^ k)) addr
  rw [if_pos ((misaligned_iff k hk addr).2 h)] at ha
  exact bind_of_error ha f

theorem checkAligned_passes {code : ExcCode} (hc : code ≠ .TRAP) {k : Nat} (hk : k ≤ 3)
    {addr : Word} (h : 2 ^ k ∣ addr.toNat) {f : Unit → Exec D Unit}
    (hf : Keeps NoAddressError (f ())) :
    NoAddressError s
      (final ((checkAlignedAddr P code (BitVec.ofNat 32 (2 ^ k)) addr >>= f) s)) := by
  rw [bind_of_ok (checkAligned_ok hx hc (misaligned_eq_false hk h))]
  exact hf s

omit hx in
/-- What follows the check in a load. -/
theorem keeps_readRest (a : AccessOp) (put : CpuState → Word → CpuState → Regs)
    (c : CpuState) :
    Keeps NoAddressError (do
      let rdata ← vaddrRead P (a.addr c) (a.len c)
      if !(← getCpu).hasException then modifyRegs (put c rdata)
      else modifyCp0 (a.fixBadvaddr c) : Exec D Unit) := by
  refine keeps_then (keeps_vaddrRead P _ _) fun v => keeps_then keeps_getCpu fun c' => ?_
  exact keeps_ite (keeps_silent fun _ => rfl) (keeps_silent fun _ => rfl)

omit hx in
theorem keeps_writeRest (a : AccessOp) (data : CpuState → Word) (put : CpuState → Regs)
    (c : CpuState) :
    Keeps NoAddressError (do
      vaddrWrite P (a.addr c) (a.len c) (data c)
      if !(← getCpu).hasException then modifyRegs put
      else modifyCp0 (a.fixBadvaddr c) : Exec D Unit) := by
  refine keeps_then (keeps_vaddrWrite P _ _ _) fun v => keeps_then keeps_getCpu fun c' => ?_
  exact keeps_ite (keeps_silent fun _ => rfl) (keeps_silent fun _ => rfl)

end Families

/-- `n`-byte accesses are rejected with `code` unless the effective address is a multiple of
    `n`, and raise no address error otherwise. -/
structure Guards (P : Platform D) (o : Ops) (s : Machine D) (m : Exec D Unit) (n : Nat)
    (code : ExcCode) : Prop where
  rejects : ¬ n ∣ (effAddr o s.cpu).toNat → m s = rejected P code (effAddr o s.cpu) s
  passes : n ∣ (effAddr o s.cpu).toNat → NoAddressError s (final (m s))

section Guards

variable {P : Platform D} (hx : P.cfg.exception = true) (o : Ops) (s : Machine D)
include hx

theorem guards_read {k : Nat} (hk : k ≤ 3) (put : CpuState → Word → CpuState → Regs) :
    Guards P o s (readOp P (alignedOp (2 ^ k) o) put) (2 ^ k) .AdEL :=
  ⟨fun h => checkAligned_rejects hx (by decide) hk h _,
    fun h => checkAligned_passes hx (by decide) hk h (keeps_readRest (alignedOp (2 ^ k) o) put _)⟩

theorem guards_write {k : Nat} (hk : k ≤ 3) (data : CpuState → Word) (put : CpuState → Regs) :
    Guards P o s (writeOp P (alignedOp (2 ^ k) o) data put) (2 ^ k) .AdES :=
  ⟨fun h => checkAligned_rejects hx (by decide) hk h _,
    fun h => checkAligned_passes hx (by decide) hk h
      (keeps_writeRest (alignedOp (2 ^ k) o) data put _)⟩

theorem guards_ll : Guards P o s (ll P o) 4 .AdEL :=
  ⟨fun h => checkAligned_rejects hx (by decide) (k := 2) (by decide) h _,
    fun h => checkAligned_passes hx (by decide) (k := 2) (by decide) h
      (keeps_then (keeps_vaddrRead P _ _) fun _ => keeps_silent fun _ => rfl)⟩

theorem guards_ldc1 : Guards P o s (ldc1 P o) 8 .AdEL := by
  refine ⟨fun h => checkAligned_rejects hx (by decide) (k := 3) (by decide) h _,
    fun h => checkAligned_passes hx (by decide) (k := 3) (by decide) h ?_⟩
  refine keeps_then (keeps_vaddrRead P _ _) fun _ => keeps_then (keeps_vaddrRead P _ _) fun _ =>
    keeps_then keeps_getCpu fun c => ?_
  exact keeps_ite (keeps_pure noAddressError_refl _) (keeps_silent fun _ => rfl)

theorem guards_sdc1 : Guards P o s (sdc1 P o) 8 .AdES := by
  refine ⟨fun h => checkAligned_rejects hx (by decide) (k := 3) (by decide) h _,
    fun h => checkAligned_passes hx (by decide) (k := 3) (by decide) h ?_⟩
  exact keeps_then keeps_getCpu fun _ => keeps_then (keeps_vaddrWrite P _ _ _) fun _ =>
    keeps_then keeps_getCpu fun _ => keeps_vaddrWrite P _ _ _

omit hx in
theorem unchecked_read (a : AccessOp) (ha : a.align = none)
    (put : CpuState → Word → CpuState → Regs) :
    NoAddressError s (final (readOp P a put s)) := by
  have h := keeps_readRest (P := P) a put s.cpu s
  rw [readOp, bind_of_ok (getCpu_apply s), AccessOp.check, ha]
  exact h

omit hx in
theorem unchecked_write (a : AccessOp) (ha : a.align = none) (data : CpuState → Word)
    (put : CpuState → Regs) : NoAddressError s (final (writeOp P a data put s)) := by
  have h := keeps_writeRest (P := P) a data put s.cpu s
  rw [writeOp, bind_of_ok (getCpu_apply s), AccessOp.check, ha]
  exact h

/-- The handlers that check their address. -/
theorem exec_guards {h : Handler} {n : Nat} {code : ExcCode} (ha : h.alignment = some (n, code))
    (hs : h ≠ .swc1) : Guards P o s (exec P o h) n code := by
  cases h
  case lh => cases ha; exact guards_read hx o s (k := 1) (by decide) _
  case lhu => cases ha; exact guards_read hx o s (k := 1) (by decide) _
  case lw => cases ha; exact guards_read hx o s (k := 2) (by decide) _
  case ll => cases ha; exact guards_ll hx o s
  case lwc1 => cases ha; exact guards_read hx o s (k := 2) (by decide) _
  case ldc1 => cases ha; exact guards_ldc1 hx o s
  case sh => cases ha; exact guards_write hx o s (k := 1) (by decide) _ _
  case sw => cases ha; exact guards_write hx o s (k := 2) (by decide) _ _
  case sc => cases ha; exact guards_write hx o s (k := 2) (by decide) _ _
  case sdc1 => cases ha; exact guards_sdc1 hx o s
  case swc1 => exact absurd rfl hs
  all_goals cases ha

/-- The handlers without a check, and those whose check every address passes. -/
theorem exec_unguarded {h : Handler} (hh : h ∈ memoryHandlers)
    (ha : h.alignment = none ∨ h = .swc1) : NoAddressError s (final (exec P o h s)) := by
  cases h
  case lb => exact (guards_read hx o s (k := 0) (by decide) _).passes (Nat.one_dvd _)
  case lbu => exact (guards_read hx o s (k := 0) (by decide) _).passes (Nat.one_dvd _)
  case sb => exact (guards_write hx o s (k := 0) (by decide) _ _).passes (Nat.one_dvd _)
  case lwl => exact unchecked_read s (leftOp o) rfl _
  case lwr => exact unchecked_read s (rightOp o) rfl _
  case swl => exact unchecked_write s (leftOp o) rfl _ _
  case swr => exact unchecked_write s (rightOp o) rfl _ _
  case swc1 => exact unchecked_write s _ rfl _ _
  all_goals first | exact absurd hh (by decide) | exact absurd ha (by decide)

end Guards

/-! ## Iterations -/

theorem noAddressError_settle (P : Platform D) (s : Machine D) :
    NoAddressError s (s.settle P) := by
  unfold Machine.settle
  split
  · exact noAddressError_of_eq rfl
  · have ht : NoAddressError s (s.tick P) := noAddressError_of_eq (raised_tick P s)
    split
    · exact noAddressError_trans _ _ _ ht (noAddressError_raise P (by decide) _)
    · exact ht

section Iteration

variable {P : Platform D} (hx : P.cfg.exception = true)
include hx

theorem noAddressError_dispatch {h : Handler} {o : Ops} {s : Machine D}
    (he : NoAddressError s (final (exec P o h s))) :
    NoAddressError s (final (dispatch P h o s)) := by
  unfold dispatch
  cases hr : exec P o h s with
  | ok a u =>
    rw [hr] at he
    rcases instEnd_cases hx h u with ⟨c, hc⟩ | ⟨t, ht, hraised⟩
    · simp only [hc]
      exact noAddressError_trans _ _ _ he (noAddressError_of_eq (raised_instEnd u))
    · simp only [ht]
      exact noAddressError_trans _ _ _ he (noAddressError_of_eq hraised)
  | error e u =>
    rw [hr] at he
    cases e with
    | exit => exact he
    | delayslot =>
      simp only [enterDelayslot_apply hx]
      exact he
    | halt why => exact he

theorem noAddressError_iteration {h : Handler} {o : Ops} {s t : Machine D}
    (hf : Entered P s h o t) (he : NoAddressError t (final (exec P o h t))) :
    NoAddressError s (final (iteration P s)) := by
  have hd := noAddressError_trans _ _ _ (noAddressError_of_eq hf.raised)
    (noAddressError_dispatch hx he)
  rw [iteration_apply hx]
  rw [← execInst_of_entered hf] at hd
  cases hr : execInst P s with
  | ok a u =>
    rw [hr] at hd
    exact noAddressError_trans _ _ _ hd (noAddressError_settle P u)
  | error e u =>
    rw [hr] at hd
    exact hd

end Iteration

/-- The iteration that enters its handler in state `t` raises `code` with the address `addr` in
    BadVAddr, having touched neither memory nor a register. -/
structure Rejects (P : Platform D) (s t : Machine D) (code : ExcCode) (addr : Word)
    (s' : Machine D) : Prop where
  iteration : iteration P s = .ok () s'
  raised : ∃ r, newRaised s s' = [r] ∧ r.exc.code = code ∧ r.badvaddr = addr
  badvaddr : s'.cpu.cp0.badvaddr = addr
  regs : s'.cpu.toRegs = t.cpu.toRegs
  ram : s'.ram = t.ram
  dev : s'.dev = t.dev

/-- The treatment of misaligned addresses by the load or store `h`, entered in state `t`. -/
structure AddressErrors (P : Platform D) (s : Machine D) (h : Handler) (o : Ops)
    (t : Machine D) : Prop where
  misaligned : ∀ n code, h.alignment = some (n, code) → ¬ n ∣ (effAddr o t.cpu).toNat →
    ∃ s', Rejects P s t code (effAddr o t.cpu) s'
  aligned : (∀ n code, h.alignment = some (n, code) → n ∣ (effAddr o t.cpu).toNat) →
    ∀ r ∈ newRaised s (final (iteration P s)), r.exc.code.isAddressError = false

theorem rejects_of_rejected {P : Platform D} (hx : P.cfg.exception = true) {s t : Machine D}
    {h : Handler} {o : Ops} (hf : Entered P s h o t) {code : ExcCode} {addr : Word}
    (he : exec P o h t = rejected P code addr t) :
    ∃ s', Rejects P s t code addr s' := by
  have hexec : execInst P s = .ok () ((t.setBadvaddr addr).raise P ⟨.none, code⟩) := by
    rw [execInst_of_entered hf, dispatch, he]
    rfl
  have hraised := newRaised_of_eq (s := s) (t := (t.setBadvaddr addr).raise P ⟨.none, code⟩)
    (by rw [raised_raise, ← hf.raised]; rfl)
  refine ⟨((t.setBadvaddr addr).raise P ⟨.none, code⟩).enterVector, ?_, ⟨_, hraised, rfl, rfl⟩,
    rfl, rfl, rfl, rfl⟩
  rw [iteration_apply hx, hexec]
  rfl

/-- A load or store meets the architecture's rule on misaligned addresses exactly if it is not a
    `swc1` at such an address. -/
theorem addressErrors_iff {P : Platform D} (hx : P.cfg.exception = true) {s t : Machine D}
    {h : Handler} {o : Ops} (hh : h ∈ memoryHandlers) (hf : Entered P s h o t) :
    AddressErrors P s h o t ↔ ¬ (h = .swc1 ∧ ¬ 4 ∣ (effAddr o t.cpu).toNat) := by
  have hnone : NoAddressError t (final (exec P o h t)) →
      ∀ r ∈ newRaised s (final (iteration P s)), r.exc.code.isAddressError = false := by
    intro he
    obtain ⟨l, hl, hn⟩ := noAddressError_iteration hx hf he
    rw [newRaised_of_eq hl]
    exact hn
  constructor
  · rintro hm ⟨rfl, hd⟩
    obtain ⟨s', hr⟩ := hm.misaligned 4 .AdES rfl hd
    obtain ⟨r, hnew, hcode, -⟩ := hr.raised
    have hc := hnone (exec_unguarded hx o t hh (.inr rfl)) r (by
      rw [hr.iteration, final_ok, hnew]
      exact List.mem_singleton_self r)
    rw [hcode] at hc
    cases hc
  · intro hw
    refine ⟨fun n code ha hd => ?_, fun hd => hnone ?_⟩
    · have hs : h ≠ .swc1 := by
        rintro rfl
        cases ha
        exact hw ⟨rfl, hd⟩
      exact rejects_of_rejected hx hf ((exec_guards hx o t ha hs).rejects hd)
    · by_cases hs : h.alignment = none ∨ h = .swc1
      · exact exec_unguarded hx o t hh hs
      · rw [not_or] at hs
        obtain ⟨⟨n, code⟩, ha⟩ := Option.ne_none_iff_exists'.1 hs.1
        exact (exec_guards hx o t ha hs.2).passes (hd n code ha)

/-- A machine about to run the load or store `w` with $1 = 0x80002000. -/
def alignDemo (w : Word) : Machine Unit := loaded [w] [(1, 0x80002000)]

/-- `lw $2, 2($1)`. -/
theorem addressErrors_lw :
    AddressErrors mips32r1 (alignDemo 0x8C220002) .lw (Inst.ops 0x8C220002)
      (final (makeEntry mips32r1 (alignDemo 0x8C220002))) ∧
    ¬ 4 ∣ (effAddr (Inst.ops 0x8C220002) (alignDemo 0x8C220002).cpu).toNat :=
  ⟨(addressErrors_iff (by decide) (by decide)
    (entered_of_returned (by decide) (by decide) (by decide))).2 (by decide), by decide⟩

/-- `swc1 $f1, 1($1)` stores at the odd address 0x80002001 and raises nothing. -/
theorem not_addressErrors_swc1 :
    decoderGetHandler 0xE4210001 = .swc1 ∧
    ¬ AddressErrors mips32r1 (alignDemo 0xE4210001) .swc1 (Inst.ops 0xE4210001)
      (final (makeEntry mips32r1 (alignDemo 0xE4210001))) := by
  refine ⟨by decide, fun h => ?_⟩
  obtain ⟨s', hr⟩ := h.misaligned 4 .AdES rfl (by decide)
  obtain ⟨r, hnew, -⟩ := hr.raised
  have hlen : (newRaised (alignDemo 0xE4210001)
      (final (iteration mips32r1 (alignDemo 0xE4210001)))).length = 0 := by decide
  rw [hr.iteration, final_ok, hnew] at hlen
  cases hlen

end NemuMips32
