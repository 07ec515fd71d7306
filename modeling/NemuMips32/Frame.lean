/-
  Frame rules. A relation between machines that holds across whatever leaves CP0, the TLB and
  the exception record alone, and across the few things that do not (a device drives its
  interrupt lines, BadVAddr is written, `raise_exception` and `tlb_exception` run), holds
  across every handler but the six that are there to change CP0 or the TLB: `Frame.run`, where
  `Body.Acts` says what those do. `Frame.iteration` is the rule for an iteration, with the
  timer.

  The rules hold in every build and from every state.
-/
import NemuMips32.Iteration

namespace NemuMips32

open StateExcept

variable {D : Type} {α β : Type}

/-- A device callback takes `y` to `x`, or none ran. -/
def Platform.Drives (P : Platform D) (y x : DevCtx D) : Prop :=
  x = y ∨
  (∃ d f a n v, P.mmio.read d = some f ∧ f a n y = .ok (v, x)) ∨
  ∃ d f a n v m m', P.mmio.write d = some f ∧ f a n v y m = .ok (x, m')

/-- `R` holds across whatever leaves CP0, the TLB and the exception record alone. -/
structure CoreFrame (R : Machine D → Machine D → Prop) : Prop where
  trans : ∀ s t u, R s t → R t u → R s u
  silent : ∀ s t : Machine D, t.cpu.cp0 = s.cpu.cp0 → t.tlb = s.tlb → t.raised = s.raised → R s t

/-- `R` holds across the memory accesses of the CPU. -/
structure AccessFrame (P : Platform D) (R : Machine D → Machine D → Prop) : Prop
    extends CoreFrame R where
  irq : ∀ s x, P.Drives s.devCtx x → R s { s with toArch := s.putDev x }
  fault : ∀ s rw v f, P.translate s.toArch v rw = .fault f → R s (s.fault P f v)

/-- `R` holds across the exceptions that handlers raise. -/
structure RaiseFrame (P : Platform D) (R : Machine D → Machine D → Prop) : Prop
    extends CoreFrame R where
  badvaddr : ∀ s v, R s (s.setBadvaddr v)
  raise : ∀ s e, R s (s.raise P e)
  panic : ∀ (s : Machine D) r, R s { s with raised := s.raised ++ [r] }

/-- `R` holds across everything but the handlers for CP0 and the TLB, and the timer. -/
structure Frame (P : Platform D) (R : Machine D → Machine D → Prop) : Prop
    extends AccessFrame P R, RaiseFrame P R

/-! ## Programs that reach neither memory nor CP0 -/

namespace CoreFrame

variable {P : Platform D} {R : Machine D → Machine D → Prop} (hR : CoreFrame R)
include hR

theorem refl (s : Machine D) : R s s := hR.silent s s rfl rfl rfl

theorem bind {m : Exec D α} {f : α → Exec D β} (hm : Keeps R m) (hf : ∀ a, Keeps R (f a)) :
    Keeps R (m >>= f) := keeps_bind hR.trans hm hf

/-- The same at one state. -/
theorem bindAt {m : Exec D α} {f : α → Exec D β} {s : Machine D} (hm : R s (final (m s)))
    (hf : ∀ a t, m s = .ok a t → R t (final (f a t))) : R s (final ((m >>= f) s)) := by
  rw [bind_apply]
  cases hr : m s with
  | ok a t =>
    rw [hr] at hm
    exact hR.trans _ _ _ hm (hf a t hr)
  | error e t =>
    rw [hr] at hm
    exact hm

theorem pure (a : α) : Keeps R (pure a : Exec D α) := keeps_pure hR.refl a

theorem halt (why : Halt) : Keeps R (halt why : Exec D α) := keeps_throw hR.refl _

theorem get : Keeps R (get : Exec D (Machine D)) := keeps_get hR.refl

theorem getCpu : Keeps R (getCpu : Exec D CpuState) := hR.refl

/-- `unless c do halt why` and what follows it. -/
theorem guard (c : Bool) (why : Halt) {f : PUnit → Exec D α} (hf : Keeps R (f ())) :
    Keeps R (if c = true then f () else NemuMips32.halt why >>= f) :=
  keeps_ite hf (hR.bind (hR.halt why) fun _ => hf)

theorem modifyRegs (f : CpuState → Regs) : Keeps R (modifyRegs f : Exec D Unit) :=
  keeps_modify fun s => hR.silent s _ rfl rfl rfl

theorem modifyCpu {f : CpuState → CpuState} (hf : ∀ c, (f c).cp0 = c.cp0) :
    Keeps R (modifyCpu f : Exec D Unit) :=
  keeps_modify fun s => hR.silent s _ (hf s.cpu) rfl rfl

theorem onDecodeCache (f : DecodeCache → Option (α × DecodeCache)) :
    Keeps R (onDecodeCache f : Exec D α) := by
  intro s
  unfold NemuMips32.onDecodeCache
  split
  · exact hR.silent s _ rfl rfl rfl
  · exact hR.refl s

theorem decodeCacheFetch (pc : Word) : Keeps R (decodeCacheFetch pc : Exec D Unit) :=
  hR.onDecodeCache _

theorem instEnd (h : Handler) : Keeps R (instEnd P h) := by
  have hpc : Keeps R (NemuMips32.modifyCpu fun c => { c with pc := c.pc + 4 } : Exec D Unit) :=
    hR.modifyCpu fun _ => rfl
  refine keeps_ite (hR.bind hR.getCpu fun _ => keeps_ite ?_ hpc) (keeps_ite (hR.pure _) hpc)
  refine hR.bind (hR.modifyCpu fun _ => rfl) fun _ => ?_
  have hlast : Keeps R (NemuMips32.modifyCpu fun c => { c with isDelayslot := false } :
      Exec D Unit) := hR.modifyCpu fun _ => rfl
  exact keeps_ite (hR.bind hR.getCpu fun _ => hR.bind (hR.decodeCacheFetch _) fun _ => hlast) hlast

theorem enterDelayslot : Keeps R (enterDelayslot P) := by
  refine keeps_ite (hR.modifyCpu fun _ => rfl) (keeps_ite ?_ (hR.pure _))
  exact hR.bind (hR.modifyCpu fun _ => rfl) fun _ => hR.bind hR.getCpu fun _ =>
    hR.decodeCacheFetch _

theorem enterLoop : Keeps R (enterLoop P) := by
  refine hR.bind (keeps_modify fun s => hR.silent s _ rfl rfl rfl) fun _ => keeps_ite ?_ (hR.pure _)
  exact hR.bind hR.getCpu fun _ => hR.decodeCacheFetch _

/-- The rule for a handler and what follows it. -/
theorem dispatch {h : Handler} {o : Ops} {s : Machine D} (hx : R s (final (exec P o h s))) :
    R s (final (dispatch P h o s)) := by
  unfold NemuMips32.dispatch
  cases hr : exec P o h s with
  | ok a u =>
    rw [hr] at hx
    exact hR.trans _ _ _ hx (hR.instEnd h u)
  | error e u =>
    rw [hr] at hx
    cases e with
    | exit => exact hx
    | delayslot => exact hR.trans _ _ _ hx (hR.enterDelayslot u)
    | halt why => exact hx

end CoreFrame

/-! ## Accesses -/

namespace AccessFrame

variable {P : Platform D} {R : Machine D → Machine D → Prop} (hR : AccessFrame P R)
include hR

theorem ramRead (r : Ram) (addr : Word) (len : Nat) :
    Keeps R (ramRead r addr len : Exec D Word) := by
  unfold NemuMips32.ramRead
  exact hR.guard _ _ (hR.bind hR.get fun _ => hR.pure _)

theorem ramWrite (r : Ram) (addr : Word) (len : Nat) (data : Word) :
    Keeps R (ramWrite r addr len data : Exec D Unit) := by
  unfold NemuMips32.ramWrite
  exact hR.guard _ _ (keeps_modify fun s => hR.silent s _ rfl rfl rfl)

theorem devRead {d : DevName} {read : Word → Nat → Exec D Word} (h : P.devRead d = some read)
    (addr : Word) (len : Nat) : Keeps R (read addr len) := by
  simp only [Platform.devRead] at h
  split at h
  · obtain rfl := Option.some.inj h
    exact hR.ramRead _ _ _
  · split at h
    · obtain rfl := Option.some.inj h
      exact hR.pure _
    · obtain ⟨f, hf, rfl⟩ := Option.map_eq_some_iff.1 h
      intro s
      unfold mmioRead
      cases he : f addr len s.devCtx with
      | ok vx => exact hR.irq s vx.2 (.inr (.inl ⟨d, f, addr, len, vx.1, hf, he⟩))
      | error why => exact hR.refl s

theorem devWrite {d : DevName} {write : Word → Nat → Word → Exec D Unit}
    (h : P.devWrite d = some write) (addr : Word) (len : Nat) (data : Word) :
    Keeps R (write addr len data) := by
  simp only [Platform.devWrite] at h
  split at h
  · obtain rfl := Option.some.inj h
    exact hR.ramWrite _ _ _ _
  · split at h
    · obtain rfl := Option.some.inj h
      exact hR.pure _
    · obtain ⟨f, hf, rfl⟩ := Option.map_eq_some_iff.1 h
      intro s
      unfold mmioWrite
      cases he : f addr len data s.devCtx s.ram with
      | ok xm =>
        have hd : P.Drives s.devCtx xm.1 :=
          .inr (.inr ⟨d, f, addr, len, data, s.ram, xm.2, hf, he⟩)
        exact hR.trans _ _ _ (hR.irq s xm.1 hd) (hR.silent _ _ rfl rfl rfl)
      | error why => exact hR.refl s

theorem updateMmuCache (vaddr paddr : Word) (dev : Device) (w : Bool) :
    Keeps R (updateMmuCache vaddr paddr dev w : Exec D Unit) := by
  intro s
  obtain ⟨mc, hu⟩ | hu := updateMmuCache_cases vaddr paddr dev w s
  · rw [hu]
    exact hR.silent s _ rfl rfl rfl
  · rw [hu]
    exact hR.refl s

theorem readPaddr (addr paddr : Word) (dirty : Bool) (len : Nat) :
    Keeps R (readPaddr P addr paddr dirty len) := by
  unfold NemuMips32.readPaddr
  cases P.findDevice paddr with
  | none => exact hR.halt _
  | some dev =>
    cases hr : P.devRead dev.name with
    | none => simp only [hr]; exact hR.halt _
    | some read =>
      simp only [hr]
      exact hR.bind (hR.updateMmuCache _ _ _ _) fun _ => hR.devRead hr _ _

theorem writePaddr (addr paddr : Word) (len : Nat) (data : Word) :
    Keeps R (writePaddr P addr paddr len data) := by
  unfold NemuMips32.writePaddr
  cases P.findDevice paddr with
  | none => exact hR.halt _
  | some dev =>
    cases hr : P.devWrite dev.name with
    | none => simp only [hr]; exact hR.halt _
    | some write =>
      simp only [hr]
      exact hR.bind (hR.updateMmuCache _ _ _ _) fun _ => hR.devWrite hr _ _ _

theorem hostRead (ptr : Option (Ram × Word)) (off : Word) (len : Nat) :
    Keeps R (hostRead ptr off len : Exec D Word) := by
  cases ptr with
  | none => exact hR.halt _
  | some p =>
    unfold NemuMips32.hostRead
    exact hR.guard _ _ (hR.bind hR.get fun _ => hR.pure _)

theorem hostWrite (ptr : Option (Ram × Word)) (off : Word) (len : Nat) (data : Word) :
    Keeps R (hostWrite ptr off len data : Exec D Unit) := by
  cases ptr with
  | none => exact hR.halt _
  | some p =>
    unfold NemuMips32.hostWrite
    exact hR.guard _ _ (keeps_modify fun s => hR.silent s _ rfl rfl rfl)

theorem vaddrRead (addr : Word) (len : Nat) : Keeps R (vaddrRead P addr len) := by
  intro s
  rw [vaddrRead_eq]
  split
  · exact hR.hostRead _ _ _ s
  · cases ht : P.translate s.toArch addr .load with
    | ok p d => exact hR.readPaddr _ _ _ _ s
    | fault f => exact hR.fault s .load addr f ht
    | abort why => exact hR.refl s

theorem vaddrWrite (addr : Word) (len : Nat) (data : Word) :
    Keeps R (vaddrWrite P addr len data) := by
  intro s
  rw [vaddrWrite_eq]
  split
  · exact hR.hostWrite _ _ _ _ s
  · cases ht : P.translate s.toArch addr .store with
    | ok p d => exact hR.writePaddr _ _ _ _ s
    | fault f => exact hR.fault s .store addr f ht
    | abort why => exact hR.refl s

end AccessFrame

/-! ## Handlers -/

def Machine.setCp0 (c : Cp0) (s : Machine D) : Machine D := { s with cpu := { s.cpu with cp0 := c } }

/-- `tlb_write`. -/
def Machine.writeTlb (i : Fin 32) (s : Machine D) : Machine D :=
  { s with tlb := Function.update s.tlb i (tlbEntryOf s.cpu.cp0) }

/-- What the handlers for CP0 and the TLB do to them. -/
def Body.Acts (b : Body) (s t : Machine D) : Prop :=
  match b with
  | .cp0 f _ => t = s.setCp0 (f s.cpu s.tlb)
  | .tlbp => ∃ i, t = s.setCp0 { s.cpu.cp0 with index := i }
  | .tlbwi => ∃ i, t = s.writeTlb i
  | .tlbwr => ∃ i r, r.toNat < 32 ∧ t = (s.writeTlb i).setCp0 { s.cpu.cp0 with random := r }
  | .eret => t = { s with cpu := s.cpu.eret }
  | _ => False

/-- The bodies with a memory access. -/
def Body.accesses : Body → Bool
  | .read _ _ => true
  | .write _ _ _ => true
  | .ll _ => true
  | .ldc1 _ => true
  | .sdc1 _ => true
  | .invEnd => true
  | _ => false

namespace RaiseFrame

variable {P : Platform D} {R : Machine D → Machine D → Prop} (hR : RaiseFrame P R)
include hR

theorem raiseException (e : Exception) : Keeps R (raiseException P e) := by
  intro s
  by_cases he : e.code = .TRAP
  · simp only [NemuMips32.raiseException, if_pos he]
    exact hR.panic s _
  · rw [raiseException_apply P he]
    exact hR.raise s e

theorem instAssert (cond : Bool) : Keeps R (instAssert P cond) := by
  intro s
  cases cond with
  | true => exact hR.refl s
  | false =>
    simp only [NemuMips32.instAssert, Bool.false_eq_true, if_false]
    split
    · refine hR.bind (keeps_modify fun s => hR.badvaddr s s.cpu.pc) (fun _ => ?_) s
      exact hR.bind (hR.raiseException _) fun _ => keeps_throw hR.refl _
    · exact hR.halt _ s

theorem checkAlignedAddr (code : ExcCode) (align addr : Word) :
    Keeps R (checkAlignedAddr P code align addr) := by
  unfold NemuMips32.checkAlignedAddr
  refine keeps_ite (hR.pure _) (keeps_ite ?_ (hR.halt _))
  refine hR.bind (keeps_modify fun s => hR.badvaddr s addr) fun _ => ?_
  exact hR.bind (hR.raiseException _) fun _ => keeps_throw hR.refl _

theorem check (code : ExcCode) (a : AccessOp) (c : CpuState) : Keeps R (a.check P code c) := by
  unfold AccessOp.check
  cases a.align with
  | none => exact hR.pure _
  | some align => exact hR.checkAlignedAddr _ _ _

theorem fixBadvaddr (a : AccessOp) (c : CpuState) :
    Keeps R (modifyCp0 (a.fixBadvaddr c) : Exec D Unit) := by
  intro s
  rw [modifyCp0_fixBadvaddr]
  cases a.badvaddr with
  | none => exact hR.refl s
  | some f => exact hR.badvaddr s (f c)

theorem jump (mbz : Bool) (link : CpuState → Regs) (target : CpuState → Word) :
    Keeps R (jump P mbz link target) :=
  hR.bind (hR.instAssert mbz) fun _ => hR.bind (hR.modifyRegs link) fun _ =>
    hR.bind (keeps_modify fun s => hR.silent s _ rfl rfl rfl) fun _ => keeps_throw hR.refl _

theorem branchLikely (mbz : Bool) (link : CpuState → Regs) (cond : Regs → Bool) (o : Ops) :
    Keeps R (branchLikely P mbz link cond o) := by
  refine hR.bind (hR.instAssert mbz) fun _ => hR.bind (hR.modifyRegs link) fun _ =>
    hR.bind hR.getCpu fun _ => keeps_ite ?_ (keeps_modify fun s => hR.silent s _ rfl rfl rfl)
  exact hR.bind (keeps_modify fun s => hR.silent s _ rfl rfl rfl) fun _ => keeps_throw hR.refl _

theorem regs (mbz : Bool) (bad : CpuState → Option Halt) (f : CpuState → Regs) :
    Keeps R ((Body.regs mbz bad f).run P) := by
  refine hR.bind (hR.instAssert mbz) fun _ => hR.bind hR.getCpu fun c => ?_
  cases bad c with
  | some why => exact hR.halt why
  | none => exact hR.modifyRegs f

theorem addOv (mbz : Bool) (dst : BitVec 5) (ret : CpuState → BitVec 64) :
    Keeps R ((Body.addOv mbz dst ret).run P) :=
  hR.bind (hR.instAssert mbz) fun _ => hR.bind hR.getCpu fun _ =>
    keeps_ite (keeps_ite (hR.raiseException _) (hR.halt _)) (hR.modifyRegs _)

theorem cp0 {s : Machine D} (f : CpuState → (Fin 32 → TlbEntry) → Cp0) (flush : CpuState → Bool)
    (h : R s (s.setCp0 (f s.cpu s.tlb))) : R s (final ((Body.cp0 f flush).run P s)) := by
  change R s (final ((NemuMips32.modifyCp0 (fun _ => f s.cpu s.tlb) >>=
    fun _ => if flush s.cpu then flushCaches else Pure.pure ()) s))
  rw [bind_of_ok (modifyCp0_apply s _)]
  split
  · exact hR.trans _ _ _ h (hR.silent _ _ rfl rfl rfl)
  · exact h

theorem tlbPresent {s : Machine D} (h : ∀ i, R s (s.setCp0 { s.cpu.cp0 with index := i })) :
    R s (final (tlbPresent s)) := by
  have hfrom : ∀ is, R s (final (tlbPresentFrom is s)) := by
    intro is
    induction is with
    | nil => exact h _
    | cons i is ih =>
      simp only [tlbPresentFrom, bind_of_ok (get_apply s)]
      by_cases hm : pagemaskOk (s.tlb i).pagemask = true
      · simp only [hm, if_true]
        split
        · exact h _
        · exact ih
      · simp only [hm]
        exact hR.refl s
  exact hfrom _

theorem tlbwr {s : Machine D} (h : ∀ i r, r.toNat < 32 →
    R s ((s.writeTlb i).setCp0 { s.cpu.cp0 with random := r })) : R s (final (tlbwr P s)) := by
  unfold NemuMips32.tlbwr
  by_cases hm : P.cfg.march = .noop
  · rw [if_pos hm, bind_of_ok (getCpu_apply s)]
    by_cases hr : s.cpu.cp0.random.toNat < 32
    · simp only [hr, dite_true]
      have hlt : ((s.cpu.cp0.random + 1) % 32).toNat < 32 := by
        rw [BitVec.toNat_umod]
        exact Nat.mod_lt _ (by decide)
      exact hR.trans _ _ _ (h _ _ hlt) (hR.silent _ _ rfl rfl rfl)
    · simp only [hr, dite_false]
      exact hR.refl s
  · rw [if_neg hm]
    have hlt : (BitVec.ofNat 32 (P.rand s.randPos % 32)).toNat < 32 := by
      rw [BitVec.toNat_ofNat]
      omega
    exact hR.trans _ _ _ (h ⟨P.rand s.randPos % 32, Nat.mod_lt _ (by decide)⟩ _ hlt)
      (hR.silent _ _ rfl rfl rfl)

/-- The rule for a handler without a memory access. -/
theorem run {b : Body} {s : Machine D} (ha : b.accesses = false)
    (hb : ∀ t, b.Acts s t → R s t) : R s (final (b.run P s)) := by
  cases b with
  | regs mbz bad f => exact hR.regs mbz bad f s
  | addOv mbz dst ret => exact hR.addOv mbz dst ret s
  | raiseIf cond e =>
    exact hR.bind hR.getCpu (fun c => keeps_ite (hR.raiseException e) (hR.pure ())) s
  | branch mbz link target => exact hR.jump mbz link target s
  | branchLikely mbz link cond o => exact hR.branchLikely mbz link cond o s
  | cp0 f flush => exact hR.cp0 f flush (hb _ rfl)
  | halt why => exact hR.refl s
  | cfc1Bad rt => exact hR.bind (hR.modifyRegs _) (fun _ => hR.instAssert false) s
  | cache => exact hR.silent s _ rfl rfl rfl
  | tlbp => exact hR.tlbPresent fun i => hb _ ⟨i, rfl⟩
  | tlbwi => exact hR.trans _ _ _ (hb _ ⟨_, rfl⟩) (hR.silent _ _ rfl rfl rfl)
  | tlbwr => exact hR.tlbwr fun i r hr => hb _ ⟨i, r, hr, rfl⟩
  | eret => exact hR.trans _ _ _ (hb _ rfl) (hR.silent _ _ rfl rfl rfl)
  | gdbStop => exact hR.silent s _ rfl rfl rfl
  | _ => cases ha

end RaiseFrame

namespace Frame

variable {P : Platform D} {R : Machine D → Machine D → Prop} (hR : Frame P R)
include hR

theorem readOp (a : AccessOp) (put : CpuState → Word → CpuState → Regs) :
    Keeps R (readOp P a put) :=
  hR.bind hR.getCpu fun c => hR.bind (hR.check _ a c) fun _ => hR.bind (hR.vaddrRead _ _) fun _ =>
    hR.bind hR.getCpu fun _ => keeps_ite (hR.modifyRegs _) (hR.fixBadvaddr a c)

theorem writeOp (a : AccessOp) (data : CpuState → Word) (put : CpuState → Regs) :
    Keeps R (writeOp P a data put) :=
  hR.bind hR.getCpu fun c => hR.bind (hR.check _ a c) fun _ =>
    hR.bind (hR.vaddrWrite _ _ _) fun _ =>
    hR.bind hR.getCpu fun _ => keeps_ite (hR.modifyRegs _) (hR.fixBadvaddr a c)

theorem ll (o : Ops) : Keeps R (ll P o) :=
  hR.bind hR.getCpu fun _ => hR.bind (hR.checkAlignedAddr _ _ _) fun _ =>
    hR.bind (hR.vaddrRead _ _) fun _ => hR.modifyRegs _

theorem ldc1 (o : Ops) : Keeps R (ldc1 P o) :=
  hR.bind hR.getCpu fun _ => hR.bind (hR.checkAlignedAddr _ _ _) fun _ =>
    hR.bind (hR.vaddrRead _ _) fun _ => hR.bind (hR.vaddrRead _ _) fun _ =>
    hR.bind hR.getCpu fun _ => keeps_ite (hR.pure _) (hR.modifyRegs _)

theorem sdc1 (o : Ops) : Keeps R (sdc1 P o) :=
  hR.bind hR.getCpu fun _ => hR.bind (hR.checkAlignedAddr _ _ _) fun _ =>
    hR.bind hR.getCpu fun _ => hR.bind (hR.vaddrWrite _ _ _) fun _ =>
    hR.bind hR.getCpu fun _ => hR.vaddrWrite _ _ _

/-- The rule for a handler. -/
theorem run {b : Body} {s : Machine D} (hb : ∀ t, b.Acts s t → R s t) :
    R s (final (b.run P s)) := by
  cases b with
  | read a put => exact hR.readOp a put s
  | write a data put => exact hR.writeOp a data put s
  | ll o => exact hR.ll o s
  | ldc1 o => exact hR.ldc1 o s
  | sdc1 o => exact hR.sdc1 o s
  | invEnd =>
    refine hR.bind hR.getCpu (fun c => hR.bind (hR.vaddrRead _ _) fun _ => ?_) s
    exact keeps_modify fun s => hR.silent s _ rfl rfl rfl
  | _ => exact hR.toRaiseFrame.run rfl hb

end Frame

/-! ## The loop body -/

namespace AccessFrame

variable {P : Platform D} {R : Machine D → Machine D → Prop} (hR : AccessFrame P R)
include hR

theorem makeEntry : Keeps R (makeEntry P) := by
  have hfetch : Keeps R (fetchInst P) := hR.bind hR.getCpu fun _ => hR.vaddrRead _ _
  refine hR.bind (hR.modifyRegs _) fun _ => keeps_ite ?_ (hR.bind hfetch fun _ => hR.pure _)
  refine hR.bind (hR.onDecodeCache _) fun d => ?_
  cases d with
  | none =>
    exact hR.bind (hR.onDecodeCache _) fun _ => hR.bind hfetch fun _ =>
      hR.bind (hR.onDecodeCache _) fun _ => hR.pure _
  | some d =>
    cases hd : d.handler with
    | none => simp only [hd]; exact hR.halt _
    | some h => simp only [hd]; exact hR.pure _

theorem storeCmdline (addr : Word) (bs : List (BitVec 8)) : Keeps R (storeCmdline P addr bs) := by
  induction bs generalizing addr with
  | nil => exact hR.vaddrWrite addr 1 0
  | cons b bs ih => exact hR.bind (hR.vaddrWrite _ _ _) fun _ => ih _

/-- The rule for `init_cpu`, once it has set the registers. -/
theorem initCpu (entry : Word) (cmdline : List (BitVec 8)) (s : Machine D) :
    R { s with cpu := { s.cpu with cp0 := s.cpu.cp0.init P.cfg, pc := entry } }
      (final (initCpu P entry cmdline s)) := by
  have hrest : Keeps R (if cmdline ≠ [] then do
      NemuMips32.vaddrWrite P P.cfg.cmdlineAddr 4 (P.cfg.cmdlineAddr + 8)
      NemuMips32.vaddrWrite P (P.cfg.cmdlineAddr + 4) 4 0
      NemuMips32.storeCmdline P (P.cfg.cmdlineAddr + 8) cmdline
      NemuMips32.modifyRegs fun c => (c.setGpr 4 1).setGpr 5 P.cfg.cmdlineAddr
    else Pure.pure () : Exec D Unit) := by
    refine keeps_ite (hR.bind (hR.vaddrWrite _ _ _) fun _ => ?_) (hR.pure _)
    exact hR.bind (hR.vaddrWrite _ _ _) fun _ => hR.bind (hR.storeCmdline _ _) fun _ =>
      hR.modifyRegs _
  let s₁ : Machine D :=
    { s with cpu := { s.cpu with cp0 := s.cpu.cp0.init P.cfg, pc := entry } }
  exact hR.trans s₁ s₁.flush _ (hR.silent _ _ rfl rfl rfl) (hrest s₁.flush)

end AccessFrame

namespace RaiseFrame

variable {P : Platform D} {R : Machine D → Machine D → Prop} (hR : RaiseFrame P R)
include hR

/-- The rule for the loop body up to the exception check. -/
theorem execInst {s : Machine D} (hm : s.cpu.pc &&& 3 = 0 ∨ P.cfg.exception = false →
      R s (final (makeEntry P s)))
    (hb : ∀ h o t, makeEntry P s = .ok (h, o) t → R t (final (exec P o h t))) :
    R s (final (execInst P s)) := by
  unfold NemuMips32.execInst
  rw [bind_of_ok (getCpu_apply s)]
  split
  · exact hR.bind (keeps_modify fun s => hR.badvaddr s _) (fun _ => hR.raiseException _) s
  · rename_i hpc
    refine hR.bindAt (hm ?_) fun x t he => hR.dispatch (hb x.1 x.2 t he)
    by_cases hx : P.cfg.exception = true
    · exact .inl (not_not.1 fun h => hpc ⟨hx, h⟩)
    · exact .inr (Bool.eq_false_iff.2 hx)

theorem checkException (ht : P.cfg.intr = true → ∀ s, R s (s.setCp0 s.cpu.cp0.tick)) :
    Keeps R (checkException P) := by
  have hintrs : Keeps R (checkIntrs P) := by
    intro s
    have htick : R s (s.tick P) := by
      unfold Machine.tick
      split
      · rename_i hi
        exact ht hi s
      · exact hR.refl s
    rw [checkIntrs_apply]
    split
    · exact hR.trans _ _ _ htick (hR.raise _ _)
    · exact htick
  have hvector : Keeps R (do
      if (← NemuMips32.getCpu).hasException then
        NemuMips32.modifyCpu fun c => { c with hasException := false, pc := c.brTarget } :
      Exec D Unit) :=
    hR.bind hR.getCpu fun _ => keeps_ite (hR.modifyCpu fun _ => rfl) (hR.pure _)
  refine keeps_ite (hR.bind hR.getCpu fun _ => keeps_ite hvector ?_) (hR.pure _)
  exact hR.bind hintrs fun _ => hvector

end RaiseFrame

namespace Frame

variable {P : Platform D} {R : Machine D → Machine D → Prop} (hR : Frame P R)
include hR

/-- The rule for the loop body up to the exception check. -/
theorem execInst {s : Machine D}
    (hb : ∀ h o t, makeEntry P s = .ok (h, o) t → ∀ u, (body P o h).Acts t u → R t u) :
    R s (final (execInst P s)) :=
  hR.toRaiseFrame.execInst (fun _ => hR.makeEntry s) fun h o t he => hR.run (hb h o t he)

/-- The rule for an iteration. -/
theorem iteration (ht : P.cfg.intr = true → ∀ s, R s (s.setCp0 s.cpu.cp0.tick)) {s : Machine D}
    (hb : ∀ h o t, makeEntry P s = .ok (h, o) t → ∀ u, (body P o h).Acts t u → R t u) :
    R s (final (iteration P s)) :=
  hR.bindAt (hR.execInst hb) fun _ t _ => hR.checkException ht t

/-- The rule for a step of a run. -/
theorem step (ht : P.cfg.intr = true → ∀ s, R s (s.setCp0 s.cpu.cp0.tick)) {s s' : Machine D}
    {i : Input D} (hh : ∀ f, i = .host f → R s { s with toArch := s.putDev (f s.devCtx) })
    (hb : i = .iterate →
      ∀ h o t, makeEntry P s = .ok (h, o) t → ∀ u, (body P o h).Acts t u → R t u)
    (h : step P s i = some s') : R s s' := by
  cases i with
  | iterate =>
    have hi := hR.iteration ht (hb rfl)
    rw [eq_ok_of_okState h] at hi
    exact hi
  | host f =>
    cases h
    exact hh f rfl
  | enter =>
    have he := hR.enterLoop (P := P) s
    rw [eq_ok_of_okState h] at he
    exact he

end Frame

end NemuMips32
