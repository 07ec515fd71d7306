/-
  Address spaces. `tlb_exception` writes back the ASID of the TLB entry that raised the
  exception, not the current one. The two differ where a global entry matches that was written
  under another ASID (`ForeignHit`): an invalid or modified exception then switches the address
  space. `asid_run`: a translation that raises changes just the registers of the exception
  exactly if its entry is not foreign, and in a run without such exceptions the ASID changes
  through MTC0 to EntryHi and TLBR only.
-/
import NemuMips32.Cp0

namespace NemuMips32

open StateExcept

variable {D : Type} {α : Type}

/-! ## One translation -/

def Arch.asid (a : Arch D) : BitVec 8 := a.cpu.cp0.entryHi.asid

/-- The entry that decides the address was written under another ASID. -/
def ForeignHit (a : Arch D) (v : Word) : Prop :=
  ∃ e, lookup a.tlb v a.asid (List.finRange 32) = .hit e ∧ e.asid ≠ a.asid

/-- The CP0 registers but for EntryHi.VPN2, BadVAddr, Context.BadVPN2, EPC, Cause.BD and
    ExcCode and Status.EXL. -/
def Cp0.Apart (c c' : Cp0) : Prop :=
  c' = { c with
    badvaddr := c'.badvaddr
    context := { c.context with BadVPN2 := c'.context.BadVPN2 }
    entryHi := { c.entryHi with vpn := c'.entryHi.vpn }
    epc := c'.epc
    cause := { c.cause with BD := c'.cause.BD, ExcCode := c'.cause.ExcCode }
    status := { c.status with EXL := c'.status.EXL } }

/-- An exception has changed its own registers and nothing else. -/
structure FaultOnly (s s' : Machine D) : Prop where
  asid : s'.asid = s.asid
  cp0 : s.cpu.cp0.Apart s'.cpu.cp0
  regs : s'.cpu.toRegs = s.cpu.toRegs
  tlb : s'.tlb = s.tlb
  ram : s'.ram = s.ram
  dev : s'.dev = s.dev

theorem asid_of_verdict {a : Arch D} {v : Word} {rw : Access} {f : TlbFault}
    (h : a.pageVerdict v rw = .fault f) : f.asid = a.asid ↔ ¬ForeignHit a v := by
  unfold Arch.pageVerdict at h
  unfold ForeignHit
  change (lookup a.tlb v a.asid (List.finRange 32)).decide v rw a.asid = _ at h
  cases hl : lookup a.tlb v a.asid (List.finRange 32) with
  | hit e =>
    rw [hl] at h
    have hf : f.asid = e.asid := by
      simp only [Lookup.decide, TlbEntry.decide] at h
      split at h
      · cases h
        rfl
      · split at h
        · cases h
          rfl
        · cases h
    rw [hf]
    constructor
    · rintro he ⟨e', he', hne⟩
      cases he'
      exact hne he
    · intro hn
      by_contra hne
      exact hn ⟨e, rfl, hne⟩
  | miss =>
    rw [hl] at h
    cases h
    refine iff_of_true rfl ?_
    rintro ⟨e, he, -⟩
    cases he
  | abort =>
    rw [hl] at h
    cases h

theorem faultOnly_fault (P : Platform D) (f : TlbFault) (v : Word) (s : Machine D) :
    FaultOnly s (s.fault P f v) ↔ f.asid = s.asid := by
  constructor
  · exact fun h => h.asid
  · intro h
    refine ⟨h, ?_, rfl, rfl, rfl, rfl⟩
    unfold Cp0.Apart Machine.fault Machine.raise Arch.raise CpuState.raise Cp0.setFault
    simp only [h]
    rfl

/-- A call of `page_translate` that raises changes just the registers of the exception exactly
    if the entry it hits is not foreign. -/
theorem faultOnly_iff {P : Platform D} {v : Word} {rw : Access} {s s' : Machine D} {p : Word}
    {attr : MmuAttr} (h : pageTranslate P v (.init rw true) s = .ok (p, attr) s')
    (hr : s'.raised ≠ s.raised) : FaultOnly s s' ↔ ¬ForeignHit s.toArch v := by
  rw [pageTranslate_eq] at h
  cases hv : s.pageVerdict v rw with
  | ok q d =>
    rw [hv] at h
    cases h
    exact absurd rfl hr
  | fault f =>
    rw [hv] at h
    cases h
    exact (faultOnly_fault P f v s).trans (asid_of_verdict hv)
  | abort why =>
    rw [hv] at h
    cases h

/-! ## The accesses of an iteration -/

/-- `make_entry` fetches: there is no decode cache, or it has no successor to follow. -/
def Machine.fetches (P : Platform D) (s : Machine D) : Prop :=
  P.cfg.decodeCache = true → ∃ c, s.dc.follow = some (none, c)

/-- The first memory access of a body. -/
def Body.access (b : Body) (c : CpuState) : Option (Access × Word) :=
  match b with
  | .read a _ => some (.load, a.addr c)
  | .write a _ _ => some (.store, a.addr c)
  | .ll o => some (.load, effAddr o c)
  | .ldc1 o => some (.load, effAddr o c)
  | .sdc1 o => some (.store, effAddr o c)
  | _ => none

/-- The access raises nothing through a foreign entry. -/
def Native (P : Platform D) (s : Machine D) (rw : Access) (v : Word) : Prop :=
  ∀ f, s.faultOf P rw v = some f → ¬ForeignHit s.toArch v

/-- Neither the fetch of the iteration nor its data access does. -/
structure NativeFaults (P : Platform D) (s : Machine D) : Prop where
  fetch : s.cpu.pc &&& 3 = 0 → s.fetches P → Native P s .load s.cpu.pc
  data : ∀ h o t rw a, makeEntry P s = .ok (h, o) t → (body P o h).access t.cpu = some (rw, a) →
    (body P o h).rejects t.cpu = false → Native P t rw a

def SameAsid (s t : Machine D) : Prop := t.asid = s.asid

theorem sameAsid_frame (P : Platform D) : RaiseFrame P (SameAsid (D := D)) where
  trans _ _ _ h h' := h'.trans h
  silent s t hc _ _ := by
    unfold SameAsid Arch.asid
    rw [hc]
  badvaddr _ _ := rfl
  raise _ _ := rfl
  panic _ _ := rfl

theorem Native.asid {P : Platform D} {s : Machine D} {rw : Access} {v : Word} {f : TlbFault}
    (h : Native P s rw v) (hf : s.faultOf P rw v = some f) : f.asid = s.asid :=
  (asid_of_verdict (translate_fault (faultOf_eq_some hf).2)).2 (h f hf)

theorem sameAsid_quiet {rw : Access} {s : Machine D} {r : EStateM.Result Stop (Machine D) α}
    (h : Quiet rw s r) : SameAsid s (final r) := by
  cases r with
  | ok a t =>
    obtain ⟨x, m, mc, rfl, -⟩ := h
    rfl
  | error e t => exact congrArg Arch.asid h.2

theorem sameAsid_vaddrRead {P : Platform D} {s : Machine D} {v : Word} (h : Native P s .load v)
    (len : Nat) : SameAsid s (final (vaddrRead P v len s)) := by
  cases hf : s.faultOf P .load v with
  | some f =>
    rw [vaddrRead_of_fault hf]
    exact h.asid hf
  | none => exact sameAsid_quiet (vaddrRead_quiet hf len)

theorem sameAsid_vaddrWrite {P : Platform D} {s : Machine D} {v : Word}
    (h : Native P s .store v) (len : Nat) (data : Word) :
    SameAsid s (final (vaddrWrite P v len data s)) := by
  cases hf : s.faultOf P .store v with
  | some f =>
    rw [vaddrWrite_of_fault hf]
    exact h.asid hf
  | none => exact sameAsid_quiet (vaddrWrite_quiet hf len data)

theorem sameAsid_fetchInst {P : Platform D} {s : Machine D} (h : Native P s .load s.cpu.pc) :
    SameAsid s (final (fetchInst P s)) := by
  unfold fetchInst
  rw [bind_of_ok (getCpu_apply s)]
  exact sameAsid_vaddrRead h 4

theorem sameAsid_makeEntry {P : Platform D} {s : Machine D}
    (h : s.fetches P → Native P s .load s.cpu.pc) : SameAsid s (final (makeEntry P s)) := by
  have hR := sameAsid_frame P
  have hfetch : s.fetches P → ∀ c, SameAsid (s.zeroGpr.withDc c)
      (final (fetchInst P (s.zeroGpr.withDc c))) := by
    intro hf c
    have hn : Native P (s.zeroGpr.withDc c) .load s.cpu.pc := h hf
    exact sameAsid_fetchInst hn
  unfold makeEntry
  rw [bind_of_ok (modifyRegs_apply s _)]
  by_cases hd : P.cfg.decodeCache = true
  · rw [if_pos hd]
    unfold makeEntryCached
    obtain ⟨d, c, hc, hd'⟩ | hd' := onDecodeCache_cases DecodeCache.follow s.zeroGpr
    · refine hR.trans s (s.zeroGpr.withDc c) _ rfl ?_
      have hb : (onDecodeCache DecodeCache.follow : Exec D _) s.zeroGpr = _ := hd'
      change SameAsid _ (final ((onDecodeCache DecodeCache.follow >>= _) s.zeroGpr))
      rw [bind_of_ok hb]
      cases d with
      | some d =>
        cases hh : d.handler with
        | some h' => simp only [hh]; rfl
        | none => simp only [hh]; rfl
      | none =>
        refine hR.bindAt (hR.onDecodeCache _ _) fun _ t ht => ?_
        obtain ⟨_, c₁, -, hg⟩ | hg :=
          onDecodeCache_cases (fun c => c.grow (P.malloc c.brk)) (s.zeroGpr.withDc c)
        · rw [hg] at ht
          cases ht
          refine hR.bindAt (hfetch (fun _ => ⟨c, hc⟩) c₁) fun _ t _ => ?_
          exact hR.bind (hR.onDecodeCache _) (fun _ => hR.pure _) t
        · rw [hg] at ht
          cases ht
    · change SameAsid _ (final ((onDecodeCache DecodeCache.follow >>= _) s.zeroGpr))
      rw [bind_of_error hd']
      rfl
  · rw [if_neg hd]
    exact hR.bindAt (hfetch (fun h => absurd h hd) s.dc) fun _ t _ => rfl

/-! ## Handlers -/

section Bodies

variable {P : Platform D} (hx : P.cfg.exception = true) {s : Machine D}
include hx

/-- What follows an alignment check runs from the same state. -/
theorem sameAsid_check {code : ExcCode} (hc : code ≠ .TRAP) (a : AccessOp) {f : Unit → Exec D α}
    (hf : a.misaligned s.cpu = false → SameAsid s (final (f () s))) :
    SameAsid s (final ((a.check P code s.cpu >>= f) s)) := by
  have ha := check_apply hx s hc a s.cpu
  cases hm : a.misaligned s.cpu with
  | true =>
    rw [hm, if_pos rfl] at ha
    rw [bind_of_error ha]
    rfl
  | false =>
    rw [hm, if_neg Bool.false_ne_true] at ha
    rw [bind_of_ok ha]
    exact hf hm

theorem sameAsid_checkAligned {code : ExcCode} (hc : code ≠ .TRAP) (align addr : Word)
    {f : Unit → Exec D α} (hf : misaligned align addr = false → SameAsid s (final (f () s))) :
    SameAsid s (final ((checkAlignedAddr P code align addr >>= f) s)) := by
  have ha := checkAlignedAddr_apply hx s hc align addr
  cases hm : misaligned align addr with
  | true =>
    rw [hm, if_pos rfl] at ha
    rw [bind_of_error ha]
    rfl
  | false =>
    rw [hm, if_neg Bool.false_ne_true] at ha
    rw [bind_of_ok ha]
    exact hf hm

theorem sameAsid_readOp (a : AccessOp) (put : CpuState → Word → CpuState → Regs)
    (hn : a.misaligned s.cpu = false → Native P s .load (a.addr s.cpu)) :
    SameAsid s (final (readOp P a put s)) := by
  have hR := sameAsid_frame P
  unfold readOp
  rw [bind_of_ok (getCpu_apply s)]
  refine sameAsid_check hx (by decide) a fun hm => ?_
  refine hR.bindAt (sameAsid_vaddrRead (hn hm) _) fun _ t _ => ?_
  exact hR.bind hR.getCpu (fun _ => keeps_ite (hR.modifyRegs _) (hR.fixBadvaddr a _)) t

theorem sameAsid_writeOp (a : AccessOp) (data : CpuState → Word) (put : CpuState → Regs)
    (hn : a.misaligned s.cpu = false → Native P s .store (a.addr s.cpu)) :
    SameAsid s (final (writeOp P a data put s)) := by
  have hR := sameAsid_frame P
  unfold writeOp
  rw [bind_of_ok (getCpu_apply s)]
  refine sameAsid_check hx (by decide) a fun hm => ?_
  refine hR.bindAt (sameAsid_vaddrWrite (hn hm) _ _) fun _ t _ => ?_
  exact hR.bind hR.getCpu (fun _ => keeps_ite (hR.modifyRegs _) (hR.fixBadvaddr a _)) t

omit hx in
/-- Translation depends on the TLB, the ASID and ERL. -/
theorem translate_fault_congr (f : TlbFault) (a v : Word) (rw : Access) (hf : f.asid = s.asid) :
    P.translate (s.fault P f a).toArch v rw = P.translate s.toArch v rw := by
  have hp : (s.fault P f a).pageVerdict v rw = s.pageVerdict v rw := by
    unfold Arch.pageVerdict
    change (lookup s.tlb v f.asid (List.finRange 32)).decide v rw f.asid = _
    rw [hf]
    rfl
  unfold Platform.translate
  rw [hp]
  rfl

omit hx in
/-- The second word of a doubleword is on the page of the first. -/
theorem native_next {rw : Access} {a : Word} (h8 : a &&& 7 = 0) (hn : Native P s rw a)
    {f : TlbFault} (hf : s.faultOf P rw a = some f) :
    Native P (s.fault P f a) rw (a + 4) := by
  intro f' hf'
  have hasid := hn.asid hf
  have ht := (faultOf_eq_some hf').2
  have ht' := ht
  rw [translate_fault_congr f a _ rw hasid, fault_samePage (samePage_next h8),
    (faultOf_eq_some hf).2] at ht'
  cases ht'
  rw [← asid_of_verdict (translate_fault ht)]
  rfl

theorem sameAsid_ldc1 (o : Ops)
    (hn : misaligned 8 (effAddr o s.cpu) = false → Native P s .load (effAddr o s.cpu)) :
    SameAsid s (final (ldc1 P o s)) := by
  have hR := sameAsid_frame P
  unfold ldc1
  rw [bind_of_ok (getCpu_apply s)]
  refine sameAsid_checkAligned hx (by decide) 8 _ fun hm => ?_
  have h8 := eq_zero_of_aligned hm
  refine hR.bindAt (sameAsid_vaddrRead (hn hm) 4) fun _ t ht => ?_
  have hnext : Native P t .load (effAddr o s.cpu + 4) := by
    cases hf : s.faultOf P .load (effAddr o s.cpu) with
    | some f =>
      rw [vaddrRead_of_fault hf] at ht
      cases ht
      exact native_next h8 (hn hm) hf
    | none =>
      intro f' hf'
      rw [vaddrRead_next h8 hf ht] at hf'
      cases hf'
  refine hR.bindAt (sameAsid_vaddrRead hnext 4) fun _ u _ => ?_
  exact hR.bind hR.getCpu (fun _ => keeps_ite (hR.pure _) (hR.modifyRegs _)) u

theorem sameAsid_sdc1 (o : Ops)
    (hn : misaligned 8 (effAddr o s.cpu) = false → Native P s .store (effAddr o s.cpu)) :
    SameAsid s (final (sdc1 P o s)) := by
  have hR := sameAsid_frame P
  unfold sdc1
  rw [bind_of_ok (getCpu_apply s)]
  refine sameAsid_checkAligned hx (by decide) 8 _ fun hm => ?_
  have h8 := eq_zero_of_aligned hm
  rw [bind_of_ok (getCpu_apply s)]
  refine hR.bindAt (sameAsid_vaddrWrite (hn hm) 4 _) fun _ t ht => ?_
  have hnext : Native P t .store (effAddr o s.cpu + 4) := by
    cases hf : s.faultOf P .store (effAddr o s.cpu) with
    | some f =>
      rw [vaddrWrite_of_fault hf] at ht
      cases ht
      exact native_next h8 (hn hm) hf
    | none =>
      intro f' hf'
      rw [vaddrWrite_next h8 hf ht] at hf'
      cases hf'
  rw [bind_of_ok (getCpu_apply t)]
  exact sameAsid_vaddrWrite hnext 4 _

theorem sameAsid_run {b : Body} (hi : b.isInvEnd = false) (hb : ∀ t, b.Acts s t → SameAsid s t)
    (hn : ∀ rw a, b.access s.cpu = some (rw, a) → b.rejects s.cpu = false → Native P s rw a) :
    SameAsid s (final (b.run P s)) := by
  have hR := sameAsid_frame P
  cases b with
  | read a put => exact sameAsid_readOp hx a put (hn _ _ rfl)
  | write a data put => exact sameAsid_writeOp hx a data put (hn _ _ rfl)
  | ll o =>
    change SameAsid s (final (ll P o s))
    unfold ll
    rw [bind_of_ok (getCpu_apply s)]
    refine sameAsid_checkAligned hx (by decide) 4 _ fun hm => ?_
    exact hR.bindAt (sameAsid_vaddrRead (hn _ _ rfl hm) 4) fun _ t _ => hR.modifyRegs _ t
  | ldc1 o => exact sameAsid_ldc1 hx o (hn _ _ rfl)
  | sdc1 o => exact sameAsid_sdc1 hx o (hn _ _ rfl)
  | invEnd => cases hi
  | _ => exact hR.run rfl hb

end Bodies

/-! ## Runs -/

/-- The iteration from `s` executes TLBR or MTC0 to EntryHi. -/
def SwitchesAsid (P : Platform D) (s : Machine D) : Prop :=
  ∃ h o t, makeEntry P s = .ok (h, o) t ∧ (h = .tlbr ∨ (h = .mtc0 ∧ o.rd = 10 ∧ o.sel = 0))

theorem asid_mtc0 {rd : BitVec 5} {sel : BitVec 3} (h : ¬(rd = 10 ∧ sel = 0)) (v : Word)
    (c : Cp0) : (c.mtc0 rd sel v).entryHi.asid = c.entryHi.asid := by
  unfold Cp0.mtc0
  split
  case h_12 hrd hsel => exact absurd ⟨BitVec.eq_of_toNat_eq hrd, BitVec.eq_of_toNat_eq hsel⟩ h
  all_goals rfl

theorem sameAsid_acted {o : Ops} {h : Handler} {s t : Machine D} (ha : Acted o s h t)
    (hn : ¬(h = .tlbr ∨ (h = .mtc0 ∧ o.rd = 10 ∧ o.sel = 0))) : SameAsid s t := by
  cases ha with
  | mtc0 => exact asid_mtc0 (fun h => hn (.inr ⟨rfl, h⟩)) _ _
  | tlbr => exact absurd (.inl rfl) hn
  | eret =>
    unfold SameAsid Arch.asid CpuState.eret
    split <;> rfl
  | _ => rfl

theorem sameAsid_tick (s : Machine D) : SameAsid s (s.setCp0 s.cpu.cp0.tick) := by
  unfold SameAsid Arch.asid Machine.setCp0 Cp0.tick
  dsimp only
  split <;> rfl

/-- Without paging nothing faults. -/
theorem translate_ne_fault {P : Platform D} (hp : P.cfg.paging = false) (a : Arch D) (v : Word)
    (rw : Access) (f : TlbFault) : P.translate a v rw ≠ .fault f := by
  unfold Platform.translate
  rw [hp]
  split <;> simp

theorem sameAsid_iteration {P : Platform D} {s : Machine D} (hn : NativeFaults P s)
    (hs : ¬SwitchesAsid P s) : SameAsid s (final (iteration P s)) := by
  have hR := sameAsid_frame P
  have hacts : ∀ h o t, makeEntry P s = .ok (h, o) t → ∀ u, (body P o h).Acts t u →
      SameAsid t u := by
    intro h o t he u hu
    exact sameAsid_acted (acted_of_acts hu) fun hh => hs ⟨h, o, t, he, hh⟩
  by_cases hx : P.cfg.exception = true
  · refine hR.bindAt (hR.execInst ?_ ?_) fun _ t _ => hR.checkException (fun _ => sameAsid_tick) t
    · rintro (hpc | hx')
      · exact sameAsid_makeEntry (hn.fetch hpc)
      · rw [hx] at hx'
        cases hx'
    · intro h o t he
      exact sameAsid_run hx (body_isInvEnd hx o h) (hacts h o t he)
        fun rw a ha hr => hn.data h o t rw a he ha hr
  · have hp : P.cfg.paging = false := Bool.eq_false_iff.2 hx
    have hF : Frame P (SameAsid (D := D)) :=
      { hR with
        irq := fun _ _ _ => rfl
        fault := fun s rw v f h => absurd h (translate_ne_fault hp _ _ _ _) }
    exact hF.iteration (fun _ => sameAsid_tick) hacts

theorem sameAsid_runs {P : Platform D} {s₀ s : Machine D} {last : Option (Machine D × Machine D)}
    (h : Run P (fun s => NativeFaults P s ∧ ¬SwitchesAsid P s) s₀ last s) : SameAsid s₀ s := by
  induction h with
  | start => rfl
  | iterate _ hok hi ih =>
    have hs := sameAsid_iteration hok.1 hok.2
    rw [hi] at hs
    exact hs.trans ih
  | host _ f ih => exact ih
  | enter _ he ih =>
    unfold SameAsid Arch.asid
    rw [enterLoop_cpu he]
    exact ih

/-- Exceptions do not switch the address space, unless a foreign entry raises them: one call
    of `page_translate`, and a whole run. -/
theorem asid_run (P : Platform D) :
    (∀ (s s' : Machine D) (v : Word) (rw : Access) (p : Word) (attr : MmuAttr),
      pageTranslate P v (.init rw true) s = .ok (p, attr) s' → s'.raised ≠ s.raised →
      (FaultOnly s s' ↔ ¬ForeignHit s.toArch v)) ∧
    ∀ (s₀ s : Machine D) (last : Option (Machine D × Machine D)),
      Run P (fun s => NativeFaults P s ∧ ¬SwitchesAsid P s) s₀ last s →
      s.cpu.cp0.entryHi.asid = s₀.cpu.cp0.entryHi.asid :=
  ⟨fun _ _ _ _ _ _ h hr => faultOnly_iff h hr, fun _ _ _ h => sameAsid_runs h⟩

/-- What `NativeFaults` and `SwitchesAsid` ask of the handler and its data access, checked on the
    entry that decides the address. -/
def nativeEntry (P : Platform D) (s : Machine D) : Bool :=
  okAnd (makeEntry P s) fun (h, o) t =>
    h != .mtc0 && h != .tlbr &&
      match (body P o h).access t.cpu with
      | none => true
      | some (_, a) =>
        match lookup t.tlb a t.asid (List.finRange 32) with
        | .hit e => e.asid == t.asid
        | _ => true

theorem nativeFaults_of_entry {P : Platform D} {s : Machine D}
    (hf : s.faultOf P .load s.cpu.pc = none) (h : nativeEntry P s = true) :
    NativeFaults P s ∧ ¬SwitchesAsid P s := by
  refine ⟨⟨fun _ _ f hf' => ?_, fun h' o t rw a he ha _ f _ hfor => ?_⟩, ?_⟩
  · rw [hf] at hf'
    cases hf'
  · obtain ⟨e, hl, hne⟩ := hfor
    simp only [nativeEntry, he, okAnd, ha, hl, Bool.and_eq_true, beq_iff_eq] at h
    exact hne h.2
  · rintro ⟨h', o, t, he, hh⟩
    simp only [nativeEntry, he, okAnd, Bool.and_eq_true, bne_iff_ne] at h
    obtain hh | ⟨hh, -⟩ := hh
    · exact h.1.2 hh
    · exact h.1.1 hh

/-- A pair of invalid pages at VPN2 0, written under ASID 5; then `lw $4, 0($0)` under ASID 5. -/
def nativeDemo : Machine Unit :=
  after mips32r1 3 (started mips32r1 [0x34020005, 0x40825000, 0x42000002, 0x8C040000])

/-- The load raises TLB invalid, and execution goes on at the vector under the same ASID. -/
theorem asid_run_nativeDemo :
    (∃ p attr s', pageTranslate mips32r1 0 (.init .load true) nativeDemo = .ok (p, attr) s' ∧
      s'.raised ≠ nativeDemo.raised ∧ FaultOnly nativeDemo s') ∧
    (after mips32r1 1 nativeDemo).raised.length = nativeDemo.raised.length + 1 ∧
    nativeDemo.cpu.cp0.entryHi.asid = 5 ∧
    (after mips32r1 2 nativeDemo).cpu.cp0.entryHi.asid = nativeDemo.cpu.cp0.entryHi.asid := by
  have hfault : (returned (pageTranslate mips32r1 0 (.init .load true) nativeDemo)).isSome =
      true := by decide +kernel
  obtain ⟨⟨p, attr⟩, hp⟩ := Option.isSome_iff_exists.1 hfault
  have hraised : (final (pageTranslate mips32r1 0 (.init .load true) nativeDemo)).raised.length =
      nativeDemo.raised.length + 1 := by decide +kernel
  have hne : (final (pageTranslate mips32r1 0 (.init .load true) nativeDemo)).raised ≠
      nativeDemo.raised := by
    intro h
    rw [h] at hraised
    omega
  have hentry : ∀ i ≤ 1, (after mips32r1 i nativeDemo).faultOf mips32r1 .load
        (after mips32r1 i nativeDemo).cpu.pc = none ∧
      nativeEntry mips32r1 (after mips32r1 i nativeDemo) = true := by decide +kernel
  have hnative : ¬ForeignHit nativeDemo.toArch 0 := by
    rintro ⟨e, hl, hasid⟩
    have hb : (match lookup nativeDemo.tlb 0 nativeDemo.asid (List.finRange 32) with
        | .hit e => e.asid == nativeDemo.asid
        | _ => true) = true := by decide +kernel
    rw [hl] at hb
    exact hasid (beq_iff_eq.1 hb)
  refine ⟨⟨p, attr, _, eq_ok_of_returned hp, hne, ?_⟩, by decide +kernel, by decide +kernel, ?_⟩
  · exact ((asid_run mips32r1).1 _ _ _ _ _ _ (eq_ok_of_returned hp) hne).2 hnative
  · exact (asid_run mips32r1).2 _ _ _ (run_after 1
      (fun i hi => nativeFaults_of_entry (hentry i hi).1 (hentry i hi).2) (by decide +kernel))

/-- A global pair of invalid pages at VPN2 0, written under ASID 7; then, under ASID 5,
    `lw $4, 0($0)`. -/
def asidCode : List Word :=
  [0x34020007, 0x40825000, 0x34030001, 0x40831000, 0x40831800, 0x42000002, 0x34020005, 0x40825000,
    0x8C040000]

def asidDemo : Machine Unit := started mips32r1 asidCode

theorem booted_asidDemo : Booted mips32r1 asidDemo :=
  booted_started asidCode (by decide) (by decide +kernel)

/-- The load faults on the global entry, and the program goes on under ASID 7. -/
theorem not_asid_demo :
    Booted mips32r1 asidDemo ∧
    (∀ i ≤ 8, isOk (iteration mips32r1 (after mips32r1 i asidDemo)) = true) ∧
    (after mips32r1 8 asidDemo).asid = 5 ∧
    (okState (pageTranslate mips32r1 0 (.init .load true) (after mips32r1 8 asidDemo))).map
      (fun s => s.asid) = some 7 ∧
    (returned (makeEntry mips32r1 (after mips32r1 8 asidDemo))).map Prod.fst = some .lw ∧
    (after mips32r1 9 asidDemo).asid = 7 :=
  ⟨booted_asidDemo, by decide +kernel, by decide +kernel, by decide +kernel, by decide +kernel,
    by decide +kernel⟩

end NemuMips32
