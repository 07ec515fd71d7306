/-
  The decode cache of the benchmark build (`MARCH_BENCH`: no delay slots, exceptions, interrupts
  or paging). Execution leaves a state at the next word, behind a likely branch that is not taken
  at the word after it, or through `decode_cache_fetch`; so the labels of a chain are determined
  by its entry point, and `make_entry` only goes to a successor that decodes the word at `pc`
  (`decodeCache_bench`).

  The reference is the loop that fetches and decodes the word at `pc` in every iteration
  (`decodeEach`). The program may not execute the instructions whose operands the cache does not
  hold, and may not change the words it has executed (`BenchProgram`).
-/
import NemuMips32.Branching
import NemuMips32.DecodeEntry

namespace NemuMips32

open StateExcept

variable {D : Type}

/-! ## The reference -/

/-- The build without the decode cache. -/
def Platform.uncached (P : Platform D) : Platform D :=
  { P with cfg := { P.cfg with decodeCache := false } }

/-- `goto *handler`, where a branch goes to its target. -/
def dispatchEach (P : Platform D) (h : Handler) (o : Ops) : Exec D Unit := fun s =>
  match exec P o h s with
  | .ok _ s => instEnd P h s
  | .error .exit s => .ok () s
  | .error .delayslot s => .ok () { s with cpu := { s.cpu with pc := s.cpu.brTarget } }
  | .error (.halt why) s => .error (.halt why) s

/-- An iteration that fetches and decodes the word at `pc`. -/
def decodeEach (P : Platform D) : Exec D Unit := do
  let (h, o) ← makeEntry P.uncached
  dispatchEach P.uncached h o

def stepEach (P : Platform D) (s : Machine D) : Input D → Option (Machine D)
  | .iterate => okState (decodeEach P s)
  | .host f => step P.uncached s (.host f)
  | .enter => step P.uncached s .enter

def stopEach (P : Platform D) (s : Machine D) : Input D → Option Stop
  | .iterate => thrown (decodeEach P s)
  | .host f => stop P.uncached s (.host f)
  | .enter => stop P.uncached s .enter

/-- The states of a run of the reference. -/
def statesEach (P : Platform D) (ram : Memory) (dev : D) (entry : Word)
    (cmdline : List (BitVec 8)) (is : List (Input D)) : List (Machine D) :=
  match initCpu P.uncached entry cmdline (Machine.boot ram dev) with
  | .ok _ s => s :: trace (stepEach P) s is
  | .error _ _ => []

/-- How that run ends. -/
def runEndEach (P : Platform D) (ram : Memory) (dev : D) (entry : Word)
    (cmdline : List (BitVec 8)) (is : List (Input D)) : Option Stop :=
  match initCpu P.uncached entry cmdline (Machine.boot ram dev) with
  | .ok _ s => ending (stepEach P) (stopEach P) s is
  | .error e _ => some e

/-! ## Programs -/

def trapHandlers : List Handler :=
  [.teq, .teqi, .tge, .tgei, .tgeiu, .tgeu, .tlt, .tlti, .tltiu, .tltu, .tne, .tnei]

/-- Not COP1, integer MOVF or MOVT, SYSCALL, BREAK, ERET or a trap instruction. -/
structure BenchWord (w : Word) : Prop where
  op : Inst.op w ≠ 0x11
  handler : decoderGetHandler w ∉ .movci :: .syscall :: .breakpoint :: .eret :: trapHandlers

/-- The words executed so far, with their addresses, after an iteration at `s`. -/
def noteWord (P : Platform D) (s : Machine D) (seen : List (Word × Word)) : List (Word × Word) :=
  match fetched P s with
  | some w => (s.cpu.pc, w) :: seen
  | none => seen

/-- A step of the reference that keeps a record of the words executed. -/
def notedStep (P : Platform D) (x : Machine D × List (Word × Word)) (i : Input D) :
    Option (Machine D × List (Word × Word)) :=
  (stepEach P x.1 i).map fun s' =>
    match i with
    | .iterate => (s', noteWord P.uncached x.1 x.2)
    | _ => (s', x.2)

/-- The iteration executes a word that is allowed, and every word executed before is still where
    it was. -/
def BenchStep (P : Platform D) (x : Machine D × List (Word × Word)) (i : Input D) : Prop :=
  i = .iterate → (∀ y ∈ x.2, Reads P.uncached x.1 y.1 y.2) ∧
    ∀ w, fetched P.uncached x.1 = some w → BenchWord w

/-- The program executes allowed words only, and changes none of them afterwards. -/
def BenchProgram (P : Platform D) (ram : Memory) (dev : D) (entry : Word)
    (cmdline : List (BitVec 8)) (is : List (Input D)) : Prop :=
  ∀ t, initCpu P.uncached entry cmdline (Machine.boot ram dev) = .ok () t →
    Along (notedStep P) (BenchStep P) (t, []) is

/-- The decode state that `make_entry` would go to, if there is one, holds the handler and the
    operands of the word at `pc`. -/
def ChainExact (P : Platform D) (s : Machine D) : Prop :=
  ∀ n, s.dc.nextOf s.dc.ds = some n → ∃ d w, s.dc.heap n = some d ∧ Reads P s s.cpu.pc w ∧
    d.handler = some (decoderGetHandler w) ∧
    ∀ f ∈ (decoderGetHandler w).reads, d.get f = Inst.get w f

/-! ## Where execution goes on -/

/-- The address behind an instruction that does not branch. -/
def BenchFollows (a : Word) (h : Handler) (b : Word) : Prop :=
  b = if isLikely h then a + 8 else a + 4

theorem annuls_body (P : Platform D) (o : Ops) {h : Handler} (hb : h ≠ .bc1) :
    (body P o h).annuls = isLikely h := by
  cases h
  case bc1 => exact absurd rfl hb
  case mtc0 => simp only [body, mtc0]; split <;> rfl
  case inv => simp only [body, inv]; split <;> rfl
  case breakpoint => simp only [body, breakpoint]; split <;> rfl
  case cfc1 => simp only [body, cfc1]; split <;> rfl
  case srl => simp only [body, srl]; split <;> rfl
  case srlv => simp only [body, srlv]; split <;> rfl
  all_goals rfl

/-- `bc1` is a COP1 instruction. -/
theorem handler_ne_bc1 {w : Word} (hop : Inst.op w ≠ 0x11) : decoderGetHandler w ≠ .bc1 := by
  have hd := decoded w
  generalize decoderGetHandler w = h, opClass w = c at hd
  have of_mem {t : List Handler} (ht : ∀ h ∈ t, h ≠ .bc1) (hm : h ∈ t) : h ≠ .bc1 := ht h hm
  cases hd with
  | special _ hm => exact of_mem (by decide) hm
  | regimm _ hm => exact of_mem (by decide) hm
  | jump _ hm => exact of_mem (by decide) hm
  | cop0Func _ hm => exact of_mem (by decide) hm
  | cop0Rs _ hm => exact of_mem (by decide) hm
  | cop1 hop' _ => exact absurd hop' hop
  | special2 _ hm => exact of_mem (by decide) hm
  | bshfl _ hm => exact of_mem (by decide) hm
  | special3 _ hm => exact of_mem (by decide) hm
  | opcode _ hm => exact of_mem (by decide) hm

/-- Only likely branches skip a slot. -/
theorem exec_flow (P : Platform D) (o : Ops) {h : Handler} (hb : h ≠ .bc1) (s : Machine D) :
    match exec P o h s with
    | .ok _ u => u.cpu.pc = (if isLikely h then s.cpu.pc + 4 else s.cpu.pc) ∧
        (u.dc = s.dc ∨ u.dc = s.dc.clear)
    | .error e u => Flow P s (.error e u : EStateM.Result Stop (Machine D) Unit) := by
  rw [← annuls_body P o hb]
  exact body_flow P (body P o h) s

/-! ## Reads in both builds -/

section Reads

variable {P : Platform D} {s u : Machine D}

theorem reads_sim (h : Sim P s u) (a w : Word) : Reads P s a w ↔ Reads P.plain u a w := by
  have h0 := h.zeroGpr
  have hv := vaddrRead_sim h0 a 4 fun _ => trivial
  unfold Reads
  cases hs : vaddrRead P a 4 s.zeroGpr with
  | ok x t =>
    cases hu : vaddrRead P.plain a 4 u.zeroGpr with
    | ok y v =>
      rw [hs, hu] at hv
      obtain ⟨rfl, htv⟩ := hv
      constructor
      · rintro ⟨t', ht, harch⟩
        cases ht
        exact ⟨v, rfl, by rw [← htv.arch, harch, h0.arch]⟩
      · rintro ⟨v', hv, harch⟩
        cases hv
        exact ⟨t, rfl, by rw [htv.arch, harch, h0.arch]⟩
    | error e v => rw [hs, hu] at hv; exact hv.elim
  | error e t =>
    cases hu : vaddrRead P.plain a 4 u.zeroGpr with
    | ok y v => rw [hs, hu] at hv; exact hv.elim
    | error e' v =>
      constructor
      · rintro ⟨_, ht, -⟩
        cases ht
      · rintro ⟨_, ht, -⟩
        cases ht

theorem fetched_sim (h : Sim P s u) : fetched P s = fetched P.plain u := by
  have hf := fetchInst_sim h.zeroGpr fun _ => trivial
  unfold fetched
  cases hs : fetchInst P s.zeroGpr with
  | ok w t =>
    cases hu : fetchInst P.plain u.zeroGpr with
    | ok w' v => rw [hs, hu] at hf; exact congrArg some hf.1
    | error e v => rw [hs, hu] at hf; exact hf.elim
  | error e t =>
    cases hu : fetchInst P.plain u.zeroGpr with
    | ok w' v => rw [hs, hu] at hf; exact hf.elim
    | error e' v => rfl

/-- At the top of the loop the successor of `ds` is the right one. -/
theorem AtTop.chainExact {follows : Word → Handler → Word → Prop} {seen : List (Word × Word)}
    (hd : P.cfg.decodeCache = true) (hs : Sim P s u) (ht : AtTop follows seen s)
    (hr : ∀ x ∈ seen, Reads P.plain u x.1 x.2)
    (hw : ∀ w, fetched P.plain u = some w → SameOperands P w) : ChainExact P s := by
  intro n hn
  obtain ⟨d, w, s', u', hheap, hdec, hreads, hfet, -⟩ := entry_hit hd hs ht hr hn
  obtain ⟨d₀, hget⟩ := hdec.get
  refine ⟨d, w, hheap, (reads_sim hs _ w).2 hreads, hdec.handler, fun f hf => ?_⟩
  rw [hget]
  exact (hw w hfet).stored d₀ f hf

end Reads

/-! ## One iteration -/

theorem BenchWord.sameOperands {w : Word} (h : BenchWord w) (P : Platform D) :
    SameOperands P w := by
  refine (sameOperands_iff P w).2 ⟨fun hm => ?_, fun hop => absurd hop h.op⟩
  exact h.handler (by rw [hm]; exact List.mem_cons_self ..)

section Iteration

variable {P : Platform D}

theorem dispatchEach_sim {s t : Machine D} (hs : Sim P s t) {h : Handler} (o : Ops)
    (hd : P.cfg.decodeCache = false) (hp : P.cfg.paging = false) :
    ResRel (SameStop True) (Sim P) (dispatchEach P h o s) (dispatchEach P.plain h o t) := by
  have hx := exec_sim hs (h := h) o (fun hr => absurd hr.2 (by rw [hp]; decide))
    fun _ _ => trivial
  unfold dispatchEach
  cases hxs : exec P o h s with
  | ok a u =>
    cases hxt : exec P.plain o h t with
    | ok b v =>
      rw [hxs, hxt] at hx
      exact instEnd_sim hd h u v hx.2
    | error e v => rw [hxs, hxt] at hx; exact hx.elim
  | error e u =>
    cases hxt : exec P.plain o h t with
    | ok b v => rw [hxs, hxt] at hx; exact hx.elim
    | error e' v =>
      rw [hxs, hxt] at hx
      obtain ⟨rfl | ⟨hover, rfl, rfl⟩, huv⟩ := hx
      · cases e with
        | exit => exact ⟨rfl, huv⟩
        | delayslot =>
          refine ⟨rfl, huv.of_arch ?_ ⟨rfl, rfl, rfl⟩ rfl⟩
          exact congrArg (fun a : Arch D =>
            { a with cpu := { a.cpu with pc := a.cpu.brTarget } }) huv.arch
        | halt why => exact ⟨sameStop_refl _, huv⟩
      · exact ⟨.inr ⟨hover, rfl, rfl⟩, huv⟩

/-- The MMU cache of the reference. -/
theorem decodeEach_sim (hp : P.cfg.paging = false) {s t : Machine D} (hs : Sim P.uncached s t) :
    ResRel (SameStop True) (Sim P.uncached) (decodeEach P s) (decodeEach P.plain t) := by
  have hrest : ∀ x : Handler × Ops, Relates (SameStop True) (Sim P.uncached)
      (dispatchEach P.uncached x.1 x.2) (dispatchEach P.uncached.plain x.1 x.2) :=
    fun x _ _ h => dispatchEach_sim h x.2 rfl hp
  exact resRel_bind (makeEntry_sim rfl hs fun _ => trivial) hrest

variable (hm : P.cfg.march = .bench)
include hm

theorem bench_paging : P.cfg.paging = false := by rw [Config.paging, hm]; rfl

theorem bench_exception : P.cfg.exception = false := by rw [Config.exception, hm]; rfl

theorem bench_delayslot : P.cfg.delayslot = false := by rw [Config.delayslot, hm]; rfl

theorem bench_intr : P.cfg.intr = false := by rw [Config.intr, hm]; rfl

/-- Without paging no access faults. -/
theorem bench_faultOf (s : Machine D) (rw : Access) (a : Word) : s.faultOf P rw a = none := by
  refine faultOf_eq_none.2 (.inr fun f hf => ?_)
  have hp := bench_paging hm
  obtain ⟨q, hq⟩ | ha | hpage := translate_segment P s.toArch a
  · rw [hq] at hf
    cases hf
  · rw [ha] at hf
    cases hf
  · unfold Platform.translate at hf
    rw [hp] at hf
    split at hf <;> simp at hf

theorem iteration_bench (s : Machine D) :
    iteration P s = (makeEntry P >>= fun x => dispatch P x.1 x.2) s := by
  have hx := bench_exception hm
  have hcheck : checkException P = pure () := by
    unfold checkException
    rw [hx, bench_intr hm]
    rfl
  have hexec : execInst P s = (makeEntry P >>= fun x => dispatch P x.1 x.2) s := by
    unfold execInst
    rw [bind_of_ok (getCpu_apply s), if_neg (by rw [hx]; simp)]
  unfold iteration
  rw [hcheck, bind_apply, hexec]
  cases (makeEntry P >>= fun x => dispatch P x.1 x.2) s with
  | ok a t => rfl
  | error e t => rfl

theorem instEnd_bench {h : Handler} (ht : h ≠ .tnei) (s : Machine D) :
    instEnd P h s = .ok () { s with cpu := { s.cpu with pc := s.cpu.pc + 4 } } := by
  unfold instEnd
  rw [bench_delayslot hm]
  simp only [Bool.false_eq_true, if_false, if_neg ht]
  rfl

variable (hd : P.cfg.decodeCache = true)
include hd

theorem enterDelayslot_bench {s : Machine D} {c : DecodeCache}
    (hc : s.dc.fetch s.cpu.brTarget = some c) :
    enterDelayslot P s =
      .ok () (Machine.withDc c { s with cpu := { s.cpu with pc := s.cpu.brTarget } }) := by
  unfold enterDelayslot
  rw [bench_delayslot hm, hd]
  simp only [Bool.false_eq_true, if_false, if_true]
  rw [bind_of_ok (modifyCpu_apply s _), bind_of_ok (getCpu_apply _)]
  simp only [decodeCacheFetch, onDecodeCache, hc, Option.map_some]
  rfl

/-- The handler of an allowed word, and what follows it, in both builds. -/
theorem dispatch_bench {seen : List (Word × Word)} {s u s' u' : Machine D} {w : Word} {o : Ops}
    (he : Enters P BenchFollows seen s u w o s' u') (hw : BenchWord w) :
    EndRel (SameStop True) (fun a b => Sim P a b ∧ AtTop BenchFollows ((s.cpu.pc, w) :: seen) a)
      (dispatch P (decoderGetHandler w) o s')
      (dispatchEach P.plain (decoderGetHandler w) (Inst.ops w) u') := by
  obtain ⟨d₀, rfl⟩ := he.ops
  obtain ⟨label, n, d, hactive, htagged⟩ := he.active
  have hbc1 := handler_ne_bc1 hw.op
  have htnei : decoderGetHandler w ≠ .tnei := by
    intro h
    exact hw.handler (by rw [h]; decide)
  have hflow := exec_flow P (Inst.ops w) hbc1 s'
  have hsim := exec_sim he.sim (h := decoderGetHandler w) (Inst.ops w)
    (fun hr => absurd hr.2 (by rw [bench_paging hm]; decide)) fun _ _ => trivial
  have hm' : P.plain.cfg.march = .bench := hm
  -- the cache after the handler, with the same state being executed
  have hkept : ∀ {c : DecodeCache}, c = s'.dc ∨ c = s'.dc.clear →
      Active (fun a x => (a, x) ∈ (s.cpu.pc, w) :: seen) BenchFollows label s.cpu.pc
        (decoderGetHandler w) n d c ∧ Tagged label c := by
    intro c hc
    obtain rfl | rfl := hc
    · exact ⟨hactive, htagged⟩
    · exact ⟨hactive.clear, htagged.clear⟩
  unfold dispatch dispatchEach
  rw [(hw.sameOperands P).exec d₀]
  cases hxs : exec P (Inst.ops w) (decoderGetHandler w) s' with
  | ok a v =>
    cases hxu : exec P.plain (Inst.ops w) (decoderGetHandler w) u' with
    | error e v' => rw [hxs, hxu] at hsim; exact hsim.elim
    | ok b v' =>
      rw [hxs, hxu] at hsim
      rw [hxs] at hflow
      obtain ⟨hpc, hdc⟩ := hflow
      simp only []
      rw [instEnd_bench hm htnei, instEnd_bench hm' htnei]
      refine ⟨?_, ?_⟩
      · refine hsim.2.of_arch ?_ ⟨rfl, rfl, rfl⟩ rfl
        exact congrArg (fun a : Arch D =>
          { a with cpu := { a.cpu with pc := a.cpu.pc + 4 } }) hsim.2.arch
      · have hfol : BenchFollows s.cpu.pc (decoderGetHandler w) (v.cpu.pc + 4) := by
          rw [BenchFollows, hpc, he.pc]
          split
          · rw [BitVec.add_assoc]
            rfl
          · rfl
        obtain ⟨hact, htag⟩ := hkept hdc
        have htr := hact.goOn hfol fun hne => (hact.next hne).trans hfol.symm
        exact ⟨_, htr, htag.rest hact.ds _, Function.update_self ..⟩
  | error e v =>
    cases hxu : exec P.plain (Inst.ops w) (decoderGetHandler w) u' with
    | ok b v' => rw [hxs, hxu] at hsim; exact hsim.elim
    | error e' v' =>
      rw [hxs, hxu] at hsim
      rw [hxs] at hflow
      obtain ⟨rfl | ⟨hover, rfl, rfl⟩, hvv⟩ := hsim
      · cases e with
        | exit => exact absurd hflow.1 (by rw [bench_exception hm]; decide)
        | halt why => exact sameStop_refl _
        | delayslot =>
          obtain ⟨hact, htag⟩ := hkept hflow.dc
          obtain ⟨c, hfetch, htr, htag'⟩ := hact.traced.arrive htag v.cpu.brTarget
          simp only []
          rw [enterDelayslot_bench hm hd hfetch]
          refine ⟨?_, _, htr, htag', Function.update_self ..⟩
          refine ⟨?_, fun hmc => (hvv.coherent hmc).of_sameMapping ⟨rfl, rfl, rfl⟩ rfl⟩
          exact congrArg (fun a : Arch D =>
            { a with cpu := { a.cpu with pc := a.cpu.brTarget } }) hvv.arch
      · exact .inr ⟨hover, rfl, rfl⟩

/-- One iteration of the cached build, and one of the reference. -/
theorem decodeEach_bench {seen : List (Word × Word)} {s u : Machine D} (hs : Sim P s u)
    (ht : AtTop BenchFollows seen s) (hr : ∀ x ∈ seen, Reads P.plain u x.1 x.2)
    (hw : ∀ w, fetched P.plain u = some w → BenchWord w) :
    EndRel (SameStop True) (fun a b => Sim P a b ∧ AtTop BenchFollows (noteWord P.plain u seen) a)
      (iteration P s) (decodeEach P.plain u) := by
  have hgo : ∀ {w o s' u'}, fetched P.plain u = some w →
      Enters P BenchFollows seen s u w o s' u' →
      EndRel (SameStop True)
        (fun a b => Sim P a b ∧ AtTop BenchFollows (noteWord P.plain u seen) a)
        (iteration P s) (decodeEach P.plain u) := by
    intro w o s' u' hfet he
    have hplain : makeEntry P.plain.uncached u = .ok (decoderGetHandler w, Inst.ops w) u' :=
      he.plain
    rw [iteration_bench hm, decodeEach, bind_of_ok he.cached, bind_of_ok hplain, noteWord, hfet,
      hs.cpu]
    exact dispatch_bench hm hd he (hw w hfet)
  cases hn : s.dc.nextOf s.dc.ds with
  | some n =>
    obtain ⟨d, w, s', u', -, -, -, hfet, he⟩ := entry_hit hd hs ht hr hn
    exact hgo hfet he
  | none =>
    obtain ⟨e, e', t, t', hs', hu', hstop⟩ | ⟨w, o, s', u', hfet, he⟩ :=
      entry_miss hd hs ht hn (bench_faultOf hm s .load _)
    · have hplain : makeEntry P.plain.uncached u = .error e' t' := hu'
      rw [iteration_bench hm, decodeEach, bind_of_error hs', bind_of_error hplain]
      exact hstop
    · exact hgo hfet he

end Iteration

/-! ## Runs -/

/-- The reference with its record, and the cached build: both have a machine without caches in
    the same architectural state, and the chains decode the words of the record. -/
def BenchRel (P : Platform D) (x : Machine D × List (Word × Word)) (s : Machine D) : Prop :=
  ∃ u, Sim P.uncached x.1 u ∧ Sim P s u ∧ AtTop BenchFollows x.2 s

section Runs

variable {P : Platform D}

theorem Sim.host {s u : Machine D} (h : Sim P s u) (f : DevCtx D → DevCtx D) :
    Sim P { s with toArch := s.putDev (f s.devCtx) } { u with toArch := u.putDev (f u.devCtx) } := by
  refine h.of_arch ?_ ⟨rfl, rfl, rfl⟩ rfl
  exact congrArg (fun a : Arch D => a.putDev (f a.devCtx)) h.arch

theorem Sim.running {s u : Machine D} (h : Sim P s u) :
    Sim P { s with nemuState := .running } { u with nemuState := .running } := by
  refine h.of_arch ?_ ⟨rfl, rfl, rfl⟩ rfl
  exact congrArg (fun a : Arch D => { a with nemuState := .running }) h.arch

variable (hd : P.cfg.decodeCache = true)
include hd

/-- A call of `cpu_exec` brings `ds` to `pc`. -/
theorem enter_bench {x : Machine D × List (Word × Word)} {s u : Machine D} {label : Ptr → Word}
    {top : Prop} (htu : Sim P.uncached x.1 u) (hsu : Sim P s u)
    (htr : Traced (fun a w => (a, w) ∈ x.2) BenchFollows label top s.dc)
    (htag : Tagged label s.dc) :
    StepRel SameEnd (BenchRel P) (notedStep P x .enter) (stopEach P x.1 .enter)
      (step P s .enter) (stop P s .enter) := by
  obtain ⟨c, hfetch, htr', htag'⟩ := htr.arrive htag s.cpu.pc
  have henter : enterLoop P s = .ok () (Machine.withDc c { s with nemuState := .running }) := by
    unfold enterLoop setNemuState
    rw [bind_of_ok (modifyArch_apply s _), if_pos hd, bind_of_ok (getCpu_apply _)]
    simp only [decodeCacheFetch, onDecodeCache, hfetch, Option.map_some]
    rfl
  simp only [notedStep, stepEach, step, stopEach, stop, henter]
  refine ⟨⟨{ u with nemuState := .running }, htu.running, ?_, _, htr', htag',
    Function.update_self ..⟩, trivial⟩
  have hrun := hsu.running
  exact ⟨hrun.arch, fun hmc => (hrun.coherent hmc).of_sameMapping ⟨rfl, rfl, rfl⟩ rfl⟩

theorem step_bench (hm : P.cfg.march = .bench) {x : Machine D × List (Word × Word)}
    {s : Machine D} {i : Input D} (h : BenchRel P x s) (hok : BenchStep P x i) :
    StepRel SameEnd (BenchRel P) (notedStep P x i) (stopEach P x.1 i) (step P s i)
      (stop P s i) := by
  obtain ⟨u, htu, hsu, htop⟩ := h
  cases i with
  | enter =>
    obtain ⟨label, htr, htag, -⟩ := htop
    exact enter_bench hd htu hsu htr htag
  | host f => exact ⟨⟨_, htu.host f, hsu.host f, htop⟩, trivial⟩
  | iterate =>
    obtain ⟨hreads, hword⟩ := hok rfl
    have hnote : noteWord P.uncached x.1 x.2 = noteWord P.plain u x.2 := by
      have hf : fetched P.uncached x.1 = fetched P.plain u := fetched_sim htu
      rw [noteWord, noteWord, hf, htu.cpu]
    have heach := (decodeEach_sim (bench_paging hm) htu).endRel
    have hiter := decodeEach_bench hm hd hsu htop
      (fun y hy => (reads_sim htu _ _).1 (hreads y hy))
      (fun w hw => hword w ((fetched_sim htu).trans hw))
    have hjoin := heach.join hiter fun _ _ _ => sameEnd_of_sameStop
    simp only [notedStep, stepEach, step, stopEach, stop, hnote]
    cases ht : decodeEach P x.1 with
    | ok _ t' =>
      cases hs : iteration P s with
      | ok _ s' => rw [ht, hs] at hjoin; exact ⟨hjoin, trivial⟩
      | error e s' => rw [ht, hs] at hjoin; exact hjoin.elim
    | error e t' =>
      cases hs : iteration P s with
      | ok _ s' => rw [ht, hs] at hjoin; exact hjoin.elim
      | error e' s' =>
        rw [ht, hs] at hjoin
        exact ⟨trivial, hjoin⟩

/-- At an iteration the successor of `ds` is the right one. -/
theorem chainExact_bench {x : Machine D × List (Word × Word)} {s : Machine D} {i : Input D}
    (h : BenchRel P x s) (hok : BenchStep P x i) : i = .iterate → ChainExact P s := by
  intro hi
  obtain ⟨u, htu, hsu, htop⟩ := h
  obtain ⟨hreads, hword⟩ := hok hi
  refine htop.chainExact hd hsu ?_ ?_
  · exact fun y hy => (reads_sim htu _ _).1 (hreads y hy)
  · exact fun w hw => (hword w ((fetched_sim htu).trans hw)).sameOperands P

end Runs

/-- The record does not influence the run. -/
theorem trace_noted (P : Platform D) (t : Machine D) (seen : List (Word × Word))
    (is : List (Input D)) :
    (trace (notedStep P) (t, seen) is).map Prod.fst = trace (stepEach P) t is := by
  induction is generalizing t seen with
  | nil => rfl
  | cons i is ih =>
    simp only [trace, notedStep]
    cases hi : stepEach P t i with
    | none => rfl
    | some t' =>
      cases i with
      | iterate => exact congrArg (t' :: ·) (ih _ _)
      | host f => exact congrArg (t' :: ·) (ih _ _)
      | enter => exact congrArg (t' :: ·) (ih _ _)

theorem ending_noted (P : Platform D) (t : Machine D) (seen : List (Word × Word))
    (is : List (Input D)) :
    ending (notedStep P) (fun x i => stopEach P x.1 i) (t, seen) is =
      ending (stepEach P) (stopEach P) t is := by
  induction is generalizing t seen with
  | nil => rfl
  | cons i is ih =>
    simp only [ending, notedStep]
    cases hi : stepEach P t i with
    | none => rfl
    | some t' =>
      cases i with
      | iterate => exact ih _ _
      | host f => exact ih _ _
      | enter => exact ih _ _

/-- The run that begins with a call of `cpu_exec`. -/
theorem run_bench {P : Platform D} (hm : P.cfg.march = .bench) (hd : P.cfg.decodeCache = true)
    {x : Machine D × List (Word × Word)} {s : Machine D} {is : List (Input D)}
    (henter : StepRel SameEnd (BenchRel P) (notedStep P x .enter) (stopEach P x.1 .enter)
      (step P s .enter) (stop P s .enter))
    (hk : ∀ x', notedStep P x .enter = some x' → Along (notedStep P) (BenchStep P) x' is) :
    (trace (step P) s (.enter :: is)).map Machine.toArch =
        ((trace (notedStep P) x (.enter :: is)).map Prod.fst).map Machine.toArch ∧
      OptRel SameEnd (ending (notedStep P) (fun x i => stopEach P x.1 i) x (.enter :: is))
        (ending (step P) (stop P) s (.enter :: is)) ∧
      ∀ s', step P s .enter = some s' →
        Along (step P) (fun s i => i = .iterate → ChainExact P s) s' is := by
  have hstep : ∀ y t i, BenchRel P y t → BenchStep P y i →
      StepRel SameEnd (BenchRel P) (notedStep P y i) (stopEach P y.1 i) (step P t i)
        (stop P t i) := fun y t i h hok => step_bench hd hm h hok
  have harch : ∀ y t, BenchRel P y t → t.toArch = y.1.toArch := by
    rintro y t ⟨u, hyu, htu, -⟩
    exact htu.arch.trans hyu.arch.symm
  obtain ⟨henter, hstop⟩ := henter
  simp only [trace, ending]
  cases hx : notedStep P x .enter with
  | none =>
    cases hs : step P s .enter with
    | none => exact ⟨rfl, hstop, fun s' hs' => by cases hs'⟩
    | some s' => rw [hx, hs] at henter; exact henter.elim
  | some x' =>
    cases hs : step P s .enter with
    | none => rw [hx, hs] at henter; exact henter.elim
    | some s' =>
      rw [hx, hs] at henter
      have hall := trace_forall₂ (fun y t i h hok => (hstep y t i h hok).state) henter is (hk x' hx)
      refine ⟨?_, ending_optRel hstep henter is (hk x' hx), ?_⟩
      · have hmap := map_eq_of_forall₂ (f := fun y => y.1.toArch) (g := Machine.toArch)
          (fun y t h => (harch y t h).symm) hall
        simp only [List.map_cons, harch x' s' henter, List.map_map]
        rw [← hmap]
        rfl
      · intro s'' hs''
        cases hs''
        exact Along.transfer (fun y t i h hok => (hstep y t i h hok).state)
          (fun y t i h hok => chainExact_bench hd h hok) henter (hk x' hx)

/-! ## Reset -/

theorem flows_storeCmdline (P : Platform D) (bs : List (BitVec 8)) (addr : Word) :
    Flows P (storeCmdline P addr bs) := by
  induction bs generalizing addr with
  | nil => exact flows_vaddrWrite P addr 1 0
  | cons b bs ih => exact flows_bind (flows_vaddrWrite P _ _ _) fun _ => ih _

/-- `init_cpu` flushes the decode cache. -/
theorem dc_initCpu {P : Platform D} {entry : Word} {cmdline : List (BitVec 8)} {s t : Machine D}
    (h : initCpu P entry cmdline s = .ok () t) : t.dc = s.dc.clear := by
  unfold initCpu at h
  rw [bind_of_ok (modifyCpu_apply s _), bind_of_ok (clearMmuCache_apply _),
    bind_of_ok (clearDecodeCache_apply _)] at h
  have hrest : Flows P (if cmdline ≠ [] then do
      vaddrWrite P P.cfg.cmdlineAddr 4 (P.cfg.cmdlineAddr + 8)
      vaddrWrite P (P.cfg.cmdlineAddr + 4) 4 0
      storeCmdline P (P.cfg.cmdlineAddr + 8) cmdline
      modifyRegs fun c => (c.setGpr 4 1).setGpr 5 P.cfg.cmdlineAddr
    else pure () : Exec D Unit) := by
    refine flows_ite ?_ (flows_pure ())
    exact flows_bind (flows_vaddrWrite P _ _ _) fun _ => flows_bind (flows_vaddrWrite P _ _ _)
      fun _ => flows_bind (flows_storeCmdline P _ _) fun _ => flows_modifyRegs _
  generalize hs₁ : ({ s with
    cpu := { s.cpu with cp0 := s.cpu.cp0.init P.cfg, pc := entry }
    mmuCache := clearMmu s.mmuCache
    dc := s.dc.clear } : Machine D) = s₁ at h
  have hflow := hrest s₁
  have hdc : s₁.dc = s.dc.clear := by rw [← hs₁]
  rw [h] at hflow
  obtain hc | hc := hflow.dc
  · rw [hc, hdc]
  · rw [hc, hdc]
    rfl

/-- `init_cpu` brings the two builds to the same architectural state, or ends them both. -/
theorem initCpu_uncached (P : Platform D) (entry : Word) (cmdline : List (BitVec 8))
    (s : Machine D) :
    EndRel SameEnd (fun t t' => ∃ u, Sim P t u ∧ Sim P.uncached t' u) (initCpu P entry cmdline s)
      (initCpu P.uncached entry cmdline s) :=
  (initCpu_sim P entry cmdline s fun _ => trivial).endRel.join
    (initCpu_sim P.uncached entry cmdline s fun _ => trivial).endRel
    fun _ _ _ => sameEnd_of_sameStop

theorem traced_reset {P : Platform D} {ram : Memory} {dev : D} {entry : Word}
    {cmdline : List (BitVec 8)} {s : Machine D}
    (h : initCpu P entry cmdline (Machine.boot ram dev) = .ok () s) {L : Type}
    {code : L → Word → Prop} {follows : L → Handler → L → Prop} {label : Ptr → L} {top : Prop} :
    Traced code follows label top s.dc := by
  rw [dc_initCpu h]
  exact traced_empty (fun _ => rfl) (fun _ => rfl) ⟨0, rfl⟩

theorem tagged_reset {P : Platform D} {ram : Memory} {dev : D} {entry : Word}
    {cmdline : List (BitVec 8)} {s : Machine D}
    (h : initCpu P entry cmdline (Machine.boot ram dev) = .ok () s) :
    Tagged (fun _ => (s.dc.heads 0).pc) s.dc := by
  intro i hi
  rw [dc_initCpu h] at hi ⊢
  obtain hi | hi := hi
  · exact absurd rfl hi
  · cases hi
    rfl

theorem arch_readPaddr {P : Platform D} (hp : ∀ d, P.mmio.read d = none) (v p : Word) (d : Bool)
    (len : Nat) : Keeps (fun s t : Machine D => t.toArch = s.toArch) (readPaddr P v p d len) := by
  have htrans : ∀ s t u : Machine D, t.toArch = s.toArch → u.toArch = t.toArch →
      u.toArch = s.toArch := fun _ _ _ h h' => h'.trans h
  unfold readPaddr
  cases P.findDevice p with
  | none => exact fun s => rfl
  | some dev =>
    cases hr : P.devRead dev.name with
    | none => simp only [hr]; exact fun s => rfl
    | some read =>
      simp only [hr]
      refine keeps_bind htrans ?_ fun _ => ?_
      · intro s
        obtain ⟨mc, hu⟩ | hu := updateMmuCache_cases v p dev d s
        · rw [hu]
          rfl
        · rw [hu]
          rfl
      · intro s
        simp only [Platform.devRead, hp, Option.map_none] at hr
        split at hr
        · obtain rfl := Option.some.inj hr
          simp only [ramRead, bind_apply, ite_run, halt_apply, pure_apply, get_apply]
          split <;> rfl
        · split at hr
          · obtain rfl := Option.some.inj hr
            rfl
          · cases hr

/-- On such a board a fetch changes nothing. -/
theorem reads_of_returned {P : Platform D} (hp : ∀ d, P.mmio.read d = none) {s : Machine D}
    {a w : Word} (hf : s.faultOf P .load a = none)
    (h : returned (vaddrRead P a 4 s.zeroGpr) = some w) : Reads P s a w := by
  have hk : (final (vaddrRead P a 4 s.zeroGpr)).toArch = s.zeroGpr.toArch := by
    rw [vaddrRead_eq]
    split
    · cases (s.zeroGpr.mmuCache (mmuCacheIndex a)).ptr with
      | none => rfl
      | some q =>
        simp only [hostRead, bind_apply, ite_run, halt_apply, pure_apply, get_apply]
        split <;> rfl
    · rename_i hc
      have hf' : s.zeroGpr.faultOf P .load a = none := hf
      cases ht : P.translate s.zeroGpr.toArch a .load with
      | ok p d => exact arch_readPaddr hp a p d 4 _
      | fault f => exact absurd ht ((faultOf_eq_none.1 hf').resolve_left hc f)
      | abort why => rfl
  exact ⟨_, eq_ok_of_returned h, hk⟩

instance (w : Word) : Decidable (BenchWord w) :=
  decidable_of_iff (Inst.op w ≠ 0x11 ∧
    decoderGetHandler w ∉ .movci :: .syscall :: .breakpoint :: .eret :: trapHandlers)
    ⟨fun h => ⟨h.1, h.2⟩, fun h => ⟨h.1, h.2⟩⟩

/-- `microbench_defconfig`, without its memory-mapped devices. -/
def microbench : Platform Unit := ramPlatform (buildOf .bench true true)

/-- `addiu $1, $1, 1` and a branch back to it. -/
def countDemo : Memory := image [0x24210001, 0x1420FFFE]

end NemuMips32
