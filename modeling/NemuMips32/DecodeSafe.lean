/-
  Memory safety of the decode cache, in every build that has one and for every guest, one that
  rewrites its code included. `decode_cache_fetch` frees the chain of an array entry,
  `clear_decode_cache` may have cut off the chain that `ds` is on, and `make_entry` follows `next`
  without a check. What an iteration needs of the cache, and keeps, is `Sound`. The guest has no
  part in this: a handler leaves the cache as it is or flushes it (`body_flow`).
-/
import NemuMips32.Bench

namespace NemuMips32

open StateExcept

variable {D : Type} {α : Type}

/-! ## Sound caches -/

/-- The chains are disjoint and end in no freed state, `ds` is not freed, and every state that
    can be reached holds what some word decodes to. -/
structure DecodeCache.Sound (c : DecodeCache) : Prop where
  chained : c.Chained
  live : c.DsLive
  filled : ∀ {p n}, c.Reach p → c.nextOf p = some n → ∃ d w, c.heap n = some d ∧ d.Decodes w

theorem Traced.sound {L : Type} {code : L → Word → Prop} {follows : L → Handler → L → Prop}
    {label : Ptr → L} {top : Prop} {c : DecodeCache} (h : Traced code follows label top c) :
    c.Sound := by
  refine ⟨h.chained, h.live, fun hp hn => ?_⟩
  obtain ⟨d, hd⟩ := heap_of_live (h.chained.live_of_next hn)
  obtain ⟨w, -, hdec, -⟩ := h.node hp hn hd
  exact ⟨d, w, hd, hdec⟩

namespace DecodeCache.Sound

variable {c : DecodeCache} (h : c.Sound)
include h

/-- A sound cache is labelled, with labels that say nothing. -/
theorem traced : Traced (fun (_ : Unit) _ => True) (fun _ _ _ => True) (fun _ => ()) True c := by
  refine ⟨h.chained, h.live, fun hp hn hd => ?_⟩
  obtain ⟨d, w, hd', hdec⟩ := h.filled hp hn
  obtain rfl := Option.some.inj (hd.symm.trans hd')
  exact ⟨w, trivial, hdec, fun _ => trivial⟩

theorem clear : c.clear.Sound := h.traced.clear.sound

theorem fetch (pc : Word) : ∃ c', c.fetch pc = some c' ∧ c'.Sound := by
  obtain ⟨c', hf, htr, -⟩ := h.traced.fetch pc
  exact ⟨c', hf, htr.sound⟩

/-- The state that `make_entry` goes to is not freed, and it was filled. -/
theorem follow {n : Nat} (hn : c.nextOf c.ds = some n) :
    ∃ d w, c.follow = some (some d, { c with ds := .node n }) ∧ d.Decodes w ∧
      DecodeCache.Sound { c with ds := .node n } := by
  obtain ⟨d, w, -, hfol, -, hdec, hact⟩ := h.traced.follow hn
  exact ⟨d, w, hfol, hdec, hact.traced.sound⟩

theorem grown (P : Platform D) {d : DecodeState} (hd : c.deref c.ds = some d) (w : Word) :
    (P.grown c d w).Sound :=
  (h.traced.grow (grown_fill h.chained h.live hd _ w) (filled_next _ w) trivial
    (filled_decodes _ w)).traced.sound

end DecodeCache.Sound

/-! ## What cannot fail -/

/-- The machine's decode cache is sound. -/
def CacheSound (s : Machine D) : Prop := s.dc.Sound

section Parts

theorem succeeds_getCpu : Succeeds CacheSound (getCpu : Exec D CpuState) :=
  fun s hs => ⟨s.cpu, s, rfl, hs⟩

theorem succeeds_modifyCpu (f : CpuState → CpuState) :
    Succeeds CacheSound (modifyCpu f : Exec D Unit) := succeeds_modify fun _ hs => hs

theorem succeeds_decodeCacheFetch (pc : Word) :
    Succeeds CacheSound (decodeCacheFetch pc : Exec D Unit) := by
  intro s hs
  obtain ⟨c, hc, hsound⟩ := DecodeCache.Sound.fetch hs pc
  exact ⟨(), s.withDc c, onDecodeCache_of_some (by rw [hc]; rfl), hsound⟩

variable (P : Platform D)

theorem succeeds_instEnd (h : Handler) : Succeeds CacheSound (instEnd P h) := by
  refine succeeds_ite (succeeds_bind succeeds_getCpu fun _ => succeeds_ite ?_ ?_)
    (succeeds_ite (succeeds_pure _) (succeeds_modifyCpu _))
  · refine succeeds_bind (succeeds_modifyCpu _) fun _ => ?_
    have hlast : Succeeds CacheSound (modifyCpu fun c => { c with isDelayslot := false } :
        Exec D Unit) := succeeds_modifyCpu _
    exact succeeds_ite (succeeds_bind succeeds_getCpu fun _ =>
      succeeds_bind (succeeds_decodeCacheFetch _) fun _ => hlast) hlast
  · exact succeeds_modifyCpu _

theorem succeeds_enterDelayslot : Succeeds CacheSound (enterDelayslot P) := by
  refine succeeds_ite (succeeds_modifyCpu _) (succeeds_ite ?_ (succeeds_pure _))
  exact succeeds_bind (succeeds_modifyCpu _) fun _ => succeeds_bind succeeds_getCpu fun _ =>
    succeeds_decodeCacheFetch _

theorem succeeds_enterLoop : Succeeds CacheSound (enterLoop P) := by
  refine succeeds_bind (succeeds_modify fun _ hs => hs) fun _ => succeeds_ite ?_ (succeeds_pure _)
  exact succeeds_bind succeeds_getCpu fun _ => succeeds_decodeCacheFetch _

theorem succeeds_checkIntrs : Succeeds CacheSound (checkIntrs P) := by
  intro s hs
  have htick : (s.tick P).dc.Sound := by
    rw [dc_tick]
    exact hs
  refine ⟨(), _, checkIntrs_apply P s, ?_⟩
  split
  · exact htick.clear
  · exact htick

theorem succeeds_checkException : Succeeds CacheSound (checkException P) := by
  have hvector : Succeeds CacheSound (do
      if (← getCpu).hasException then
        modifyCpu fun c => { c with hasException := false, pc := c.brTarget } : Exec D Unit) :=
    succeeds_bind succeeds_getCpu fun _ => succeeds_ite (succeeds_modifyCpu _) (succeeds_pure _)
  refine succeeds_ite (succeeds_bind succeeds_getCpu fun _ => succeeds_ite hvector ?_)
    (succeeds_pure _)
  exact succeeds_bind (succeeds_checkIntrs P) fun _ => hvector

end Parts

/-! ## One iteration -/

theorem DecodeCache.Sound.kept {c c' : DecodeCache} (h : c.Sound) (hc : c' = c ∨ c' = c.clear) :
    c'.Sound := by
  obtain rfl | rfl := hc
  · exact h
  · exact h.clear

/-- The iteration from `s` ends the emulator where it fetches, or in a handler. -/
inductive EndedBy (P : Platform D) (s t : Machine D) (e : Stop) : Prop where
  | fetch (c : DecodeCache) (hf : fetchInst P (s.zeroGpr.withDc c) = .error e t)
  | handler {h : Handler} {o : Ops} {u : Machine D} (he : makeEntry P s = .ok (h, o) u)
      (hx : exec P o h u = .error e t)

/-- The program returned with a sound cache, or it ended the emulator as `e` says. -/
def SoundOr (e : Stop → Machine D → Prop) : EStateM.Result Stop (Machine D) α → Prop
  | .ok _ t => t.dc.Sound
  | .error why t => e why t

/-- A handler returns, or goes to a label, with a sound cache. -/
theorem exec_sound (P : Platform D) (o : Ops) (h : Handler) {s : Machine D} (hs : s.dc.Sound) :
    SoundOr (fun e t => e = .exit ∨ e = .delayslot → t.dc.Sound) (exec P o h s) := by
  have hflow := body_flow P (body P o h) s
  unfold exec
  cases hr : (body P o h).run P s with
  | ok a t =>
    rw [hr] at hflow
    exact hs.kept hflow.2
  | error e t =>
    rw [hr] at hflow
    intro he
    obtain rfl | rfl := he
    · exact hs.kept hflow.2.dc
    · exact hs.kept hflow.dc

section Iteration

variable {P : Platform D} {s : Machine D}

theorem dispatch_sound (h : Handler) (o : Ops) (hs : s.dc.Sound) :
    SoundOr (fun e t => exec P o h s = .error e t) (dispatch P h o s) := by
  have hx := exec_sound P o h hs
  unfold dispatch
  cases hr : exec P o h s with
  | ok a u =>
    rw [hr] at hx
    obtain ⟨_, t, ht, hdc⟩ := succeeds_instEnd P h u hx
    simp only [ht]
    exact hdc
  | error e u =>
    rw [hr] at hx
    cases e with
    | exit => exact hx (.inl rfl)
    | delayslot =>
      obtain ⟨_, t, ht, hdc⟩ := succeeds_enterDelayslot P u (hx (.inr rfl))
      simp only [ht]
      exact hdc
    | halt why => rfl

/-- `make_entry` goes to a handler with a sound cache, or its fetch ended the emulator. -/
theorem makeEntry_sound (hd : P.cfg.decodeCache = true) (hs : s.dc.Sound) :
    SoundOr (fun e t => ∃ c, fetchInst P (s.zeroGpr.withDc c) = .error e t) (makeEntry P s) := by
  rw [makeEntry_cached hd]
  cases hn : s.dc.nextOf s.dc.ds with
  | some n =>
    obtain ⟨d, w, hfol, hdec, hsound⟩ := hs.follow hn
    have hon : onDecodeCache DecodeCache.follow s.zeroGpr =
        .ok (some d) (s.zeroGpr.withDc { s.dc with ds := .node n }) := onDecodeCache_of_some hfol
    unfold makeEntryCached
    rw [bind_of_ok hon]
    simp only [hdec.handler]
    exact hsound
  | none =>
    obtain ⟨d, hderef, hentry⟩ := makeEntryCached_miss (P := P) (s := s.zeroGpr) hs.live hn
    generalize hs₁ : s.zeroGpr.withDc (s.zeroGpr.dc.linked d (P.malloc s.zeroGpr.dc.brk)) = s₁
      at hentry
    rw [hentry]
    have hflow : Flow P s₁ (fetchInst P s₁) :=
      flows_bind flows_getCpu (fun c => flows_vaddrRead P c.pc 4) s₁
    cases hf : fetchInst P s₁ with
    | error e t =>
      rw [bind_of_error hf]
      exact ⟨_, hs₁ ▸ hf⟩
    | ok w t =>
      rw [hf] at hflow
      have hgrown := hs.grown P hderef w
      have hfill : ∀ c, t.dc.fill w = some ((filled (P.malloc s.dc.brk) w).ops, c) → c.Sound →
          SoundOr (fun e t => ∃ c, fetchInst P (s.zeroGpr.withDc c) = .error e t)
            ((fetchInst P >>= fun w => onDecodeCache (fun c => c.fill w) >>= fun o =>
              pure (decoderGetHandler w, o)) s₁) := by
        intro c hc hsound
        have hon : onDecodeCache (fun c => c.fill w) t =
            .ok (filled (P.malloc s.dc.brk) w).ops (t.withDc c) := onDecodeCache_of_some hc
        rw [bind_of_ok hf, bind_of_ok hon]
        exact hsound
      -- the fetch may have faulted, which flushes the array under the new state
      subst hs₁
      obtain hdc | hdc := hflow.dc
      · refine hfill _ ?_ hgrown
        rw [hdc]
        exact fill_eq (linked_ds s.dc d _) (linked_fresh s.dc d _) w
      · refine hfill _ ?_ hgrown.clear
        rw [hdc]
        exact fill_eq (c := (s.dc.linked d (P.malloc s.dc.brk)).clear)
          (linked_ds s.dc d (P.malloc s.dc.brk)) (linked_fresh s.dc d _) w

theorem execInst_sound (hd : P.cfg.decodeCache = true) (hs : s.dc.Sound) :
    SoundOr (fun e t => EndedBy P s t e) (execInst P s) := by
  unfold execInst
  rw [bind_of_ok (getCpu_apply s)]
  split
  · rw [bind_of_ok (modifyCp0_apply s _), raiseException_apply P (by decide)]
    exact hs.clear
  · have hentry := makeEntry_sound hd hs
    rw [bind_apply]
    cases he : makeEntry P s with
    | error e t =>
      rw [he] at hentry
      obtain ⟨c, hc⟩ := hentry
      exact .fetch c hc
    | ok x u =>
      rw [he] at hentry
      obtain ⟨h, o⟩ := x
      have hdis := dispatch_sound (P := P) h o hentry
      simp only []
      cases hr : dispatch P h o u with
      | ok a t =>
        rw [hr] at hdis
        exact hdis
      | error e t =>
        rw [hr] at hdis
        exact .handler he hdis

/-- One iteration keeps the cache sound, or ends the emulator in the fetch or a handler. -/
theorem iteration_sound (hd : P.cfg.decodeCache = true) (hs : s.dc.Sound) :
    SoundOr (fun e t => EndedBy P s t e) (iteration P s) := by
  have hbody := execInst_sound hd hs
  unfold iteration
  rw [bind_apply]
  cases hr : execInst P s with
  | error e t =>
    rw [hr] at hbody
    exact hbody
  | ok a t =>
    rw [hr] at hbody
    obtain ⟨_, u, hu, hdc⟩ := succeeds_checkException P t hbody
    simp only [hu]
    exact hdc

end Iteration

/-! ## Runs -/

theorem step_sound {P : Platform D} (hd : P.cfg.decodeCache = true) {s s' : Machine D}
    {i : Input D} (hs : s.dc.Sound) (h : step P s i = some s') : s'.dc.Sound := by
  cases i with
  | iterate =>
    have hi := iteration_sound hd hs
    rw [eq_ok_of_okState h] at hi
    exact hi
  | host f =>
    cases h
    exact hs
  | enter =>
    obtain ⟨_, t, ht, hdc⟩ := succeeds_enterLoop P s hs
    obtain rfl : t = s' := by
      have he := eq_ok_of_okState h
      rw [ht] at he
      cases he
      rfl
    exact hdc

/-- `lui $1, 0xA000`, `ori $1, $1, 0x1000`, `jr $1`: on to the uncached alias of the same code,
    which has the same array entry. -/
def aliasDemo : Memory := image [0x3C01A000, 0x34211000, 0x00200008, 0]

end NemuMips32
