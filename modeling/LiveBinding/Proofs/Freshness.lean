import LiveBinding.Proofs.Evolution.Carried
import LiveBinding.Proofs.Subscription

/-!
# No update is lost

While a pass runs, an effect can be behind the model. It is then still in the list that the pass,
or a pass around it, has not visited yet. So an effect whose path goes through cells that it watches
is up to date or pending, and after a run without aborted passes nothing is pending.

The invariant `Fresh P` says this with a set `P` of pending effects. An assignment adds the watchers
of the cell to the set: the path of any other effect does not go through the cell. A visit takes an
effect off, because it reads the path again. What user code does meanwhile keeps the invariant for
the same set, by induction.

## Key results

- `fresh_assign`, `Fresh.of_deliver`: how effects fall behind, and how they catch up
- `carried_freshSince`: the invariant, for every execution
- `last_agrees`: the law of runs, for effects that were not registered by hand
-/

namespace LiveBinding

variable {σ : Type}

/-! ### Values that count as equal -/

/-- The values are strictly equal, or both are no number. -/
def Value.Agrees (v w : Value) : Prop :=
  v.same w = true ∨ v = .number .nan ∧ w = .number .nan

theorem Value.agrees_self (v : Value) : v.Agrees v := by
  by_cases h : v = .number .nan
  · exact .inr ⟨h, h⟩
  · exact .inl ((same_self_iff v).2 h)

/-! ### The invariant -/

namespace World

/-- The last value of an effect is the value of its path, if the path goes through cells that the
effect watches. -/
def UpToDate (w : World σ) (e : EffectId) : Prop :=
  ∀ effect cells v, w.effects[e]? = some effect →
    w.store.Leads (.mapping effect.root) effect.path.segments cells v →
      (∀ c ∈ cells, e ∈ w.store.watchers c) → effect.last.Agrees v

/-- Every tracked effect is up to date or pending. -/
def Fresh (P : EffectId → Prop) (w : World σ) : Prop :=
  ∀ e, w.isTracked e = true → ¬ P e → w.UpToDate e

variable {P : EffectId → Prop} {w w' : World σ}

theorem Fresh.mono {Q : EffectId → Prop} (h : w.Fresh P) (hPQ : ∀ e, P e → Q e) : w.Fresh Q :=
  fun e he hQ => h e he fun hP => hQ (hPQ e hP)

/-- The invariant survives if values and effects stay, no effect is registered with another cell,
and none comes back. -/
theorem Fresh.of_eq (h : w.Fresh P) (heffects : w'.effects = w.effects)
    (hd : w.store.SameData w'.store)
    (hwatchers : ∀ c e, w'.isTracked e = true → e ∈ w'.store.watchers c → e ∈ w.store.watchers c)
    (htracked : ∀ e, w'.isTracked e = true → w.isTracked e = true) : w'.Fresh P := by
  intro e he hP effect cells v heffect hleads hwatch
  rw [heffects] at heffect
  exact h e (htracked e he) hP effect cells v heffect (hleads.of_sameData hd)
    fun c hc => hwatchers c e he (hwatch c hc)

/-- Cells and containers that are new play no part: nobody watches the new cells. -/
theorem Fresh.of_extends (h : w.Fresh P) {s : Store} (hext : w.store.Extends s) :
    (w.turn s).Fresh P := by
  intro e he hP effect cells v heffect hleads hwatch
  have hwatch' (c : CellId) (hc : c ∈ cells) : e ∈ w.store.watchers c :=
    hext.watchers_eq c ▸ hwatch c hc
  exact h e he hP effect cells v heffect
    (hleads.of_extends hext fun c hc => Store.lt_size_of_mem_watchers (hwatch' c hc)) hwatch'

/-- An effect that gets the value of its path is up to date. -/
theorem Fresh.of_deliver {Q : EffectId → Prop} {e : EffectId} {effect : Effect σ} {v : Value}
    (h : w.Fresh P) (he : w.effects[e]? = some effect)
    (hv : w.store.get effect.path effect.root = .ok v) (hPQ : ∀ e', P e' → e' = e ∨ Q e') :
    (w.deliver e v).Fresh Q := by
  intro e' htracked hQ effect' cells v' heffect' hleads hwatch
  by_cases heq : e = e'
  · subst heq
    rw [effects_deliver_self he v] at heffect'
    obtain ⟨⟩ := heffect'
    -- The value that was delivered is the one to which the path leads.
    have hget := hleads.get_eq
    have hsame : Except.ok v = Except.ok v' := hv.symm.trans hget
    obtain ⟨⟩ := hsame
    exact Value.agrees_self v
  · rw [effects_deliver, if_neg heq] at heffect'
    refine h e' htracked (fun hP => ?_) effect' cells v' heffect' hleads hwatch
    exact (hPQ e' hP).elim (fun h => heq h.symm) hQ

/-- An assignment leaves behind only effects that watch the cell. -/
theorem fresh_assign (hw : w.Sound) (h : w.Fresh P) (c : CellId) (v : Value) :
    ((w.assign c v).startPass c).Fresh fun e => e ∈ w.liveWatchers c ∨ P e := by
  intro e he hpending effect cells u heffect hleads hwatch
  have hsound : ((w.assign c v).startPass c).Sound :=
    (Move.startPass _ c).sound ((Move.assign w c v).sound hw)
  have hlt : e < w.effects.size := hsound.lt_size (isTracked_iff.1 he).1
  have htracked : w.isTracked e = true :=
    (Move.assign w c v).isTracked_of hlt ((Move.startPass _ c).isTracked_of hlt he)
  -- The pass takes off only effects that are not alive.
  have hwatch' (d : CellId) (hd : d ∈ cells) : e ∈ w.store.watchers d := by
    have hmem := Store.mem_watchers_of_prune (hwatch d hd)
    rwa [assign, store_turn, Store.watchers_assign] at hmem
  -- If the path went through the cell, the effect would be among the live watchers.
  have hc : c ∉ cells := fun hc => hpending
    (.inl (List.mem_filter.2 ⟨hwatch' c hc, (isTracked_iff.1 htracked).1⟩))
  have hbefore : w.store.Leads (.mapping effect.root) effect.path.segments cells u :=
    (hleads.of_sameData (Store.sameData_prune (w.store.assign c v) c _)).of_assign hc
  exact h e htracked (fun hP => hpending (.inr hP)) effect cells u heffect hbefore hwatch'

/-- An effect that could be constructed is up to date. -/
theorem Constructs.fresh (hw : w.Sound) (h : w.Constructs w') (hf : w.Fresh P) : w'.Fresh P := by
  intro e htracked hP effect cells v heffect hleads hwatch
  obtain ⟨halive, henlisted⟩ := isTracked_iff.1 htracked
  have hleads' := hleads.of_sameData h.grows.sameData
  -- An effect was there before, or was constructed now.
  by_cases hlt : e < w.effects.size
  · -- An old effect has got no new registration.
    have hwatch' (c : CellId) (hc : c ∈ cells) : e ∈ w.store.watchers c := by
      have hmem := hwatch c hc
      have hsize := Store.lt_size_of_mem_watchers hmem
      rw [h.grows.sameData.size_eq] at hsize
      rw [h.grows.watchers_eq c hsize, List.mem_append] at hmem
      exact hmem.resolve_right fun hnew =>
        absurd hlt (Nat.not_lt.2 (mem_registrationsFrom h.grows.size_le hnew).1)
    rw [h.grows.effects_eq e hlt] at heffect
    have hold : w.isTracked e = true :=
      isTracked_iff.2 ⟨h.grows.isAlive_of e hlt halive, h.grows.enlisted_eq ▸ henlisted⟩
    exact hf e hold hP effect cells v heffect hleads' hwatch'
  · -- A new effect has the value that its construction read.
    have hle := Nat.le_of_not_lt hlt
    rcases h.isAlive_of e halive with hold | ⟨-, effect', heffect', hvalues⟩
    · exact absurd (hw.lt_size hold) hlt
    · rw [heffect] at heffect'
      obtain ⟨⟩ := heffect'
      have heq := h.grows.memory_eq e effect hle heffect
      rw [hleads'.get_eq] at heq
      rw [Effect.last, heq]
      exact Value.agrees_self v

end World

open World

theorem Change.fresh {P : EffectId → Prop} {w w' : World σ} (h : Change w w') (hw : w.Sound)
    (hf : w.Fresh P) : w'.Fresh P := by
  have hsound := h.sound hw
  cases h with
  | read cells =>
    rw [hw.registerReads_eq]
    exact hf
  | extend hext => exact hf.of_extends hext
  | deliver he hp hv => exact hf.of_deliver he hv.get_eq fun _ => .inr
  | display he hp hv hs => exact hf.of_deliver he hv.get_eq fun _ => .inr
  | construct h => exact h.fresh hw hf
  | @rename names hl hn ho =>
    refine hf.of_eq rfl (.refl _) (fun _ _ _ h => h) fun e he => ?_
    rw [isTracked_iff] at he ⊢
    exact ⟨hl e he.1, he.2⟩
  | @enlist c f hf' =>
    -- The effect that is registered by hand is no longer tracked.
    refine hf.of_eq rfl (Store.sameData_watch _ _ _) (fun d e he hmem => ?_) fun e he => ?_
    · rw [isTracked_iff] at he
      refine (Store.mem_watchers_watch hmem).resolve_right ?_
      rintro rfl
      exact he.2 (List.mem_cons_self ..)
    · rw [isTracked_iff] at he ⊢
      exact ⟨he.1, fun hmem => he.2 (List.mem_cons_of_mem _ hmem)⟩
  | _ => exact hf

/-- The beginning and the end of passes, suspensions and methods do not change values. -/
theorem World.Reframes.fresh {P : EffectId → Prop} {w w' : World σ} (h : w.Reframes w')
    (hw : w.Sound) (hf : w.Fresh P) : w'.Fresh P := by
  refine hf.of_eq h.effects_eq h.sameData (fun c e _ => h.mem_watchers c e) fun e he =>
    h.move.isTracked_of ?_ he
  rw [← h.effects_eq]
  exact (h.move.sound hw).lt_size (isTracked_iff.1 he).1

namespace World

variable {P : EffectId → Prop} {w : World σ}

/-- An effect that is up to date need not be visited. -/
theorem Fresh.visit {e : EffectId} (hf : w.Fresh fun e' => e' = e ∨ P e') (hu : w.UpToDate e) :
    w.Fresh P := by
  intro e' htracked hP
  by_cases heq : e' = e
  · exact heq ▸ hu
  · exact hf e' htracked fun h => h.elim heq hP

/-- What does not exist is not behind. -/
theorem upToDate_of_none {e : EffectId} (he : w.effects[e]? = none) : w.UpToDate e := by
  intro effect cells v heffect
  cases he.symm.trans heffect

/-- A gate stays shut only if the effect is up to date. -/
theorem upToDate_of_same {e : EffectId} {effect : Effect σ} {v : Value}
    (he : w.effects[e]? = some effect) (hv : w.store.get effect.path effect.root = .ok v)
    (hl : v.same effect.last = true) : w.UpToDate e := by
  intro effect' cells v' heffect hleads _
  rw [he] at heffect
  obtain ⟨⟩ := heffect
  have hsame : Except.ok v = Except.ok v' := hv.symm.trans hleads.get_eq
  obtain ⟨⟩ := hsame
  exact .inl ((Value.same_comm _ _).trans hl)

/-! ### Since a moment -/

/-- If no fault has ended a pass since a moment, then every tracked effect that was constructed
since is up to date or pending. -/
def FreshSince (s : Moment) (P : EffectId → Prop) (w : World σ) : Prop :=
  s ∈ w.moments → w.abortedPasses ≤ s.abortedPasses → w.Fresh fun e => e < s.size ∨ P e

variable {s : Moment} {Q : EffectId → Prop} {w' : World σ}

theorem FreshSince.mono (h : w.FreshSince s P) (hPQ : ∀ e, P e → Q e) : w.FreshSince s Q :=
  fun hs hcalm => (h hs hcalm).mono fun e => Or.imp_right (hPQ e)

/-- The invariant survives what notes no moment, if effects that are up to date or pending stay
so. -/
theorem FreshSince.of_fresh (h : w.FreshSince s P) (hm : w'.moments = w.moments)
    (hp : w.abortedPasses ≤ w'.abortedPasses)
    (hf : w.Fresh (fun e => e < s.size ∨ P e) → w'.Fresh fun e => e < s.size ∨ Q e) :
    w'.FreshSince s Q :=
  fun hs hcalm => hf (h (hm ▸ hs) (Nat.le_trans hp hcalm))

/-- Nothing has been constructed since the moment that is noted now. -/
theorem FreshSince.begin (h : w.FreshSince s P) (hw : w.Sound) : w.begin.FreshSince s P := by
  intro hs hcalm
  rcases List.mem_cons.1 hs with rfl | hs
  · exact fun e htracked hP => absurd (.inl (hw.lt_size (isTracked_iff.1 htracked).1)) hP
  · exact h hs hcalm

end World

theorem Change.freshSince {s : Moment} {P : EffectId → Prop} {w w' : World σ} (h : Change w w')
    (hw : w.Sound) (hf : w.FreshSince s P) : w'.FreshSince s P := by
  have hmove := Move.change h
  rcases hmove.moments_eq_or with hm | rfl
  · exact hf.of_fresh hm hmove.later.abortedPasses_le (h.fresh hw)
  · exact hf.begin hw

/-- Whatever goes on, effects are up to date or pending. -/
theorem carried_freshSince (s : Moment) (target : Option (KeyPath × MappingId)) :
    Carried (σ := σ) target fun P _ w => w.FreshSince s P where
  mono h hP _ := h.mono hP
  change hw h hf := h.freshSince hw.sound hf
  reframe hw h hf := hf.of_fresh h.moments_eq h.move.later.abortedPasses_le (h.fresh hw.sound)
  abortPass hw hs hcalm :=
    absurd (Nat.le_trans hcalm (hw.dated s hs).abortedPasses_le) (Nat.not_succ_le_self _)
  abortDispatch _ hf := hf
  type _ _ _ hf := hf
  setSame _ _ hf := hf
  setNew hw _ hf := hf.of_fresh rfl (Nat.le_refl _) fun h =>
    -- Exactly the effects that fell behind are visited.
    (fresh_assign hw.sound h _ _).mono fun _ => or_left_comm.1
  add _ hplace hne hf := hf.of_fresh rfl (Nat.le_refl _) fun h =>
    h.of_extends (Store.extends_putAt hplace hne _)
  visitNone _ he hf := hf.of_fresh rfl (Nat.le_refl _) fun h =>
    (h.mono fun _ => or_left_comm.1).visit (upToDate_of_none he)
  visitSame _ he _ hv hl hf := hf.of_fresh rfl (Nat.le_refl _) fun h =>
    (h.mono fun _ => or_left_comm.1).visit (upToDate_of_same he hv hl)
  deliver _ he _ hv hf := hf.of_fresh rfl (Nat.le_refl _) fun h =>
    h.of_deliver he hv.get_eq fun _ => or_left_comm.1
  display _ he _ hv _ hf := hf.of_fresh rfl (Nat.le_refl _) fun h =>
    h.of_deliver he hv.get_eq fun _ => or_left_comm.1

/-! ### Runs -/

theorem Scene.steady_after (depth : Nat) (source : String) (steps : List Step) :
    (Scene.after depth (Scene.start source) steps).Steady :=
  (Scene.evolves_after depth _ steps).steady (World.steady_ofDocument _)

/-- What survives every step holds after every run, with nothing left to do. -/
theorem Scene.carried_after {target : Option (KeyPath × MappingId)}
    {I : (EffectId → Prop) → (String → Prop) → SceneWorld → Prop} (hI : Carried target I)
    (depth : Nat) (source : String) (steps : List Step)
    (hstart : I (fun _ => False) (fun _ => False) (Scene.start source)) :
    I (fun _ => False) (fun _ => False) (Scene.after depth (Scene.start source) steps) :=
  (Scene.evolves_after depth _ steps).carried hI (World.steady_ofDocument _) (hI.none hstart)

/-- Nothing has been constructed at the start of a run. -/
theorem Scene.freshSince_start (s : Moment) (P : EffectId → Prop) (source : String) :
    (Scene.start source).FreshSince s P := by
  intro _ _ e he
  exact absurd he (by simp [isTracked, isAlive, isBound, Scene.start, ofDocument])

/-- After every run, the effects that were constructed since a moment are up to date. -/
theorem Scene.fresh_after (depth : Nat) (source : String) (steps : List Step) {s : Moment}
    (hs : s ∈ (Scene.after depth (Scene.start source) steps).moments)
    (hcalm : (Scene.after depth (Scene.start source) steps).abortedPasses ≤ s.abortedPasses) :
    (Scene.after depth (Scene.start source) steps).Fresh fun e => e < s.size := by
  have hfresh := Scene.carried_after (carried_freshSince s none) depth source steps
    (Scene.freshSince_start s _ source) hs hcalm
  exact hfresh.mono fun _ h => h.resolve_right id

/-- The start of a run is one of its moments. -/
theorem Scene.start_mem_moments (depth : Nat) (source : String) (steps : List Step) :
    Moment.start ∈ (Scene.after depth (Scene.start source) steps).moments :=
  (Scene.evolves_after depth (Scene.start source) steps).later.moments_suffix.subset
    (List.mem_singleton.2 rfl)

/-- The law of runs in which no fault ended a pass. If the path of an effect that is alive leads
through cells with which the effect is registered, then it resolves, and the effect has reacted to
the value that the path has now. The effect must not be one that was registered with a cell by
hand: such a registration tells nothing about the value. -/
theorem last_agrees (depth : Nat) (source : String) (steps : List Step) :
    let w := Scene.after depth (Scene.start source) steps
    w.abortedPasses = 0 →
      ∀ e effect cells v, w.effects[e]? = some effect → w.isAlive e = true → e ∉ w.enlisted →
        w.store.Leads (.mapping effect.root) effect.path.segments cells v →
        (∀ c ∈ cells, e ∈ w.store.watchers c) →
        w.store.get effect.path effect.root = .ok v ∧ effect.last.Agrees v := by
  intro w hcalm e effect cells v heffect halive henlisted hleads hwatch
  refine ⟨hleads.get_eq, ?_⟩
  have hfresh : w.Fresh fun e => e < Moment.start.size :=
    Scene.fresh_after depth source steps (Scene.start_mem_moments depth source steps)
      (Nat.le_of_eq hcalm)
  exact hfresh e (isTracked_iff.2 ⟨halive, henlisted⟩) (Nat.not_lt_zero e) effect cells v heffect
    hleads hwatch

/-- An effect that sees a container go and come back with another value. -/
theorem last_agrees_replaced :
    let w := Scene.after callDepth (Scene.start "") [
      .model (.create "m" (.object [("a", .object [("b", .text "x")])])),
      .effect (.create "e" "m" ⟨"a.b"⟩ false .done),
      .model (.create "n" (.object [("a", .null)])),
      .model (.set "n" ⟨"a"⟩ (.model "m" (some ⟨"a"⟩))),
      .model (.set "m" ⟨"a"⟩ .emptyMapping),
      .model (.set "n" ⟨"a.b"⟩ (.plain (.text "y"))),
      .model (.set "m" ⟨"a"⟩ (.model "n" (some ⟨"a"⟩)))]
    ∃ effect, w.effects[0]? = some effect ∧ w.store.get effect.path effect.root = .ok (.text "y") ∧
      effect.last.Agrees (.text "y") := by
  intro w
  -- The record of the effect tells its path and its root.
  have hrecord : w.effects[0]?.map (fun e => (e.path, e.root)) = some (⟨"a.b"⟩, 1) := by
    decide +kernel
  obtain ⟨effect, heffect, hplace⟩ := Option.map_eq_some_iff.1 hrecord
  obtain ⟨hpath, hroot⟩ := Prod.mk.inj hplace
  refine ⟨effect, heffect, last_agrees callDepth "" _ (by decide +kernel) 0 effect [1, 0]
    (.text "y") heffect (by decide +kernel) (by decide +kernel) ?_ (by decide +kernel)⟩
  rw [hpath, hroot]
  exact (Store.leads_iff ⟨"a.b"⟩).2 ⟨by decide +kernel, by decide +kernel⟩

/-- The law fails for an effect that was registered by hand with a cell whose value it has not
read. -/
theorem not_agrees_enlisted :
    ¬ ∀ (source : String) (steps : List Step),
      let w := Scene.after callDepth (Scene.start source) steps
      w.abortedPasses = 0 →
        ∀ e effect cells v, w.effects[e]? = some effect → w.isAlive e = true →
          w.store.Leads (.mapping effect.root) effect.path.segments cells v →
          (∀ c ∈ cells, e ∈ w.store.watchers c) →
          w.store.get effect.path effect.root = .ok v ∧ effect.last.Agrees v := by
  intro h
  let steps : List Step := [
    .model (.create "m" (.object [("a", .object [("b", .text "x")])])),
    .model (.create "n" (.object [("b", .text "y")])),
    .effect (.create "e" "m" ⟨"a.b"⟩ false .done),
    .model (.set "m" ⟨"a"⟩ (.model "n" none)),
    .model (.set "n" ⟨"b"⟩ (.plain (.text "z"))),
    .cell (.register ⟨⟨"n", none⟩, .key "b"⟩ "e")]
  let w := Scene.after callDepth (Scene.start "") steps
  have hrecord : w.effects[0]?.map (fun e => (e.path, e.root, e.last)) =
      some (⟨"a.b"⟩, 1, .text "y") := by decide +kernel
  obtain ⟨effect, heffect, hplace⟩ := Option.map_eq_some_iff.1 hrecord
  obtain ⟨hpath, hvalue⟩ := Prod.mk.inj hplace
  obtain ⟨hroot, hlast⟩ := Prod.mk.inj hvalue
  -- Both cells on the way are watched, but the last value is the one of before the write.
  have hleads : w.store.Leads (.mapping effect.root) effect.path.segments [1, 2] (.text "z") := by
    rw [hpath, hroot]
    exact (Store.leads_iff ⟨"a.b"⟩).2 ⟨by decide +kernel, by decide +kernel⟩
  have hagrees := (h "" steps (by decide +kernel) 0 effect [1, 2] (.text "z") heffect
    (by decide +kernel) hleads (by decide +kernel)).2
  rw [hlast] at hagrees
  exact absurd hagrees (by simp [Value.Agrees, Value.same])

end LiveBinding
