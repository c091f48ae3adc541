import LiveBinding.Proofs.Evolution.Owners
import Mathlib.Logic.Relation

/-!
# Sound worlds

An evolution is a chain of moves: changes, the beginning and the end of passes, suspensions and
methods, and assignments. What every move preserves holds in every world that a run reaches, also
in the middle of a pass.

Sound worlds are such an invariant. Nobody collects reads except the construction of an effect
itself; all references lead to something that is there; only an effect that could be constructed
is alive; and only effects that run user code have names.

## Key results

- `Evolves.moves`: an evolution is a chain of moves
- `Move.isAlive_of`: nothing that was constructed becomes alive again
- `World.Dead.of_moves`: dead effects stay dead and react to nothing
- `Move.sound`, `Evolves.sound`: soundness is preserved
-/

namespace LiveBinding

variable {σ : Type}

/-! ### References of a store -/

namespace Store

/-- Containers arrange cells that exist. -/
structure InRange (s : Store) : Prop where
  entries_lt : ∀ m, ∀ f ∈ s.entries m, f.2 < s.cells.size
  items_lt : ∀ q, ∀ c ∈ s.items q, c < s.cells.size

theorem InRange.of_sameData {s s' : Store} (h : s.InRange) (hd : SameData s s') : s'.InRange where
  entries_lt m f hf := by
    rw [hd.entries_eq] at hf
    rw [hd.size_eq]
    exact h.entries_lt m f hf
  items_lt q c hc := by
    rw [hd.items_eq] at hc
    rw [hd.size_eq]
    exact h.items_lt q c hc

theorem InRange.of_extends {s s' : Store} (h : s.InRange) (hext : Extends s s') : s'.InRange where
  entries_lt m f hf := by
    obtain ⟨added, hentries, hnew⟩ := hext.entries_eq m
    rw [hentries, List.mem_append] at hf
    rcases hf with hf | hf
    · exact Nat.lt_of_lt_of_le (h.entries_lt m f hf) hext.size_le
    · exact (hnew f hf).2
  items_lt q c hc := by
    obtain ⟨added, hitems, hnew⟩ := hext.items_eq q
    rw [hitems, List.mem_append] at hc
    rcases hc with hc | hc
    · exact Nat.lt_of_lt_of_le (h.items_lt q c hc) hext.size_le
    · exact (hnew c hc).2

theorem InRange.assign {s : Store} (h : s.InRange) (c : CellId) (v : Value) :
    (s.assign c v).InRange := by
  have hsize : (s.assign c v).cells.size = s.cells.size := by simp [Store.assign]
  exact ⟨fun m f hf => hsize ▸ h.entries_lt m f hf, fun q d hd => hsize ▸ h.items_lt q d hd⟩

theorem InRange.cellBehind?_lt {s : Store} (h : s.InRange) {v : Value} {segment : String}
    {c : CellId} (hc : s.cellBehind? v segment = some c) : c < s.cells.size := by
  cases v with
  | mapping m =>
    obtain ⟨f, hf, rfl⟩ := Fields.exists_mem_of_get? hc
    exact h.entries_lt m f hf
  | sequence q =>
    obtain ⟨i, -, hi⟩ := Option.bind_eq_some_iff.1 hc
    exact h.items_lt q c (List.mem_of_getElem? hi)
  | _ => cases hc

/-- Resolving a path reads cells that exist. -/
theorem InRange.mem_walk_lt {s : Store} (h : s.InRange) (path : KeyPath) {v : Value}
    {segments : List String} {c : CellId} (hc : c ∈ (s.walk path v segments).1) :
    c < s.cells.size := by
  induction segments generalizing v with
  | nil => cases hc
  | cons segment segments ih =>
    rw [walk] at hc
    cases hstep : s.step? v segment with
    | none =>
      rw [hstep] at hc
      cases hc
    | some found =>
      obtain ⟨d, w⟩ := found
      rw [hstep] at hc
      -- The cell is read in this step or in a later one.
      rcases List.mem_append.1 hc with hc | hc
      · cases d with
        | none => cases hc
        | some d =>
          obtain rfl := List.mem_singleton.1 hc
          exact h.cellBehind?_lt (step?_eq_some_iff.1 hstep).1
      · exact ih hc

end Store

/-! ### Moves -/

open World

/-- One step of an evolution. -/
inductive Move : World σ → World σ → Prop
  | change {w w' : World σ} (h : Change w w') : Move w w'
  | assign (w : World σ) (c : CellId) (v : Value) : Move w (w.assign c v)
  | startPass (w : World σ) (c : CellId) : Move w (w.startPass c)
  | hold {w : World σ} {e : EffectId} (he : w.isAlive e = true) : Move w (w.hold e)
  | endPass (w : World σ) : Move w w.endPass
  | abortPass (w : World σ) : Move w w.abortPass
  | suspend (w : World σ) : Move w w.suspend
  | resume (w : World σ) : Move w w.resume
  | enterMethod {w : World σ} {vm : ViewModelId} (hvm : w.isViewModelAlive vm = true) :
      Move w (w.enterMethod vm)
  | leaveMethod (w : World σ) : Move w w.leaveMethod
  | type (w : World σ) (node : NodeRef) (s : String) : Move w (w.writeSink .input node s)
  | deliver (w : World σ) {e : EffectId} {effect : Effect σ} {v : Value}
      (he : w.effects[e]? = some effect) (hv : w.Receives e effect v) : Move w (w.deliver e v)

open Relation

theorem World.Falters.moves {w w' : World σ} (h : w.Falters w') : ReflTransGen Move w w' := by
  cases h with
  | still => exact .refl
  | deliver he hv => exact .single (.deliver w he hv)

/-- An evolution is a chain of moves. -/
theorem Evolves.moves {activity : Activity σ} {w w' : World σ} (h : Evolves activity w w') :
    ReflTransGen Move w w' := by
  induction h with
  | refl w => exact .refl
  | trans _ _ ih ih' => exact ih.trans ih'
  | change h => exact .single (.change h)
  | suspended _ ih => exact (ih.head (.suspend _)).tail (.resume _)
  | method hvm _ ih => exact (ih.head (.enterMethod hvm)).tail (.leaveMethod _)
  | held he _ ih => exact (ih.head (.hold he)).tail (.endPass _)
  | set _ ih => exact ih
  | assigned _ ih => exact ih
  | pass _ ih => exact (ih.head (.startPass _ _)).tail (.endPass _)
  | abortedPass _ hend ih => exact ((ih.head (.startPass _ _)).trans hend.moves).tail (.abortPass _)
  | abortedSet _ _ hend ih =>
    exact (((ih.head (.startPass _ _)).head (.assign _ _ _)).trans hend.moves).tail (.abortPass _)
  | typed _ ih => exact ih.head (.type _ _ _)
  | abortedTyped _ ih => exact (ih.head (.type _ _ _)).tail (.change (.abortDispatch _))
  | setSame => exact .refl
  | setNew _ _ ih => exact ((ih.head (.startPass _ _)).head (.assign _ _ _)).tail (.endPass _)
  | assign _ _ _ ih => exact ih.head (.change (.read _ _))
  | assignKey _ hplace =>
    exact .tail (.single (.change (.read _ _)))
      (.change (.extend _ (Store.extends_define (vacant_registerReads hplace) _)))
  | assignItem =>
    exact .tail (.single (.change (.read _ _)))
      (.change (.extend _ (Store.extends_append _ _ _)))
  | visited w => exact .refl
  | visitNone _ _ ih => exact ih
  | visitSame _ _ _ _ _ ih => exact ih
  | visitRun he hp hv _ _ ih₁ ih => exact (ih₁.head (.change (.deliver _ he (.inl hp) hv))).trans ih
  | visitShow he hp hv hs _ ih => exact ih.head (.change (.display _ he hp hv hs))
  | heard => exact .refl
  | hear _ _ _ ih₁ ih => exact ih₁.trans ih
  | writeBack _ _ ih₁ ih => exact ih₁.trans ih

/-! ### Who is alive -/

namespace World

/-- An effect that is alive with other passes, all of which visit only effects that were alive. -/
theorem isAlive_of_passes {w : World σ} {passes : List (List EffectId)} {e : EffectId}
    (h : ({ w with passes := passes } : World σ).isAlive e = true)
    (hp : ∀ visited ∈ passes, e ∈ visited → w.isAlive e = true) : w.isAlive e = true := by
  rw [isAlive_iff] at h
  rcases h with h | h | h | ⟨visited, hmem, he⟩
  · exact isAlive_iff.2 (.inl h)
  · exact isAlive_iff.2 (.inr (.inl h))
  · exact isAlive_iff.2 (.inr (.inr (.inl h)))
  · exact hp visited hmem he

/-- A pass visits effects that are alive anyway. -/
theorem isAlive_of_startPass {w : World σ} {c : CellId} {e : EffectId}
    (h : (w.startPass c).isAlive e = true) : w.isAlive e = true := by
  refine isAlive_of_passes h fun visited hmem he => ?_
  rcases List.mem_cons.1 hmem with rfl | hmem
  · exact (List.mem_filter.1 he).2
  · exact isAlive_of_mem_passes hmem he

/-- An effect that is updated is alive anyway. -/
theorem isAlive_of_hold {w : World σ} {e : EffectId} (he : w.isAlive e = true) {e' : EffectId}
    (h : (w.hold e).isAlive e' = true) : w.isAlive e' = true := by
  refine isAlive_of_passes h fun visited hmem he' => ?_
  rcases List.mem_cons.1 hmem with rfl | hmem
  · obtain rfl := List.mem_singleton.1 he'
    exact he
  · exact isAlive_of_mem_passes hmem he'

theorem isAlive_of_tail_passes {w : World σ} {e : EffectId}
    (h : ({ w with passes := w.passes.tail } : World σ).isAlive e = true) : w.isAlive e = true :=
  isAlive_of_passes h fun _ hmem he => isAlive_of_mem_passes (List.mem_of_mem_tail hmem) he

/-- An effect that is alive with other receivers, all of which are in use anyway. -/
theorem isAlive_of_receivers {w : World σ} {receivers : List ViewModelId} {e : EffectId}
    (h : ({ w with receivers := receivers } : World σ).isAlive e = true)
    (hr : ∀ vm ∈ receivers, w.isViewModelAlive vm = true) : w.isAlive e = true := by
  refine (isAlive_of_owners (w := w) (P := False) h rfl (fun _ hf _ => .inl hf)
    (fun _ hf _ => .inl hf) fun vm record hvm hrecord _ => .inl ⟨?_, hrecord⟩).elim id False.elim
  -- A view model is in use by its name, or by a method of it that is running.
  rcases isViewModelAlive_iff.1 hvm with hname | hreceiver
  · exact isViewModelAlive_iff.2 (.inl hname)
  · exact hr vm hreceiver

theorem isAlive_of_enterMethod {w : World σ} {vm : ViewModelId}
    (hvm : w.isViewModelAlive vm = true) {e : EffectId}
    (h : (w.enterMethod vm).isAlive e = true) : w.isAlive e = true := by
  refine isAlive_of_receivers h fun vm' hmem => ?_
  rcases List.mem_cons.1 hmem with rfl | hmem
  · exact hvm
  · exact isViewModelAlive_iff.2 (.inr hmem)

theorem isAlive_of_leaveMethod {w : World σ} {e : EffectId}
    (h : w.leaveMethod.isAlive e = true) : w.isAlive e = true :=
  isAlive_of_receivers h fun _ hmem => isViewModelAlive_iff.2 (.inr (List.mem_of_mem_tail hmem))

end World

/-- A change makes nothing alive again that was constructed before. -/
theorem Change.isAlive_of {w w' : World σ} (h : Change w w') {e : EffectId}
    (he : e < w.effects.size) (halive : w'.isAlive e = true) : w.isAlive e = true := by
  cases h with
  | read cells =>
    obtain ⟨s, hs, -⟩ := w.registerReads_eq cells
    rw [hs] at halive
    exact halive
  | rename hl => exact hl e halive
  | construct h => exact h.grows.isAlive_of e he halive
  | _ => exact halive

/-- The records go on over a move. -/
theorem Move.later {w w' : World σ} (h : Move w w') : Later w w' := by
  cases h with
  | change h => exact h.later
  | assign c v => exact later_assign w c v
  | startPass c => exact later_startPass w c
  | hold => exact later_hold w _
  | endPass => exact later_endPass w
  | abortPass => exact later_abortPass w
  | type node s => exact later_writeSink w .input node s
  | deliver => exact later_deliver w _ _
  | _ => exact later_frames w _ _

theorem World.later_of_moves {w w' : World σ} (h : ReflTransGen Move w w') : w.Later w' := by
  induction h with
  | refl => exact .refl w
  | tail _ hmove ih => exact ih.trans hmove.later

/-- Whatever moves a world, its nodes stay what they are. -/
theorem Move.documentsKeep {w w' : World σ} (h : Move w w') :
    w.DocumentsKeep (fun _ _ => True) w' := by
  cases h with
  | change h =>
    cases h with
    | read cells =>
      obtain ⟨s, hs, -⟩ := w.registerReads_eq cells
      exact documentsKeep_of_eq (by rw [hs])
    | @display e _ v =>
      have hdeliver : w.DocumentsKeep (fun _ _ => True) (w.deliver e v) := documentsKeep_of_eq rfl
      exact hdeliver.trans (documentsKeep_writeSink _ _ trivial)
    | redraw current h => exact h.mono fun _ _ _ => trivial
    | construct h => exact h.grows.documents.mono fun _ _ _ => trivial
    | _ => exact documentsKeep_of_eq rfl
  | type node s => exact documentsKeep_writeSink w s trivial
  | _ => exact documentsKeep_of_eq rfl

theorem World.documentsKeep_of_moves {w w' : World σ} (h : ReflTransGen Move w w') :
    w.DocumentsKeep (fun _ _ => True) w' := by
  induction h with
  | refl => exact .refl _ w
  | tail _ hmove ih => exact ih.trans hmove.documentsKeep

/-- Nothing that was constructed becomes alive again. -/
theorem Move.isAlive_of {w w' : World σ} (h : Move w w') {e : EffectId}
    (he : e < w.effects.size) (halive : w'.isAlive e = true) : w.isAlive e = true := by
  cases h with
  | change h => exact h.isAlive_of he halive
  | startPass c => exact isAlive_of_startPass halive
  | hold he => exact isAlive_of_hold he halive
  | endPass => exact isAlive_of_tail_passes halive
  | abortPass => exact isAlive_of_tail_passes halive
  | enterMethod hvm => exact isAlive_of_enterMethod hvm halive
  | leaveMethod => exact isAlive_of_leaveMethod halive
  | _ => exact halive

/-! ### Effects that are not alive -/

/-- An effect that was constructed and that nothing keeps alive. -/
structure World.Dead (w : World σ) (e : EffectId) : Prop where
  lt_size : e < w.effects.size
  isAlive_eq : w.isAlive e = false

/-- An effect that receives a value is not dead. -/
theorem World.Dead.ne_of_receives {w : World σ} {e e' : EffectId} (h : w.Dead e)
    {effect : Effect σ} {v : Value} (hv : w.Receives e' effect v) : e' ≠ e := by
  rintro rfl
  exact absurd (hv.isAlive.symm.trans h.isAlive_eq) (by simp)

theorem World.Dead.notMem_liveWatchers {w : World σ} {e : EffectId} (h : w.Dead e) (c : CellId) :
    e ∉ w.liveWatchers c := by
  intro he
  have halive : w.isAlive e = true := (List.mem_filter.1 he).2
  exact absurd (halive.symm.trans h.isAlive_eq) (by simp)

/-- A dead effect does not react to a change. -/
theorem Change.effect_eq {w w' : World σ} (h : Change w w') {e : EffectId} (hd : w.Dead e) :
    w'.effects[e]? = w.effects[e]? := by
  cases h with
  | read cells =>
    obtain ⟨s, hs, -⟩ := w.registerReads_eq cells
    rw [hs]
  | deliver he hp hv => rw [effects_deliver, if_neg (hd.ne_of_receives hv)]
  | @display e' _ v sink node s he hp hv hs =>
    change (w.deliver e' v).effects[e]? = _
    rw [effects_deliver, if_neg (hd.ne_of_receives hv)]
  | construct h => exact h.grows.effects_eq e hd.lt_size
  | _ => rfl

/-- A dead effect does not react to anything. -/
theorem Move.effect_eq {w w' : World σ} (h : Move w w') {e : EffectId} (hd : w.Dead e) :
    w'.effects[e]? = w.effects[e]? := by
  cases h with
  | change h => exact h.effect_eq hd
  | deliver he hv => rw [effects_deliver, if_neg (hd.ne_of_receives hv)]
  | _ => rfl

theorem Move.dead {w w' : World σ} (h : Move w w') {e : EffectId} (hd : w.Dead e) : w'.Dead e where
  lt_size := Nat.lt_of_lt_of_le hd.lt_size h.later.size_le
  isAlive_eq := by
    refine Bool.eq_false_iff.2 fun halive => ?_
    exact absurd ((h.isAlive_of hd.lt_size halive).symm.trans hd.isAlive_eq) (by simp)

/-- Wherever a run gets, a dead effect stays dead and has not received anything. -/
theorem World.Dead.of_moves {w w' : World σ} {e : EffectId} (hd : w.Dead e)
    (h : ReflTransGen Move w w') : w'.Dead e ∧ w'.effects[e]? = w.effects[e]? := by
  induction h with
  | refl => exact ⟨hd, rfl⟩
  | tail _ hmove ih => exact ⟨hmove.dead ih.1, (hmove.effect_eq ih.1).trans ih.2⟩

/-! ### Soundness -/

/-- References lead to something, and only the construction of an effect collects reads. -/
structure World.Sound (w : World σ) : Prop where
  /-- Collection is suspended wherever user code runs. -/
  collectors_eq : ∀ x ∈ w.collectors, x = none
  inRange : w.store.InRange
  watchers_lt : ∀ c, ∀ e ∈ w.store.watchers c, e < w.effects.size
  watched_lt : ∀ (e : EffectId) (effect : Effect σ), w.effects[e]? = some effect →
    ∀ c ∈ effect.watched, c < w.store.cells.size
  /-- Only an effect that could be constructed is alive. -/
  exists_effect : ∀ e, w.isAlive e = true →
    ∃ effect, w.effects[e]? = some effect ∧ effect.values ≠ []
  /-- Only an effect that runs user code has a name. -/
  placeless : ∀ f ∈ w.names.effects,
    ∃ effect, w.effects[f.2]? = some effect ∧ effect.place? = none

namespace World.Sound

variable {w w' : World σ}

theorem lt_size (h : w.Sound) {e : EffectId} (he : w.isAlive e = true) : e < w.effects.size := by
  obtain ⟨effect, heffect, -⟩ := h.exists_effect e he
  exact lt_size_of_effect heffect

/-- Reading changes nothing where user code runs. -/
theorem registerReads_eq (h : w.Sound) (cells : List CellId) : w.registerReads cells = w :=
  registerReads_eq_self h.collectors_eq cells

end World.Sound

/-- Constructing effects preserves soundness. -/
theorem World.Constructs.sound {w w' : World σ} (h : w.Constructs w') (hw : w.Sound) :
    w'.Sound where
  collectors_eq := h.grows.collectors_eq ▸ hw.collectors_eq
  inRange := hw.inRange.of_sameData h.grows.sameData
  -- A watcher is an old one or a new effect.
  watchers_lt c e he := by
    have hc := Store.lt_size_of_mem_watchers he
    rw [h.grows.sameData.size_eq] at hc
    rw [h.grows.watchers_eq c hc, List.mem_append] at he
    rcases he with he | he
    · exact Nat.lt_of_lt_of_le (hw.watchers_lt c e he) h.grows.size_le
    · exact (mem_registrationsFrom h.grows.size_le he).2
  watched_lt e effect he c hc := by
    rw [h.grows.sameData.size_eq]
    by_cases hlt : e < w.effects.size
    · rw [h.grows.effects_eq e hlt] at he
      exact hw.watched_lt e effect he c hc
    · rw [h.grows.watched_eq e effect (Nat.le_of_not_lt hlt) he] at hc
      exact hw.inRange.mem_walk_lt _ hc
  exists_effect e he := by
    rcases h.isAlive_of e he with halive | ⟨-, hnew⟩
    · obtain ⟨effect, heffect, hvalues⟩ := hw.exists_effect e halive
      exact ⟨effect, h.grows.effect_eq heffect, hvalues⟩
    · exact hnew
  placeless f hf := by
    rcases h.names_eq f hf with hf | hnew
    · obtain ⟨effect, heffect, hp⟩ := hw.placeless f hf
      exact ⟨effect, h.grows.effect_eq heffect, hp⟩
    · exact hnew

/-- A delivery preserves soundness. -/
theorem World.Sound.deliver {w : World σ} (hw : w.Sound) (e : EffectId) (v : Value) :
    (w.deliver e v).Sound := by
  -- It changes memories only, and takes no value away.
  have hsame (e' : EffectId) (effect' : Effect σ) (h : w.effects[e']? = some effect') :
      ∃ m, (w.deliver e v).effects[e']? = some { effect' with memory := m } ∧
        (effect'.values ≠ [] → m.values ≠ []) := by
    rw [effects_deliver, h]
    split
    · exact ⟨effect'.memory.receive v, rfl, fun _ => List.cons_ne_nil _ _⟩
    · exact ⟨effect'.memory, rfl, id⟩
  refine
    { collectors_eq := hw.collectors_eq
      inRange := hw.inRange
      watchers_lt := fun c e' he' => by simpa using hw.watchers_lt c e' he'
      watched_lt := fun e' effect' h => ?_
      exists_effect := fun e' h => ?_
      placeless := fun f hf => ?_ }
  · have hlt := lt_size_of_effect h
    rw [size_effects_deliver] at hlt
    obtain ⟨m, hm, -⟩ := hsame e' _ (Array.getElem?_eq_getElem hlt)
    rw [hm] at h
    obtain ⟨⟩ := h
    exact hw.watched_lt e' w.effects[e'] (Array.getElem?_eq_getElem hlt)
  · obtain ⟨effect', heffect', hvalues⟩ := hw.exists_effect e' h
    obtain ⟨m, hm, hne⟩ := hsame e' effect' heffect'
    exact ⟨_, hm, hne hvalues⟩
  · obtain ⟨effect', heffect', hp⟩ := hw.placeless f hf
    obtain ⟨m, hm, -⟩ := hsame f.2 effect' heffect'
    exact ⟨_, hm, hp⟩

/-- A change preserves soundness. -/
theorem Change.sound {w w' : World σ} (h : Change w w') (hw : w.Sound) : w'.Sound := by
  cases h with
  | read cells =>
    rw [hw.registerReads_eq]
    exact hw
  | extend hext =>
    exact
      { collectors_eq := hw.collectors_eq
        inRange := hw.inRange.of_extends hext
        watchers_lt := fun c e he => hw.watchers_lt c e (hext.watchers_eq c ▸ he)
        watched_lt := fun e effect he c hc =>
          Nat.lt_of_lt_of_le (hw.watched_lt e effect he c hc) hext.size_le
        exists_effect := hw.exists_effect
        placeless := hw.placeless }
  | deliver => exact hw.deliver _ _
  | rename hl hn ho =>
    exact
      { collectors_eq := hw.collectors_eq
        inRange := hw.inRange
        watchers_lt := hw.watchers_lt
        watched_lt := hw.watched_lt
        exists_effect := fun e he => hw.exists_effect e (hl e he)
        placeless := fun f hf => hw.placeless f (hn f hf) }
  | construct h => exact h.sound hw
  | @enlist c f hf =>
    -- Only an effect with a name can be registered by hand, and it exists.
    obtain ⟨effect, heffect, -⟩ := hw.placeless f hf
    have hd := Store.sameData_watch w.store c f.2
    refine
      { collectors_eq := hw.collectors_eq
        inRange := hw.inRange.of_sameData hd
        watchers_lt := fun d e he => ?_
        watched_lt := fun e effect he d hmem => hd.size_eq ▸ hw.watched_lt e effect he d hmem
        exists_effect := hw.exists_effect
        placeless := hw.placeless }
    rcases Store.mem_watchers_watch he with he | rfl
    · exact hw.watchers_lt d e he
    · exact lt_size_of_effect heffect
  | note => exact ⟨hw.1, hw.2, hw.3, hw.4, hw.5, hw.6⟩
  | @display e _ v =>
    have hw' := hw.deliver e v
    exact ⟨hw'.1, hw'.2, hw'.3, hw'.4, hw'.5, hw'.6⟩
  | redraw => exact ⟨hw.1, hw.2, hw.3, hw.4, hw.5, hw.6⟩
  | abortDispatch => exact ⟨hw.1, hw.2, hw.3, hw.4, hw.5, hw.6⟩
  | begin => exact ⟨hw.1, hw.2, hw.3, hw.4, hw.5, hw.6⟩

/-- Every move preserves soundness. -/
theorem Move.sound {w w' : World σ} (h : Move w w') (hw : w.Sound) : w'.Sound := by
  cases h with
  | change h => exact h.sound hw
  | assign c v =>
    have hsize : (w.store.assign c v).cells.size = w.store.cells.size := by simp [Store.assign]
    exact
      { collectors_eq := hw.collectors_eq
        inRange := hw.inRange.assign c v
        watchers_lt := fun d e he => hw.watchers_lt d e (Store.watchers_assign w.store c d v ▸ he)
        watched_lt := fun e effect he d hmem => hsize ▸ hw.watched_lt e effect he d hmem
        exists_effect := hw.exists_effect
        placeless := hw.placeless }
  | startPass c =>
    have hd := Store.sameData_prune w.store c w.isAlive
    exact
      { collectors_eq := hw.collectors_eq
        inRange := hw.inRange.of_sameData hd
        watchers_lt := fun d e he => hw.watchers_lt d e (Store.mem_watchers_of_prune he)
        watched_lt := fun e effect he d hmem => hd.size_eq ▸ hw.watched_lt e effect he d hmem
        exists_effect := fun e he => hw.exists_effect e (isAlive_of_startPass he)
        placeless := hw.placeless }
  | hold halive =>
    exact ⟨hw.1, hw.2, hw.3, hw.4, fun e he => hw.5 e (isAlive_of_hold halive he), hw.6⟩
  | endPass =>
    exact ⟨hw.1, hw.2, hw.3, hw.4, fun e he => hw.5 e (isAlive_of_tail_passes he), hw.6⟩
  | abortPass =>
    exact ⟨hw.1, hw.2, hw.3, hw.4, fun e he => hw.5 e (isAlive_of_tail_passes he), hw.6⟩
  | suspend =>
    refine ⟨fun x hx => ?_, hw.2, hw.3, hw.4, hw.5, hw.6⟩
    rcases List.mem_cons.1 hx with rfl | hx
    · rfl
    · exact hw.collectors_eq x hx
  | resume =>
    exact ⟨fun x hx => hw.collectors_eq x (List.mem_of_mem_tail hx), hw.2, hw.3, hw.4, hw.5, hw.6⟩
  | enterMethod hvm =>
    exact ⟨hw.1, hw.2, hw.3, hw.4, fun e he => hw.5 e (isAlive_of_enterMethod hvm he), hw.6⟩
  | leaveMethod =>
    exact ⟨hw.1, hw.2, hw.3, hw.4, fun e he => hw.5 e (isAlive_of_leaveMethod he), hw.6⟩
  | type => exact ⟨hw.1, hw.2, hw.3, hw.4, hw.5, hw.6⟩
  | deliver => exact hw.deliver _ _

theorem World.Sound.of_moves {w w' : World σ} (hw : w.Sound) (h : ReflTransGen Move w w') :
    w'.Sound := by
  induction h with
  | refl => exact hw
  | tail _ hmove ih => exact hmove.sound ih

/-- What every move preserves holds wherever a run gets. -/
theorem Evolves.preserves {P : World σ → Prop} (hP : ∀ w w', Move w w' → P w → P w')
    {activity : Activity σ} {w w' : World σ} (h : Evolves activity w w') (hw : P w) : P w' := by
  have hmoves := h.moves
  clear h
  induction hmoves with
  | refl => exact hw
  | tail _ hmove ih => exact hP _ _ hmove ih

/-- Soundness holds wherever a run gets. -/
theorem Evolves.sound {activity : Activity σ} {w w' : World σ} (h : Evolves activity w w')
    (hw : w.Sound) : w'.Sound :=
  h.preserves (fun _ _ hmove hw => hmove.sound hw) hw

/-- The world in which a run starts is sound. -/
theorem World.sound_ofDocument (d : Document (Listener σ)) : (World.ofDocument d).Sound where
  collectors_eq _ h := by cases h
  inRange := by
    constructor
    · intro m f hf
      simp [World.ofDocument, Store.empty, Store.entries] at hf
    · intro q c hc
      simp [World.ofDocument, Store.empty, Store.items] at hc
  watchers_lt c e h := by simp [World.ofDocument, Store.empty, Store.watchers] at h
  watched_lt _ _ h := by simp [World.ofDocument] at h
  exists_effect e h := by
    rw [isAlive_iff] at h
    rcases h with ⟨_, h, -⟩ | ⟨_, h, -⟩ | ⟨_, _, -, h, -⟩ | ⟨_, h, -⟩ <;>
      simp [World.ofDocument] at h
  placeless _ h := by cases h

end LiveBinding
