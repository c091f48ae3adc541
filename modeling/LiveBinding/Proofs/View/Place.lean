import LiveBinding.Proofs.View.Binding

/-!
# The place of a binding

A place is left to a binding since a moment if all effects that were constructed for it since are
those of the binding and alive, no other effect in the place was in use at the moment, and the time
since is quiet. Then only two things write to the place: the updates of its effects, which show the
whole binding, and the texts that are typed into an input. Everything else leaves the place alone.

## Key definitions

- `Binding.Holds`: the place is left to the binding
- `Binding.Leaves`: a part of a run that leaves the place alone
- `Binding.Stands`: what the place shows

## Key results

- `Binding.Holds.of_move`: what is left to the binding was left to it before
- `Change.leaves_or`: a change leaves the place alone, or shows the binding there
- `Stands.write`, `Stands.type`, `Holds.exists_stands`: what is shown after that
-/

namespace LiveBinding

variable {σ : Type}

open World

namespace Binding

/-- Since a moment of the run the place is left to the binding. -/
structure Holds (b : Binding) (s : Moment) (w : World σ) : Prop where
  mem : s ∈ w.moments
  quiet : s.Quiet b.node w
  apart : ∀ e ∈ s.alive, ∀ effect, w.effects[e]? = some effect →
    effect.place? ≠ some (b.sink, b.node)
  isAlive : ∀ e effect, b.IsIn s w.effects e effect → w.isAlive e = true
  owns : ∀ e effect, b.IsIn s w.effects e effect → b.Owns effect

variable {b : Binding} {s : Moment} {w w₁ w' : World σ} {e : EffectId} {effect : Effect σ}

/-- A place that is left to the binding later is left to it before, if there is an effect in it. -/
theorem Holds.of_move (h : b.Holds s w') (hw : w.Steady) (hmove : Move w w')
    (hin : b.IsIn s w'.effects e effect) : b.Holds s w := by
  rcases hmove.mem_moments h.mem with hmem | ⟨rfl, rfl⟩
  · -- Each effect of now is an effect of later, with another memory.
    refine ⟨hmem, h.quiet.of_later (hw.dated s hmem) hmove.later, fun f hf record hrecord => ?_,
      fun f record hinf => ?_, fun f record hinf => ?_⟩
    · obtain ⟨m, hm⟩ := hmove.later.effects_eq f record hrecord
      have hplace := h.apart f hf { record with memory := m } hm
      exact hplace
    · obtain ⟨m, hinf'⟩ := hinf.later hmove.later
      exact hmove.isAlive_of hinf.lt_size (h.isAlive f _ hinf')
    · obtain ⟨m, hinf'⟩ := hinf.later hmove.later
      have howns := h.owns f _ hinf'
      cases b <;> exact howns
  · -- Nothing has been constructed since the moment that is noted now.
    exact absurd hin.lt_size (Nat.not_lt.2 hin.size_le)

/-- An effect in the place that is alive was constructed since. -/
theorem Holds.isIn (h : b.Holds s w) (hw : w.Steady) (he : w.effects[e]? = some effect)
    (hp : effect.place? = some (b.sink, b.node)) (halive : w.isAlive e = true) :
    b.IsIn s w.effects e effect := by
  refine ⟨Nat.le_of_not_lt fun hlt => ?_, he, hp⟩
  exact h.apart e ((hw.dated s h.mem).mem_alive e hlt halive) effect he hp

/-- The end of a pass by a fault is not quiet. -/
theorem not_holds_abortPass (hw : w.Steady) : ¬ b.Holds s w.abortPass := fun h =>
  Nat.not_succ_le_self _
    (Nat.le_trans (Nat.le_of_eq h.quiet.abortedPasses_eq) (hw.dated s h.mem).abortedPasses_le)

/-- The end of a dispatch by a fault is not quiet. -/
theorem not_holds_abortDispatch (hw : w.Steady) : ¬ b.Holds s w.abortDispatch := fun h =>
  Nat.not_succ_le_self _ (Nat.le_trans (Nat.le_of_eq h.quiet.abortedDispatches_eq)
    (hw.dated s h.mem).abortedDispatches_le)

/-- Effects in a place were not registered by hand. -/
theorem Holds.isTracked (h : b.Holds s w) (hw : w.Steady) (hin : b.IsIn s w.effects e effect) :
    w.isTracked e = true := by
  refine isTracked_iff.2 ⟨h.isAlive e effect hin, fun he => ?_⟩
  obtain ⟨record, hrecord, hplace⟩ := hw.placeless e he
  obtain rfl := hin.eq_of_effect hrecord
  cases hplace.symm.trans hin.place_eq

/-- An effect in the place has got the value that it watches, unless it is pending. -/
theorem Holds.agrees_or {P : EffectId → Prop} {v : Value} (h : b.Holds s w) (hw : w.Steady)
    (hf : w.FreshSince s P) (hin : b.IsIn s w.effects e effect)
    (hv : w.store.Watches e effect v) : effect.last.Agrees v ∨ P e := by
  by_cases hP : P e
  · exact .inr hP
  · have hfresh := hf h.mem (Nat.le_of_eq h.quiet.abortedPasses_eq)
    refine .inl ((hfresh e (h.isTracked hw hin) ?_).agrees hin.effect_eq hv)
    rintro (hlt | hP')
    · exact Nat.not_lt.2 hin.size_le hlt
    · exact hP hP'

/-! ### What leaves the place alone -/

/-- A part of a run that does not touch the place of a binding: the place shows what it showed, and
the effects in it remember what they remembered. -/
structure Spares (b : Binding) (s : Moment) (w w' : World σ) : Prop where
  later : Later w w'
  holds_of : ∀ e effect, b.IsIn s w'.effects e effect → b.Holds s w' → b.Holds s w
  displays : ∀ x, w.Displays b.sink b.node x → w'.Displays b.sink b.node x
  writesBack : ∀ path root, w.WritesBack b.node path root → w'.WritesBack b.node path root
  isIn_of : ∀ e effect, b.IsIn s w'.effects e effect → b.IsIn s w.effects e effect

/-- What the effects in the place watch later, they watch before. -/
def Returns (b : Binding) (s : Moment) (w w' : World σ) : Prop :=
  ∀ e effect v, b.IsIn s w'.effects e effect → w'.store.Watches e effect v →
    w.store.Watches e effect v

/-- A part of a run that leaves the place of a binding alone, and what its effects watch. It changes
the models at once or not at all. -/
structure Leaves (b : Binding) (s : Moment) (w w' : World σ) : Prop where
  spares : b.Spares s w w'
  returns : b.Returns s w w'
  turn : w.store.SameData w'.store ∨ ∃ t, w' = w.turn t

/-- The effects in the place are the same. -/
theorem Spares.isIn_iff (h : b.Spares s w w') (e : EffectId) (effect : Effect σ) :
    b.IsIn s w'.effects e effect ↔ b.IsIn s w.effects e effect := by
  refine ⟨h.isIn_of e effect, fun hin => ?_⟩
  obtain ⟨m, hlater⟩ := hin.later h.later
  rwa [hin.eq_of_effect (h.isIn_of e _ hlater).effect_eq]

theorem Spares.trans (h : b.Spares s w w₁) (h' : b.Spares s w₁ w') : b.Spares s w w' where
  later := h.later.trans h'.later
  holds_of e effect hin hh :=
    h.holds_of e effect (h'.isIn_of e effect hin) (h'.holds_of e effect hin hh)
  displays x hx := h'.displays x (h.displays x hx)
  writesBack path root hw := h'.writesBack path root (h.writesBack path root hw)
  isIn_of e effect hin := h.isIn_of e effect (h'.isIn_of e effect hin)

/-- A move that leaves the place alone. -/
theorem spares_of_move (hw : w.Steady) (hmove : Move w w') {free : Sink → NodeRef → Prop}
    (hdocuments : w.DocumentsKeep free w') (hfree : ¬ free b.sink b.node)
    (hin : ∀ e effect, b.IsIn s w'.effects e effect → b.IsIn s w.effects e effect) :
    b.Spares s w w' :=
  ⟨hmove.later, fun _ _ hin h => h.of_move hw hmove hin, fun _ => hdocuments.displays hfree,
    fun _ _ => hdocuments.writesBack, hin⟩

/-- A move that leaves documents and effects alone. -/
theorem spares_of_eq (hw : w.Steady) (hmove : Move w w') (hdocuments : w'.documents = w.documents)
    (heffects : w'.effects = w.effects) : b.Spares s w w' := by
  have hkeep : w.DocumentsKeep (fun _ _ => False) w' := documentsKeep_of_eq hdocuments
  exact spares_of_move hw hmove hkeep id fun e effect hin => heffects ▸ hin

/-- Paths that lead to the same values are watched as before, if nobody is registered. -/
theorem returns_of_sameData (hd : w.store.SameData w'.store)
    (hwatchers : ∀ e effect c, b.IsIn s w'.effects e effect → e ∈ w'.store.watchers c →
      e ∈ w.store.watchers c) : b.Returns s w w' := by
  rintro e effect v hin ⟨cells, hleads, hwatch⟩
  exact ⟨cells, hleads.of_sameData hd, fun c hc => hwatchers e effect c hin (hwatch c hc)⟩

/-- Nobody watches what is new. -/
theorem returns_of_extends (hext : w.store.Extends w'.store) : b.Returns s w w' := by
  rintro e effect v - ⟨cells, hleads, hwatch⟩
  have hwatch' (c : CellId) (hc : c ∈ cells) : e ∈ w.store.watchers c :=
    hext.watchers_eq c ▸ hwatch c hc
  exact ⟨cells, hleads.of_extends hext fun c hc => Store.lt_size_of_mem_watchers (hwatch' c hc),
    hwatch'⟩

/-- A move that leaves documents, effects, values and registrations alone. -/
theorem leaves_of_eq (hw : w.Steady) (hmove : Move w w') (hdocuments : w'.documents = w.documents)
    (heffects : w'.effects = w.effects) (hd : w.store.SameData w'.store)
    (hwatchers : ∀ c e, e ∈ w'.store.watchers c → e ∈ w.store.watchers c) : b.Leaves s w w' :=
  ⟨spares_of_eq hw hmove hdocuments heffects,
    returns_of_sameData hd fun e _ c _ => hwatchers c e, .inl hd⟩

/-- New cells, containers, keys and items. -/
theorem leaves_extend (hw : w.Steady) {t : Store} (hext : w.store.Extends t) :
    b.Leaves s w (w.turn t) :=
  ⟨spares_of_eq hw (.change (.extend w hext)) rfl rfl, returns_of_extends hext, .inr ⟨t, rfl⟩⟩

/-- An effect that is not in the place gets a value. -/
theorem IsIn.of_deliver {f : EffectId} {record : Effect σ} {v : Value}
    (hin : b.IsIn s (w.deliver e v).effects f record) (he : w.effects[e]? = some effect)
    (hnot : ¬ b.IsIn s w.effects e effect) : b.IsIn s w.effects f record := by
  refine ⟨hin.size_le, ?_, hin.place_eq⟩
  have hrecord := hin.effect_eq
  rw [effects_deliver] at hrecord
  split at hrecord
  · rename_i heq
    subst heq
    rw [he] at hrecord
    obtain rfl := Option.some.inj hrecord
    exact absurd ⟨hin.size_le, he, hin.place_eq⟩ hnot
  · exact hrecord

theorem leaves_deliver (hw : w.Steady) {v : Value} (he : w.effects[e]? = some effect)
    (hv : w.Receives e effect v) (hnot : ¬ b.IsIn s w.effects e effect) :
    b.Leaves s w (w.deliver e v) := by
  have hkeep : w.DocumentsKeep (fun _ _ => False) (w.deliver e v) := documentsKeep_of_eq rfl
  exact ⟨spares_of_move hw (.deliver w he hv) hkeep id fun _ _ hin => hin.of_deliver he hnot,
    returns_of_sameData (.refl _) fun _ _ _ _ h => h, .inl (.refl _)⟩

/-- An effect without a place is not in the place. -/
theorem notIsIn_of_placeless (he : w.effects[e]? = some effect) (hp : effect.place? = none)
    (record : Effect σ) : ¬ b.IsIn s w.effects e record := by
  intro hin
  obtain rfl := hin.eq_of_effect he
  cases hp.symm.trans hin.place_eq

/-- The place of an effect in the place. -/
theorem IsIn.eq_of_place {effects : Array (Effect σ)} {record : Effect σ} {sink : Sink}
    {node : NodeRef} (h : b.IsIn s effects e record) (he : effects[e]? = some effect)
    (hp : effect.place? = some (sink, node)) : b.sink = sink ∧ b.node = node := by
  obtain rfl := h.eq_of_effect he
  exact Prod.mk.inj (Option.some.inj (h.place_eq.symm.trans hp))

/-- An effect with another place shows something there. -/
theorem leaves_display (hw : w.Steady) {v : Value} {sink : Sink} {node : NodeRef} {x : String}
    (he : w.effects[e]? = some effect) (hp : effect.place? = some (sink, node))
    (hv : w.Receives e effect v) (hx : effect.shown w.store = .ok x)
    (hplace : ¬ (b.sink = sink ∧ b.node = node)) :
    b.Leaves s w ((w.deliver e v).writeSink sink node x) := by
  have hkeep : (w.deliver e v).DocumentsKeep (fun k m => k = sink ∧ m = node)
      ((w.deliver e v).writeSink sink node x) := documentsKeep_writeSink _ x (And.intro rfl rfl)
  have hkeep : w.DocumentsKeep (fun k m => k = sink ∧ m = node)
      ((w.deliver e v).writeSink sink node x) := hkeep
  refine ⟨spares_of_move hw (.change (.display w he hp hv hx)) hkeep hplace fun f record hin => ?_,
    returns_of_sameData (.refl _) fun _ _ _ _ h => h, .inl (.refl _)⟩
  have hin : b.IsIn s (w.deliver e v).effects f record := hin
  exact hin.of_deliver he fun hin' => hplace (hin'.eq_of_place he hp)

/-- A text is typed into another place. -/
theorem leaves_type (hw : w.Steady) {node : NodeRef} {x : String}
    (hplace : ¬ (b.sink = .input ∧ b.node = node)) :
    b.Leaves s w (w.writeSink .input node x) := by
  have hkeep : w.DocumentsKeep (fun k m => k = .input ∧ m = node) (w.writeSink .input node x) :=
    documentsKeep_writeSink w x (And.intro rfl rfl)
  exact ⟨spares_of_move hw (.type w node x) hkeep hplace fun _ _ hin => hin,
    returns_of_sameData (.refl _) fun _ _ _ _ h => h, .inl (.refl _)⟩

/-- Effects are constructed, but none for the place. -/
theorem leaves_construct (hw : w.Steady) (hplain : b.sink.IsPlain) (h : w.Constructs w')
    (hs : s.size ≤ w.effects.size)
    (hnew : ∀ e effect, b.IsIn s w'.effects e effect → e < w.effects.size) : b.Leaves s w w' := by
  have hfree : ¬ (¬ b.sink.IsPlain ∨ ∃ e effect, w.effects.size ≤ e ∧
      w'.effects[e]? = some effect ∧ effect.place? = some (b.sink, b.node)) := by
    rintro (hn | ⟨e, effect, hle, he, hp⟩)
    · exact hn hplain
    · exact Nat.not_lt.2 hle (hnew e effect ⟨Nat.le_trans hs hle, he, hp⟩)
  refine ⟨spares_of_move hw (.change (.construct h)) h.grows.documents hfree fun e effect hin =>
      ⟨hin.size_le, ?_, hin.place_eq⟩,
    returns_of_sameData h.grows.sameData fun e effect c hin hmem => ?_, .inl h.grows.sameData⟩
  · exact (h.grows.effects_eq e (hnew e effect hin)).symm.trans hin.effect_eq
  · -- New registrations are those of new effects.
    have hsize := Store.lt_size_of_mem_watchers hmem
    rw [h.grows.sameData.size_eq] at hsize
    rw [h.grows.watchers_eq c hsize, List.mem_append] at hmem
    exact hmem.resolve_right fun hreg => absurd (hnew e effect hin)
      (Nat.not_lt.2 (mem_registrationsFrom h.grows.size_le hreg).1)

/-- An effect that is registered by hand has no place. -/
theorem leaves_enlist (hw : w.Steady) {c : CellId} {f : String × EffectId}
    (hf : f ∈ w.names.effects) :
    b.Leaves s w { w with store := w.store.watch c f.2, enlisted := f.2 :: w.enlisted } := by
  have hd := Store.sameData_watch w.store c f.2
  refine ⟨spares_of_eq hw (.change (.enlist w c hf)) rfl rfl,
    returns_of_sameData hd fun e effect d hin hmem => ?_, .inl hd⟩
  refine (Store.mem_watchers_watch hmem).resolve_right ?_
  rintro rfl
  obtain ⟨record, hrecord, hplace⟩ := hw.sound.placeless f hf
  have hin : b.IsIn s w.effects f.2 effect := hin
  exact notIsIn_of_placeless hrecord hplace effect hin

end Binding

open Binding

/-- The beginning and the end of passes, suspensions and methods leave the place alone. -/
theorem World.Reframes.leaves {b : Binding} {s : Moment} {w w' : World σ} (h : w.Reframes w')
    (hw : w.Steady) : b.Leaves s w w' :=
  leaves_of_eq hw h.move h.documents_eq h.effects_eq h.sameData h.mem_watchers

/-- Nothing has been constructed at the start of a run. -/
theorem Scene.notIsIn_start {b : Binding} {s : Moment} {source : String} {e : EffectId}
    {effect : Effect Script} : ¬ b.IsIn s (Scene.start source).effects e effect := by
  intro hin
  have he := hin.effect_eq
  simp [Scene.start, ofDocument] at he

/-- If the place is left to the binding, then a change leaves the place alone, or an effect in it is
updated, or effects are constructed for it. -/
theorem Change.leaves_or {b : Binding} {s : Moment} {w w' : World σ} (h : Change w w')
    (hw : w.Steady) (hplain : b.sink.IsPlain) (hh : b.Holds s w') {f : EffectId}
    {record : Effect σ} (hin : b.IsIn s w'.effects f record) :
    b.Leaves s w w' ∨
      (∃ e effect v x, w.effects[e]? = some effect ∧ effect.place? = some (b.sink, b.node) ∧
        w.Receives e effect v ∧ effect.shown w.store = .ok x ∧
          w' = (w.deliver e v).writeSink b.sink b.node x) ∨
      w.Constructs w' ∧ ∃ e effect, b.IsIn s w'.effects e effect ∧ w.effects.size ≤ e := by
  have hmove : Move w w' := .change h
  have hs : s.Precedes w := hw.dated s (hh.of_move hw hmove hin).mem
  cases h with
  | read cells =>
    left
    rw [hw.sound.registerReads_eq] at hmove ⊢
    exact leaves_of_eq hw hmove rfl rfl (.refl _) fun _ _ h => h
  | extend hext => exact .inl (leaves_extend hw hext)
  | @deliver e effect v he hp hv =>
    -- Effects with names run user code, so they have no place.
    refine .inl (leaves_deliver hw he hv fun hin' => ?_)
    rcases hp with hp | ⟨g, hg, rfl⟩
    · exact notIsIn_of_placeless he hp _ hin'
    · obtain ⟨named, hnamed, hp⟩ := hw.sound.placeless g hg
      exact notIsIn_of_placeless hnamed hp _ hin'
  | @display e effect v sink node x he hp hv hx =>
    by_cases hplace : b.sink = sink ∧ b.node = node
    · obtain ⟨rfl, rfl⟩ := hplace
      exact .inr (.inl ⟨e, effect, v, x, he, hp, hv, hx, rfl⟩)
    · exact .inl (leaves_display hw he hp hv hx hplace)
  | @redraw documents new current h =>
    -- The node of the binding is none of those that were changed by hand.
    have hnode : b.node ∉ new := hh.quiet.notMem hs hmove.later rfl
    have hkeep : w.DocumentsKeep (fun _ node => node ∈ new)
        { w with documents := documents, current := current, touched := new ++ w.touched } := h
    exact .inl ⟨spares_of_move hw hmove hkeep hnode fun _ _ hin => hin,
      returns_of_sameData (.refl _) fun _ _ _ _ h => h, .inl (.refl _)⟩
  | construct h =>
    by_cases hnew : ∃ e effect, b.IsIn s w'.effects e effect ∧ w.effects.size ≤ e
    · exact .inr (.inr ⟨h, hnew⟩)
    · exact .inl (leaves_construct hw hplain h hs.size_le fun e effect hin =>
        Nat.lt_of_not_le fun hle => hnew ⟨e, effect, hin, hle⟩)
  | enlist c hf => exact .inl (leaves_enlist hw hf)
  | _ => exact .inl (leaves_of_eq hw hmove rfl rfl (.refl _) fun _ _ h => h)

namespace Binding

/-! ### What is shown in the place -/

/-- The place shows the text. An input writes back what is typed into it. -/
structure Stands (b : Binding) (w : World σ) (x : String) : Prop where
  displays : w.Displays b.sink b.node x
  writesBack : b.sink = .input → ∀ p ∈ b.needs, w.WritesBack b.node p b.root

section

variable {b : Binding} {s : Moment} {w w' : World σ} {e : EffectId} {effect : Effect σ}
  {x y : String}

theorem Stands.of_spares (h : b.Stands w x) (hs : b.Spares s w w') : b.Stands w' x :=
  ⟨hs.displays x h.displays, fun hi p hp => hs.writesBack p b.root (h.writesBack hi p hp)⟩

/-- Another text is written to the place. -/
theorem Stands.write (h : b.Stands w y) (x : String) :
    b.Stands (w.writeSink b.sink b.node x) x := by
  have hkeep : w.DocumentsKeep (fun k m => k = b.sink ∧ m = b.node)
      (w.writeSink b.sink b.node x) := documentsKeep_writeSink w x (And.intro rfl rfl)
  exact ⟨displays_writeSink h.displays x, fun hi p hp => hkeep.writesBack (h.writesBack hi p hp)⟩

/-- An update writes another text to the place. -/
theorem Stands.display (h : b.Stands w y) (e : EffectId) (v : Value) (x : String) :
    b.Stands ((w.deliver e v).writeSink b.sink b.node x) x := by
  have h' : b.Stands (w.deliver e v) y := ⟨h.displays, h.writesBack⟩
  exact h'.write x

/-- If effects are constructed for a place that is left to the binding, then it shows what it
should, as one of them is the last. -/
theorem Holds.exists_stands (hh : b.Holds s w') (hw : w.Steady) (hplain : b.sink.IsPlain)
    (h : w.Constructs w') (hin : b.IsIn s w'.effects e effect) (hle : w.effects.size ≤ e) :
    ∃ f last x, w.effects.size ≤ f ∧ b.IsIn s w'.effects f last ∧ b.shows w'.store = .ok x ∧
      b.Stands w' x := by
  obtain ⟨f, last, hef, hlast, hnone⟩ := exists_last hin
  have hle' := Nat.le_trans hle hef
  rcases h.shown with hshown | hdead
  · obtain ⟨x, hx, hdisplay, hback⟩ := hshown f last b.sink b.node hle' hlast.effect_eq
      hlast.place_eq hplain fun e' effect' hlt he' hp =>
        hnone e' effect' hlt ⟨Nat.le_trans hlast.size_le (Nat.le_of_lt hlt), he', hp⟩
    have howns := hh.owns f last hlast
    refine ⟨f, last, x, hle', hlast, (howns.shown_eq w'.store).symm.trans hx, hdisplay,
      fun hi p hp => ?_⟩
    have hpath : p = last.path := by
      cases b with
      | text => cases hi
      | value => exact (List.mem_singleton.1 hp).trans howns.2.1.symm
    rw [hpath, ← howns.root_eq]
    exact hback hi
  · -- The construction has failed, so its effects are dead.
    exact absurd (hw.sound.lt_size (hdead f (hh.isAlive f last hlast))) (Nat.not_lt.2 hle')

end

/-! ### Typed texts -/

/-- Where the model gets what is typed into the place. -/
def target : Binding → Option (KeyPath × MappingId)
  | value .input _ path root => some (path, root)
  | _ => none

variable {b : Binding} {p : KeyPath × MappingId}

/-- A binding with a target is that of an input. -/
theorem eq_of_mem_target (hp : p ∈ b.target) : b = value .input b.node p.1 p.2 := by
  cases b with
  | text => cases hp
  | value sink node path root =>
    cases sink with
    | input =>
      obtain rfl := Option.some.inj hp
      rfl
    | _ => cases hp

theorem sink_of_mem_target (hp : p ∈ b.target) : b.sink = .input := by
  rw [eq_of_mem_target hp]
  rfl

/-- The effects of an input have the path to which the input writes back. -/
theorem Owns.eq_of_mem_target {effect : Effect σ} (h : b.Owns effect) (hp : p ∈ b.target) :
    effect.path = p.1 ∧ effect.root = p.2 := by
  rw [Binding.eq_of_mem_target hp] at h
  exact ⟨h.2.1, h.2.2⟩

/-- An input shows a text as it is. -/
theorem shows_text (hp : p ∈ b.target) {s : Store} {t : String}
    (h : s.get p.1 p.2 = .ok (.text t)) : b.shows s = .ok t := by
  rw [Binding.eq_of_mem_target hp, shows, h]
  rfl

theorem fill_const (hsink : b.sink = .input) (t : String) : b.fill (fun _ => t) = .ok t := by
  cases b with
  | text => cases hsink
  | value => rfl

/-- A text that is typed into an input will be written back. -/
theorem typed_of_writesBack (hsink : b.sink = .input) {w : World σ}
    (hback : ∀ q ∈ b.needs, w.WritesBack b.node q b.root) (x : String) :
    (Activity.hearing b.node x ((w.document b.node.document).listenersFor b.node.node
      "input")).Typed b.target w x := by
  cases b with
  | text => cases hsink
  | value sink node path root =>
    obtain rfl : sink = .input := hsink
    exact ⟨rfl, (path, root), rfl, (hback path (List.mem_singleton_self _)).mem_listenersFor⟩

/-- A text is typed into the place. It is shown, and will be written back. -/
theorem Stands.type {w : World σ} {y : String} (h : b.Stands w y) (hsink : b.sink = .input)
    (x : String) : b.Stands (w.writeSink .input b.node x) x ∧
      (Activity.hearing b.node x (((w.writeSink .input b.node x).document
        b.node.document).listenersFor b.node.node "input")).Typed b.target
          (w.writeSink .input b.node x) x := by
  have hstands := h.write x
  rw [hsink] at hstands
  exact ⟨hstands, typed_of_writesBack hsink (hstands.writesBack hsink) x⟩

end Binding

end LiveBinding
