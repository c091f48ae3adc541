import LiveBinding.Proofs.Evolution.Construct
import LiveBinding.Proofs.Interpolation.Render
import LiveBinding.ViewModel

/-!
# Compiling constructs effects

A compilation grows the world step by step. `Builds` says of one part of it that it grows the
world, leaves everything alive or dead as it was, and, if it does not fault, hands on a scope of
effects that could be constructed and keeps effects showing what they should; each new effect in an
input has a listener there. It composes along the walk: over the directives of an element, over
children, and over rounds.

## Key results

- `Builds.bind`, `builds_foldlM`: parts compose
- `builds_bindValue`, `builds_bindText`, `builds_install`: bindings
- `builds_compile`: a whole template
-/

namespace LiveBinding

variable {σ : Type}

open World

/-- What a part of a compilation does that starts with a scope, in a world in which effects from a
number on must show what they should. -/
structure Builds (n : Nat) (scope : Scope) (w : World σ) (r : Except Fault Scope × World σ) :
    Prop where
  grows : Grows n w r.2
  names_eq : r.2.names = w.names
  viewModels_eq : r.2.viewModels = w.viewModels
  shown : ∀ made, r.1 = .ok made → Shown n w → Shown n r.2
  holds : ∀ made, r.1 = .ok made → ∀ e ∈ made.effects, e ∈ scope.effects ∨
    w.effects.size ≤ e ∧ ∃ effect, r.2.effects[e]? = some effect ∧ effect.values ≠ []
  backs : ∀ made, r.1 = .ok made → ∀ e ∈ made.effects, e ∈ scope.effects ∨ r.2.Backs e

namespace Builds

variable {n : Nat} {scope : Scope} {w : World σ}

theorem pure (n : Nat) (scope : Scope) (w : World σ) : Builds n scope w (.ok scope, w) where
  grows := .refl n w
  names_eq := rfl
  viewModels_eq := rfl
  shown _ _ h := h
  holds := by
    rintro _ ⟨⟩ e he
    exact .inl he
  backs := by
    rintro _ ⟨⟩ e he
    exact .inl he

theorem fault (n : Nat) (scope : Scope) (w : World σ) (f : Fault) :
    Builds n scope w (.error f, w) where
  grows := .refl n w
  names_eq := rfl
  viewModels_eq := rfl
  shown _ h := by cases h
  holds _ h := by cases h
  backs _ h := by cases h

/-- A fault passes on what was done before it. -/
theorem of_error {w₁ : World σ} {f : Fault} (hg : Grows n w w₁)
    (hn : w₁.names = w.names) (hv : w₁.viewModels = w.viewModels) :
    Builds n scope w (.error f, w₁) where
  grows := hg
  names_eq := hn
  viewModels_eq := hv
  shown _ h := by cases h
  holds _ h := by cases h
  backs _ h := by cases h

theorem bind {x : Act σ Scope} {f : Scope → Act σ Scope} (hx : Builds n scope w (x.runOn w))
    (hf : ∀ made w₁, x.runOn w = (.ok made, w₁) → Builds n made w₁ ((f made).runOn w₁)) :
    Builds n scope w ((x >>= f).runOn w) := by
  rw [Act.runOn_bind]
  rcases hr : x.runOn w with ⟨_ | made, w₁⟩
  · rwa [hr] at hx
  · rw [hr] at hx
    have h := hf made w₁ hr
    refine ⟨hx.grows.trans h.grows, h.names_eq.trans hx.names_eq,
      h.viewModels_eq.trans hx.viewModels_eq,
      fun made' hm hs => h.shown made' hm (hx.shown made rfl hs), fun made' hm e he => ?_,
      fun made' hm e he => ?_⟩
    -- An effect that the second part holds is new, or the first part has handed it on.
    · rcases h.holds made' hm e he with he | ⟨hle, hnew⟩
      · rcases hx.holds made rfl e he with he | ⟨hle, effect, heffect, hvalues⟩
        · exact .inl he
        · exact .inr ⟨hle, effect, h.grows.effect_eq heffect, hvalues⟩
      · exact .inr ⟨Nat.le_trans hx.grows.size_le hle, hnew⟩
    · rcases h.backs made' hm e he with he | hback
      · rcases hx.holds made rfl e he with hold | ⟨-, effect, heffect, -⟩
        · exact .inl hold
        · exact (hx.backs made rfl e he).imp_right fun hback =>
            hback.of_later (lt_size_of_effect heffect) h.grows.later h.grows.documents
      · exact .inr hback

/-- Nothing is constructed, and the documents change only where no template would look. -/
theorem of_modifyDocument (t : Setting σ) {f : Document (Listener σ) → Document (Listener σ)}
    (hf : ∀ d, Document.Keeps (fun sink _ => ¬ sink.IsPlain) d (f d)) {made : Scope}
    (hm : made.effects = scope.effects) :
    Builds n scope w (.ok made, w.modifyDocument t.document f) := by
  have hkeep : w.DocumentsKeep (fun sink _ => ¬ sink.IsPlain) (w.modifyDocument t.document f) :=
    documentsKeep_modifyDocument w t.document hf
  refine ⟨grows_modifyDocument _ (hkeep.mono fun _ _ => .inl), rfl, rfl,
    fun _ _ hs => hs.keep rfl (.refl _) hkeep, ?_, ?_⟩
  all_goals
    rintro _ ⟨⟩ e he
    exact .inl (hm ▸ he)

end Builds

/-- A loop builds if its steps do, where they may rely on what growing does not undo. -/
theorem builds_foldlM {α : Type} {n : Nat} {P : World σ → Prop}
    (hP : ∀ w w', Grows n w w' → P w → P w') {f : Scope → α → Act σ Scope} {as : List α}
    (hf : ∀ scope, ∀ a ∈ as, ∀ w, P w → n ≤ w.effects.size →
      Builds n scope w ((f scope a).runOn w))
    (scope : Scope) (w : World σ) (hw : P w) (hn : n ≤ w.effects.size) :
    Builds n scope w ((as.foldlM f scope).runOn w) := by
  induction as generalizing scope w with
  | nil => exact .pure n scope w
  | cons a as ih =>
    rw [List.foldlM_cons]
    -- By induction on the list, where each step may start in a world that has grown.
    have ha := hf scope a (List.mem_cons_self ..) w hw hn
    refine ha.bind fun made w₁ hr => ?_
    have hg : Grows n w w₁ := by
      have := ha.grows
      rwa [hr] at this
    exact ih (fun scope a ha => hf scope a (List.mem_cons_of_mem _ ha)) made w₁ (hP w w₁ hg hw)
      (Nat.le_trans hn hg.size_le)

namespace Setting

variable (t : Setting σ)

/-! ### Bindings -/

/-- Showing a value: an effect is constructed, and what it read is shown. -/
theorem runOn_bindValue (scope : Scope) (n : NodeId) (expression : String) (sink : Sink)
    (w : World σ) :
    (t.bindValue scope n expression sink).runOn w =
      match w.store.get ⟨expression⟩ t.model with
      | .error f =>
        (.error f, w.construct ⟨expression⟩ t.model t.gated (.display sink ⟨t.document, n⟩))
      | .ok v =>
        (.ok (scope.hold w.effects.size),
          (w.construct ⟨expression⟩ t.model t.gated (.display sink ⟨t.document, n⟩)).writeSink sink
            ⟨t.document, n⟩ (w.store.display v)) := by
  rw [bindValue, Act.runOn_bind, Act.runOn_newEffect]
  cases hget : w.store.get ⟨expression⟩ t.model with
  | error f => rfl
  | ok v =>
    rw [Except.map]
    dsimp only
    rw [Act.runOn_bind, Act.runOn_lastValue, effects_construct, if_pos rfl]
    dsimp only
    rw [Act.runOn_bind, Act.runOn_modify]
    -- Registrations do not change what the value looks like.
    have hdisplay := (Store.sameData_foldl_watch w.store
      (w.store.reads ⟨expression⟩ t.model) w.effects.size).display_eq v
    have hlast : (w.record ⟨expression⟩ t.model t.gated (.display sink ⟨t.document, n⟩)).last = v :=
      congrArg Memory.last (memory_record hget)
    simp only [Option.map_some, Option.getD_some, hlast, construct, hdisplay]
    rfl

variable {t} {n : Nat} {scope : Scope} {w : World σ}

/-- The place of an effect that was constructed since may change. -/
theorem grows_writeSink {sink : Sink} {node : NodeRef} {e : EffectId} {effect : Effect σ}
    (hle : n ≤ e) (he : w.effects[e]? = some effect) (hp : effect.place? = some (sink, node))
    (s : String) : Grows n w (w.writeSink sink node s) :=
  grows_modifyDocument _ (documentsKeep_writeSink w s (.inr ⟨e, effect, hle, he, hp⟩))

/-- What showing a value does, up to what may still be done to the node in the same step: it is
right for every later world that goes on showing the value. -/
theorem builds_hold {path : KeyPath} {sink : Sink} {node : NodeRef} {w' : World σ} {made : Scope}
    {v : Value} (hv : w.store.get path t.model = .ok v)
    (hg : Grows n w w') (hnames : w'.names = w.names) (hvms : w'.viewModels = w.viewModels)
    (heffects : w'.effects = w.effects.push (w.record path t.model t.gated (.display sink node)))
    (hk : w.DocumentsKeep (fun s m => ¬ s.IsPlain ∨ s = sink ∧ m = node) w')
    (hdisplay : w'.Displays sink node (w.store.display v))
    (hback : sink = .input → w'.WritesBack node path t.model)
    (hmade : made.effects = scope.effects ++ [w.effects.size]) :
    Builds n scope w (.ok made, w') := by
  -- Exactly one effect is new.
  have hnew (e : EffectId) (effect : Effect σ) (hle : w.effects.size ≤ e)
      (he : w'.effects[e]? = some effect) :
      e = w.effects.size ∧ effect = w.record path t.model t.gated (.display sink node) := by
    rw [heffects, Array.getElem?_push] at he
    split at he
    · rename_i heq
      exact ⟨heq, by simpa using he.symm⟩
    · exact absurd (lt_size_of_effect he) (Nat.not_lt.2 hle)
  refine ⟨hg, hnames, hvms, fun _ _ hs => ?_, ?_, ?_⟩
  · refine hs.install hg (by simp [heffects]) hk fun e effect hle he => ?_
    obtain ⟨-, rfl⟩ := hnew e effect hle he
    refine ⟨rfl, w.store.display v, ?_, hdisplay, hback⟩
    rw [Effect.shown_eq _ hg.sameData]
    simp [Effect.shown, record, hv, Except.map]
  · rintro _ ⟨⟩ e he
    rw [hmade, List.mem_append, List.mem_singleton] at he
    rcases he with he | rfl
    · exact .inl he
    · refine .inr ⟨Nat.le_refl _, w.record path t.model t.gated (.display sink node), ?_, ?_⟩
      · rw [heffects, Array.getElem?_push, if_pos rfl]
      · rw [Effect.values, memory_record hv]
        exact List.cons_ne_nil _ _
  · rintro _ ⟨⟩ e he
    rw [hmade, List.mem_append, List.mem_singleton] at he
    refine he.imp_right ?_
    rintro rfl effect node' he hp
    obtain ⟨-, rfl⟩ := hnew _ effect (Nat.le_refl _) he
    obtain ⟨rfl, rfl⟩ : sink = .input ∧ node = node' := Prod.mk.inj (Option.some.inj hp)
    exact hback rfl

/-- A binding shows the value of its path. -/
theorem builds_bindValue (n : Nat) (scope : Scope) (expression : String) (sink : Sink)
    {m : NodeId} {w : World σ}
    (hnode : w.IsElement ⟨t.document, m⟩ ∨ sink = .text ∧ w.IsText ⟨t.document, m⟩)
    (hsink : sink ≠ .input) (hn : n ≤ w.effects.size) :
    Builds n scope w ((t.bindValue scope m expression sink).runOn w) := by
  rw [runOn_bindValue]
  let w₁ := w.construct ⟨expression⟩ t.model t.gated (.display sink ⟨t.document, m⟩)
  have hg : Grows n w w₁ := grows_construct n w
  cases hv : w.store.get ⟨expression⟩ t.model with
  | error f => exact .of_error hg rfl rfl
  | ok v =>
    have hnew : w₁.effects[w.effects.size]? =
        some (w.record ⟨expression⟩ t.model t.gated (.display sink ⟨t.document, m⟩)) := by
      rw [effects_construct, if_pos rfl]
    -- Only the sink of the new effect is written.
    have hkeep : w.DocumentsKeep
        (fun s k => ¬ s.IsPlain ∨ s = sink ∧ k = (⟨t.document, m⟩ : NodeRef))
        (w₁.writeSink sink ⟨t.document, m⟩ (w.store.display v)) :=
      (documentsKeep_construct w).trans (documentsKeep_writeSink w₁ _ (Or.inr ⟨rfl, rfl⟩))
    refine builds_hold hv (hg.trans (grows_writeSink hn hnew rfl _)) rfl rfl rfl hkeep ?_
      (fun h => absurd h hsink) rfl
    rcases hnode with hnode | ⟨rfl, hnode⟩
    · exact displays_writeSink_of_isElement (w := w₁) hnode sink _
    · exact displays_writeSink_of_isText (w := w₁) hnode _

/-! ### Templates in texts -/

theorem runOn_bindPlaceholders_cons (scope : Scope) (m : NodeId) (template : Interpolation)
    (path : KeyPath) (paths : List KeyPath) (w : World σ) :
    (t.bindPlaceholders scope m template (path :: paths)).runOn w =
      match w.store.get path t.model with
      | .error f =>
        (.error f, w.construct path t.model t.gated (.render template ⟨t.document, m⟩))
      | .ok v =>
        match (t.bindPlaceholders (scope.hold w.effects.size) m template paths).runOn
          (w.construct path t.model t.gated (.render template ⟨t.document, m⟩)) with
        | (.error f, w') => (.error f, w')
        | (.ok rest, w') => (.ok (rest.1, (path, v) :: rest.2), w') := by
  rw [bindPlaceholders, Act.runOn_bind, Act.runOn_newEffect]
  cases hget : w.store.get path t.model with
  | error f => rfl
  | ok v =>
    rw [Except.map]
    dsimp only
    rw [Act.runOn_bind, Act.runOn_lastValue, effects_construct, if_pos rfl]
    dsimp only
    rw [Act.runOn_bind]
    have hlast : (w.record path t.model t.gated (.render template ⟨t.document, m⟩)).last = v :=
      congrArg Memory.last (memory_record hget)
    simp only [Option.map_some, Option.getD_some, hlast]
    rcases (t.bindPlaceholders (scope.hold w.effects.size) m template paths).runOn
      (w.construct path t.model t.gated (.render template ⟨t.document, m⟩)) with ⟨_ | _, _⟩ <;> rfl

/-- Effects for placeholders are constructed; nothing is shown yet. -/
structure Binds (t : Setting σ) (n : Nat) (m : NodeId) (template : Interpolation)
    (w w' : World σ) : Prop where
  grows : Grows n w w'
  names_eq : w'.names = w.names
  viewModels_eq : w'.viewModels = w.viewModels
  documents_eq : w'.documents = w.documents
  reaction_eq : ∀ e effect, w.effects.size ≤ e → w'.effects[e]? = some effect →
    effect.reaction = .render template ⟨t.document, m⟩ ∧ effect.root = t.model ∧
      effect.gated = t.gated

theorem binds_construct (n : Nat) (m : NodeId) (template : Interpolation) (path : KeyPath)
    (w : World σ) : Binds t n m template w
      (w.construct path t.model t.gated (.render template ⟨t.document, m⟩)) where
  grows := grows_construct n w
  names_eq := rfl
  viewModels_eq := rfl
  documents_eq := rfl
  reaction_eq e effect hle he := by
    rw [effects_construct] at he
    split at he
    · obtain ⟨⟩ := he
      exact ⟨rfl, rfl, rfl⟩
    · exact absurd (lt_size_of_effect he) (Nat.not_lt.2 hle)

theorem Binds.trans {m : NodeId} {template : Interpolation} {w₁ w₂ w₃ : World σ}
    (h : Binds t n m template w₁ w₂) (h' : Binds t n m template w₂ w₃) :
    Binds t n m template w₁ w₃ where
  grows := h.grows.trans h'.grows
  names_eq := h'.names_eq.trans h.names_eq
  viewModels_eq := h'.viewModels_eq.trans h.viewModels_eq
  documents_eq := h'.documents_eq.trans h.documents_eq
  reaction_eq e effect hle he := by
    by_cases hlt : e < w₂.effects.size
    · rw [h'.grows.effects_eq e hlt] at he
      exact h.reaction_eq e effect hle he
    · exact h'.reaction_eq e effect (Nat.le_of_not_lt hlt) he

theorem binds_bindPlaceholders (n : Nat) (scope : Scope) (m : NodeId) (template : Interpolation)
    (paths : List KeyPath) (w : World σ) :
    Binds t n m template w ((t.bindPlaceholders scope m template paths).runOn w).2 := by
  induction paths generalizing scope w with
  | nil =>
    exact ⟨.refl n w, rfl, rfl, rfl, fun e effect hle he =>
      absurd (lt_size_of_effect he) (Nat.not_lt.2 hle)⟩
  | cons path paths ih =>
    have hfirst := binds_construct (t := t) n m template path w
    rw [runOn_bindPlaceholders_cons]
    cases w.store.get path t.model with
    | error f => exact hfirst
    | ok v =>
      have hrest := ih (scope.hold w.effects.size)
        (w.construct path t.model t.gated (.render template ⟨t.document, m⟩))
      dsimp only
      split <;> rename_i heq <;> rw [heq] at hrest <;> exact hfirst.trans hrest

/-- What was collected is what the placeholders resolve to, and each of them has an effect. -/
theorem collects_bindPlaceholders {m : NodeId} {template : Interpolation} {paths : List KeyPath}
    {made : Scope × List (KeyPath × Value)} {w' : World σ}
    (h : (t.bindPlaceholders scope m template paths).runOn w = (.ok made, w')) :
    w'.effects.size = w.effects.size + paths.length ∧
      made.2.map Prod.fst = paths ∧
      (∀ q ∈ made.2, w.store.get q.1 t.model = .ok q.2) ∧
      ∀ e ∈ made.1.effects, e ∈ scope.effects ∨
        w.effects.size ≤ e ∧ ∃ effect, w'.effects[e]? = some effect ∧ effect.values ≠ [] := by
  induction paths generalizing scope w made w' with
  | nil =>
    obtain ⟨⟨⟩, rfl⟩ := Prod.mk.inj h
    exact ⟨rfl, rfl, by simp, fun e he => .inl he⟩
  | cons path paths ih =>
    rw [runOn_bindPlaceholders_cons] at h
    cases hget : w.store.get path t.model with
    | error f =>
      rw [hget] at h
      cases h
    | ok v =>
      rw [hget] at h
      dsimp only at h
      split at h
      · cases h
      · rename_i rest w₂ hrest
        obtain ⟨⟨⟩, rfl⟩ := Prod.mk.inj h
        obtain ⟨hsize, hpaths, hvalues, hholds⟩ := ih hrest
        have hfirst := (binds_construct (t := t) 0 m template path w).grows
        have hlater := (binds_bindPlaceholders (t := t) 0 (scope.hold w.effects.size) m template
          paths (w.construct path t.model t.gated (.render template ⟨t.document, m⟩))).grows
        rw [hrest] at hlater
        -- The parts: how many effects, which paths, which values, and who is held.
        refine ⟨?_, by rw [List.map_cons, hpaths], ?_, fun e he => ?_⟩
        · rw [hsize, size_effects_construct, List.length_cons]
          omega
        · rintro q hq
          rcases List.mem_cons.1 hq with rfl | hq
          · exact hget
          · rw [← hfirst.sameData.get_eq]
            exact hvalues q hq
        · rcases hholds e he with he | ⟨hle, hnew⟩
          · rcases List.mem_append.1 he with he | he
            · exact .inl he
            · obtain rfl := List.mem_singleton.1 he
              refine .inr ⟨Nat.le_refl _,
                w.record path t.model t.gated (.render template ⟨t.document, m⟩), ?_, ?_⟩
              · rw [hlater.effects_eq _ (by simp), effects_construct, if_pos rfl]
              · rw [Effect.values, memory_record hget]
                exact List.cons_ne_nil _ _
          · exact .inr ⟨Nat.le_trans hfirst.size_le hle, hnew⟩

/-- A placeholder finds what was collected for a path with the same segments. -/
theorem get_eq_collected {s : Store} {root : MappingId} {values : List (KeyPath × Value)}
    {path : KeyPath} (hvalues : ∀ q ∈ values, s.get q.1 root = .ok q.2)
    (hpath : ∃ p ∈ values.map Prod.fst, p.segments = path.segments) :
    s.get path root = .ok (collected values path) := by
  obtain ⟨p, hp, hsegments⟩ := hpath
  obtain ⟨q, hq, rfl⟩ := List.mem_map.1 hp
  have hfound : (values.find? (·.1.segments == path.segments)).isSome := by
    rw [List.find?_isSome]
    exact ⟨q, hq, by simpa using hsegments⟩
  obtain ⟨r, hr⟩ := Option.isSome_iff_exists.1 hfound
  have hsame : r.1.segments = path.segments := by simpa using List.find?_some hr
  rw [collected, hr]
  exact Store.get_congr hsame.symm (hvalues r (List.mem_of_find?_eq_some hr))

/-- A text with placeholders creates an effect for each of them. It faults if one of them does or
if the text cannot be filled in, and else writes the text. -/
theorem bindText_cases (n : Nat) (scope : Scope) (m : NodeId) (w : World σ) {content : String}
    (hp : (Interpolation.parse content).hasPlaceholders = true) :
    (∃ f w₁, Binds t n m (.parse content) w w₁ ∧
      (t.bindText scope m content).runOn w = (.error f, w₁)) ∨
    ∃ bound w₁ s, Binds t n m (.parse content) w w₁ ∧
      (t.bindPlaceholders scope m (.parse content)
        (Interpolation.parse content).placeholders).runOn w = (.ok bound, w₁) ∧
      Interpolation.render
        (fun p => (.ok (w₁.store.display (collected bound.2 p)) : Except Fault String))
        (Interpolation.parse content).segments = .ok s ∧
      (t.bindText scope m content).runOn w =
        (.ok bound.1, w₁.writeSink .text ⟨t.document, m⟩ s) := by
  unfold bindText
  dsimp only
  rw [if_pos hp, Act.runOn_bind]
  have hbinds := binds_bindPlaceholders (t := t) n scope m (.parse content)
    (Interpolation.parse content).placeholders w
  rcases hr : (t.bindPlaceholders scope m (.parse content)
    (Interpolation.parse content).placeholders).runOn w with ⟨f | bound, w₁⟩
  · rw [hr] at hbinds
    exact .inl ⟨f, w₁, hbinds, rfl⟩
  · rw [hr] at hbinds
    dsimp only
    rw [Act.runOn_bind, Act.runOn_get]
    dsimp only
    rw [Act.runOn_bind, Act.runOn_ofExcept]
    cases hs : Interpolation.render
        (fun p => (.ok (w₁.store.display (collected bound.2 p)) : Except Fault String))
        (Interpolation.parse content).segments with
    | error f => exact .inl ⟨f, w₁, hbinds, rfl⟩
    | ok s => exact .inr ⟨bound, w₁, s, hbinds, rfl, hs, rfl⟩

/-- A text with placeholders shows the template, and one without shows the value of its path. -/
theorem builds_bindText (n : Nat) (scope : Scope) {m : NodeId} {w : World σ}
    (hnode : w.IsElement ⟨t.document, m⟩ ∨ w.IsText ⟨t.document, m⟩)
    (hn : n ≤ w.effects.size) (content : String) :
    Builds n scope w ((t.bindText scope m content).runOn w) := by
  by_cases htemplate : (Interpolation.parse content).hasPlaceholders = true
  · obtain ⟨f, w₁, hbinds, hrun⟩ | ⟨made, w₁, s, hbinds, hr, hs, hrun⟩ :=
      bindText_cases (t := t) n scope m w htemplate
    · rw [hrun]
      exact .of_error hbinds.grows hbinds.names_eq hbinds.viewModels_eq
    · rw [hrun]
      obtain ⟨hsize, hpaths, hvalues, hholds⟩ := collects_bindPlaceholders hr
      have hkeep : w.DocumentsKeep
          (fun s k => ¬ s.IsPlain ∨ s = .text ∧ k = (⟨t.document, m⟩ : NodeRef)) w₁ :=
        documentsKeep_of_eq hbinds.documents_eq
      have hwritten : w.DocumentsKeep
          (fun s k => ¬ s.IsPlain ∨ s = .text ∧ k = (⟨t.document, m⟩ : NodeRef))
          (w₁.writeSink .text ⟨t.document, m⟩ s) :=
        hkeep.trans (documentsKeep_writeSink w₁ s (Or.inr ⟨rfl, rfl⟩))
      -- All new effects have the same place, and each of them shows the whole text.
      have hplace (e : EffectId) (effect : Effect σ) (hle : w.effects.size ≤ e)
          (he : w₁.effects[e]? = some effect) :
          effect.place? = some (.text, ⟨t.document, m⟩) := by
        rw [Effect.place?, (hbinds.reaction_eq e effect hle he).1]
      -- There is at least one placeholder, so the text belongs to an effect.
      have hlt : w.effects.size < w₁.effects.size := by
        have hpos := List.length_pos_iff.2 (Interpolation.placeholders_ne_nil htemplate)
        omega
      have hfirst := Array.getElem?_eq_getElem hlt
      have hgrows := hbinds.grows.trans (grows_writeSink hn hfirst
        (hplace _ _ (Nat.le_refl _) hfirst) s)
      refine ⟨hgrows, hbinds.names_eq, hbinds.viewModels_eq, fun _ _ hshown => ?_, ?_, ?_⟩
      · refine hshown.install hgrows hlt hwritten fun e effect hle he =>
          ⟨hplace e effect hle he, s, ?_, ?_, by simp⟩
        · obtain ⟨hreaction, hroot, -⟩ := hbinds.reaction_eq e effect hle he
          rw [Effect.shown, hreaction, hroot, ← hs]
          refine Interpolation.render_congr fun p hp => ?_
          have hcollected : w₁.store.get p t.model = .ok (collected made.2 p) := by
            rw [hbinds.grows.sameData.get_eq]
            refine get_eq_collected hvalues ?_
            rw [hpaths]
            exact Interpolation.exists_mem_placeholders (Interpolation.mem_paths_iff.2 hp)
          change (w₁.store.get p t.model).map w₁.store.display = _
          rw [hcollected]
          rfl
        · rcases hnode with hnode | hnode
          · exact displays_writeSink_of_isElement (hkeep.isElement hnode) .text s
          · exact displays_writeSink_of_isText (hkeep.isText hnode) s
      · rintro _ ⟨⟩
        exact hholds
      · rintro _ ⟨⟩ e he
        rcases hholds e he with hold | ⟨hle, effect, heffect, -⟩
        · exact .inl hold
        · refine .inr (backs_of_place?_ne heffect fun node => ?_)
          rw [hplace e effect hle heffect]
          simp
  · unfold bindText
    dsimp only
    rw [if_neg htemplate]
    exact builds_bindValue n scope content .text (hnode.imp_right fun h => ⟨rfl, h⟩) (by simp) hn

/-! ### Nodes -/

/-- The directive of an attribute, with its expression. -/
theorem builds_install (n : Nat) (scope : Scope) {m : NodeId} {w : World σ}
    (hnode : w.IsElement ⟨t.document, m⟩) (hn : n ≤ w.effects.size) (expression : String)
    (directive : Directive) :
    Builds n scope w ((t.install scope m expression directive).runOn w) := by
  cases directive with
  | text => exact builds_bindText n scope (.inl hnode) hn expression
  | html => exact builds_bindValue n scope expression .markup (.inl hnode) (by simp) hn
  | bind name => exact builds_bindValue n scope expression (.attr name) (.inl hnode) (by simp) hn
  | on event =>
    rw [install, Act.runOn_bind, Act.runOn_ofExcept]
    cases t.methods.resolve expression with
    | error f => exact .fault n scope w f
    | ok listener =>
      exact .of_modifyDocument t (fun d => Document.keeps_addListener d m event listener) rfl
  | model =>
    rw [install, Act.runOn_bind, runOn_bindValue]
    let w₁ := w.construct ⟨expression⟩ t.model t.gated (.display .input ⟨t.document, m⟩)
    have hg : Grows n w w₁ := grows_construct n w
    cases hv : w.store.get ⟨expression⟩ t.model with
    | error f => exact .of_error hg rfl rfl
    | ok v =>
      -- The value is shown first, and then the listener is added that writes back.
      let w₂ := w₁.writeSink .input ⟨t.document, m⟩ (w.store.display v)
      let listen : Document (Listener σ) → Document (Listener σ) := fun d =>
        d.addListener m "input" (.writeBack ⟨expression⟩ t.model)
      change Builds n scope w
        (.ok (scope.hold w.effects.size).recordListener, w₂.modifyDocument t.document listen)
      -- A listener more leaves alone what is shown.
      have hlisten : w₂.DocumentsKeep (fun s _ => ¬ s.IsPlain)
          (w₂.modifyDocument t.document listen) :=
        documentsKeep_modifyDocument w₂ t.document fun d => Document.keeps_addListener d m _ _
      have hkeep : w.DocumentsKeep
          (fun s k => ¬ s.IsPlain ∨ s = .input ∧ k = (⟨t.document, m⟩ : NodeRef)) w₂ :=
        (documentsKeep_construct w).trans (documentsKeep_writeSink w₁ _ (Or.inr ⟨rfl, rfl⟩))
      have hnew : w₁.effects[w.effects.size]? =
          some (w.record ⟨expression⟩ t.model t.gated (.display .input ⟨t.document, m⟩)) := by
        rw [effects_construct, if_pos rfl]
      have hdisplay : w₂.Displays .input ⟨t.document, m⟩ (w.store.display v) :=
        displays_writeSink_of_isElement (w := w₁) hnode .input _
      have hplain : Sink.IsPlain .input := trivial
      exact builds_hold hv ((hg.trans (grows_writeSink hn hnew rfl _)).trans
          (grows_modifyDocument _ (hlisten.mono fun _ _ => .inl)))
        rfl rfl rfl (hkeep.trans (hlisten.mono fun _ _ => .inl))
        (hlisten.displays (fun h => h hplain) hdisplay)
        (fun _ => writesBack_addListener (hkeep.isElement hnode) _ _) rfl

/-- A directive is installed and removed; another attribute is left alone. -/
theorem builds_compileAttribute (n : Nat) (scope : Scope) {m : NodeId} {w : World σ}
    (hnode : w.IsElement ⟨t.document, m⟩) (hn : n ≤ w.effects.size) (a : String × String) :
    Builds n scope w ((t.compileAttribute m scope a).runOn w) := by
  rw [compileAttribute, Act.runOn_bind, Act.runOn_ofExcept]
  cases hparse : Directive.parse? a.1 with
  | error f => exact .fault n scope w f
  | ok parsed =>
    cases parsed with
    | none => exact .pure n scope w
    | some directive =>
      -- The attribute that is removed is a directive, which is no plain sink.
      refine Builds.bind (builds_install n scope hnode hn a.2 directive) fun made w₁ _ => ?_
      refine .of_modifyDocument t (fun d => Document.keeps_removeAttribute d m a.1 ?_) rfl
      intro hplain
      rw [Sink.IsPlain, hparse] at hplain
      cases hplain

/-- Only an element has attributes. -/
theorem isElement_of_mem_attributes {i : DocumentId} {m : NodeId} {a : String × String}
    (h : a ∈ (w.document i).attributes m) : w.IsElement ⟨i, m⟩ := by
  rw [World.document] at h
  cases hd : w.documents[i]? with
  | none =>
    rw [hd] at h
    cases m <;> cases h
  | some d =>
    rw [hd, Option.getD_some, Document.attributes] at h
    cases hel : d.element? m with
    | none =>
      rw [hel] at h
      cases h
    | some el => exact ⟨d, el, hd, Document.element?_eq_some_iff.1 hel⟩

theorem isText_of_sort_eq_text {i : DocumentId} {m : NodeId}
    (h : (w.document i).sort m = .text) : w.IsText ⟨i, m⟩ := by
  rw [World.document] at h
  cases hd : w.documents[i]? with
  | none =>
    rw [hd] at h
    cases m <;> cases h
  | some d =>
    rw [hd, Option.getD_some, Document.sort] at h
    split at h
    · cases h
    · rename_i s hs
      exact ⟨d, s, hd, hs⟩
    · cases h

/-- A node without those below it. -/
theorem builds_compileNode (n : Nat) (scope : Scope) (m : NodeId) {w : World σ}
    (hn : n ≤ w.effects.size) : Builds n scope w ((t.compileNode scope m).runOn w) := by
  have hdocument : t.currentDocument.runOn w = (.ok (w.document t.document), w) := rfl
  rw [compileNode, Act.runOn_bind, hdocument]
  dsimp only
  cases hsort : (w.document t.document).sort m with
  | element =>
    dsimp only
    -- That the node is an element follows from its having an attribute.
    by_cases hattributes : (w.document t.document).attributes m = []
    · rw [hattributes]
      exact .pure n scope w
    · obtain ⟨a, ha⟩ := List.exists_mem_of_ne_nil _ hattributes
      exact builds_foldlM (fun _ _ hg => hg.documents.isElement)
        (fun scope a _ w hw hn => builds_compileAttribute n scope hw hn a)
        scope w (isElement_of_mem_attributes ha) hn
  | text =>
    dsimp only
    split
    · exact builds_bindText n scope (.inr (isText_of_sort_eq_text hsort)) hn _
    · exact .pure n scope w
  | other => exact .pure n scope w

/-! ### Walks -/

/-- A node and those below it, if the nodes left to `inner` are fine. -/
theorem builds_visit {inner : Scope → NodeId → Act σ Scope}
    (hinner : ∀ (n : Nat) (scope : Scope) (m : NodeId) (w : World σ), n ≤ w.effects.size →
      Builds n scope w ((inner scope m).runOn w))
    (n depth : Nat) (scope : Scope) (m : NodeId) (w : World σ) (hn : n ≤ w.effects.size) :
    Builds n scope w ((t.visit inner depth scope m).runOn w) := by
  induction depth generalizing scope m w with
  | zero => exact .fault n scope w .exhausted
  | succ depth ih =>
    have hnode := builds_compileNode (t := t) n scope m hn
    change Builds n scope w ((t.compileNode scope m >>= fun made => do
      let d ← t.currentDocument
      if d.size = (w.document t.document).size then
        (d.children m).foldlM (t.visit inner depth) made
      else (d.children m).foldlM inner made).runOn w)
    -- The node itself may construct effects before those below it are visited.
    refine hnode.bind fun made w₁ hr => ?_
    rw [hr] at hnode
    have hn₁ := Nat.le_trans hn hnode.grows.size_le
    change Builds n made w₁ (Act.runOn (if (w₁.document t.document).size =
      (w.document t.document).size then
        ((w₁.document t.document).children m).foldlM (t.visit inner depth) made
      else ((w₁.document t.document).children m).foldlM inner made) w₁)
    split
    · exact builds_foldlM (P := fun _ => True) (fun _ _ _ _ => trivial)
        (fun scope m _ w _ hn => ih scope m w hn) made w₁ trivial hn₁
    · exact builds_foldlM (P := fun _ => True) (fun _ _ _ _ => trivial)
        (fun scope m _ w _ hn => hinner n scope m w hn) made w₁ trivial hn₁

theorem builds_walk (n rounds : Nat) (scope : Scope) (m : NodeId) (w : World σ)
    (hn : n ≤ w.effects.size) : Builds n scope w ((t.walk rounds scope m).runOn w) := by
  induction rounds generalizing n scope m w with
  | zero => exact .fault n scope w .exhausted
  | succ rounds ih => exact builds_visit ih n (w.document t.document).size scope m w hn

/-- A whole template. -/
theorem builds_compile (n : Nat) (root : NodeId) {w : World σ} (hn : n ≤ w.effects.size) :
    Builds n .empty w ((t.compile root).runOn w) := by
  let staged := (w.document t.document).children root
  let w₁ := w.modifyDocument t.document fun d => d.detachChildren root
  -- Detaching the children and attaching them again changes links only.
  have hdetach : w.DocumentsKeep (fun s _ => ¬ s.IsPlain) w₁ :=
    documentsKeep_modifyDocument w t.document fun d => Document.keeps_detachChildren d root
  have hwalk : Builds n .empty w₁
      ((staged.foldlM (t.walk (rounds w.store)) .empty).runOn w₁) :=
    builds_foldlM (P := fun _ => True) (fun _ _ _ _ => trivial)
      (fun scope m _ w' _ hn => builds_walk n (rounds w.store) scope m w' hn) .empty w₁ trivial hn
  change Builds n .empty w (((staged.foldlM (t.walk (rounds w.store)) .empty).runOn w₁).1,
    ((staged.foldlM (t.walk (rounds w.store)) .empty).runOn w₁).2.modifyDocument t.document
      fun d => d.appendChildren root staged)
  generalize (staged.foldlM (t.walk (rounds w.store)) .empty).runOn w₁ = r at hwalk ⊢
  have happend : r.2.DocumentsKeep (fun s _ => ¬ s.IsPlain)
      (r.2.modifyDocument t.document fun d => d.appendChildren root staged) :=
    documentsKeep_modifyDocument r.2 t.document fun d =>
      Document.keeps_appendChildren d root staged
  have hend : Grows n r.2 (r.2.modifyDocument t.document fun d => d.appendChildren root staged) :=
    grows_modifyDocument _ (happend.mono fun _ _ => .inl)
  exact
    { grows := ((grows_modifyDocument _ (hdetach.mono fun _ _ => .inl)).trans hwalk.grows).trans
        hend
      names_eq := hwalk.names_eq
      viewModels_eq := hwalk.viewModels_eq
      shown := fun made hm hs =>
        (hwalk.shown made hm (hs.keep rfl (.refl _) hdetach)).keep rfl (.refl _) happend
      holds := hwalk.holds
      backs := fun made hm e he => by
        rcases hwalk.holds made hm e he with hold | ⟨-, effect, heffect, -⟩
        · exact .inl hold
        · exact (hwalk.backs made hm e he).imp_right fun hback =>
            hback.of_later (lt_size_of_effect heffect) hend.later happend }

end Setting

end LiveBinding
