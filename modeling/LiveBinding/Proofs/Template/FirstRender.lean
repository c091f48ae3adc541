import LiveBinding.Proofs.Evolution.Engine
import LiveBinding.Proofs.Interpolation.Grammar
import LiveBinding.Proofs.Template.Walk
import LiveBinding.Scene.Run

/-!
# The first rendering of a text

When a text with placeholders is bound, its first content is put together from the values that the
new effects have collected, found by the segments of their paths. An update puts the content
together from the model. Both come to the same: constructing effects does not touch the data, and
each placeholder has an effect with its segments.

## Key definitions

- `Setting.FirstRender`: what binding a text does if all of its placeholders resolve

## Key results

- `Setting.runOn_bindPlaceholders`: the effects of placeholders that resolve
- `Setting.bindText_renders`: binding a text, up to the first placeholder that faults
-/

namespace LiveBinding

variable {σ : Type}

open World

namespace World

/-- What an effect is constructed as depends on the data only. -/
theorem record_congr {w w' : World σ} (h : w.store.SameData w'.store) (path : KeyPath)
    (root : MappingId) (gated : Bool) (reaction : Reaction σ) :
    w'.record path root gated reaction = w.record path root gated reaction := by
  rw [record, record, h.reads_eq, h.get_eq]

/-- A text that is shown on a text is its content. -/
theorem text_writeSink {w : World σ} {node : NodeRef} (h : w.IsText node) (s : String) :
    ((w.writeSink .text node s).document node.document).text node.node = s := by
  obtain ⟨d, t, hd, hc⟩ := h
  have hd' : (w.writeSink .text node s).documents[node.document]? =
      some (d.setText node.node s) := by
    rw [writeSink, documents_modifyDocument, if_pos rfl, hd]
    rfl
  rw [document_eq hd']
  apply Document.text_of_content?
  simp [Document.setText, hc, Document.content?_modifyContent]

end World

namespace Setting

variable {t : Setting σ} {scope : Scope} {n : NodeId} {w w' : World σ}

/-- If all placeholders resolve, one effect is constructed for each of them, in order. -/
theorem runOn_bindPlaceholders (scope : Scope) (n : NodeId) (template : Interpolation)
    {paths : List KeyPath} {w : World σ}
    (h : ∀ p ∈ paths, ∃ v, w.store.get p t.model = .ok v) :
    ∃ values w', (t.bindPlaceholders scope n template paths).runOn w =
        (.ok (⟨scope.effects ++ List.range' w.effects.size paths.length, scope.listeners⟩,
          values), w') ∧
      w'.effects = w.effects ++ (paths.map fun p =>
        w.record p t.model t.gated (.render template ⟨t.document, n⟩)).toArray := by
  induction paths generalizing scope w with
  | nil => exact ⟨[], w, by simp [bindPlaceholders], by simp⟩
  | cons path paths ih =>
    obtain ⟨⟨v, hv⟩, hrest⟩ := List.forall_mem_cons.1 h
    let w₁ := w.construct path t.model t.gated (.render template ⟨t.document, n⟩)
    have hsame : w.store.SameData w₁.store := (grows_construct 0 w).sameData
    obtain ⟨values, w', hrun, heffects⟩ := ih (scope.hold w.effects.size) (w := w₁)
      fun p hp => by simpa only [hsame.get_eq] using hrest p hp
    refine ⟨(path, v) :: values, w', ?_, ?_⟩
    · rw [runOn_bindPlaceholders_cons, hv]
      dsimp only
      rw [hrun]
      simp [Scope.hold, w₁, List.range'_succ]
    · simp only [record_congr hsame] at heffects
      simp [heffects, w₁, construct]

/-- What binding a text does if all of its placeholders resolve. -/
structure FirstRender (t : Setting σ) (n : NodeId) (content s : String) (w w' : World σ) :
    Prop where
  /-- There is one new effect for each placeholder, in order. -/
  effects_eq : w'.effects = w.effects ++ ((Interpolation.parse content).placeholders.map fun p =>
    w.record p t.model t.gated (.render (.parse content) ⟨t.document, n⟩)).toArray
  /-- The text is written, and nothing else. -/
  documents_eq : w'.documents = w.documents.modify t.document fun d => d.setText n s
  text_eq : (w'.document t.document).text n = s
  /-- It is the template with every placeholder read again. -/
  render_eq : (Act.render (fun p => Act.read p t.model) (.parse content)).runOn w = (.ok s, w)
  /-- It is what each of the new effects would write. -/
  react_eq : ∀ (call : Call σ) e effect v, w.effects.size ≤ e → w'.effects[e]? = some effect →
    w'.store.get effect.path effect.root = .ok v →
      (Act.react call effect v).runOn w' = (.ok ⟨⟩, w'.writeSink .text ⟨t.document, n⟩ s)
  /-- An update of a new effect leaves the text as it is. -/
  update_eq : ∀ (call : Call σ) e, w.effects.size ≤ e → ∃ w'',
    (Act.update call e).runOn w' = (.ok ⟨⟩, w'') ∧ (w''.document t.document).text n = s

/-- Rendering faults with the first placeholder that does. -/
theorem faultOf?_render (lookup : KeyPath → Except Fault String) (segments : List Segment) :
    faultOf? (Interpolation.render lookup segments) =
      (segments.filterMap Segment.path?).findSome? fun p => faultOf? (lookup p) := by
  induction segments with
  | nil => rfl
  | cons segment segments ih =>
    cases segment with
    | literal x =>
      rw [Interpolation.render, List.filterMap_cons, Segment.path?, ← ih]
      cases Interpolation.render lookup segments <;> rfl
    | placeholder p =>
      rw [Interpolation.render, List.filterMap_cons, Segment.path?, List.findSome?_cons, ← ih]
      cases lookup p with
      | error f => rfl
      | ok x => cases Interpolation.render lookup segments <;> rfl

/-- Among all paths and among the first ones of each list of segments, the first that faults is the
same: later ones resolve like the first one. -/
theorem findSome?_firstOfEachPath (s : Store) (root : MappingId) (paths : List KeyPath) :
    ((Interpolation.firstOfEachPath paths).findSome? fun p => faultOf? (s.get p root)) =
      paths.findSome? fun p => faultOf? (s.get p root) := by
  induction paths with
  | nil => rfl
  | cons path paths ih =>
    rw [Interpolation.firstOfEachPath, List.findSome?_cons, List.findSome?_cons, ← ih]
    cases hget : s.get path root with
    | error f => rfl
    | ok v =>
      rw [← List.head?_filterMap, ← List.head?_filterMap, List.filterMap_filter]
      refine congrArg (fun g => (List.filterMap g _).head?) (funext fun p => ?_)
      split
      · rfl
      · rename_i hsame
        rw [Store.get_congr (by simpa using hsame) hget, faultOf?]

/-- Rendering from the model faults with the first placeholder that does not resolve. -/
theorem faultOf?_render_get (s : Store) (model : MappingId) (template : Interpolation) :
    faultOf? (Interpolation.render (fun p => (s.get p model).map s.display) template.segments) =
      template.placeholders.findSome? fun p => faultOf? (s.get p model) := by
  have hmap (p : KeyPath) :
      faultOf? ((s.get p model).map s.display) = faultOf? (s.get p model) := by
    cases s.get p model <;> rfl
  rw [faultOf?_render, Interpolation.placeholders, findSome?_firstOfEachPath]
  simp only [hmap]
  rfl

/-- If all placeholders resolve, a template can be rendered from the model. -/
theorem exists_render_get_eq_ok {s : Store} {model : MappingId} {template : Interpolation}
    (h : ∀ p ∈ template.placeholders, ∃ v, s.get p model = .ok v) :
    ∃ x, Interpolation.render (fun p => (s.get p model).map s.display) template.segments =
      .ok x := by
  have hfault := faultOf?_render_get s model template
  rw [List.findSome?_eq_none_iff.2 fun p hp => by obtain ⟨v, hv⟩ := h p hp; rw [hv, faultOf?]]
    at hfault
  cases hr : Interpolation.render (fun p => (s.get p model).map s.display) template.segments with
  | error f => simp [hr, faultOf?] at hfault
  | ok x => exact ⟨x, rfl⟩

/-- Filling in placeholders is rendering from the model. -/
theorem filled_eq_render (s : Store) (model : MappingId) {content : String}
    (hcontent : containsPlaceholder content.toList = true) :
    s.filled model content = Interpolation.render (fun p => (s.get p model).map s.display)
      (Interpolation.parse content).segments := by
  rw [Store.filled, if_pos (by rw [Interpolation.hasPlaceholders_parse, hcontent]),
    ← faultOf?_render_get]
  cases Interpolation.render (fun p => (s.get p model).map s.display)
    (Interpolation.parse content).segments <;> rfl

/-- Rendering from the model. -/
theorem runOn_render_read (root : MappingId) (template : Interpolation) (w : World σ) :
    (Act.render (fun p => Act.read p root) template).runOn w =
      (Interpolation.render (fun p => (w.store.get p root).map w.store.display) template.segments,
        w) := by
  refine Act.runOn_render (f := fun p => w.store.get p root) fun p _ => ?_
  rw [Act.read, Act.runOn_readAlong]
  rfl

/-- An effect that renders a template which can be rendered writes what comes out. -/
theorem runOn_react_render (call : Call σ) {effect : Effect σ} {template : Interpolation}
    {node : NodeRef} (hreaction : effect.reaction = .render template node) {v : Value} {s : String}
    (hv : w.store.get effect.path effect.root = .ok v)
    (hs : Interpolation.render (fun p => (w.store.get p effect.root).map w.store.display)
      template.segments = .ok s) :
    (Act.react call effect v).runOn w = (.ok ⟨⟩, w.writeSink .text node s) := by
  have hplace : effect.place? = some (.text, node) := by rw [Effect.place?, hreaction]
  have hshown : effect.shown w.store = .ok s := by rw [Effect.shown, hreaction, ← hs]
  rw [Act.runOn_react_of_place?_eq_some hplace hv, hshown]

/-- What is new is an effect of one of the placeholders. -/
theorem exists_record {content : String} (heffects : w'.effects = w.effects ++
      ((Interpolation.parse content).placeholders.map fun p =>
        w.record p t.model t.gated (.render (.parse content) ⟨t.document, n⟩)).toArray)
    {e : EffectId} {effect : Effect σ} (hle : w.effects.size ≤ e)
    (he : w'.effects[e]? = some effect) :
    ∃ p ∈ (Interpolation.parse content).placeholders,
      w.record p t.model t.gated (.render (.parse content) ⟨t.document, n⟩) = effect := by
  rw [heffects, Array.getElem?_append_right hle, List.getElem?_toArray] at he
  exact List.mem_map.1 (List.mem_of_getElem? he)

/-- The effects of placeholders that resolve, and the text that rendering gives, written: this is
what rendering and the updates of the effects come to. -/
theorem firstRender_of {content s : String} (hn : w.IsText ⟨t.document, n⟩)
    (h : ∀ p ∈ (Interpolation.parse content).placeholders, ∃ v, w.store.get p t.model = .ok v)
    (hs : Interpolation.render (fun p => (w.store.get p t.model).map w.store.display)
      (Interpolation.parse content).segments = .ok s)
    (hsame : w.store.SameData w'.store)
    (heffects : w'.effects = w.effects ++ ((Interpolation.parse content).placeholders.map fun p =>
      w.record p t.model t.gated (.render (.parse content) ⟨t.document, n⟩)).toArray)
    (hdocuments : w'.documents = w.documents.modify t.document fun d => d.setText n s) :
    t.FirstRender n content s w w' := by
  have htext : (w'.document t.document).text n = s := by
    rw [World.document, hdocuments]
    exact text_writeSink hn s
  have hisText : w'.IsText ⟨t.document, n⟩ := by
    have hkeep : w.DocumentsKeep (fun _ _ => True) (w.writeSink .text ⟨t.document, n⟩ s) :=
      documentsKeep_writeSink w s trivial
    obtain ⟨d, u, hd, hc⟩ := hkeep.isText hn
    exact ⟨d, u, hdocuments ▸ hd, hc⟩
  -- Delivering a value changes neither the data nor the documents.
  have hreact (call : Call σ) {e : EffectId} {effect : Effect σ} {v : Value} {w'' : World σ}
      (hle : w.effects.size ≤ e) (he : w'.effects[e]? = some effect)
      (hstore : w''.store = w'.store) (hv : w'.store.get effect.path effect.root = .ok v) :
      (Act.react call effect v).runOn w'' = (.ok ⟨⟩, w''.writeSink .text ⟨t.document, n⟩ s) := by
    obtain ⟨p, -, rfl⟩ := exists_record heffects hle he
    refine runOn_react_render call rfl (by rwa [hstore]) ?_
    rw [hstore, ← hs, funext hsame.display_eq, record]
    simp only [hsame.get_eq]
  refine ⟨heffects, hdocuments, htext, by rw [runOn_render_read, hs],
    fun call e effect v hle he hv => hreact call hle he rfl hv, fun call e hle => ?_⟩
  rw [Act.runOn_update]
  cases he : w'.effects[e]? with
  | none => exact ⟨w', rfl, htext⟩
  | some effect =>
    obtain ⟨p, hp, heffect⟩ := exists_record heffects hle he
    obtain ⟨v, hv⟩ := h p hp
    have hget : w'.store.get effect.path effect.root = .ok v := by
      rw [hsame.get_eq, ← heffect]
      exact hv
    dsimp only
    rw [hget]
    dsimp only
    split
    · exact ⟨w', rfl, htext⟩
    · exact ⟨_, hreact call hle he rfl hget, text_writeSink (w := w'.deliver e v) hisText s⟩

/-- If all placeholders resolve, the text is written that an update would write. -/
theorem firstRender_bindText (scope : Scope) {content : String}
    (hn : w.IsText ⟨t.document, n⟩) (hcontent : containsPlaceholder content.toList = true)
    (h : ∀ p ∈ (Interpolation.parse content).placeholders, ∃ v, w.store.get p t.model = .ok v) :
    ∃ s w', (t.bindText scope n content).runOn w =
        (.ok ⟨scope.effects ++ List.range' w.effects.size
          (Interpolation.parse content).placeholders.length, scope.listeners⟩, w') ∧
      t.FirstRender n content s w w' := by
  obtain ⟨s, hs⟩ := exists_render_get_eq_ok h
  obtain ⟨values, w₁, hplaceholders, heffects⟩ :=
    runOn_bindPlaceholders scope n (.parse content) h
  have hdraws := draws_bindText (t := t) scope n content w
  rw [filled_eq_render _ _ hcontent, hs] at hdraws
  obtain ⟨f, w₂, -, hrun⟩ | ⟨bound, w₂, x, hbinds, hbound, -, hrun⟩ := bindText_cases (t := t) 0
    scope n w ((Interpolation.hasPlaceholders_parse content).trans hcontent)
  · rw [hrun] at hdraws
    cases hdraws
  · rw [hrun] at hdraws
    obtain ⟨⟨⟩, rfl⟩ := Prod.mk.inj (hbound.symm.trans hplaceholders)
    cases hdraws with
    | change hsame hdocuments =>
      exact ⟨s, _, hrun, firstRender_of hn h hs hsame heffects hdocuments⟩

/-- The first placeholder that does not resolve is the fault, of binding a text as of rendering it,
and nothing is written. -/
theorem runOn_bindText_of_error (scope : Scope) {content : String}
    (hcontent : containsPlaceholder content.toList = true) {f : Fault}
    (hf : ((Interpolation.parse content).placeholders.findSome? fun p =>
      faultOf? (w.store.get p t.model)) = some f) :
    ∃ w', (t.bindText scope n content).runOn w = (.error f, w') ∧ w'.documents = w.documents ∧
      (Act.render (fun p => Act.read p t.model) (.parse content)).runOn w = (.error f, w) := by
  have hfilled : w.store.filled t.model content = .error f := by
    rw [Store.filled, if_pos (by rw [Interpolation.hasPlaceholders_parse, hcontent]), hf]
  have hdraws := draws_bindText (t := t) scope n content w
  rw [runOn_render_read, ← filled_eq_render _ _ hcontent, hfilled]
  rw [hfilled] at hdraws
  generalize (t.bindText scope n content).runOn w = r at hdraws
  cases hdraws with
  | fault _ hdocuments => exact ⟨_, rfl, hdocuments, rfl⟩

/-- Binding a text with placeholders constructs one effect for each list of segments, in the order
in which they appear first. If all placeholders resolve, the text is written that rendering from
the model gives, and that an update of each of these effects would write. Otherwise the first
placeholder that faults is the fault, and nothing is written. -/
theorem bindText_renders (t : Setting σ) (scope : Scope) (n : NodeId) (content : String)
    (w : World σ) (hn : (w.document t.document).sort n = .text)
    (hcontent : containsPlaceholder content.toList = true) :
    let template := Interpolation.parse content
    Interpolation.IsFirsts template.paths template.placeholders ∧
      ((∀ p ∈ template.placeholders, ∃ v, w.store.get p t.model = .ok v) →
        ∃ s w', (t.bindText scope n content).runOn w =
            (.ok ⟨scope.effects ++ List.range' w.effects.size template.placeholders.length,
              scope.listeners⟩, w') ∧
          t.FirstRender n content s w w') ∧
      ∀ before p after f, template.placeholders = before ++ p :: after →
        (∀ q ∈ before, ∃ v, w.store.get q t.model = .ok v) → w.store.get p t.model = .error f →
          ∃ w', (t.bindText scope n content).runOn w = (.error f, w') ∧
            w'.documents = w.documents ∧
            (Act.render (fun p => Act.read p t.model) template).runOn w = (.error f, w) := by
  refine ⟨Interpolation.isFirsts_placeholders _,
    firstRender_bindText scope (isText_of_sort_eq_text hn) hcontent, ?_⟩
  intro before p after f hp hbefore hf
  apply runOn_bindText_of_error scope hcontent
  have hnone : (before.findSome? fun p => faultOf? (w.store.get p t.model)) = none := by
    rw [List.findSome?_eq_none_iff]
    intro q hq
    obtain ⟨v, hv⟩ := hbefore q hq
    rw [hv, faultOf?]
  rw [hp, List.findSome?_append, hnone, Option.none_or, List.findSome?_cons, hf, faultOf?]

/-- A placeholder that is repeated with blanks, a length and a missing key, and then a placeholder
that goes through a text. -/
theorem bindText_renders_repeated :
    let w := Scene.after callDepth (Scene.start "<div>x</div>") [
      .model (.create "m" (.object [("a", .text "v"), ("q", .array [.null, .null])]))]
    let t : Setting Script := ⟨0, 0, .empty, false⟩
    let content :=
      "\x7b\x7ba\x7d\x7d \x7b\x7b a \x7d\x7d-\x7b\x7bq.length\x7d\x7d\x7b\x7bb\x7d\x7d"
    (∃ w', (t.bindText .empty 2 content).runOn w = (.ok ⟨[0, 1, 2], 0⟩, w') ∧
        t.FirstRender 2 content "v v-2" w w') ∧
      ∃ w' f, (t.bindText .empty 2 "\x7b\x7ba\x7d\x7d\x7b\x7ba.x\x7d\x7d").runOn w =
        (.error f, w') ∧ w'.documents = w.documents := by
  intro w t content
  have hplaceholders :
      (Interpolation.parse content).placeholders = [⟨"a"⟩, ⟨"q.length"⟩, ⟨"b"⟩] := by
    decide +kernel
  obtain ⟨-, hrenders, -⟩ := bindText_renders t .empty 2 content w (by decide +kernel)
    (by decide +kernel)
  obtain ⟨-, -, hfaults⟩ := bindText_renders t .empty 2
    "\x7b\x7ba\x7d\x7d\x7b\x7ba.x\x7d\x7d" w (by decide +kernel) (by decide +kernel)
  constructor
  · obtain ⟨s, w', hrun, hfirst⟩ := hrenders <| by
      rw [hplaceholders]
      simp only [List.forall_mem_cons, List.not_mem_nil, false_imp_iff, implies_true, and_true]
      exact ⟨⟨.text "v", rfl⟩, ⟨_, rfl⟩, ⟨.null, rfl⟩⟩
    -- The text is the one that rendering from the model gives.
    obtain rfl : s = "v v-2" := by
      have hrender : ((Act.render (fun p => Act.read p t.model) (.parse content)).runOn w).1 =
          .ok "v v-2" := by decide +kernel
      simpa [hfirst.render_eq] using hrender
    rw [hplaceholders] at hrun
    exact ⟨w', hrun, hfirst⟩
  · obtain ⟨w', hrun, hdocuments, -⟩ := hfaults [⟨"a"⟩] ⟨"a.x"⟩ []
      (.pathResolution "a.x" "x" .text) (by decide +kernel)
      (by simpa using ⟨.text "v", rfl⟩) rfl
    exact ⟨w', _, hrun, hdocuments⟩

end Setting

end LiveBinding
