import LiveBinding.Proofs.Evolution.Later
import LiveBinding.Reactive.Effect
import Mathlib.Data.List.Basic

/-!
# Constructing effects

The construction of an effect reads its path once: the effect is registered with every cell that
the resolution reads, once for each read, whether the path faults or not. `Grows` composes, so that
a compilation grows the world if its parts do. `Shown` is kept by whatever leaves the places of the
effects alone, and by the installation of effects that show what they should in one new place.

## Key results

- `runOn_newEffect`, `grows_construct`: what a construction does
- `Grows.trans`: growing in two steps
- `Shown.keep`, `Shown.install`: how effects go on showing what they should
-/

namespace LiveBinding

variable {σ : Type}

/-- What an effect shows does not depend on watchers. -/
theorem Effect.shown_eq (effect : Effect σ) {s s' : Store} (h : s.SameData s') :
    effect.shown s' = effect.shown s := by
  have hdisplay : s'.display = s.display := funext h.display_eq
  cases hr : effect.reaction <;> simp only [shown, hr, h.get_eq, hdisplay]

/-- What is kept of a content goes on showing what it shows. -/
theorem Content.Keeps.displays {κ : Type} {free : Sink → Prop} {c c' : Content κ}
    (h : c.Keeps free c') {sink : Sink} (hfree : ¬ free sink) {s : String}
    (hs : c.Displays sink s) : c'.Displays sink s := by
  cases sink with
  | text =>
    rintro t rfl
    cases c with
    | text u => rw [h hfree, hs u rfl]
    | element => exact h.elim
    | comment => exact h.elim
  | markup => trivial
  | input =>
    obtain ⟨e, rfl, hinput⟩ := hs
    obtain ⟨e', rfl, -, hkeep, -⟩ := h.exists_element
    exact ⟨e', rfl, (hkeep hfree).trans hinput⟩
  | attr name =>
    obtain ⟨e, rfl, hattr⟩ := hs
    obtain ⟨e', rfl, hkeep, -, -⟩ := h.exists_element
    exact ⟨e', rfl, (hkeep name hfree).trans hattr⟩

namespace World

/-! ### Documents -/

variable {free free' : Sink → NodeRef → Prop}

theorem DocumentsKeep.refl (free : Sink → NodeRef → Prop) (w : World σ) : w.DocumentsKeep free w :=
  fun _ d hd => ⟨d, hd, .refl _ d⟩

theorem DocumentsKeep.trans {w₁ w₂ w₃ : World σ} (h : w₁.DocumentsKeep free w₂)
    (h' : w₂.DocumentsKeep free w₃) : w₁.DocumentsKeep free w₃ := by
  intro i d hd
  obtain ⟨d', hd', hk⟩ := h i d hd
  obtain ⟨d'', hd'', hk'⟩ := h' i d' hd'
  exact ⟨d'', hd'', hk.trans hk'⟩

theorem DocumentsKeep.mono {w w' : World σ} (h : w.DocumentsKeep free w')
    (hfree : ∀ sink node, free sink node → free' sink node) : w.DocumentsKeep free' w' := by
  intro i d hd
  obtain ⟨d', hd', hk⟩ := h i d hd
  exact ⟨d', hd', hk.mono fun sink n => hfree sink ⟨i, n⟩⟩

/-- Worlds with the same documents. -/
theorem documentsKeep_of_eq {w w' : World σ} (h : w'.documents = w.documents) :
    w.DocumentsKeep free w' :=
  fun _ d hd => ⟨d, by rw [h]; exact hd, .refl _ d⟩

theorem document_eq {w : World σ} {i : DocumentId} {d : Document (Listener σ)}
    (hd : w.documents[i]? = some d) : w.document i = d := by
  rw [document, hd, Option.getD_some]

theorem documents_modifyDocument (w : World σ) (i j : DocumentId)
    (f : Document (Listener σ) → Document (Listener σ)) :
    (w.modifyDocument i f).documents[j]? =
      if i = j then (w.documents[j]?).map f else w.documents[j]? := by
  simp [modifyDocument, Array.getElem?_modify]

theorem documentsKeep_modifyDocument_of_some (w : World σ) (i : DocumentId)
    {f : Document (Listener σ) → Document (Listener σ)}
    (h : ∀ d, w.documents[i]? = some d → Document.Keeps (fun sink n => free sink ⟨i, n⟩) d (f d)) :
    w.DocumentsKeep free (w.modifyDocument i f) := by
  intro j d hd
  rw [documents_modifyDocument]
  by_cases hj : i = j
  · subst hj
    rw [if_pos rfl, hd]
    exact ⟨f d, rfl, h d hd⟩
  · rw [if_neg hj]
    exact ⟨d, hd, .refl _ d⟩

theorem documentsKeep_modifyDocument (w : World σ) (i : DocumentId)
    {f : Document (Listener σ) → Document (Listener σ)}
    (h : ∀ d, Document.Keeps (fun sink n => free sink ⟨i, n⟩) d (f d)) :
    w.DocumentsKeep free (w.modifyDocument i f) :=
  documentsKeep_modifyDocument_of_some w i fun d _ => h d

/-- Showing a text on a node changes at most this sink of this node. -/
theorem documentsKeep_writeSink (w : World σ) {sink : Sink} {node : NodeRef} (s : String)
    (h : free sink node) : w.DocumentsKeep free (w.writeSink sink node s) := by
  refine documentsKeep_modifyDocument w node.document fun d => ?_
  obtain ⟨i, n⟩ := node
  cases sink with
  | text => exact Document.keeps_setText d n s h
  | markup => exact Document.keeps_setMarkup d n s
  | input => exact Document.keeps_setInputValue d n s h
  | attr name => exact Document.keeps_setAttribute d n name s h

/-- A sink that may not change goes on showing what it shows. -/
theorem DocumentsKeep.displays {w w' : World σ} (h : w.DocumentsKeep free w') {sink : Sink}
    {node : NodeRef} (hfree : ¬ free sink node) {s : String} (hs : w.Displays sink node s) :
    w'.Displays sink node s := by
  obtain ⟨d, c, hd, hc, hshow⟩ := hs
  obtain ⟨d', hd', hkeep⟩ := h node.document d hd
  obtain ⟨c', hc', hcc⟩ := hkeep node.node c hc
  exact ⟨d', c', hd', hc', hcc.displays hfree hshow⟩

/-- The node is an element. -/
def IsElement (w : World σ) (node : NodeRef) : Prop :=
  ∃ d el, w.documents[node.document]? = some d ∧ d.content? node.node = some (.element el)

/-- The node is a text. -/
def IsText (w : World σ) (node : NodeRef) : Prop :=
  ∃ d s, w.documents[node.document]? = some d ∧ d.content? node.node = some (.text s)

theorem DocumentsKeep.isElement {w w' : World σ} (h : w.DocumentsKeep free w') {node : NodeRef}
    (hn : w.IsElement node) : w'.IsElement node := by
  obtain ⟨d, el, hd, hc⟩ := hn
  obtain ⟨d', hd', hkeep⟩ := h node.document d hd
  obtain ⟨c', hc', hcc⟩ := hkeep node.node _ hc
  obtain ⟨el', rfl, -⟩ := hcc.exists_element
  exact ⟨d', el', hd', hc'⟩

theorem DocumentsKeep.isText {w w' : World σ} (h : w.DocumentsKeep free w') {node : NodeRef}
    (hn : w.IsText node) : w'.IsText node := by
  obtain ⟨d, s, hd, hc⟩ := hn
  obtain ⟨d', hd', hkeep⟩ := h node.document d hd
  obtain ⟨c', hc', hcc⟩ := hkeep node.node _ hc
  obtain ⟨s', rfl, -⟩ := hcc.exists_text
  exact ⟨d', s', hd', hc'⟩

/-- Listeners are never taken away. -/
theorem DocumentsKeep.writesBack {w w' : World σ} (h : w.DocumentsKeep free w') {node : NodeRef}
    {path : KeyPath} {root : MappingId} (hn : w.WritesBack node path root) :
    w'.WritesBack node path root := by
  obtain ⟨d, el, hd, hc, hl⟩ := hn
  obtain ⟨d', hd', hkeep⟩ := h node.document d hd
  obtain ⟨c', hc', hcc⟩ := hkeep node.node _ hc
  obtain ⟨el', rfl, -, -, hlisteners⟩ := hcc.exists_element
  exact ⟨d', el', hd', hc', hlisteners _ hl⟩

/-- What is shown on an element is displayed there. -/
theorem displays_writeSink_of_isElement {w : World σ} {node : NodeRef} (h : w.IsElement node)
    (sink : Sink) (s : String) : (w.writeSink sink node s).Displays sink node s := by
  have hkeep : w.DocumentsKeep (fun _ _ => True) (w.writeSink sink node s) :=
    documentsKeep_writeSink w s trivial
  obtain ⟨d, el, hd, hc⟩ := h
  obtain ⟨d', el', hd', hc'⟩ := hkeep.isElement ⟨d, el, hd, hc⟩
  refine ⟨d', .element el', hd', hc', ?_⟩
  -- What the element looks like afterwards is read off the operation of each sink.
  rw [writeSink, documents_modifyDocument, if_pos rfl, hd, Option.map_some,
    Option.some.injEq] at hd'
  cases sink with
  | text =>
    intro _ ht
    cases ht
  | markup => trivial
  | input =>
    refine ⟨el', rfl, ?_⟩
    obtain rfl : d.setInputValue node.node s = d' := hd'
    rw [Document.setInputValue, Document.modifyElement, Document.content?_modifyContent,
      if_pos rfl, hc] at hc'
    obtain rfl : _ = el' := by simpa using hc'
    rfl
  | attr name =>
    refine ⟨el', rfl, ?_⟩
    obtain rfl : d.setAttribute node.node name s = d' := hd'
    rw [Document.setAttribute, Document.modifyElement, Document.content?_modifyContent,
      if_pos rfl, hc] at hc'
    obtain rfl : _ = el' := by simpa using hc'
    exact Fields.get?_put_self _ _ _

/-- What is shown as the text of a text is displayed there. -/
theorem displays_writeSink_of_isText {w : World σ} {node : NodeRef} (h : w.IsText node)
    (s : String) : (w.writeSink .text node s).Displays .text node s := by
  obtain ⟨d, t, hd, hc⟩ := h
  refine ⟨d.setText node.node s, .text s, ?_, ?_, ?_⟩
  · rw [writeSink, documents_modifyDocument, if_pos rfl, hd]
    rfl
  · simp [Document.setText, hc, Document.content?_modifyContent]
  · rintro u ⟨⟩
    rfl

/-- Where something is displayed, something else can be. -/
theorem displays_writeSink {w : World σ} {sink : Sink} {node : NodeRef} {t : String}
    (h : w.Displays sink node t) (s : String) :
    (w.writeSink sink node s).Displays sink node s := by
  have hkeep : w.DocumentsKeep (fun _ _ => True) (w.writeSink sink node s) :=
    documentsKeep_writeSink w s trivial
  obtain ⟨d, c, hd, hc, hshow⟩ := h
  obtain ⟨d', hd', hdd⟩ := hkeep node.document d hd
  obtain ⟨c', hc', hcc⟩ := hdd node.node c hc
  cases sink with
  | text =>
    cases c with
    | text u => exact displays_writeSink_of_isText ⟨d, u, hd, hc⟩ s
    | element el => exact displays_writeSink_of_isElement ⟨d, el, hd, hc⟩ .text s
    | comment u =>
      refine ⟨d', c', hd', hc', ?_⟩
      rintro v rfl
      exact hcc.elim
  | markup => exact ⟨d', c', hd', hc', trivial⟩
  | input =>
    obtain ⟨el, rfl, -⟩ := hshow
    exact displays_writeSink_of_isElement ⟨d, el, hd, hc⟩ .input s
  | attr name =>
    obtain ⟨el, rfl, -⟩ := hshow
    exact displays_writeSink_of_isElement ⟨d, el, hd, hc⟩ (.attr name) s

/-- A listener that writes back hears of typed texts. -/
theorem WritesBack.mem_listenersFor {w : World σ} {node : NodeRef} {path : KeyPath}
    {root : MappingId} (h : w.WritesBack node path root) :
    .writeBack path root ∈ (w.document node.document).listenersFor node.node "input" := by
  obtain ⟨d, el, hd, hc, hl⟩ := h
  have hel : d.element? node.node = some el := Document.element?_eq_some_iff.2 hc
  rw [document, hd, Option.getD_some, Document.listenersFor, hel]
  exact List.mem_map.2 ⟨_, List.mem_filter.2 ⟨hl, rfl⟩, rfl⟩

/-- A listener that was just added writes back. -/
theorem writesBack_addListener {w : World σ} {i : DocumentId} {n : NodeId}
    (h : w.IsElement ⟨i, n⟩) (path : KeyPath) (root : MappingId) :
    (w.modifyDocument i fun d => d.addListener n "input" (.writeBack path root)).WritesBack
      ⟨i, n⟩ path root := by
  obtain ⟨d, el, hd, hc⟩ := h
  refine ⟨d.addListener n "input" (.writeBack path root),
    { el with listeners := el.listeners ++ [("input", .writeBack path root)] }, ?_, ?_, ?_⟩
  · rw [documents_modifyDocument, if_pos rfl, hd]
    rfl
  · rw [Document.addListener, Document.modifyElement, Document.content?_modifyContent, if_pos rfl,
      hc]
    rfl
  · exact List.mem_append_right _ (List.mem_singleton.2 rfl)

/-- An effect is in no input, or the input writes back to what the effect shows. -/
def Backs (w : World σ) (e : EffectId) : Prop :=
  ∀ effect node, w.effects[e]? = some effect → effect.place? = some (.input, node) →
    w.WritesBack node effect.path effect.root

/-- Effects keep their places, and inputs their listeners. -/
theorem Backs.of_later {w w' : World σ} {e : EffectId} (h : w.Backs e)
    (hlt : e < w.effects.size) (hl : w.Later w') (hd : w.DocumentsKeep free w') : w'.Backs e := by
  intro effect node he hp
  have hold := Array.getElem?_eq_getElem hlt
  obtain ⟨vs, hvs⟩ := hl.effects_eq e _ hold
  obtain rfl := Option.some.inj (he.symm.trans hvs)
  exact hd.writesBack (h w.effects[e] node hold hp)

/-- An effect with another sink is in no input. -/
theorem backs_of_place?_ne {w : World σ} {e : EffectId} {effect : Effect σ}
    (he : w.effects[e]? = some effect) (hp : ∀ node, effect.place? ≠ some (.input, node)) :
    w.Backs e := by
  intro effect' node he' hp'
  obtain rfl := Option.some.inj (he.symm.trans he')
  exact absurd hp' (hp node)

/-! ### Growing -/

theorem readsOf_eq {w w' : World σ} {e : EffectId} (h : w'.effects[e]? = w.effects[e]?)
    (c : CellId) : w'.readsOf e c = w.readsOf e c := by
  rw [readsOf, readsOf, h]

theorem registrationsFrom_size (w : World σ) (c : CellId) :
    w.registrationsFrom w.effects.size c = [] := by
  simp [registrationsFrom]

/-- The registrations of the effects constructed first and then of the others. -/
theorem registrationsFrom_append {w w' : World σ} {n : Nat} (hn : n ≤ w.effects.size)
    (hsize : w.effects.size ≤ w'.effects.size) (c : CellId)
    (h : ∀ e, e < w.effects.size → w'.readsOf e c = w.readsOf e c) :
    w'.registrationsFrom n c =
      w.registrationsFrom n c ++ w'.registrationsFrom w.effects.size c := by
  have hsplit : w'.effects.size - n =
      (w.effects.size - n) + (w'.effects.size - w.effects.size) := by omega
  have hmiddle : n + (w.effects.size - n) = w.effects.size := by omega
  -- The old effects have read the same cells as before.
  have hold : (List.range' n (w.effects.size - n)).flatMap
        (fun e => List.replicate (w'.readsOf e c) e) = w.registrationsFrom n c := by
    refine List.flatMap_congr fun e he => ?_
    have hlt := (List.mem_range'_1.1 he).2
    rw [hmiddle] at hlt
    rw [h e hlt]
  rw [registrationsFrom, hsplit, ← List.range'_append_1, List.flatMap_append, hold, hmiddle]
  rfl

theorem mem_registrationsFrom {w : World σ} {n : Nat} (hn : n ≤ w.effects.size) {c : CellId}
    {e : EffectId} (h : e ∈ w.registrationsFrom n c) : n ≤ e ∧ e < w.effects.size := by
  obtain ⟨e', he', he⟩ := List.mem_flatMap.1 h
  obtain rfl := List.eq_of_mem_replicate he
  obtain ⟨hle, hlt⟩ := List.mem_range'_1.1 he'
  rw [Nat.add_sub_cancel' hn] at hlt
  exact ⟨hle, hlt⟩

theorem isAlive_of_eq {w w' : World σ} (hn : w'.names = w.names)
    (hv : w'.viewModels = w.viewModels) (hp : w'.passes = w.passes)
    (hr : w'.receivers = w.receivers) (e : EffectId) : w'.isAlive e = w.isAlive e := by
  simp only [isAlive, isBound, isViewModelAlive, hn, hv, hp, hr]

theorem Grows.refl (n : Nat) (w : World σ) : Grows n w w where
  sameData := .refl _
  size_le := Nat.le_refl _
  effects_eq _ _ := rfl
  watched_eq _ _ hle he := absurd (lt_size_of_effect he) (Nat.not_lt.2 hle)
  memory_eq _ _ hle he := absurd (lt_size_of_effect he) (Nat.not_lt.2 hle)
  watchers_eq c _ := by rw [registrationsFrom_size, List.append_nil]
  documents := .refl _ w
  isAlive_of _ _ h := h
  collectors_eq := rfl
  passes_eq := rfl
  receivers_eq := rfl
  abortedPasses_eq := rfl
  abortedDispatches_eq := rfl
  enlisted_eq := rfl
  touched_eq := rfl
  changes_eq := rfl
  moments_eq := rfl

theorem Grows.trans {n : Nat} {w₁ w₂ w₃ : World σ} (h : Grows n w₁ w₂) (h' : Grows n w₂ w₃) :
    Grows n w₁ w₃ where
  sameData := h.sameData.trans h'.sameData
  size_le := Nat.le_trans h.size_le h'.size_le
  effects_eq e he := by
    rw [h'.effects_eq e (Nat.lt_of_lt_of_le he h.size_le), h.effects_eq e he]
  -- A new effect is new in the first step or in the second.
  watched_eq e effect hle he := by
    by_cases hlt : e < w₂.effects.size
    · rw [h'.effects_eq e hlt] at he
      exact h.watched_eq e effect hle he
    · rw [h'.watched_eq e effect (Nat.le_of_not_lt hlt) he, h.sameData.reads_eq]
  memory_eq e effect hle he := by
    by_cases hlt : e < w₂.effects.size
    · rw [h'.effects_eq e hlt] at he
      exact h.memory_eq e effect hle he
    · rw [h'.memory_eq e effect (Nat.le_of_not_lt hlt) he, h.sameData.get_eq]
  watchers_eq c hc := by
    rw [h'.watchers_eq c (by rwa [h.sameData.size_eq]), h.watchers_eq c hc,
      registrationsFrom_append h.size_le h'.size_le c fun e he => readsOf_eq (h'.effects_eq e he) c,
      List.append_assoc]
  documents := by
    refine (h.documents.mono ?_).trans h'.documents
    rintro sink node (hplain | ⟨e, effect, hle, he, hp⟩)
    · exact .inl hplain
    · exact .inr ⟨e, effect, hle, h'.effect_eq he, hp⟩
  isAlive_of e he halive := h.isAlive_of e he (h'.isAlive_of e he halive)
  collectors_eq := h'.collectors_eq.trans h.collectors_eq
  passes_eq := h'.passes_eq.trans h.passes_eq
  receivers_eq := h'.receivers_eq.trans h.receivers_eq
  abortedPasses_eq := h'.abortedPasses_eq.trans h.abortedPasses_eq
  abortedDispatches_eq := h'.abortedDispatches_eq.trans h.abortedDispatches_eq
  enlisted_eq := h'.enlisted_eq.trans h.enlisted_eq
  touched_eq := h'.touched_eq.trans h.touched_eq
  changes_eq := h'.changes_eq.trans h.changes_eq
  moments_eq := h'.moments_eq.trans h.moments_eq

/-- Only documents change, and in them only what may change. -/
theorem grows_modifyDocument {n : Nat} {w : World σ} (i : DocumentId)
    {f : Document (Listener σ) → Document (Listener σ)}
    (h : w.DocumentsKeep (fun sink node => ¬ sink.IsPlain ∨ ∃ e effect, n ≤ e ∧
      w.effects[e]? = some effect ∧ effect.place? = some (sink, node)) (w.modifyDocument i f)) :
    Grows n w (w.modifyDocument i f) where
  sameData := .refl _
  size_le := Nat.le_refl _
  effects_eq _ _ := rfl
  watched_eq _ _ hle he := absurd (lt_size_of_effect he) (Nat.not_lt.2 hle)
  memory_eq _ _ hle he := absurd (lt_size_of_effect he) (Nat.not_lt.2 hle)
  watchers_eq c _ := by simp [modifyDocument, registrationsFrom]
  documents := h
  isAlive_of _ _ halive := halive
  collectors_eq := rfl
  passes_eq := rfl
  receivers_eq := rfl
  abortedPasses_eq := rfl
  abortedDispatches_eq := rfl
  enlisted_eq := rfl
  touched_eq := rfl
  changes_eq := rfl
  moments_eq := rfl

/-! ### Constructing one effect -/

/-- The record of an effect that is constructed. -/
def record (w : World σ) (path : KeyPath) (root : MappingId) (gated : Bool)
    (reaction : Reaction σ) : Effect σ where
  path := path
  root := root
  gated := gated
  reaction := reaction
  watched := w.store.reads path root
  memory :=
    match w.store.get path root with
    | .ok v => Memory.empty.start v
    | .error _ => .empty

/-- An effect starts with the value that its path has. -/
theorem memory_record {w : World σ} {path : KeyPath} {root : MappingId} {gated : Bool}
    {reaction : Reaction σ} {v : Value} (h : w.store.get path root = .ok v) :
    (w.record path root gated reaction).memory = Memory.empty.start v := by
  rw [record, h]

/-- An effect is constructed. -/
def construct (w : World σ) (path : KeyPath) (root : MappingId) (gated : Bool)
    (reaction : Reaction σ) : World σ :=
  { w with
    effects := w.effects.push (w.record path root gated reaction)
    store := (w.store.reads path root).foldl (fun s c => s.watch c w.effects.size) w.store }

variable {path : KeyPath} {root : MappingId} {gated : Bool} {reaction : Reaction σ}

theorem effects_construct (w : World σ) (e : EffectId) :
    (w.construct path root gated reaction).effects[e]? =
      if e = w.effects.size then some (w.record path root gated reaction) else w.effects[e]? := by
  simp [construct, Array.getElem?_push]

@[simp] theorem size_effects_construct (w : World σ) :
    (w.construct path root gated reaction).effects.size = w.effects.size + 1 := by
  simp [construct]

theorem documentsKeep_construct (w : World σ) :
    w.DocumentsKeep free (w.construct path root gated reaction) :=
  documentsKeep_of_eq rfl

theorem grows_construct (n : Nat) (w : World σ) :
    Grows n w (w.construct path root gated reaction) where
  sameData := Store.sameData_foldl_watch w.store _ _
  size_le := by simp
  effects_eq e he := by rw [effects_construct, if_neg (Nat.ne_of_lt he)]
  watched_eq e effect hle he := by
    have hlt := lt_size_of_effect he
    rw [size_effects_construct] at hlt
    rw [effects_construct, if_pos (Nat.le_antisymm (Nat.le_of_lt_succ hlt) hle)] at he
    obtain ⟨⟩ := he
    rfl
  memory_eq e effect hle he := by
    have hlt := lt_size_of_effect he
    rw [size_effects_construct] at hlt
    rw [effects_construct, if_pos (Nat.le_antisymm (Nat.le_of_lt_succ hlt) hle)] at he
    obtain ⟨⟩ := he
    rfl
  watchers_eq c hc := by
    -- The new registrations are those of one effect.
    have hreads : (w.construct path root gated reaction).readsOf w.effects.size c =
        (w.store.reads path root).count c := by
      rw [readsOf, effects_construct, if_pos rfl]
      rfl
    rw [registrationsFrom, size_effects_construct, Nat.add_sub_cancel_left, List.range'_one,
      List.flatMap_singleton, hreads]
    exact Store.watchers_foldl_watch hc _ _
  documents := documentsKeep_construct w
  isAlive_of _ _ halive := halive
  collectors_eq := rfl
  passes_eq := rfl
  receivers_eq := rfl
  abortedPasses_eq := rfl
  abortedDispatches_eq := rfl
  enlisted_eq := rfl
  touched_eq := rfl
  changes_eq := rfl
  moments_eq := rfl

/-! ### Showing -/

/-- There is no effect that nobody has constructed. -/
theorem shown_size (w : World σ) : Shown w.effects.size w :=
  fun _ _ _ _ hle he => absurd (lt_size_of_effect he) (Nat.not_lt.2 hle)

/-- Effects go on showing what they should if nothing is constructed and their places are left
alone. -/
theorem Shown.keep {n : Nat} {w w' : World σ} (h : Shown n w) (he : w'.effects = w.effects)
    (hd : w.store.SameData w'.store)
    (hk : w.DocumentsKeep (fun sink _ => ¬ sink.IsPlain) w') : Shown n w' := by
  intro e effect sink node hle heffect hp hplain hlast
  rw [he] at heffect hlast
  obtain ⟨s, hs, hdisplay, hback⟩ := h e effect sink node hle heffect hp hplain hlast
  refine ⟨s, ?_, hk.displays (fun hn => hn hplain) hdisplay, fun hi => hk.writesBack (hback hi)⟩
  rw [effect.shown_eq hd, hs]

/-- Effects that are constructed for one place, and show there what they should, hide the earlier
ones for this place and leave all others alone. -/
theorem Shown.install {n : Nat} {w w' : World σ} {sink : Sink} {node : NodeRef} (h : Shown n w)
    (hg : Grows n w w') (hnew : w.effects.size < w'.effects.size)
    (hk : w.DocumentsKeep (fun s m => ¬ s.IsPlain ∨ s = sink ∧ m = node) w')
    (hshown : ∀ e effect, w.effects.size ≤ e → w'.effects[e]? = some effect →
      effect.place? = some (sink, node) ∧ ∃ s, effect.shown w'.store = .ok s ∧
        w'.Displays sink node s ∧ (sink = .input → w'.WritesBack node effect.path effect.root)) :
    Shown n w' := by
  intro e effect sink' node' hle heffect hp hplain hlast
  by_cases he : w.effects.size ≤ e
  · obtain ⟨hp', hs⟩ := hshown e effect he heffect
    rw [hp] at hp'
    obtain ⟨rfl, rfl⟩ : sink' = sink ∧ node' = node := by simpa using hp'
    exact hs
  · have hlt := Nat.lt_of_not_le he
    -- Some effect that was constructed since has the place, so the old ones have another one.
    have hother : ¬ (sink' = sink ∧ node' = node) := by
      rintro ⟨rfl, rfl⟩
      have hfirst : w'.effects[w.effects.size]? = some w'.effects[w.effects.size] :=
        Array.getElem?_eq_getElem hnew
      exact hlast _ _ hlt hfirst (hshown _ _ (Nat.le_refl _) hfirst).1
    rw [hg.effects_eq e hlt] at heffect
    obtain ⟨s, hs, hdisplay, hback⟩ := h e effect sink' node' hle heffect hp hplain
      fun e' effect' hlt' heffect' =>
        hlast e' effect' hlt' (hg.effect_eq heffect')
    refine ⟨s, ?_, hk.displays ?_ hdisplay, fun hi => hk.writesBack (hback hi)⟩
    · rw [effect.shown_eq hg.sameData, hs]
    · rintro (hn | hsame)
      · exact hn hplain
      · exact hother hsame

end World

namespace Act

open World

variable {path : KeyPath} {root : MappingId} {gated : Bool} {reaction : Reaction σ}

theorem runOn_readAlong (path : KeyPath) (root : MappingId) (segments : List String)
    (w : World σ) :
    (readAlong path root segments).runOn w =
      ((w.store.walk path (.mapping root) segments).2,
        w.registerReads (w.store.walk path (.mapping root) segments).1) := by
  simp [readAlong, runOn_bind]

/-- A construction succeeds if the path resolves. It counts in any case. -/
theorem runOn_newEffect (w : World σ) :
    (newEffect path root gated reaction).runOn w =
      ((w.store.get path root).map fun _ => w.effects.size,
        w.construct path root gated reaction) := by
  let effect : Effect σ := ⟨path, root, gated, reaction, w.store.reads path root, .empty⟩
  -- The effect collects its own reads, whether the path resolves or not.
  have hread : (collecting (some w.effects.size) (read path root)).runOn
      { w with effects := w.effects.push effect } =
        (w.store.get path root, { w with
          effects := w.effects.push effect
          store := (w.store.reads path root).foldl (fun s c => s.watch c w.effects.size)
            w.store }) := by
    rw [runOn_collecting, read, runOn_readAlong]
    rfl
  -- Its first value goes to the record that was just added.
  have hstart (v : Value) : (w.effects.push effect).modify w.effects.size (·.start v) =
      w.effects.push (effect.start v) := by
    refine Array.ext (by simp) fun i _ hi => ?_
    rw [Array.size_push] at hi
    rw [Array.getElem_modify, Array.getElem_push, Array.getElem_push]
    split <;> split <;> first | rfl | omega
  rw [newEffect, runOn_bind, runOn_get]
  dsimp only
  rw [runOn_bind, runOn_modify]
  dsimp only
  rw [runOn_bind, hread, construct, record]
  cases w.store.get path root with
  | error f => rfl
  | ok v =>
    dsimp only
    rw [runOn_bind, runOn_modify]
    dsimp only [modifyEffect]
    rw [hstart]
    rfl

theorem runOn_lastValue (e : EffectId) (w : World σ) :
    (lastValue e).runOn w = (.ok ((w.effects[e]?.map Effect.last).getD .null), w) := rfl

end Act

end LiveBinding
