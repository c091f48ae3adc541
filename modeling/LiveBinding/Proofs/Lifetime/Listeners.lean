import LiveBinding.Proofs.Act.Compile
import LiveBinding.Proofs.Evolution.Owners

/-!
# Which listeners a template attaches

Editing a document never gives a node a listener that it did not have, except by adding one.
`Document.Attaches P d d'` says that every listener of `d'` was there in `d`, on the same node, or
satisfies `P`. Compiling a template attaches the methods of its table, and for each input a
listener that writes back to the model of the template. So the listeners of a new view model are of
two kinds.

## Key results

- `follows_compile_attaches`: a whole template
- `attaches_newViewModel`: a view model attaches its methods and the listeners of its inputs
-/

namespace LiveBinding

variable {σ κ : Type}

namespace Document

/-- Every listener was there before, on the same node, or is of a kind. -/
def Attaches (P : String × κ → Prop) (d d' : Document κ) : Prop :=
  ∀ n e', d'.element? n = some e' → ∀ l ∈ e'.listeners,
    (∃ e, d.element? n = some e ∧ l ∈ e.listeners) ∨ P l

variable {P : String × κ → Prop}

theorem Attaches.refl (P : String × κ → Prop) (d : Document κ) : Attaches P d d :=
  fun _ e he _ hl => .inl ⟨e, he, hl⟩

theorem Attaches.trans {a b c : Document κ} (h : Attaches P a b) (h' : Attaches P b c) :
    Attaches P a c := by
  intro n e he l hl
  rcases h' n e he l hl with ⟨e', he', hl'⟩ | hP
  · exact h n e' he' l hl'
  · exact .inr hP

/-! ### Edits of one node -/

theorem attaches_modifyElement (d : Document κ) (n : NodeId) {f : Element κ → Element κ}
    (hf : ∀ e, ∀ l ∈ (f e).listeners, l ∈ e.listeners ∨ P l) :
    Attaches P d (d.modifyElement n f) := by
  intro m e' he' l hl
  rw [element?_modifyElement] at he'
  split at he'
  · obtain ⟨e, he, rfl⟩ := Option.map_eq_some_iff.1 he'
    exact (hf e l hl).imp_left fun hl => ⟨e, he, hl⟩
  · exact .inl ⟨e', he', hl⟩

/-- A listener is added. -/
theorem attaches_addListener (d : Document κ) (n : NodeId) {event : String} {listener : κ}
    (h : P (event, listener)) : Attaches P d (d.addListener n event listener) := by
  refine attaches_modifyElement d n fun e l hl => ?_
  rcases List.mem_append.1 hl with hl | hl
  · exact .inl hl
  · rw [List.mem_singleton.1 hl]
    exact .inr h

/-- A node that is not an element has no listeners. -/
theorem attaches_modifyContent (d : Document κ) (n : NodeId) {f : Content κ → Content κ}
    (hf : ∀ c e, f c ≠ .element e) : Attaches P d (d.modifyContent n f) := by
  intro m e' he' l hl
  rw [element?_eq_some_iff, content?_modifyContent] at he'
  split at he'
  · obtain ⟨c, -, hc⟩ := Option.map_eq_some_iff.1 he'
    exact absurd hc (hf c e')
  · exact .inl ⟨e', element?_eq_some_iff.2 he', hl⟩

/-- A new node has no listeners. -/
theorem attaches_add (d : Document κ) {c : Content κ} (p : Option NodeId)
    (hc : ∀ e, c = .element e → e.listeners = []) : Attaches P d (d.add c p).1 := by
  intro m e' he' l hl
  rw [element?_eq_some_iff, content?_add] at he'
  split at he'
  · obtain ⟨⟩ := he'
    rw [hc e' rfl] at hl
    cases hl
  · exact .inl ⟨e', element?_eq_some_iff.2 he', hl⟩

/-! ### Edits of links -/

/-- Edits of links attach nothing. -/
theorem Relinks.attaches {d d' : Document κ} (h : d.Relinks d') : Attaches P d d' := by
  induction h with
  | refl d => exact .refl _ d
  | trans _ _ ih ih' => exact ih.trans ih'
  | children d n f => exact attaches_modifyElement d n fun _ _ => .inl
  | parent d n p => exact fun _ e he _ hl => .inl ⟨e, by rwa [element?_setParent] at he, hl⟩
  | add d p hc => exact attaches_add d p hc

theorem attaches_detachChildren (d : Document κ) (n : NodeId) :
    Attaches P d (d.detachChildren n) :=
  (relinks_detachChildren d n).attaches

theorem attaches_appendChildren (d : Document κ) (n : NodeId) (children : List NodeId) :
    Attaches P d (d.appendChildren n children) :=
  (relinks_appendChildren d n children).attaches

theorem attaches_setText (d : Document κ) (n : NodeId) (s : String) :
    Attaches P d (d.setText n s) := by
  cases hn : d.content? n with
  | none =>
    rw [setText, hn]
    exact .refl _ d
  | some content =>
    cases content with
    | element e => exact (relinks_setText hn s).attaches
    | text t =>
      rw [setText, hn]
      exact attaches_modifyContent d n fun _ _ => by simp
    | comment t =>
      rw [setText, hn]
      exact attaches_modifyContent d n fun _ _ => by simp

theorem attaches_setMarkup (d : Document κ) (n : NodeId) (source : String) :
    Attaches P d (d.setMarkup n source) :=
  (relinks_setMarkup d n source).attaches

/-- The listeners for an event are among those of the node. -/
theorem Attaches.listenersFor {d d' : Document κ} (h : Attaches P d d') {n : NodeId}
    {event : String} {l : κ} (hl : l ∈ d'.listenersFor n event) :
    l ∈ d.listenersFor n event ∨ P (event, l) := by
  simp only [Document.listenersFor, List.mem_map, List.mem_filter, beq_iff_eq] at hl ⊢
  obtain ⟨⟨event', l'⟩, ⟨hmem, rfl⟩, rfl⟩ := hl
  cases he' : d'.element? n with
  | none => simp [he'] at hmem
  | some e' =>
    rw [he'] at hmem
    rcases h n e' he' _ hmem with ⟨e, he, hl⟩ | hP
    · exact .inl ⟨(event', l'), ⟨by rwa [he], rfl⟩, rfl⟩
    · exact .inr hP

end Document

/-! ### Method tables -/

namespace Methods

variable {μ : Type}

theorem mem_insertSorted {es : Fields μ} {name : String} {m : μ} {f : String × μ}
    (h : f ∈ insertSorted es name m) : f ∈ es ∨ f = (name, m) := by
  induction es with
  | nil => exact .inr (List.mem_singleton.1 h)
  | cons g es ih =>
    obtain ⟨k, m'⟩ := g
    rw [insertSorted] at h
    split at h
    · rcases List.mem_cons.1 h with rfl | h
      · exact .inr rfl
      · exact .inl h
    · split at h
      · rcases List.mem_cons.1 h with rfl | h
        · exact .inr rfl
        · exact .inl (List.mem_cons_of_mem _ h)
      · rcases List.mem_cons.1 h with rfl | h
        · exact .inl (List.mem_cons_self ..)
        · exact (ih h).imp_left (List.mem_cons_of_mem _)

/-- A table has the methods that it is made from. -/
theorem mem_ofList {ms : Fields μ} {f : String × μ} (h : f ∈ (ofList ms).entries) : f ∈ ms := by
  have hfold (ms : Fields μ) (t : Methods μ)
      (h : f ∈ (ms.foldl (fun t m => t.insert m.1 m.2) t).entries) : f ∈ t.entries ∨ f ∈ ms := by
    induction ms generalizing t with
    | nil => exact .inl h
    | cons m ms ih =>
      rcases ih _ h with h | h
      · rcases mem_insertSorted h with h | rfl
        · exact .inl h
        · exact .inr (List.mem_cons_self ..)
      · exact .inr (List.mem_cons_of_mem _ h)
  exact (hfold ms empty h).resolve_left List.not_mem_nil

end Methods

/-! ### Templates -/

namespace World

/-- Every listener of every document was there before or is of a kind. -/
def Attaches (P : String × Listener σ → Prop) (w w' : World σ) : Prop :=
  ∀ i, Document.Attaches P (w.document i) (w'.document i)

variable {P : String × Listener σ → Prop}

instance : IsPreorder (World σ) (Attaches P) where
  refl w i := .refl _ (w.document i)
  trans _ _ _ h h' i := (h i).trans (h' i)

theorem attaches_of_eq {w w' : World σ} (h : w'.documents = w.documents) : Attaches P w w' := by
  intro i
  rw [document, document, h]
  exact .refl _ _

theorem attaches_modifyDocument (w : World σ) (i : DocumentId)
    {f : Document (Listener σ) → Document (Listener σ)}
    (h : ∀ d, Document.Attaches P d (f d)) : Attaches P w (w.modifyDocument i f) := by
  intro j
  rw [document, document, documents_modifyDocument]
  split
  · cases w.documents[j]? with
    | none => exact .refl _ _
    | some d => exact h d
  · exact .refl _ _

theorem attaches_writeSink (w : World σ) (sink : Sink) (node : NodeRef) (s : String) :
    Attaches P w (w.writeSink sink node s) := by
  refine attaches_modifyDocument w _ fun d => ?_
  cases sink with
  | text => exact Document.attaches_setText d _ s
  | markup => exact Document.attaches_setMarkup d _ s
  | input => exact Document.attaches_modifyElement d _ fun _ _ => .inl
  | attr name => exact Document.attaches_modifyElement d _ fun _ _ => .inl

end World

namespace Setting

open Act World

variable {P : String × Listener σ → Prop} (t : Setting σ)

/-- The listeners that a template can attach: its methods, for any event, and for inputs those that
write back to its model. -/
structure Provides (P : String × Listener σ → Prop) : Prop where
  method : ∀ f ∈ t.methods.entries, ∀ event, P (event, f.2)
  writeBack : ∀ expression, P ("input", .writeBack ⟨expression⟩ t.model)

variable {t} (hP : t.Provides P)

include hP

/-- What a compilation does at a node attaches at most what the template provides. -/
theorem writes_attaches (n : NodeId) : t.Writes (World.Attaches P) n where
  display _ _ w := by
    rw [runOn_newEffect]
    exact attaches_of_eq rfl
  render _ _ w := by
    rw [runOn_newEffect]
    exact attaches_of_eq rfl
  shows w sink _ := attaches_writeSink w sink _ _
  method f hf w event :=
    attaches_modifyDocument w _ fun d => Document.attaches_addListener d n (hP.method f hf event)
  writeBack w expression :=
    attaches_modifyDocument w _ fun d => Document.attaches_addListener d n (hP.writeBack expression)
  remove w _ :=
    attaches_modifyDocument w _ fun d => Document.attaches_modifyElement d n fun _ _ => .inl

/-- Compiling a template attaches only what the template provides. -/
theorem follows_compile_attaches (root : NodeId) :
    Follows (World.Attaches P) (t.compile root) :=
  follows_compile (writes_attaches hP)
    (fun w => attaches_modifyDocument w _ fun d => Document.attaches_detachChildren d root)
    fun w _ => attaches_modifyDocument w _ fun d => Document.attaches_appendChildren d root _

end Setting

/-! ### View models -/

/-- A listener that runs user code as a method of a view model. -/
def Listener.IsMethodOf (id : ViewModelId) : Listener σ → Bool
  | .method receiver _ => receiver == id
  | _ => false

theorem Listener.IsMethodOf.exists_eq {id : ViewModelId} {l : Listener σ}
    (h : l.IsMethodOf id = true) : ∃ code, l = .method id code := by
  cases l with
  | method receiver code =>
    obtain rfl : receiver = id := by simpa [IsMethodOf] using h
    exact ⟨code, rfl⟩
  | _ => cases h

open World

/-- A template is compiled for the view model that was added last, which keeps its model. -/
theorem Setting.attaches_bindings {P : String × Listener σ → Prop} {t : Setting σ}
    (hP : t.Provides P) {root : NodeId} {w w' : World σ} {vm : ViewModel} {id : ViewModelId}
    (h : Act.runOn (do
      let scope ← t.instantiate root
      modify fun w' => { w' with
        viewModels := w'.viewModels.modify w.viewModels.size fun vm =>
          { vm with bindings := scope } }
      return w.viewModels.size) { w with viewModels := w.viewModels.push vm } = (.ok id, w')) :
    id = w.viewModels.size ∧ (∃ record, w'.viewModels[id]? = some record ∧
      record.model = vm.model) ∧ World.Attaches P w w' := by
  obtain ⟨u, hu⟩ : ∃ u : World σ, u = { w with viewModels := w.viewModels.push vm } := ⟨_, rfl⟩
  have hattaches := follows_compile_attaches hP root u.begin
  have hbuilds : Builds 0 .empty u.begin ((t.compile root).runOn u.begin) :=
    Setting.builds_compile 0 root (Nat.zero_le _)
  rw [Act.runOn_bind, t.runOn_instantiate, ← hu] at h
  rcases hr : (t.compile root).runOn u.begin with ⟨f | scope, w₁⟩
  · rw [hr] at h
    cases h
  · rw [hr] at h hattaches hbuilds
    subst hu
    have hviewModels : w₁.viewModels = w.viewModels.push vm := hbuilds.viewModels_eq
    obtain ⟨⟨⟩, rfl⟩ := Prod.mk.inj h
    refine ⟨rfl, ⟨{ vm with bindings := scope }, ?_, rfl⟩, hattaches⟩
    change (w₁.viewModels.modify w.viewModels.size _)[w.viewModels.size]? = _
    rw [hviewModels, Array.getElem?_modify, if_pos rfl, Array.getElem?_push_size]
    rfl

/-- The template of a view model provides its methods, each bound to the view model, and listeners
that write back to its model. -/
theorem Setting.provides_methods (document : DocumentId) (model : MappingId) (id : ViewModelId)
    (methods : Fields σ) (gated : Bool) :
    (Setting.mk document model (.ofList (methods.map fun m => (m.1, Listener.method id m.2)))
      gated).Provides fun l => l.2.IsMethodOf id = true ∨
        ∃ path, l = ("input", .writeBack path model) where
  method f hf _ := by
    obtain ⟨m, -, rfl⟩ := List.mem_map.1 (Methods.mem_ofList hf)
    exact .inl (beq_self_eq_true id)
  writeBack expression := .inr ⟨⟨expression⟩, rfl⟩

/-- The listeners that a new view model attaches are its methods, and the ones of its inputs, which
write back to its model. -/
theorem Act.attaches_newViewModel {document : DocumentId} {b : Blueprint σ} {w w' : World σ}
    {id : ViewModelId} (h : (newViewModel document b).runOn w = (.ok id, w')) :
    ∃ vm, w'.viewModels[id]? = some vm ∧
      World.Attaches (fun l => l.2.IsMethodOf id = true ∨
        ∃ path, l = ("input", .writeBack path vm.model)) w w' := by
  rw [newViewModel, runOn_bind, runOn_intercept] at h
  cases hbuilt : w.store.interceptRoot b.data with
  | error f =>
    rw [hbuilt] at h
    cases h
  | ok built =>
    rw [hbuilt] at h
    dsimp only at h
    -- Building the model leaves the documents as they are.
    obtain ⟨w₀, hw₀⟩ : ∃ w₀ : World σ, w₀ = w.turn built.1 := ⟨_, rfl⟩
    have hdocuments : w₀.documents = w.documents := by rw [hw₀, World.turn]
    rw [← hw₀] at h
    cases hmount : b.mount with
    | none =>
      rw [hmount] at h
      obtain ⟨⟨⟩, rfl⟩ := Prod.mk.inj h
      exact ⟨_, Array.getElem?_push_size, attaches_of_eq hdocuments⟩
    | some mount =>
      rw [hmount] at h
      dsimp only at h
      rw [runOn_bind, runOn_get] at h
      dsimp only at h
      rw [runOn_bind, runOn_ofExcept] at h
      cases hroot : mount.resolve (w₀.document document) with
      | error f =>
        rw [hroot] at h
        cases h
      | ok root =>
        rw [hroot] at h
        dsimp only at h
        rw [runOn_bind, runOn_get] at h
        dsimp only at h
        rw [runOn_bind, runOn_addViewModel] at h
        have hmade := Setting.attaches_bindings (Setting.provides_methods document built.2
          w₀.viewModels.size b.methods b.config.equalityGating) h
        obtain ⟨rfl, ⟨vm, hvm, hmodel⟩, hattaches⟩ := hmade
        refine ⟨vm, hvm, ?_⟩
        rw [hmodel]
        exact IsTrans.trans _ _ _ (attaches_of_eq hdocuments) hattaches

end LiveBinding
