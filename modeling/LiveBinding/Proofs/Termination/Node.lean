import LiveBinding.Proofs.Document.Depicts
import LiveBinding.Proofs.Evolution.Compile
import LiveBinding.Proofs.Termination.Nesting

/-!
# Compiling one node

What the compilation of a node does to the document: other nodes stay as they are, and below the
node is what was there, or new nodes, whose elements are those of the text that the directives of
the node show as markup.

## Key results

- `Act.Unexhausted`: acts that never give up for lack of rounds; `unexhausted_compileNode`
- `compileNode_ok`: the document after the compilation of a node
-/

namespace LiveBinding

variable {σ α β : Type}

open World

/-! ### Acts that do not give up -/

namespace Act

/-- The act does not end for lack of rounds. -/
def Unexhausted (act : Act σ α) : Prop := ∀ w, (act.runOn w).1 ≠ .error .exhausted

theorem unexhausted_pure (a : α) : Unexhausted (pure a : Act σ α) := by
  intro w h
  cases h

theorem unexhausted_get : Unexhausted (get : Act σ (World σ)) := by
  intro w h
  cases h

theorem unexhausted_modify (f : World σ → World σ) :
    Unexhausted (modify f : Act σ PUnit) := by
  intro w h
  cases h

theorem unexhausted_ofExcept {r : Except Fault α} (h : r ≠ .error .exhausted) :
    Unexhausted (ofExcept r : Act σ α) :=
  fun _ => h

theorem unexhausted_bind {x : Act σ α} {f : α → Act σ β} (hx : Unexhausted x)
    (hf : ∀ a, Unexhausted (f a)) : Unexhausted (x >>= f) := by
  intro w
  have hfirst := hx w
  rw [runOn_bind]
  rcases hr : x.runOn w with ⟨f' | a, w'⟩
  · rw [hr] at hfirst
    intro h
    obtain rfl := Except.error.inj h
    exact hfirst rfl
  · exact hf a w'

theorem unexhausted_foldlM {f : α → β → Act σ α} (hf : ∀ a b, Unexhausted (f a b)) (bs : List β)
    (a : α) : Unexhausted (bs.foldlM f a) := by
  induction bs generalizing a with
  | nil => exact unexhausted_pure a
  | cons b bs ih =>
    rw [List.foldlM_cons]
    exact unexhausted_bind (hf a b) fun a' => ih a'

end Act

theorem Store.walk_ne_exhausted (s : Store) (path : KeyPath) (v : Value) (segments : List String) :
    (s.walk path v segments).2 ≠ .error .exhausted := by
  induction segments generalizing v with
  | nil => simp [walk]
  | cons segment segments ih =>
    rw [walk]
    split
    · simp [notContainer]
    · exact ih _

theorem Directive.parse?_ne_exhausted (attr : String) :
    parse? attr ≠ .error .exhausted := by
  have hargument (make : String → Directive) (argument : List Char) :
      withArgument attr make argument ≠ .error .exhausted := by
    unfold withArgument
    split <;> simp
  have hnamed (written : List Char) : named attr written ≠ .error .exhausted := by
    unfold named
    dsimp only
    split <;> first | exact hargument _ _ | simp
  have hmap {r : Except Fault Directive} (hr : r ≠ .error .exhausted) :
      r.map some ≠ .error .exhausted := by
    cases r with
    | ok directive => simp [Except.map]
    | error f =>
      intro h
      exact hr (congrArg Except.error (Except.error.inj h))
  unfold parse?
  split
  · exact hmap (hargument _ _)
  · exact hmap (hargument _ _)
  · exact hmap (hnamed _)
  · simp

theorem Methods.resolve_ne_exhausted {μ : Type} (t : Methods μ) (name : String) :
    t.resolve name ≠ .error .exhausted := by
  unfold resolve
  split <;> simp

namespace Setting

open Act

variable (t : Setting σ)

theorem unexhausted_newEffect (path : KeyPath) (root : MappingId) (gated : Bool)
    (reaction : Reaction σ) : Unexhausted (newEffect path root gated reaction) := by
  intro w
  have hget : w.store.get path root ≠ .error .exhausted := w.store.walk_ne_exhausted path _ _
  rw [runOn_newEffect]
  cases hr : w.store.get path root with
  | ok v => simp [Except.map]
  | error f =>
    rw [hr] at hget
    intro h
    exact hget (congrArg Except.error (Except.error.inj h))

theorem unexhausted_lastValue (e : EffectId) : Unexhausted (lastValue (σ := σ) e) :=
  unexhausted_bind unexhausted_get fun _ => unexhausted_pure _

theorem unexhausted_bindValue (scope : Scope) (n : NodeId) (expression : String) (sink : Sink) :
    Unexhausted (t.bindValue scope n expression sink) :=
  unexhausted_bind (unexhausted_newEffect _ _ _ _) fun e =>
    unexhausted_bind (unexhausted_lastValue e) fun _ =>
      unexhausted_bind (unexhausted_modify _) fun _ => unexhausted_pure _

theorem unexhausted_bindPlaceholders (scope : Scope) (n : NodeId) (template : Interpolation)
    (paths : List KeyPath) : Unexhausted (t.bindPlaceholders scope n template paths) := by
  induction paths generalizing scope with
  | nil => exact unexhausted_pure _
  | cons path paths ih =>
    exact unexhausted_bind (unexhausted_newEffect _ _ _ _) fun e =>
      unexhausted_bind (unexhausted_lastValue e) fun _ =>
        unexhausted_bind (ih _) fun _ => unexhausted_pure _

theorem unexhausted_bindText (scope : Scope) (n : NodeId) (content : String) :
    Unexhausted (t.bindText scope n content) := by
  unfold bindText
  dsimp only
  split
  · refine unexhausted_bind (t.unexhausted_bindPlaceholders _ _ _ _) fun bound => ?_
    refine unexhausted_bind unexhausted_get fun w => unexhausted_bind ?_ fun s => ?_
    · -- The values are collected, so the template can be filled in.
      obtain ⟨s, hs⟩ := Interpolation.exists_render_eq_ok (ε := Fault)
        (fun p => w.store.display (collected bound.2 p)) (Interpolation.parse content).segments
      exact unexhausted_ofExcept (by rw [hs]; simp)
    · exact unexhausted_bind (unexhausted_modify _) fun _ => unexhausted_pure _
  · exact t.unexhausted_bindValue scope n content .text

theorem unexhausted_install (scope : Scope) (n : NodeId) (expression : String)
    (directive : Directive) : Unexhausted (t.install scope n expression directive) := by
  cases directive with
  | text => exact t.unexhausted_bindText scope n expression
  | html => exact t.unexhausted_bindValue scope n expression .markup
  | model =>
    exact unexhausted_bind (t.unexhausted_bindValue scope n expression .input) fun _ =>
      unexhausted_bind (unexhausted_modify _) fun _ => unexhausted_pure _
  | bind name => exact t.unexhausted_bindValue scope n expression (.attr name)
  | on event =>
    exact unexhausted_bind (unexhausted_ofExcept (t.methods.resolve_ne_exhausted expression))
      fun _ => unexhausted_bind (unexhausted_modify _) fun _ => unexhausted_pure _

theorem unexhausted_compileAttribute (n : NodeId) (scope : Scope) (a : String × String) :
    Unexhausted (t.compileAttribute n scope a) := by
  refine unexhausted_bind (unexhausted_ofExcept (Directive.parse?_ne_exhausted a.1))
    fun directive => ?_
  cases directive with
  | none => exact unexhausted_pure _
  | some directive =>
    exact unexhausted_bind (t.unexhausted_install scope n a.2 directive) fun _ =>
      unexhausted_bind (unexhausted_modify _) fun _ => unexhausted_pure _

/-- The faults of a node are its own: rounds play no part. -/
theorem unexhausted_compileNode (scope : Scope) (n : NodeId) :
    Unexhausted (t.compileNode scope n) := by
  refine unexhausted_bind (unexhausted_bind unexhausted_get fun _ => unexhausted_pure _) fun d => ?_
  dsimp only
  split
  · exact unexhausted_foldlM (fun scope a => t.unexhausted_compileAttribute n scope a) _ scope
  · split
    · exact t.unexhausted_bindText scope n _
    · exact unexhausted_pure _
  · exact unexhausted_pure _

end Setting

/-! ### The document after a binding -/

namespace Document

variable {κ : Type} {d d' d'' : Document κ} {n : NodeId}

/-- The document after a text is shown on a node. -/
def withSink (d : Document κ) (sink : Sink) (n : NodeId) (s : String) : Document κ :=
  match sink with
  | .text => d.setText n s
  | .markup => d.setMarkup n s
  | .input => d.setInputValue n s
  | .attr name => d.setAttribute n name s

/-- Other nodes stay as they are, and the node is an element with the same nodes below it. -/
structure KeepsBelow (d : Document κ) (n : NodeId) (d' : Document κ) : Prop where
  frames : d.Frames (· = n) d'
  size_eq : d'.size = d.size
  children_eq : d'.children n = d.children n
  isElement : (d'.element? n).isSome

theorem KeepsBelow.refl (h : (d.element? n).isSome) : d.KeepsBelow n d :=
  ⟨.refl _ d, rfl, rfl, h⟩

theorem KeepsBelow.trans (h : d.KeepsBelow n d') (h' : d'.KeepsBelow n d'') :
    d.KeepsBelow n d'' :=
  ⟨h.frames.trans h'.frames, h'.size_eq.trans h.size_eq, h'.children_eq.trans h.children_eq,
    h'.isElement⟩

/-- A change of an element that is not about its children. -/
theorem keepsBelow_modifyElement (h : (d.element? n).isSome) {f : Element κ → Element κ}
    (hf : ∀ e, (f e).children = e.children) : d.KeepsBelow n (d.modifyElement n f) := by
  obtain ⟨e, he⟩ := Option.isSome_iff_exists.1 h
  have he' : (d.modifyElement n f).element? n = some (f e) := by
    rw [element?_modifyElement, if_pos rfl, he]
    rfl
  refine ⟨frames_modifyElement d n f, size_modifyElement d n f, ?_, by rw [he']; rfl⟩
  rw [children, children, he', he]
  exact hf e

/-- Below the node are new nodes, and `P` holds of the attributes of the elements among them. -/
structure Refills (d : Document κ) (n : NodeId) (P : Fields String → Prop) (d' : Document κ) :
    Prop where
  frames : d.Frames (· = n) d'
  isElement : (d'.element? n).isSome
  trees : ∃ fp, d'.TreeAll P (d'.children n) fp ∧ fp.Nodup ∧ ∀ m ∈ fp, d.size ≤ m

variable {P Q : Fields String → Prop}

theorem Refills.mono (h : d.Refills n P d') (hPQ : ∀ as, P as → Q as) : d.Refills n Q d' := by
  obtain ⟨fp, htrees, hnodup, hfresh⟩ := h.trees
  exact ⟨h.frames, h.isElement, fp, htrees.mono hPQ, hnodup, hfresh⟩

/-- What happens before new nodes come does not matter. -/
theorem Refills.of_frames (hframes : d.Frames (· = n) d') (h : d'.Refills n P d'') :
    d.Refills n P d'' := by
  obtain ⟨fp, htrees, hnodup, hfresh⟩ := h.trees
  exact ⟨hframes.trans h.frames, h.isElement, fp, htrees, hnodup,
    fun m hm => Nat.le_trans hframes.size_le (hfresh m hm)⟩

theorem Refills.keepsBelow (h : d.Refills n P d') (hn : n < d.size) (h' : d'.KeepsBelow n d'') :
    d.Refills n P d'' := by
  obtain ⟨fp, htrees, hnodup, hfresh⟩ := h.trees
  refine ⟨h.frames.trans h'.frames, h'.isElement, fp, ?_, hnodup, hfresh⟩
  rw [h'.children_eq]
  exact htrees.of_frames h'.frames fun m hm =>
    Nat.ne_of_gt (Nat.lt_of_lt_of_le hn (hfresh m hm))

theorem Refilled.refills {ms : List Markup} (h : d.Refilled n ms d')
    (hn : (d.element? n).isSome) : d.Refills n (· ∈ Markup.elementsAll ms) d' :=
  ⟨h.frames, h.isElement hn, added d d', h.treeAll, nodup_added d d',
    fun _ hm => (mem_added_iff.1 hm).1⟩

theorem refills_setMarkup (h : (d.element? n).isSome) (source : String) :
    d.Refills n (· ∈ Markup.elementsAll (Markup.parse source)) (d.setMarkup n source) :=
  (refilled_setMarkup h source).refills h

theorem refills_setText (h : (d.element? n).isSome) (s : String) :
    d.Refills n (fun _ => False) (d.setText n s) := by
  refine ((refilled_setText h s).refills h).mono fun as has => ?_
  rw [Markup.elementsAll_ofText] at has
  cases has

/-- What the directives `as` of an element have done: nothing below it, or there are new nodes of
the text that they show as markup. -/
def Filled (d : Document κ) (n : NodeId) (s : Store) (model : MappingId) (as : Fields String)
    (d' : Document κ) : Prop :=
  d.KeepsBelow n d' ∨ d.Refills n (fun as' => ∃ text, s.Shows model as text ∧
    as' ∈ Markup.elementsAll (Markup.parse text)) d'

theorem Filled.isElement {s : Store} {model : MappingId} {as : Fields String}
    (h : d.Filled n s model as d') : (d'.element? n).isSome :=
  h.elim (·.isElement) (·.isElement)

theorem Filled.frames {s : Store} {model : MappingId} {as : Fields String}
    (h : d.Filled n s model as d') : d.Frames (· = n) d' :=
  h.elim (·.frames) (·.frames)

/-- A directive that is not about the children. -/
theorem Filled.keepsBelow {s : Store} {model : MappingId} {as as' : Fields String}
    (h : d.Filled n s model as d') (hn : n < d.size) (hfill : markupOf? as' = markupOf? as)
    (h' : d'.KeepsBelow n d'') : d.Filled n s model as' d'' := by
  rcases h with h | h
  · exact .inl (h.trans h')
  · refine .inr ((h.keepsBelow hn h').mono ?_)
    rintro as'' ⟨text, ⟨expression, hexpression, htext⟩, hmem⟩
    exact ⟨text, ⟨expression, hfill.trans hexpression, htext⟩, hmem⟩

end Document

namespace Setting

variable {t : Setting σ} {scope made : Scope} {n : NodeId} {w w' : World σ}
  {d : Document (Listener σ)}

theorem documents_writeSink {i : DocumentId} {w : World σ} {d : Document (Listener σ)}
    (hd : w.documents[i]? = some d) (sink : Sink) (s : String) :
    (w.writeSink sink ⟨i, n⟩ s).documents[i]? = some (d.withSink sink n s) := by
  rw [writeSink, documents_modifyDocument, if_pos rfl, hd]
  rfl

theorem runOn_currentDocument (hd : w.documents[t.document]? = some d) :
    t.currentDocument.runOn w = (.ok d, w) := by
  show (Except.ok (w.document t.document), w) = _
  rw [document_eq hd]

/-- A binding shows the value of its path. -/
theorem bindValue_ok {expression : String} {sink : Sink}
    (h : (t.bindValue scope n expression sink).runOn w = (.ok made, w'))
    (hd : w.documents[t.document]? = some d) :
    ∃ text, (w.store.get ⟨expression⟩ t.model).map w.store.display = .ok text ∧
      w'.documents[t.document]? = some (d.withSink sink n text) := by
  rw [runOn_bindValue] at h
  cases hget : w.store.get ⟨expression⟩ t.model with
  | error f =>
    rw [hget] at h
    cases h
  | ok v =>
    rw [hget] at h
    obtain ⟨-, rfl⟩ := Prod.mk.inj h
    refine ⟨w.store.display v, rfl, ?_⟩
    exact documents_writeSink (w := w.construct ⟨expression⟩ t.model t.gated _) hd sink _

/-- A text is bound by writing a text, whatever its template. -/
theorem bindText_ok {content : String}
    (h : (t.bindText scope n content).runOn w = (.ok made, w'))
    (hd : w.documents[t.document]? = some d) :
    ∃ s, w'.documents[t.document]? = some (d.setText n s) := by
  by_cases htemplate : (Interpolation.parse content).hasPlaceholders = true
  · obtain ⟨f, w₁, -, hrun⟩ | ⟨bound, w₁, s, hbinds, -, -, hrun⟩ :=
      bindText_cases (t := t) 0 scope n w htemplate
    · rw [hrun] at h
      cases h
    · rw [hrun] at h
      obtain ⟨-, rfl⟩ := Prod.mk.inj h
      rw [← hbinds.documents_eq] at hd
      exact ⟨s, documents_writeSink hd .text s⟩
  · -- Without placeholders the whole text is a path.
    unfold bindText at h
    dsimp only at h
    rw [if_neg htemplate] at h
    obtain ⟨text, -, hdocument⟩ := bindValue_ok h hd
    exact ⟨text, hdocument⟩

/-- The document after the binding of a directive. -/
theorem install_ok {expression : String} {directive : Directive}
    (h : (t.install scope n expression directive).runOn w = (.ok made, w'))
    (hd : w.documents[t.document]? = some d) (hn : (d.element? n).isSome) :
    ∃ d', w'.documents[t.document]? = some d' ∧
      match directive with
      | .text => d.Refills n (fun _ => False) d'
      | .html => ∃ text, (w.store.get ⟨expression⟩ t.model).map w.store.display = .ok text ∧
          d.Refills n (· ∈ Markup.elementsAll (Markup.parse text)) d'
      | _ => d.KeepsBelow n d' := by
  cases directive with
  | text =>
    obtain ⟨s, hdocument⟩ := bindText_ok h hd
    exact ⟨_, hdocument, Document.refills_setText hn s⟩
  | html =>
    obtain ⟨text, htext, hdocument⟩ := bindValue_ok h hd
    exact ⟨_, hdocument, text, htext, Document.refills_setMarkup hn text⟩
  | bind name =>
    obtain ⟨text, -, hdocument⟩ := bindValue_ok h hd
    exact ⟨_, hdocument, Document.keepsBelow_modifyElement hn fun _ => rfl⟩
  | model =>
    rw [install, Act.runOn_bind] at h
    rcases hr : (t.bindValue scope n expression .input).runOn w with ⟨f | scope', w₁⟩
    · rw [hr] at h
      cases h
    · rw [hr] at h
      obtain ⟨text, -, hdocument⟩ := bindValue_ok hr hd
      obtain ⟨-, rfl⟩ := Prod.mk.inj h
      -- The value is shown first, then the listener is attached.
      have hinput : d.KeepsBelow n (d.setInputValue n text) :=
        Document.keepsBelow_modifyElement hn fun _ => rfl
      refine ⟨(d.setInputValue n text).addListener n "input" (.writeBack ⟨expression⟩ t.model), ?_,
        hinput.trans (Document.keepsBelow_modifyElement hinput.isElement fun _ => rfl)⟩
      rw [documents_modifyDocument, if_pos rfl, hdocument]
      rfl
  | on event =>
    rw [install, Act.runOn_bind, Act.runOn_ofExcept] at h
    cases hresolve : t.methods.resolve expression with
    | error f =>
      rw [hresolve] at h
      cases h
    | ok listener =>
      rw [hresolve] at h
      obtain ⟨-, rfl⟩ := Prod.mk.inj h
      refine ⟨d.addListener n event listener, ?_,
        Document.keepsBelow_modifyElement hn fun _ => rfl⟩
      rw [documents_modifyDocument, if_pos rfl, hd]
      rfl

/-- The document after one more attribute. -/
theorem compileAttribute_ok {s : Store} {d₀ : Document (Listener σ)} {as : Fields String}
    {a : String × String} (h : (t.compileAttribute n scope a).runOn w = (.ok made, w'))
    (hs : s.SameData w.store) (hd : w.documents[t.document]? = some d) (hn : n < d₀.size)
    (hfilled : d₀.Filled n s t.model as d) :
    ∃ d', w'.documents[t.document]? = some d' ∧ d₀.Filled n s t.model (as ++ [a]) d' := by
  rw [compileAttribute, Act.runOn_bind, Act.runOn_ofExcept] at h
  cases hparse : Directive.parse? a.1 with
  | error f =>
    rw [hparse] at h
    cases h
  | ok parsed =>
    rw [hparse] at h
    cases parsed with
    | none =>
      -- An attribute that is no directive stays.
      obtain ⟨-, rfl⟩ := Prod.mk.inj h
      refine ⟨d, hd, hfilled.keepsBelow hn ?_ (.refl hfilled.isElement)⟩
      rw [markupOf?_concat, fill, hparse]
    | some directive =>
      change (t.install scope n a.2 directive >>= fun scope => do
        t.edit fun d => d.removeAttribute n a.1
        return scope).runOn w = _ at h
      rw [Act.runOn_bind] at h
      rcases hr : (t.install scope n a.2 directive).runOn w with ⟨f | scope', w₁⟩
      · rw [hr] at h
        cases h
      · rw [hr] at h
        obtain ⟨-, rfl⟩ := Prod.mk.inj h
        obtain ⟨d₁, hd₁, hinstalled⟩ := install_ok hr hd hfilled.isElement
        -- The attribute goes when its directive has been installed.
        have hedited : (w₁.modifyDocument t.document
            fun d => d.removeAttribute n a.1).documents[t.document]? =
              some (d₁.removeAttribute n a.1) := by
          rw [documents_modifyDocument, if_pos rfl, hd₁]
          rfl
        refine ⟨d₁.removeAttribute n a.1, hedited, ?_⟩
        have hremoved (h₁ : (d₁.element? n).isSome) : d₁.KeepsBelow n (d₁.removeAttribute n a.1) :=
          Document.keepsBelow_modifyElement h₁ fun _ => rfl
        have hmarkup := markupOf?_concat as a
        -- Only the last text or markup decides what is below, other directives leave it alone.
        cases directive with
        | text =>
          right
          refine ((hinstalled.of_frames hfilled.frames).keepsBelow hn
            (hremoved hinstalled.isElement)).mono fun _ h => h.elim
        | html =>
          obtain ⟨text, htext, hrefills⟩ := hinstalled
          right
          refine ((hrefills.of_frames hfilled.frames).keepsBelow hn
            (hremoved hrefills.isElement)).mono fun as' has' => ⟨text, ⟨a.2, ?_, ?_⟩, has'⟩
          · rw [hmarkup, fill, hparse]
          · rw [hs.get_eq, show w.store.display = s.display from funext hs.display_eq] at htext
            exact htext
        | model =>
          exact hfilled.keepsBelow hn (by rw [hmarkup, fill, hparse])
            (hinstalled.trans (hremoved hinstalled.isElement))
        | bind name =>
          exact hfilled.keepsBelow hn (by rw [hmarkup, fill, hparse])
            (hinstalled.trans (hremoved hinstalled.isElement))
        | on event =>
          exact hfilled.keepsBelow hn (by rw [hmarkup, fill, hparse])
            (hinstalled.trans (hremoved hinstalled.isElement))

/-- The document after several attributes. -/
theorem compileAttributes_ok {s : Store} {d₀ : Document (Listener σ)} {as rest : Fields String}
    (h : (rest.foldlM (t.compileAttribute n) scope).runOn w = (.ok made, w'))
    (hs : s.SameData w.store) (hd : w.documents[t.document]? = some d) (hn : n < d₀.size)
    (hfilled : d₀.Filled n s t.model as d) :
    ∃ d', w'.documents[t.document]? = some d' ∧ d₀.Filled n s t.model (as ++ rest) d' := by
  induction rest generalizing scope as w d with
  | nil =>
    obtain ⟨-, rfl⟩ := Prod.mk.inj h
    exact ⟨d, hd, by rwa [List.append_nil]⟩
  | cons a rest ih =>
    rw [List.foldlM_cons, Act.runOn_bind] at h
    rcases hr : (t.compileAttribute n scope a).runOn w with ⟨f | scope', w₁⟩
    · rw [hr] at h
      cases h
    · rw [hr] at h
      obtain ⟨d₁, hd₁, hfilled₁⟩ := compileAttribute_ok hr hs hd hn hfilled
      obtain ⟨el, hel⟩ := Option.isSome_iff_exists.1 hfilled.isElement
      have hgrows : Builds 0 scope w ((t.compileAttribute n scope a).runOn w) :=
        builds_compileAttribute 0 scope ⟨d, el, hd, Document.element?_eq_some_iff.1 hel⟩
          (Nat.zero_le _) a
      rw [hr] at hgrows
      obtain ⟨d', hd', hfilled'⟩ := ih h (hs.trans hgrows.grows.sameData) hd₁ hfilled₁
      exact ⟨d', hd', by rwa [List.append_assoc] at hfilled'⟩

/-- A text has nothing below it, whatever it says. -/
theorem frames_setText_of_text {κ : Type} {d : Document κ} {content : String}
    (h : d.content? n = some (.text content)) (s : String) :
    d.Frames (· = n) (d.setText n s) ∧ (d.setText n s).size = d.size ∧
      (d.setText n s).children n = d.children n := by
  rw [Document.setText, h]
  dsimp only
  have hbefore : d.element? n = none := by rw [Document.element?, h]
  have hafter : (d.modifyContent n fun _ => .text s).element? n = none := by
    rw [Document.element?, Document.content?_modifyContent, if_pos rfl, h]
    rfl
  refine ⟨Document.frames_modifyContent d n _, Document.size_modifyContent d n _, ?_⟩
  rw [Document.children_eq_nil_of_element?_eq_none hafter,
    Document.children_eq_nil_of_element?_eq_none hbefore]

/-- The document after the compilation of a node: below it is what was there, or new nodes of the
text that it shows as markup. -/
theorem compileNode_ok (h : (t.compileNode scope n).runOn w = (.ok made, w'))
    (hd : w.documents[t.document]? = some d) (hn : n < d.size) :
    ∃ d', w'.documents[t.document]? = some d' ∧ d.Frames (· = n) d' ∧
      ((d'.size = d.size ∧ d'.children n = d.children n) ∨ (d.element? n).isSome ∧
        ∃ fp, d'.TreeAll (fun as => ∃ text, w.store.Shows t.model (d.attributes n) text ∧
            as ∈ Markup.elementsAll (Markup.parse text)) (d'.children n) fp ∧
          fp.Nodup ∧ ∀ m ∈ fp, d.size ≤ m) := by
  rw [compileNode, Act.runOn_bind, runOn_currentDocument hd] at h
  dsimp only at h
  cases hsort : d.sort n with
  | element =>
    rw [hsort] at h
    obtain ⟨el, hel⟩ : ∃ el, d.content? n = some (.element el) := by
      rw [Document.sort] at hsort
      split at hsort
      · exact ⟨_, ‹_›⟩
      · cases hsort
      · cases hsort
    have hisElement : (d.element? n).isSome := by
      rw [Document.element?_eq_some_iff.2 hel]
      rfl
    have hstart : d.Filled n w.store t.model [] d := .inl (.refl hisElement)
    obtain ⟨d', hd', hfilled⟩ := compileAttributes_ok h (.refl w.store) hd hn hstart
    refine ⟨d', hd', hfilled.frames, ?_⟩
    rcases hfilled with hkeeps | hrefills
    · exact .inl ⟨hkeeps.size_eq, hkeeps.children_eq⟩
    · exact .inr ⟨hisElement, hrefills.trees⟩
  | text =>
    rw [hsort] at h
    obtain ⟨content, hcontent⟩ : ∃ content, d.content? n = some (.text content) := by
      rw [Document.sort] at hsort
      split at hsort
      · cases hsort
      · exact ⟨_, ‹_›⟩
      · cases hsort
    dsimp only at h
    split at h
    · obtain ⟨s, hs⟩ := bindText_ok h hd
      obtain ⟨hframes, hkept⟩ := frames_setText_of_text hcontent s
      exact ⟨_, hs, hframes, .inl hkept⟩
    · obtain ⟨-, rfl⟩ := Prod.mk.inj h
      exact ⟨d, hd, .refl _ d, .inl ⟨rfl, rfl⟩⟩
  | other =>
    rw [hsort] at h
    obtain ⟨-, rfl⟩ := Prod.mk.inj h
    exact ⟨d, hd, .refl _ d, .inl ⟨rfl, rfl⟩⟩

end Setting

end LiveBinding
