import LiveBinding.Proofs.Template.Compiled
import LiveBinding.Proofs.Termination.Node

/-!
# What compiling one node does

Compiling a node changes the document of a setting, and only there the node itself, or it faults.
`Setting.Draws` says so of a part of a compilation, where the change is given as a function of the
document. What the bindings of an element do to it is followed by `Document.Drawn`, directive by
directive.

## Key definitions

- `Setting.Draws`: a part of a compilation makes a change, or faults
- `Document.Drawn`: an element while its directives are installed

## Key results

- `Setting.draws_bindText`, `Setting.draws_compileAttribute`: bindings of texts and of attributes
- `Setting.installed_compileAttributes`: all attributes of an element, up to the first fault
-/

namespace LiveBinding

variable {σ α β : Type}

open World

theorem modify_modify (as : Array α) (i : Nat) (f g : α → α) :
    (as.modify i f).modify i g = as.modify i fun a => g (f a) := by
  refine Array.ext_getElem? fun j => ?_
  simp only [Array.getElem?_modify]
  split
  · rw [Option.map_map]
    rfl
  · rfl

theorem modify_id (as : Array α) (i : Nat) : as.modify i id = as := by
  refine Array.ext_getElem? fun j => ?_
  rw [Array.getElem?_modify, Option.map_id, id, ite_self]

/-- The document with a binding of one of its nodes. -/
def Document.bound (d : Document (Listener σ)) (n : NodeId) (b : ElementBinding σ) :
    Document (Listener σ) :=
  let shown := match b.shown with
    | some (sink, s) => d.withSink sink n s
    | none => d
  match b.listener with
  | some (event, listener) => shown.addListener n event listener
  | none => shown

namespace Setting

/-! ### Parts of a compilation -/

/-- A part of a compilation makes a change of the document, or it faults and makes none. -/
inductive Draws (t : Setting σ) (w : World σ) : Except Fault α × World σ →
    Except Fault (Document (Listener σ) → Document (Listener σ)) → Prop
  | fault {f : Fault} {w' : World σ} (hs : w.store.SameData w'.store)
      (hd : w'.documents = w.documents) : Draws t w (.error f, w') (.error f)
  | change {a : α} {w' : World σ} {g : Document (Listener σ) → Document (Listener σ)}
      (hs : w.store.SameData w'.store) (hd : w'.documents = w.documents.modify t.document g) :
      Draws t w (.ok a, w') (.ok g)

variable {t : Setting σ} {w : World σ}

/-- A further change that does not fault. -/
theorem Draws.then_edit {x : Act σ α} {e : Except Fault (Document (Listener σ) → Document _)}
    (h : t.Draws w (x.runOn w) e) (g : Document (Listener σ) → Document (Listener σ))
    (b : α → β) :
    t.Draws w ((x >>= fun a => do t.edit g; return b a).runOn w) (e.map fun f d => g (f d)) := by
  rw [Act.runOn_bind]
  generalize x.runOn w = r at h
  cases h with
  | fault hs hd => exact .fault hs hd
  | @change a w' f hs hd =>
    refine .change hs ?_
    show w'.documents.modify t.document g = _
    rw [hd, modify_modify]

/-- A binding shows the text of its path. -/
theorem draws_bindValue (scope : Scope) (n : NodeId) (expression : String) (sink : Sink)
    (w : World σ) : t.Draws w ((t.bindValue scope n expression sink).runOn w)
      ((w.store.shown t.model expression).map fun s d => d.withSink sink n s) := by
  rw [runOn_bindValue, Store.shown]
  have hgrows : Grows 0 w
      (w.construct ⟨expression⟩ t.model t.gated (.display sink ⟨t.document, n⟩)) :=
    grows_construct 0 w
  cases w.store.get ⟨expression⟩ t.model with
  | error f => exact .fault hgrows.sameData rfl
  | ok v => exact .change hgrows.sameData rfl

/-- The effects of placeholders fault with the first placeholder that does not resolve. -/
theorem faultOf?_bindPlaceholders (scope : Scope) (n : NodeId) (template : Interpolation)
    (paths : List KeyPath) (w : World σ) :
    faultOf? ((t.bindPlaceholders scope n template paths).runOn w).1 =
      paths.findSome? fun p => faultOf? (w.store.get p t.model) := by
  induction paths generalizing scope w with
  | nil => rfl
  | cons path paths ih =>
    rw [runOn_bindPlaceholders_cons, List.findSome?_cons]
    cases hget : w.store.get path t.model with
    | error f => rfl
    | ok v =>
      let w₁ := w.construct path t.model t.gated (.render template ⟨t.document, n⟩)
      -- Constructing an effect does not touch the data, so the other paths resolve as before.
      have hsame : w.store.SameData w₁.store := (grows_construct 0 w).sameData
      have hrest := ih (scope.hold w.effects.size) w₁
      simp only [hsame.get_eq] at hrest
      show faultOf? _ = paths.findSome? _
      rw [← hrest]
      dsimp only
      split
      · rename_i heq
        rw [heq]
      · rename_i heq
        rw [heq]
        rfl

/-- A text is written with its placeholders filled in. -/
theorem draws_bindText (scope : Scope) (n : NodeId) (content : String) (w : World σ) :
    t.Draws w ((t.bindText scope n content).runOn w)
      ((w.store.filled t.model content).map fun s d => d.setText n s) := by
  by_cases htemplate : (Interpolation.parse content).hasPlaceholders = true
  · have hfault := faultOf?_bindPlaceholders (t := t) scope n (.parse content)
      (Interpolation.parse content).placeholders w
    have hbinds := binds_bindPlaceholders (t := t) 0 scope n (.parse content)
      (Interpolation.parse content).placeholders w
    unfold bindText Store.filled
    dsimp only
    rw [if_pos htemplate, if_pos htemplate, Act.runOn_bind, ← hfault]
    rcases hr : (t.bindPlaceholders scope n (.parse content)
      (Interpolation.parse content).placeholders).runOn w with ⟨f | bound, w₁⟩
    · rw [hr] at hbinds
      exact .fault hbinds.grows.sameData hbinds.documents_eq
    · rw [hr] at hbinds
      obtain ⟨-, hpaths, hvalues, -⟩ := collects_bindPlaceholders hr
      -- What was collected is what the paths resolve to.
      have hrender : Interpolation.render
            (fun p => (.ok (w₁.store.display (collected bound.2 p)) : Except Fault String))
            (Interpolation.parse content).segments =
          Interpolation.render (fun p => (w.store.get p t.model).map w.store.display)
            (Interpolation.parse content).segments := by
        refine Interpolation.render_congr fun p hp => ?_
        have hcollected : w.store.get p t.model = .ok (collected bound.2 p) := by
          refine get_eq_collected hvalues ?_
          rw [hpaths]
          exact Interpolation.exists_mem_placeholders (Interpolation.mem_paths_iff.2 hp)
        rw [hcollected, hbinds.grows.sameData.display_eq]
        rfl
      obtain ⟨s, hs⟩ := Interpolation.exists_render_eq_ok (ε := Fault)
        (fun p => w₁.store.display (collected bound.2 p)) (Interpolation.parse content).segments
      rw [hs] at hrender
      dsimp only [faultOf?]
      rw [← hrender, Act.runOn_bind, Act.runOn_get]
      dsimp only
      rw [Act.runOn_bind, Act.runOn_ofExcept, hs]
      refine .change hbinds.grows.sameData ?_
      show w₁.documents.modify t.document (fun d => d.setText n s) = _
      rw [hbinds.documents_eq]
  · -- Without placeholders the whole text is a path.
    unfold bindText Store.filled
    dsimp only
    rw [if_neg htemplate, if_neg htemplate]
    exact draws_bindValue scope n content .text w

/-- A directive is installed by making its binding. -/
theorem draws_install (scope : Scope) (n : NodeId) (expression : String) (directive : Directive)
    (w : World σ) : t.Draws w ((t.install scope n expression directive).runOn w)
      ((t.binding w.store expression directive).map fun b d => d.bound n b) := by
  have hmap {γ : Type} (e : Except Fault γ) (f : γ → ElementBinding σ) :
      (e.map f).map (fun b (d : Document (Listener σ)) => d.bound n b) =
        e.map fun x d => d.bound n (f x) := by
    cases e <;> rfl
  cases directive with
  | text =>
    rw [binding, hmap]
    exact draws_bindText scope n expression w
  | html =>
    rw [binding, hmap]
    exact draws_bindValue scope n expression .markup w
  | bind name =>
    rw [binding, hmap]
    exact draws_bindValue scope n expression (.attr name) w
  | model =>
    rw [binding, hmap]
    have hvalue := draws_bindValue (t := t) scope n expression .input w
    have hlisten := hvalue.then_edit
      (fun d => d.addListener n "input" (.writeBack ⟨expression⟩ t.model)) Scope.recordListener
    generalize w.store.shown t.model expression = e at hlisten ⊢
    cases e <;> exact hlisten
  | on event =>
    rw [binding, hmap, install, Act.runOn_bind, Act.runOn_ofExcept]
    cases t.methods.resolve expression with
    | error f => exact .fault (.refl _) rfl
    | ok listener => exact .change (.refl _) rfl

/-- What an attribute does: a directive makes its binding and is removed. -/
theorem draws_compileAttribute (scope : Scope) (n : NodeId) (a : String × String)
    (w : World σ) : t.Draws w ((t.compileAttribute n scope a).runOn w)
      ((t.binding? w.store a).map fun
        | none => id
        | some b => fun d => (d.bound n b).removeAttribute n a.1) := by
  rw [compileAttribute, Act.runOn_bind, Act.runOn_ofExcept, binding?]
  cases Directive.parse? a.1 with
  | error f => exact .fault (.refl _) rfl
  | ok parsed =>
    cases parsed with
    | none =>
      refine .change (.refl _) ?_
      show w.documents = w.documents.modify t.document id
      rw [modify_id]
    | some directive =>
      have hinstall := (draws_install (t := t) scope n a.2 directive w).then_edit
        (fun d => d.removeAttribute n a.1) id
      dsimp only
      generalize t.binding w.store a.2 directive = e at hinstall ⊢
      cases e <;> exact hinstall

end Setting

/-! ### An element while its directives are installed -/

namespace Document

variable {κ : Type} {d d₁ d₂ : Document κ} {n : NodeId} {inner : List NodeId} {filled : Prop}
  {as as' : Fields String} {ms ms' : List Markup}

/-- The directives of an element have left it with the attributes `as` and with nodes below it that
depict `ms`. Below it are the nodes that were there, all of them `inner`, or else new ones. -/
structure Drawn (d : Document κ) (n : NodeId) (inner : List NodeId) (filled : Prop)
    (as : Fields String) (ms : List Markup) (d' : Document κ) : Prop where
  frames : d.Frames (· = n) d'
  parents : d.KeepsParents (fun m => filled ∧ m ∈ d.children n) d'
  isElement : (d'.element? n).isSome
  tag_eq : d'.tag? n = d.tag? n
  attributes_eq : d'.attributes n = as
  children_eq : ¬ filled → d'.children n = d.children n
  children_mem : ∀ m ∈ d'.children n, m ∈ d.children n ∨ d.size ≤ m
  depicts : ∃ fp, d'.Depicts (d'.children n) ms fp ∧ fp.Nodup ∧
    (fp = inner ∨ ∀ m ∈ fp, d.size ≤ m)

namespace Drawn

theorem start (hn : (d.element? n).isSome) (hdepicts : d.Depicts (d.children n) ms inner)
    (hnodup : inner.Nodup) (filled : Prop) : d.Drawn n inner filled (d.attributes n) ms d where
  frames := .refl _ d
  parents := .refl _ d
  isElement := hn
  tag_eq := rfl
  attributes_eq := rfl
  children_eq _ := rfl
  children_mem _ := .inl
  depicts := ⟨inner, hdepicts, hnodup, .inl rfl⟩

theorem mono {filled' : Prop} (h : d.Drawn n inner filled as ms d₁) (hfilled : filled → filled') :
    d.Drawn n inner filled' as ms d₁ :=
  { h with
    parents := h.parents.mono fun _ _ hm => ⟨hfilled hm.1, hm.2⟩
    children_eq := fun hnot => h.children_eq (mt hfilled hnot) }

/-- A change of an element that is not about its tag or children. -/
theorem modifyElement (h : d.Drawn n inner filled as ms d₁) (hn : n < d.size) (hnot : n ∉ inner)
    {f : Element κ → Element κ} (htag : ∀ e, (f e).tag = e.tag)
    (hchildren : ∀ e, (f e).children = e.children)
    (hattributes : ∀ e, e.attributes = as → (f e).attributes = as') :
    d.Drawn n inner filled as' ms (d₁.modifyElement n f) := by
  have hkept := keepsBelow_modifyElement h.isElement hchildren
  obtain ⟨e, he⟩ := Option.isSome_iff_exists.1 h.isElement
  have he' : (d₁.modifyElement n f).element? n = some (f e) := by
    rw [element?_modifyElement, if_pos rfl, he]
    rfl
  have has : e.attributes = as := by
    rw [← h.attributes_eq, attributes, he]
    rfl
  obtain ⟨fp, hdepicts, hnodup, hfp⟩ := h.depicts
  refine ⟨h.frames.trans hkept.frames, ?_, hkept.isElement, ?_, ?_, ?_, ?_, fp, ?_, hnodup, hfp⟩
  · exact h.parents.trans h.frames.size_le (keepsParents_modifyElement d₁ n f)
  · rw [← h.tag_eq, tag?, tag?, he', he, Option.map_some, Option.map_some, htag]
  · rw [attributes, he']
    exact hattributes e has
  · rw [hkept.children_eq]
    exact h.children_eq
  · rw [hkept.children_eq]
    exact h.children_mem
  · rw [hkept.children_eq]
    refine hdepicts.of_frames hkept.frames fun m hm (he : m = n) => ?_
    rcases hfp with rfl | hfp
    · exact hnot (he ▸ hm)
    · exact Nat.not_le.2 hn (he ▸ hfp m hm)

/-- New nodes below the element. -/
theorem refilled (h : d.Drawn n inner filled as ms d₁) (hr : d₁.Refilled n ms' d₂) :
    d.Drawn n inner True as ms' d₂ := by
  obtain ⟨e, he⟩ := Option.isSome_iff_exists.1 h.isElement
  have he' := hr.element e he
  have hnew : ∀ m ∈ added d₁ d₂, d.size ≤ m := fun m hm =>
    Nat.le_trans h.frames.size_le (mem_added_iff.1 hm).1
  refine ⟨h.frames.trans hr.frames, ?_, hr.isElement h.isElement, ?_, ?_,
    fun hf => (hf trivial).elim, fun m hm => .inr (hnew m (hr.depicts.subset hm)),
    added d₁ d₂, hr.depicts, nodup_added d₁ d₂, .inr hnew⟩
  · -- The nodes that were there and are detached now were children from the start.
    intro m hm hfree
    have hparent := h.parents m hm fun hm' => hfree ⟨trivial, hm'.2⟩
    rw [← hparent]
    refine hr.parents m (Nat.lt_of_lt_of_le hm h.frames.size_le) fun hmem => ?_
    rcases h.children_mem m hmem with hmem | hle
    · exact hfree ⟨trivial, hmem⟩
    · exact Nat.not_le.2 hm hle
  · rw [← h.tag_eq, tag?, tag?, he', he]
    rfl
  · rw [← h.attributes_eq, attributes, attributes, he', he]
    rfl

/-- A binding of the element. -/
theorem bound {d d₁ : Document (Listener σ)} (h : d.Drawn n inner filled as ms d₁)
    (hn : n < d.size) (hnot : n ∉ inner) (b : ElementBinding σ) :
    d.Drawn n inner (filled ∨ b.fills) (b.put as) (b.refill ms) (d₁.bound n b) := by
  obtain ⟨shown, listener⟩ := b
  -- What is shown comes first.
  have hshown : d.Drawn n inner (filled ∨ ElementBinding.fills ⟨shown, listener⟩)
      (ElementBinding.put as ⟨shown, listener⟩) (ElementBinding.refill ms ⟨shown, listener⟩)
      (d₁.bound n ⟨shown, none⟩) := by
    rcases shown with _ | ⟨sink, x⟩
    · exact h.mono .inl
    · cases sink with
      | text =>
        exact (h.refilled (refilled_setText h.isElement x)).mono fun _ => .inr trivial
      | markup =>
        exact (h.refilled (refilled_setMarkup h.isElement x)).mono fun _ => .inr trivial
      | input =>
        have hset : d.Drawn n inner filled as ms (d₁.setInputValue n x) :=
          h.modifyElement hn hnot (fun _ => rfl) (fun _ => rfl) fun _ he => he
        exact hset.mono .inl
      | attr name =>
        have hset : d.Drawn n inner filled (as.put name x) ms (d₁.setAttribute n name x) :=
          h.modifyElement hn hnot (fun _ => rfl) (fun _ => rfl) fun e he => by rw [he]
        exact hset.mono .inl
  cases listener with
  | none => exact hshown
  | some l =>
    exact hshown.modifyElement hn hnot (fun _ => rfl) (fun _ => rfl) fun _ he => he

end Drawn

end Document

/-! ### Attributes while directives are removed -/

namespace Fields

variable {fs : Fields String} {name : String}

theorem mem_of_mem_put {value : String} {a : String × String} (h : a ∈ fs.put name value) :
    a ∈ fs ∨ a = (name, value) := by
  induction fs with
  | nil => exact .inr (List.mem_singleton.1 h)
  | cons f fs ih =>
    obtain ⟨k, v⟩ := f
    rw [put] at h
    split at h
    · rename_i hk
      rcases List.mem_cons.1 h with rfl | h
      · exact .inr (by rw [hk])
      · exact .inl (List.mem_cons_of_mem _ h)
    · rcases List.mem_cons.1 h with rfl | h
      · exact .inl (List.mem_cons_self ..)
      · exact (ih h).imp_left (List.mem_cons_of_mem _)

/-- A plain attribute keeps its place among the plain ones. -/
theorem plain_put (h : Directive.isMarked name = false) (value : String) :
    (fs.put name value).plain = fs.plain.put name value := by
  induction fs with
  | nil => simp [put, plain, h]
  | cons f fs ih =>
    obtain ⟨k, v⟩ := f
    rw [plain] at ih
    by_cases hk : k = name
    · subst hk
      simp [put, plain, h]
    · cases hmarked : Directive.isMarked k <;> simp [put, plain, hk, hmarked, ih]

/-- Removing a directive does not touch plain attributes. -/
theorem plain_erase (h : Directive.isMarked name = true) : (fs.erase name).plain = fs.plain := by
  rw [plain, plain, erase, List.filter_filter]
  refine List.filter_congr fun f _ => ?_
  by_cases hf : f.1 = name <;> simp [hf, h]

end Fields

/-- Bindings with plain names leave plain attributes. -/
theorem isMarked_of_mem_foldl_put {bs : List (ElementBinding σ)} {as : Fields String}
    (has : ∀ a ∈ as, Directive.isMarked a.1 = false)
    (hbs : ∀ b ∈ bs, ∀ name x, b.shown = some (.attr name, x) → Directive.isMarked name = false) :
    ∀ a ∈ bs.foldl ElementBinding.put as, Directive.isMarked a.1 = false := by
  induction bs generalizing as with
  | nil => exact has
  | cons b bs ih =>
    obtain ⟨hb, hbs⟩ := List.forall_mem_cons.1 hbs
    refine ih (fun a ha => ?_) hbs
    rw [ElementBinding.put] at ha
    split at ha
    · rename_i name x hshown
      rcases Fields.mem_of_mem_put ha with ha | rfl
      · exact has a ha
      · exact hb name x hshown
    · exact has a ha

/-- The attributes `as` are left of `start` after the directives among `done` have been installed
with these bindings, and removed. -/
structure Consumes (start done : Fields String) (bs : List (ElementBinding σ))
    (as : Fields String) : Prop where
  plain_eq : as.plain = bs.foldl ElementBinding.put start.plain
  marked : ∀ a ∈ as, Directive.isMarked a.1 = true → a ∈ start ∧ a.1 ∉ done.keys

namespace Consumes

variable {start done as : Fields String} {bs : List (ElementBinding σ)} {a : String × String}

theorem refl (start : Fields String) : Consumes (σ := σ) start [] [] start :=
  ⟨rfl, fun _ ha _ => ⟨ha, List.not_mem_nil⟩⟩

/-- An attribute that is no directive stays. -/
theorem skip (h : Consumes start done bs as) (ha : Directive.isMarked a.1 = false) :
    Consumes start (done ++ [a]) bs as where
  plain_eq := h.plain_eq
  marked a' ha' hmarked := by
    obtain ⟨hmem, hnot⟩ := h.marked a' ha' hmarked
    refine ⟨hmem, fun hkeys => ?_⟩
    rw [Fields.keys_append, List.mem_append] at hkeys
    rcases hkeys with hkeys | hkeys
    · exact hnot hkeys
    · rw [List.mem_singleton.1 hkeys, ha] at hmarked
      cases hmarked

/-- A directive makes its binding and goes. -/
theorem take (h : Consumes start done bs as) (ha : Directive.isMarked a.1 = true)
    {b : ElementBinding σ} (hb : ∀ name x, b.shown = some (.attr name, x) →
      Directive.isMarked name = false) :
    Consumes start (done ++ [a]) (bs ++ [b]) ((b.put as).erase a.1) := by
  -- The binding sets a plain attribute or none, so the directives are those from before.
  have hput : (b.put as).plain = b.put as.plain ∧
      ∀ a' ∈ b.put as, Directive.isMarked a'.1 = true → a' ∈ as := by
    obtain ⟨shown, listener⟩ := b
    unfold ElementBinding.put
    dsimp only
    split
    · rename_i name x
      have hname := hb name x rfl
      refine ⟨Fields.plain_put hname x, fun a' ha' hmarked => ?_⟩
      refine (Fields.mem_of_mem_put ha').resolve_right fun heq => ?_
      rw [heq, hname] at hmarked
      cases hmarked
    · exact ⟨rfl, fun _ ha' _ => ha'⟩
  constructor
  · rw [Fields.plain_erase ha, hput.1, h.plain_eq, List.foldl_append]
    rfl
  · intro a' ha' hmarked
    obtain ⟨ha', hne⟩ := List.mem_filter.1 ha'
    obtain ⟨hmem, hnot⟩ := h.marked a' (hput.2 a' ha' hmarked) hmarked
    refine ⟨hmem, fun hkeys => ?_⟩
    rw [Fields.keys_append, List.mem_append] at hkeys
    rcases hkeys with hkeys | hkeys
    · exact hnot hkeys
    · rw [List.mem_singleton.1 hkeys] at hne
      exact absurd hne (by simp)

/-- In the end the plain attributes are left, and those that were bound. -/
theorem eq (h : Consumes start start bs as) : as = bs.foldl ElementBinding.put start.plain := by
  rw [← h.plain_eq, Fields.plain, List.filter_eq_self.2]
  intro a ha
  cases hmarked : Directive.isMarked a.1 with
  | false => rfl
  | true =>
    obtain ⟨hmem, hnot⟩ := h.marked a ha hmarked
    exact absurd (List.mem_map_of_mem hmem) hnot

end Consumes

/-! ### All attributes of an element -/

namespace Setting

variable {t : Setting σ} {w w' w'' : World σ} {s : Store} {n : NodeId}

/-- A world after another one has the same data and, but for one document, the same documents. -/
structure Yields (t : Setting σ) (w w' : World σ) (d : Document (Listener σ)) : Prop where
  sameData : w.store.SameData w'.store
  document : w'.documents[t.document]? = some d
  others : ∀ i, i ≠ t.document → w'.documents[i]? = w.documents[i]?

variable {d d' d₁ : Document (Listener σ)}

theorem Yields.refl (h : w.documents[t.document]? = some d) : t.Yields w w d :=
  ⟨.refl _, h, fun _ _ => rfl⟩

theorem Yields.trans (h : t.Yields w w' d) (h' : t.Yields w' w'' d') : t.Yields w w'' d' :=
  ⟨h.sameData.trans h'.sameData, h'.document,
    fun i hi => (h'.others i hi).trans (h.others i hi)⟩

/-- A part of a compilation changes one document, or faults and leaves it. -/
theorem Draws.cases {x : Act σ α} {e : Except Fault (Document (Listener σ) → Document _)}
    (h : t.Draws w (x.runOn w) e) (hd : w.documents[t.document]? = some d) :
    (∃ f w', x.runOn w = (.error f, w') ∧ e = .error f ∧ t.Yields w w' d) ∨
      ∃ a g w', x.runOn w = (.ok a, w') ∧ e = .ok g ∧ t.Yields w w' (g d) := by
  generalize x.runOn w = r at h
  cases h with
  | @fault f w' hs hdocuments =>
    exact .inl ⟨f, w', rfl, rfl, hs, by rw [hdocuments, hd], fun _ _ => by rw [hdocuments]⟩
  | @change a w' g hs hdocuments =>
    refine .inr ⟨a, g, w', rfl, rfl, hs, ?_, fun i hi => ?_⟩
    · rw [hdocuments, Array.getElem?_modify, if_pos rfl, hd]
      rfl
    · rw [hdocuments, Array.getElem?_modify, if_neg (Ne.symm hi)]

/-- The directives among the first attributes of an element are installed, and removed. -/
structure Installed (t : Setting σ) (s : Store) (d : Document (Listener σ)) (n : NodeId)
    (inner : List NodeId) (children : List Markup) (done : Fields String)
    (bs : List (ElementBinding σ)) (d' : Document (Listener σ)) : Prop where
  bindings_eq : t.bindings s done = .ok bs
  drawn : ∃ as, (done.BindsPlain → Consumes (d.attributes n) done bs as) ∧
    d.Drawn n inner done.fills as (bs.foldl ElementBinding.refill children) d'

variable {inner : List NodeId} {done : Fields String} {bs : List (ElementBinding σ)}
  {children : List Markup} {a : String × String}

theorem Installed.start (hn : (d.element? n).isSome)
    (hdepicts : d.Depicts (d.children n) children inner) (hnodup : inner.Nodup) :
    t.Installed s d n inner children [] [] d :=
  ⟨rfl, d.attributes n, fun _ => .refl _, .start hn hdepicts hnodup _⟩

/-- An attribute that is no directive is passed over. -/
theorem Installed.skip (h : t.Installed s d n inner children done bs d₁)
    (ha : t.binding? s a = .ok none) : t.Installed s d n inner children (done ++ [a]) bs d₁ := by
  obtain ⟨as, hconsumes, hdrawn⟩ := h.drawn
  refine ⟨?_, as, fun hplain => ?_, hdrawn.mono ?_⟩
  · rw [bindings_append, h.bindings_eq, bindings, ha]
    exact congrArg Except.ok (List.append_nil bs)
  · exact (hconsumes fun a' ha' => hplain a' (List.mem_append_left _ ha')).skip
      (isMarked_of_binding? ha)
  · rintro ⟨a', ha', hfills⟩
    exact ⟨a', List.mem_append_left _ ha', hfills⟩

/-- A directive is installed and removed. -/
theorem Installed.take (h : t.Installed s d n inner children done bs d₁) (hn : n < d.size)
    (hnot : n ∉ inner) {b : ElementBinding σ} (ha : t.binding? s a = .ok (some b)) :
    t.Installed s d n inner children (done ++ [a]) (bs ++ [b])
      ((d₁.bound n b).removeAttribute n a.1) := by
  obtain ⟨as, hconsumes, hdrawn⟩ := h.drawn
  have hbound : d.Drawn n inner _ ((b.put as).erase a.1) _
      ((d₁.bound n b).modifyElement n fun e => { e with attributes := e.attributes.erase a.1 }) :=
    (hdrawn.bound hn hnot b).modifyElement hn hnot (fun _ => rfl) (fun _ => rfl)
      fun e he => by rw [he]
  refine ⟨?_, (b.put as).erase a.1, fun hplain => ?_, ?_⟩
  · rw [bindings_append, h.bindings_eq, bindings, ha]
    rfl
  · have hfirst := hconsumes fun a' ha' => hplain a' (List.mem_append_left _ ha')
    have hlast : Fields.BindsPlain [a] := fun a' ha' => hplain a' (List.mem_append_right _ ha')
    have hmarked : Directive.isMarked a.1 = true := by
      obtain ⟨directive, hparse, -⟩ := exists_directive ha
      rw [← Bool.not_eq_false, ← Directive.parse?_eq_none_iff, hparse]
      simp
    exact hfirst.take hmarked fun name x => isMarked_of_shown ha hlast
  · rw [List.foldl_append]
    refine hbound.mono fun hfills => ?_
    rcases hfills with ⟨a', ha', hfills⟩ | hfills
    · exact ⟨a', List.mem_append_left _ ha', hfills⟩
    · obtain ⟨a', ha', hfills⟩ := fills_of_binding? ha hfills
      exact ⟨a', List.mem_append_right _ ha', hfills⟩

/-- One more attribute: its directive faults, or it is installed. -/
theorem installed_compileAttribute (scope : Scope) (a : String × String) (hn : n < d.size)
    (hnot : n ∉ inner) (hs : s.SameData w.store) (hd : w.documents[t.document]? = some d₁)
    (h : t.Installed s d n inner children done bs d₁) :
    (∃ f w', (t.compileAttribute n scope a).runOn w = (.error f, w') ∧
        t.binding? s a = .error f ∧ t.Yields w w' d₁) ∨
      ∃ made w' d' bs', (t.compileAttribute n scope a).runOn w = (.ok made, w') ∧
        t.Yields w w' d' ∧ t.Installed s d n inner children (done ++ [a]) bs' d' := by
  have hdraws := (draws_compileAttribute scope n a w).cases hd
  rw [binding?_congr hs] at hdraws
  cases hbinding : t.binding? s a with
  | error f =>
    rw [hbinding] at hdraws
    rcases hdraws with ⟨f', w', hrun, heq, hyields⟩ | ⟨_, _, _, _, heq, _⟩
    · exact .inl ⟨f, w', by rw [hrun, Except.error.inj heq], rfl, hyields⟩
    · cases heq
  | ok b? =>
    rw [hbinding] at hdraws
    rcases hdraws with ⟨_, _, _, heq, _⟩ | ⟨made, g, w', hrun, heq, hyields⟩
    · cases heq
    · obtain rfl := (Except.ok.inj heq).symm
      cases b? with
      | none => exact .inr ⟨made, w', d₁, bs, hrun, hyields, h.skip hbinding⟩
      | some b => exact .inr ⟨made, w', _, bs ++ [b], hrun, hyields, h.take hn hnot hbinding⟩

/-- The attributes of an element: the first fault ends them. -/
theorem installed_compileAttributes (scope : Scope) (rest : Fields String) (hn : n < d.size)
    (hnot : n ∉ inner) (hs : s.SameData w.store) (hd : w.documents[t.document]? = some d₁)
    (h : t.Installed s d n inner children done bs d₁) :
    (∃ f w' d' done' bs', (rest.foldlM (t.compileAttribute n) scope).runOn w = (.error f, w') ∧
        t.Yields w w' d' ∧ t.bindings s (done ++ rest) = .error f ∧ done' <+: done ++ rest ∧
        t.Installed s d n inner children done' bs' d') ∨
      ∃ made w' d' bs', (rest.foldlM (t.compileAttribute n) scope).runOn w = (.ok made, w') ∧
        t.Yields w w' d' ∧ t.Installed s d n inner children (done ++ rest) bs' d' := by
  -- The list of attributes was read before the first directive was removed, so the rest of it is
  -- what it was, whatever has become of the element.
  induction rest generalizing scope w d₁ done bs with
  | nil =>
    rw [List.append_nil]
    exact .inr ⟨scope, w, d₁, bs, rfl, .refl hd, h⟩
  | cons a rest ih =>
    rw [List.foldlM_cons, Act.runOn_bind]
    rcases installed_compileAttribute scope a hn hnot hs hd h with
      ⟨f, w', hrun, hbinding, hyields⟩ | ⟨made, w₁, d₂, bs', hrun, hyields, hinstalled⟩
    · -- The directive faults, and nothing happens to the document any more.
      refine .inl ⟨f, w', d₁, done, bs, by rw [hrun], hyields, ?_, List.prefix_append _ _, h⟩
      rw [bindings_append, h.bindings_eq, bindings, hbinding]
      rfl
    · rw [hrun, List.append_cons]
      rcases ih made (hs.trans hyields.sameData) hyields.document hinstalled with
        ⟨f, w', d', done', bs'', hrest, hyields', hrest'⟩ |
        ⟨made', w', d', bs'', hrest, hyields', hinstalled'⟩
      · exact .inl ⟨f, w', d', done', bs'', hrest, hyields.trans hyields', hrest'⟩
      · exact .inr ⟨made', w', d', bs'', hrest, hyields.trans hyields', hinstalled'⟩

end Setting

end LiveBinding
