import LiveBinding.Proofs.Evolution.Sound
import LiveBinding.Proofs.Template.Gains
import LiveBinding.Proofs.Template.Root

/-!
# What an element shows

A directive that shows a value as text puts a text below its element. The walk that installs the
directive comes to this text, and fills it in if the value has given it placeholders. An update
puts a text below the element too, and nothing comes to it then.

## Key definitions

- `Document.Reaches`: the nodes that a walk comes to from a node
- `Document.Holds`: the text below an element
- `Scope.Keeps`: an act that hands on the effects of a scope
- `Setting.Stepped`: the first of several nodes has been compiled

## Key results

- `Setting.runOn_compileNode_text`: an element with one directive, which shows a value
- `Setting.Walks.shows`: a walk that comes to such an element
- `Setting.compile_shows`: what the element shows after the compilation, and later
-/

namespace LiveBinding

variable {σ : Type}

open Relation World

namespace Document

variable {κ : Type} {d d' : Document κ} {free : NodeId → Prop} {m n : NodeId} {s : String}

/-- From a node down to another one, no element has a directive that replaces what is below it. -/
def Reaches (d : Document κ) : NodeId → NodeId → Prop :=
  ReflTransGen fun p c => d.HasChild p c ∧ ¬ Fields.fills (d.attributes p)

theorem Reaches.hasChild (h : d.Reaches m n) : ReflTransGen d.HasChild m n :=
  h.lift id fun _ _ hc => hc.1

theorem isSome_element?_of_hasChild (h : d.HasChild m n) : (d.element? m).isSome := by
  cases he : d.element? m with
  | none =>
    rw [HasChild, children_eq_nil_of_element?_eq_none he] at h
    cases h
  | some e => rfl

/-- A way down stays as it is if the nodes below its start do. -/
theorem Reaches.of_frames (h : d.Reaches m n) (hframes : d.Frames free d')
    (hfree : ∀ p, ReflTransGen d.HasChild m p → ¬ free p) : d'.Reaches m n := by
  induction h with
  | refl => exact .refl
  | @tail p c hp hc ih =>
    have helement : d'.element? p = d.element? p := by
      cases he : d.element? p with
      | none =>
        -- Only an element has children.
        have hsome := isSome_element?_of_hasChild hc.1
        rw [he] at hsome
        cases hsome
      | some e =>
        rw [hframes.element?_eq (lt_size_of_element? he) (hfree p (Reaches.hasChild hp)), he]
    refine ih.tail ⟨?_, ?_⟩
    · rw [HasChild, children, helement]
      exact hc.1
    · rw [attributes, helement]
      exact hc.2

/-- Below an element is one text, or nothing if the text is empty. -/
def Holds (d : Document κ) (n : NodeId) (s : String) : Prop :=
  (d.element? n).isSome ∧
    (d.children n = [] ∧ s = "" ∨ ∃ k, d.children n = [k] ∧ d.content? k = some (.text s))

theorem Holds.text_eq (h : d.Holds n s) : d.text n = s := by
  obtain ⟨hn, hchildren⟩ := h
  obtain ⟨e, he⟩ := Option.isSome_iff_exists.1 hn
  have hc := element?_eq_some_iff.1 he
  rw [children_of_content? hc] at hchildren
  obtain ⟨depth, hdepth⟩ := Nat.exists_eq_add_one.2 (Nat.zero_lt_of_lt (lt_size_of_content? hc))
  rcases hchildren with ⟨hnil, rfl⟩ | ⟨k, hk, htext⟩
  · simp only [text, hc, hdepth, textTo, hnil]
    rfl
  · -- The document has two nodes at least.
    have hne : k ≠ n := by
      rintro rfl
      cases htext.symm.trans hc
    have hn := lt_size_of_content? hc
    have hk' := lt_size_of_content? htext
    have hpos : depth ≠ 0 := by
      rintro rfl
      rw [hdepth, Nat.zero_add, Nat.lt_one_iff] at hn hk'
      exact hne (hk'.trans hn.symm)
    obtain ⟨depth, rfl⟩ := Nat.exists_eq_add_one_of_ne_zero hpos
    simp [text, hc, hdepth, textTo, hk, htext]

theorem holds_of_depicts (hn : (d.element? n).isSome) {fp : List NodeId}
    (h : d.Depicts (d.children n) (Markup.ofText s) fp) : d.Holds n s := by
  refine ⟨hn, ?_⟩
  generalize d.children n = ns at h ⊢
  rw [Markup.ofText] at h
  split at h
  · cases h
    exact .inl ⟨rfl, ‹_›⟩
  · cases h with
    | @leaf k c _ _ _ _ hk hc hrest =>
      cases hrest
      cases c with
      | text x =>
        obtain rfl : x = s := by simpa [Content.leaf?] using hc
        exact .inr ⟨k, rfl, hk⟩
      | comment x => simp [Content.leaf?] at hc
      | element e => cases hc

theorem Holds.of_frames (h : d.Holds n s) (hframes : d.Frames free d') (hn : ¬ free n)
    (hfree : ∀ k ∈ d.children n, ¬ free k) : d'.Holds n s := by
  obtain ⟨hisElement, hchildren⟩ := h
  obtain ⟨e, he⟩ := Option.isSome_iff_exists.1 hisElement
  have helement := hframes.element?_eq (lt_size_of_element? he) hn
  have hsame : d'.children n = d.children n := by rw [children, helement, ← children]
  refine ⟨helement ▸ hisElement, ?_⟩
  rw [hsame]
  rcases hchildren with hnil | ⟨k, hk, htext⟩
  · exact .inl hnil
  · refine .inr ⟨k, hk, ?_⟩
    rw [hframes.content?_eq k (lt_size_of_content? htext) (hfree k (by simp [hk])), htext]

/-- A text that is set below an element is the text below it. -/
theorem holds_setText (hn : (d.element? n).isSome) (s : String) : (d.setText n s).Holds n s :=
  have hrefilled := refilled_setText hn s
  holds_of_depicts (hrefilled.isElement hn) hrefilled.depicts

theorem Holds.removeAttribute (h : d.Holds n s) (name : String) :
    (d.removeAttribute n name).Holds n s := by
  have hkept : d.KeepsBelow n (d.removeAttribute n name) :=
    keepsBelow_modifyElement h.1 fun _ => rfl
  refine ⟨hkept.isElement, ?_⟩
  rw [hkept.children_eq]
  rcases h.2 with hnil | ⟨k, hk, htext⟩
  · exact .inl hnil
  · refine .inr ⟨k, hk, ?_⟩
    rw [hkept.frames.content?_eq k (lt_size_of_content? htext), htext]
    -- The element is no text.
    rintro rfl
    obtain ⟨e, he⟩ := Option.isSome_iff_exists.1 h.1
    cases htext.symm.trans (element?_eq_some_iff.1 he)

end Document

/-! ### Scopes grow -/

namespace Scope

variable {α : Type} {scope : Scope}

/-- An act hands on a scope that holds the effects of this one. -/
def Keeps (scope : Scope) (act : Act σ Scope) : Prop :=
  ∀ w made w', act.runOn w = (.ok made, w') → scope.effects ⊆ made.effects

theorem keeps_pure {made : Scope} (h : scope.effects ⊆ made.effects) :
    scope.Keeps (pure made : Act σ Scope) := by
  rintro w made' w' ⟨⟩
  exact h

theorem keeps_bind {x : Act σ α} {f : α → Act σ Scope} (hf : ∀ a, scope.Keeps (f a)) :
    scope.Keeps (x >>= f) := by
  intro w made w' h
  rw [Act.runOn_bind] at h
  rcases hr : x.runOn w with ⟨_ | a, w₁⟩
  · rw [hr] at h
    cases h
  · rw [hr] at h
    exact hf a w₁ made w' h

/-- A part of a compilation and then another one. -/
theorem Keeps.bind {x : Act σ Scope} {f : Scope → Act σ Scope} (hx : scope.Keeps x)
    (hf : ∀ made : Scope, made.Keeps (f made)) : scope.Keeps (x >>= f) := by
  intro w made w' h
  rw [Act.runOn_bind] at h
  rcases hr : x.runOn w with ⟨_ | made₁, w₁⟩
  · rw [hr] at h
    cases h
  · rw [hr] at h
    exact List.Subset.trans (hx w made₁ w₁ hr) (hf made₁ w₁ made w' h)

theorem keeps_foldlM {f : Scope → α → Act σ Scope} (hf : ∀ (s : Scope) a, s.Keeps (f s a))
    (as : List α) (scope : Scope) : scope.Keeps (as.foldlM f scope) := by
  induction as generalizing scope with
  | nil => exact keeps_pure fun _ h => h
  | cons a as ih =>
    rw [List.foldlM_cons]
    exact (hf scope a).bind ih

end Scope

namespace Setting

variable {t : Setting σ} {w w' w₁ : World σ} {s : Store} {d d' d₁ : Document (Listener σ)}
  {m n : NodeId} {scope made : Scope}

theorem keeps_bindValue (t : Setting σ) (scope : Scope) (n : NodeId) (expression : String)
    (sink : Sink) : scope.Keeps (t.bindValue scope n expression sink) :=
  Scope.keeps_bind fun _ => Scope.keeps_bind fun _ => Scope.keeps_bind fun _ =>
    Scope.keeps_pure fun _ he => List.mem_append_left _ he

theorem keeps_bindText (t : Setting σ) (scope : Scope) (n : NodeId) (content : String) :
    scope.Keeps (t.bindText scope n content) := by
  by_cases htemplate : (Interpolation.parse content).hasPlaceholders = true
  · intro w made w' h
    obtain ⟨rfl, -⟩ := effects_bindText (Interpolation.hasPlaceholders_parse content ▸ htemplate) h
    exact List.subset_append_left _ _
  · unfold bindText
    dsimp only
    rw [if_neg htemplate]
    exact t.keeps_bindValue scope n content .text

theorem keeps_install (t : Setting σ) (scope : Scope) (n : NodeId) (expression : String)
    (directive : Directive) : scope.Keeps (t.install scope n expression directive) := by
  cases directive with
  | text => exact t.keeps_bindText scope n expression
  | html => exact t.keeps_bindValue scope n expression .markup
  | bind name => exact t.keeps_bindValue scope n expression (.attr name)
  | on event =>
    exact Scope.keeps_bind fun _ => Scope.keeps_bind fun _ => Scope.keeps_pure fun _ he => he
  | model =>
    exact (t.keeps_bindValue scope n expression .input).bind fun _ =>
      Scope.keeps_bind fun _ => Scope.keeps_pure fun _ he => he

theorem keeps_compileAttribute (t : Setting σ) (n : NodeId) (scope : Scope) (a : String × String) :
    scope.Keeps (t.compileAttribute n scope a) := by
  refine Scope.keeps_bind fun parsed => ?_
  cases parsed with
  | none => exact Scope.keeps_pure fun _ he => he
  | some directive =>
    exact (t.keeps_install scope n a.2 directive).bind fun _ =>
      Scope.keeps_bind fun _ => Scope.keeps_pure fun _ he => he

theorem keeps_compileNode (t : Setting σ) (scope : Scope) (n : NodeId) :
    scope.Keeps (t.compileNode scope n) := by
  refine Scope.keeps_bind fun d => ?_
  split
  · exact Scope.keeps_foldlM (t.keeps_compileAttribute n) _ scope
  · dsimp only
    split
    · exact t.keeps_bindText scope n _
    · exact Scope.keeps_pure fun _ he => he
  · exact Scope.keeps_pure fun _ he => he

/-- On a walk effects are constructed and held, and none is let go. -/
theorem Walks.grows {ns visited : List NodeId} (h : t.Walks w scope ns visited (.ok made) w') :
    Grows 0 w w' ∧ scope.effects ⊆ made.effects := by
  generalize hr : Except.ok made = r at h
  induction h with
  | done w scope =>
    obtain rfl := Except.ok.inj hr
    exact ⟨.refl 0 w, fun _ he => he⟩
  | fault => cases hr
  | @node w w₁ w' scope made₁ n ns visited r hnode _ ih =>
    obtain ⟨hgrows, hsubset⟩ := ih hr
    have hbuilds := builds_compileNode (t := t) 0 scope n (Nat.zero_le w.effects.size)
    rw [hnode] at hbuilds
    exact ⟨hbuilds.grows.trans hgrows,
      List.Subset.trans (t.keeps_compileNode scope n _ _ _ hnode) hsubset⟩

/-! ### An element with one directive -/

/-- Plain attributes are passed over. -/
theorem runOn_compileAttributes_marked (t : Setting σ) (n : NodeId) (as : Fields String)
    (scope : Scope) (w : World σ) :
    (as.foldlM (t.compileAttribute n) scope).runOn w =
      ((as.filter fun a => Directive.isMarked a.1).foldlM (t.compileAttribute n) scope).runOn
        w := by
  induction as generalizing scope w with
  | nil => rfl
  | cons a as ih =>
    rw [List.foldlM_cons, List.filter_cons]
    cases hmarked : Directive.isMarked a.1 with
    | true =>
      rw [if_pos rfl, List.foldlM_cons, Act.runOn_bind, Act.runOn_bind]
      rcases (t.compileAttribute n scope a).runOn w with ⟨f | made, w₁⟩
      · rfl
      · exact ih made w₁
    | false =>
      have hskip : (t.compileAttribute n scope a).runOn w = (.ok scope, w) := by
        rw [compileAttribute, Act.runOn_bind, Act.runOn_ofExcept,
          (Directive.parse?_eq_none_iff _).2 hmarked]
        rfl
      rw [if_neg (by simp), Act.runOn_bind, hskip]
      exact ih scope w

/-- An element with one directive, which shows the value of a path as text. -/
theorem runOn_compileNode_text {e : Element (Listener σ)} {a : String × String}
    (hd : w.documents[t.document]? = some d) (hn : d.element? n = some e)
    (hmarked : (e.attributes.filter fun a => Directive.isMarked a.1) = [a])
    (htext : Directive.parse? a.1 = .ok (some .text))
    (hbare : containsPlaceholder a.2.toList = false) :
    (t.compileNode scope n).runOn w =
      match w.store.get ⟨a.2⟩ t.model with
      | .error f =>
        (.error f, w.construct ⟨a.2⟩ t.model t.gated (.display .text ⟨t.document, n⟩))
      | .ok v =>
        (.ok (scope.hold w.effects.size),
          ((w.construct ⟨a.2⟩ t.model t.gated (.display .text ⟨t.document, n⟩)).writeSink .text
            ⟨t.document, n⟩ (w.store.display v)).modifyDocument t.document
              fun d => d.removeAttribute n a.1) := by
  have hsort : d.sort n = .element := by
    rw [Document.sort, Document.element?_eq_some_iff.1 hn]
  have hattributes : d.attributes n = e.attributes := by
    rw [Document.attributes, hn]
    rfl
  rw [compileNode, Act.runOn_bind, runOn_currentDocument hd]
  dsimp only
  rw [hsort, hattributes]
  dsimp only
  rw [runOn_compileAttributes_marked, hmarked, List.foldlM_cons, Act.runOn_bind, compileAttribute,
    Act.runOn_bind, Act.runOn_ofExcept, htext]
  dsimp only
  have hparse : (Interpolation.parse a.2).hasPlaceholders = false := by
    rw [Interpolation.hasPlaceholders_parse, hbare]
  rw [Act.runOn_bind, install, bindText]
  dsimp only
  rw [if_neg (by simp [hparse]), runOn_bindValue]
  cases w.store.get ⟨a.2⟩ t.model <;> rfl

/-- If the element is compiled, the text of the value is below it, and the effect that shows the
value is held. -/
theorem compileNode_text_ok {e : Element (Listener σ)} {a : String × String}
    (hd : w.documents[t.document]? = some d) (hn : d.element? n = some e)
    (hmarked : (e.attributes.filter fun a => Directive.isMarked a.1) = [a])
    (htext : Directive.parse? a.1 = .ok (some .text))
    (hbare : containsPlaceholder a.2.toList = false)
    (h : (t.compileNode scope n).runOn w = (.ok made, w₁))
    (hd₁ : w₁.documents[t.document]? = some d₁) :
    ∃ v, w.store.get ⟨a.2⟩ t.model = .ok v ∧ d₁.Holds n (w.store.display v) ∧
      w.effects.size ∈ made.effects ∧ w₁.effects[w.effects.size]? =
        some (w.record ⟨a.2⟩ t.model t.gated (.display .text ⟨t.document, n⟩)) := by
  rw [runOn_compileNode_text hd hn hmarked htext hbare] at h
  cases hget : w.store.get ⟨a.2⟩ t.model with
  | error f =>
    rw [hget] at h
    cases h
  | ok v =>
    rw [hget] at h
    obtain ⟨hmade, rfl⟩ := Prod.mk.inj h
    obtain rfl := Except.ok.inj hmade
    refine ⟨v, rfl, ?_, List.mem_append_right _ (List.mem_singleton.2 rfl), ?_⟩
    · rw [documents_modifyDocument, if_pos rfl, writeSink, documents_modifyDocument, if_pos rfl,
        construct, hd] at hd₁
      obtain rfl := Option.some.inj hd₁
      exact (Document.holds_setText (by rw [hn]; rfl) _).removeAttribute a.1
    · show (w.construct _ _ _ _).effects[w.effects.size]? = _
      rw [effects_construct, if_pos rfl]

/-! ### The walk around it -/

/-- The node `m` has been compiled before the nodes `ns`, and the walk goes on with those that are
below it now: with them and the nodes `ns`, the document depicts `ms`. -/
structure Stepped (t : Setting σ) (w w₁ : World σ) (d d₁ : Document (Listener σ)) (m : NodeId)
    (ns : List NodeId) (ms : List Markup) (fp : List NodeId) : Prop where
  yields : t.Yields w w₁ d₁
  frames : d.Frames (· = m) d₁
  depicts : d₁.Depicts (d₁.children m ++ ns) ms fp
  nodup : fp.Nodup
  notMem : m ∉ fp
  children_eq : ¬ Fields.fills (d.attributes m) → d₁.children m = d.children m
  /-- No way down from another node, or from below the node, leads to it. -/
  apart : ∀ k, k ∈ d.children m ∨ k ∈ ns → ∀ p, ReflTransGen d.HasChild k p → p ≠ m

theorem stepped_compileNode {ns fp : List NodeId} {ms : List Markup}
    (hd : w.documents[t.document]? = some d) (hdepicts : d.Depicts (m :: ns) ms fp)
    (hnodup : fp.Nodup) (h : (t.compileNode scope m).runOn w = (.ok made, w₁)) :
    ∃ d₁ ms₁ fp₁, t.Stepped w w₁ d d₁ m ns ms₁ fp₁ ∧ ∀ k ∈ fp₁, k ∈ fp ∨ d.size ≤ k := by
  cases hdepicts with
  | @leaf _ c m' _ fp ms hc hleaf hrest =>
    obtain ⟨hnot, hnodup⟩ := List.nodup_cons.1 hnodup
    rcases compileLeaf_cases scope (.refl _) hd hc hleaf with
      ⟨_, _, hrun, -⟩ | ⟨_, _, d₁, c', _, hrun, hyields, hworked, hc', hleaf', -⟩
    · cases h.symm.trans hrun
    · obtain ⟨-, rfl⟩ := Prod.mk.inj (h.symm.trans hrun)
      have hnone : d.children m = [] := Document.children_eq_nil_of_element?_eq_none
        (Document.element?_eq_none_of_leaf hc hleaf)
      have hnone₁ : d₁.children m = [] := Document.children_eq_nil_of_element?_eq_none
        (Document.element?_eq_none_of_leaf hc' hleaf')
      have hframes : d.Frames (· = m) d₁ :=
        hworked.frames.mono fun _ _ hm => List.mem_singleton.1 hm
      refine ⟨d₁, ms, fp,
        ⟨hyields, hframes, ?_, hnodup, hnot, fun _ => by rw [hnone, hnone₁], ?_⟩,
        fun k hk => .inl (List.mem_cons_of_mem _ hk)⟩
      · rw [hnone₁, List.nil_append]
        exact hrest.of_frames hframes fun k hk (heq : k = m) => hnot (heq ▸ hk)
      · rintro k hk p hp rfl
        rw [hnone] at hk
        exact hnot (hrest.mem_of_reflTransGen (hk.resolve_left List.not_mem_nil) hp)
  | @element _ e _ inner fp children ms hc hinside hrest =>
    obtain ⟨hnot, hnodup⟩ := List.nodup_cons.1 hnodup
    obtain ⟨hinner, hnodup, hapart⟩ := List.nodup_append'.1 hnodup
    rw [List.mem_append, not_or] at hnot
    rcases compileElement_cases scope (.refl _) hd hc hinside hinner hnot.1 with
      ⟨_, _, _, hrun, -⟩ | ⟨_, _, d₁, bs, _, hrun, hyields, -, -, hdrawn⟩
    · cases h.symm.trans hrun
    · obtain ⟨-, rfl⟩ := Prod.mk.inj (h.symm.trans hrun)
      obtain ⟨inner', hinside', hinner', hcases⟩ := hdrawn.depicts
      have hattributes : d.attributes m = e.attributes := by
        rw [Document.attributes, Document.element?_eq_some_iff.2 hc]
        rfl
      -- New nodes are none of those that were there.
      have hnew : ∀ k, k < d.size → k ∈ inner' → k ∈ inner := by
        intro k hlt hk
        rcases hcases with rfl | hnew
        · exact hk
        · exact absurd (hnew k hk) (Nat.not_le.2 hlt)
      refine ⟨d₁, _, inner' ++ fp, ⟨hyields, hdrawn.frames, hinside'.append
        (hrest.of_frames hdrawn.frames fun k hk (heq : k = m) => hnot.2 (heq ▸ hk)),
        hinner'.append hnodup fun k hk hk' => hapart (hnew k (hrest.lt_size k hk') hk) hk', ?_,
        fun hfills => hdrawn.children_eq (hattributes ▸ hfills), ?_⟩, fun k hk => ?_⟩
      · rw [List.mem_append, not_or]
        exact ⟨fun hm => hnot.1 (hnew m (Document.lt_size_of_content? hc) hm), hnot.2⟩
      · rintro k hk p hp rfl
        rw [Document.children_of_content? hc] at hk
        rcases hk with hk | hk
        · exact hnot.1 (hinside.mem_of_reflTransGen hk hp)
        · exact hnot.2 (hrest.mem_of_reflTransGen hk hp)
      · by_cases hlt : k < d.size
        · refine .inl (List.mem_cons_of_mem _ (List.mem_append.2 ?_))
          exact (List.mem_append.1 hk).imp_left (hnew k hlt)
        · exact .inr (Nat.le_of_not_lt hlt)

/-- The walk goes on below an element with a text, and fills in the placeholders of the text. -/
theorem Walks.fillsIn {ns fp visited : List NodeId} {ms : List Markup} {r : Except Fault Scope}
    {y : String} (h : t.Walks w scope (d.children n ++ ns) visited r w') (hr : r = .ok made)
    (hs : s.SameData w.store) (hd : w.documents[t.document]? = some d)
    (hdepicts : d.Depicts (d.children n ++ ns) ms fp) (hnodup : fp.Nodup) (hnot : n ∉ fp)
    (hholds : d.Holds n y) :
    ∃ d' x, w'.documents[t.document]? = some d' ∧ t.textOf s y = .ok x ∧ d'.Holds n x := by
  rcases hholds.2 with ⟨hnil, rfl⟩ | ⟨k, hk, htext⟩
  · obtain ⟨d', hyields, hworks⟩ := h.works hs hd hdepicts hnodup
    refine ⟨d', "", hyields.document, rfl, hholds.of_frames hworks.worked.frames hnot ?_⟩
    simp [hnil]
  · rw [hk] at h hdepicts
    cases h with
    | fault => cases hr
    | @node _ w₁ _ _ made₁ _ _ visited _ hnode hrest =>
      obtain ⟨_, _, hrun, -⟩ | ⟨_, _, d₁, x, hrun, hyields, hx, hworked, htext₁⟩ :=
        compileText_cases (t := t) scope hs hd htext
      · cases hnode.symm.trans hrun
      · obtain ⟨-, rfl⟩ := Prod.mk.inj (hnode.symm.trans hrun)
        cases hdepicts with
        | @leaf _ c m _ fp ms hc hleaf hrest' =>
          obtain ⟨hnotk, hnodup⟩ := List.nodup_cons.1 hnodup
          obtain ⟨hne, hnot⟩ := not_or.1 (mt List.mem_cons.2 hnot)
          have hnone : d₁.children k = [] := Document.children_eq_nil_of_element?_eq_none
            (Document.element?_eq_none_of_leaf htext₁ rfl)
          rw [document_eq hyields.document, hnone] at hrest
          have hdepicts₁ := hrest'.of_frames hworked.frames
            fun j hj hj' => hnotk (List.mem_singleton.1 hj' ▸ hj)
          obtain ⟨d', hyields', hworks⟩ :=
            hrest.works (hs.trans hyields.sameData) hyields.document hdepicts₁ hnodup
          obtain ⟨e, he⟩ := Option.isSome_iff_exists.1 hholds.1
          have helement := hworked.frames.element?_eq (Document.lt_size_of_element? he)
            fun hm => hne (List.mem_singleton.1 hm)
          have hk₁ : d₁.children n = [k] := by
            rw [Document.children, helement, ← Document.children, hk]
          have hholds₁ : d₁.Holds n x := ⟨helement ▸ hholds.1, .inr ⟨k, hk₁, htext₁⟩⟩
          exact ⟨d', x, hyields'.document, hx, hholds₁.of_frames hworks.worked.frames hnot
            (by simpa [hk₁] using hnotk)⟩
        | element hc => cases htext.symm.trans hc

/-- A walk that comes to an element with one directive, which shows the value of a path as text,
leaves the text of the value below it, with the placeholders of this text filled in. -/
theorem Walks.shows {ns fp visited : List NodeId} {ms : List Markup} {r : Except Fault Scope}
    {e : Element (Listener σ)} {a : String × String} (h : t.Walks w scope ns visited r w')
    (hr : r = .ok made) (hs : s.SameData w.store) (hd : w.documents[t.document]? = some d)
    (hdepicts : d.Depicts ns ms fp) (hnodup : fp.Nodup) (hm : m ∈ ns) (hreach : d.Reaches m n)
    (hn : d.element? n = some e)
    (hmarked : (e.attributes.filter fun a => Directive.isMarked a.1) = [a])
    (htext : Directive.parse? a.1 = .ok (some .text))
    (hbare : containsPlaceholder a.2.toList = false) :
    ∃ d' v x, w'.documents[t.document]? = some d' ∧ s.get ⟨a.2⟩ t.model = .ok v ∧
      t.textOf s (s.display v) = .ok x ∧ d'.Holds n x ∧
      ∃ id ∈ made.effects, ∃ effect, w'.effects[id]? = some effect ∧ effect.path = ⟨a.2⟩ ∧
        effect.root = t.model ∧ effect.gated = t.gated ∧
        effect.reaction = .display .text ⟨t.document, n⟩ := by
  induction h generalizing d ms fp m with
  | done => cases hm
  | fault => cases hr
  | @node w w₁ w' scope made₁ first ns visited r hnode hrest ih =>
    obtain ⟨d₁, ms₁, fp₁, hstep, -⟩ := stepped_compileNode hd hdepicts hnodup hnode
    have hyields := hstep.yields
    rw [document_eq hyields.document] at hrest ih
    have hs₁ := hs.trans hyields.sameData
    by_cases hfirst : n = first
    · subst hfirst
      obtain ⟨v, hv, hholds, hmem, heffect⟩ :=
        compileNode_text_ok hd hn hmarked htext hbare hnode hyields.document
      obtain ⟨d', x, hd', hx, hholds'⟩ :=
        hrest.fillsIn hr hs₁ hyields.document hstep.depicts hstep.nodup hstep.notMem hholds
      subst hr
      obtain ⟨hgrows, hsubset⟩ := hrest.grows
      rw [hs.get_eq] at hv
      rw [hs.display_eq] at hx
      exact ⟨d', v, x, hd', hv, hx, hholds', _, hsubset hmem, _, hgrows.effect_eq heffect, rfl, rfl,
        rfl, rfl⟩
    · -- The way to the element goes on below the first node, or from another one.
      obtain ⟨k, hk, hreach'⟩ : ∃ k, (k ∈ d.children first ∧
          ¬ Fields.fills (d.attributes first) ∨ k ∈ ns) ∧ d.Reaches k n := by
        rcases List.mem_cons.1 hm with rfl | hm
        · rcases hreach.cases_head with rfl | ⟨k, hk, hrest⟩
          · exact absurd rfl hfirst
          · exact ⟨k, .inl hk, hrest⟩
        · exact ⟨m, .inr hm, hreach⟩
      have hk₁ : k ∈ d₁.children first ++ ns := by
        rw [List.mem_append]
        rcases hk with ⟨hk, hfills⟩ | hk
        · exact .inl (by rwa [hstep.children_eq hfills])
        · exact .inr hk
      have hreach₁ := hreach'.of_frames hstep.frames (hstep.apart k (hk.imp_left And.left))
      refine ih hr hs₁ hyields.document hstep.depicts hstep.nodup hk₁ hreach₁ ?_
      rw [hstep.frames.element?_eq (Document.lt_size_of_element? hn) hfirst, hn]

/-- Putting the children of the root back changes the root only, which is no text. -/
theorem Staged.holds {r : Except Fault Scope} {root : NodeId} {fp : List NodeId} {x : String}
    (h : t.Staged w d root r w' fp w₁ d₁) (hroot : (d.element? root).isSome) (hne : n ≠ root)
    (hholds : d₁.Holds n x) : (d₁.appendChildren root (d.children root)).Holds n x := by
  have hframes : d₁.Frames (· = root) (d₁.appendChildren root (d.children root)) :=
    ⟨Nat.le_of_eq h.reattached.size_eq.symm, fun k _ hk => h.reattached.others k hk⟩
  refine hholds.of_frames hframes hne fun k hk (heq : k = root) => ?_
  subst heq
  obtain ⟨e, he⟩ := Option.isSome_iff_exists.1 hroot
  have hdetached := Document.element?_detachChildren he
  have hworked := h.works.worked.frames.element?_eq (Document.lt_size_of_element? hdetached)
    h.notMem
  obtain ⟨hnil, -⟩ | ⟨k', hk', htext⟩ := hholds.2
  · rw [hnil] at hk
    cases hk
  · rw [hk', List.mem_singleton] at hk
    subst hk
    rw [hdetached, Document.element?_eq_some_iff, htext] at hworked
    cases hworked

/-! ### Now and later -/

/-- An update of an effect that shows a value on an element puts the text of the value there. -/
theorem runOn_update_text (call : Call σ) {id : EffectId} {effect : Effect σ} {node : NodeRef}
    {v : Value} (he : w.effects[id]? = some effect)
    (hreaction : effect.reaction = .display .text node)
    (hv : w.store.get effect.path effect.root = .ok v)
    (hgate : (effect.gated && v.same effect.last) = false) (hn : w.IsElement node) :
    ∃ w', (Act.update call id).runOn w = (.ok ⟨⟩, w') ∧
      (w'.document node.document).text node.node = w.store.display v := by
  have hplace : effect.place? = some (.text, node) := by rw [Effect.place?, hreaction]
  have hshown : effect.shown (w.deliver id v).store = .ok (w.store.display v) := by
    -- Delivering a value does not change the data.
    have hstore : (w.deliver id v).store = w.store := rfl
    rw [hstore, Effect.shown, hreaction, hv]
    rfl
  refine ⟨(w.deliver id v).writeSink .text node (w.store.display v), ?_, ?_⟩
  · rw [Act.runOn_update, he]
    dsimp only
    rw [hv]
    dsimp only
    rw [hgate, if_neg (by simp),
      Act.runOn_react_of_place?_eq_some (w := w.deliver id v) hplace hv, hshown]
  · obtain ⟨d, el, hd, hel⟩ := hn
    have hd' : ((w.deliver id v).writeSink .text node (w.store.display v)).documents[
        node.document]? = some (d.setText node.node (w.store.display v)) := by
      rw [writeSink, documents_modifyDocument, if_pos rfl]
      show (w.documents[node.document]?).map _ = _
      rw [hd]
      rfl
    rw [document_eq hd']
    refine (Document.holds_setText ?_ _).text_eq
    rw [Document.element?_eq_some_iff.2 hel]
    rfl

/-- An element with one directive, which shows the value of a path as text, shows the text of the
value after a compilation that has come to it, unless there are placeholders in this text: these are
filled in. An effect in the scope puts the text of the current value there with every later update
that its gate lets through, with placeholders or without. -/
theorem compile_shows (t : Setting σ) (root : NodeId) (w w' : World σ) (d : Document (Listener σ))
    (made : Scope) (n m : NodeId) (name expression : String)
    (hd : w.documents[t.document]? = some d) (hc : d.Consistent) (ha : d.Acyclic)
    (h : (t.compile root).runOn w = (.ok made, w'))
    (hm : m ∈ d.children root) (hreach : d.Reaches m n)
    (hmarked : ((d.attributes n).filter fun a => Directive.isMarked a.1) = [(name, expression)])
    (htext : Directive.parse? name = .ok (some .text))
    (hbare : containsPlaceholder expression.toList = false) :
    ∃ v, w.store.get ⟨expression⟩ t.model = .ok v ∧
      let shown := (w'.document t.document).text n
      (containsPlaceholder (w.store.display v).toList = false → shown = w.store.display v) ∧
      (containsPlaceholder (w.store.display v).toList = true →
        (Act.render (fun p => Act.read p t.model) (.parse (w.store.display v))).runOn w =
          (.ok shown, w)) ∧
      ∃ id ∈ made.effects, ∀ u, ReflTransGen Move w' u →
        ∃ effect, u.effects[id]? = some effect ∧ effect.path = ⟨expression⟩ ∧
          effect.root = t.model ∧
          ∀ (call : Call σ) v', u.store.get ⟨expression⟩ t.model = .ok v' →
            (t.gated && v'.same effect.last) = false →
              ∃ u', (Act.update call id).runOn u = (.ok ⟨⟩, u') ∧
                (u'.document t.document).text n = u.store.display v' := by
  obtain ⟨fp, w₁, d₁, hstaged⟩ := exists_staged hd hc ha h (by simp)
  obtain ⟨visited, hwalks⟩ := hstaged.walks
  have hframes := Document.frames_detachChildren d root
  -- The root is not below itself.
  have hbelow (p : NodeId) (hp : ReflTransGen d.HasChild m p) : p ≠ root := by
    rintro rfl
    exact ha p (TransGen.head' hm hp)
  have hne := hbelow n hreach.hasChild
  obtain ⟨e, hn⟩ : ∃ e, d.element? n = some e := by
    cases he : d.element? n with
    | none => simp [Document.attributes, he] at hmarked
    | some e => exact ⟨e, rfl⟩
  rw [Document.attributes, hn] at hmarked
  obtain ⟨d₂, v, x, hd₂, hv, hx, hholds, id, hid, effect, heffect, hpath, hroot, hgated,
      hreaction⟩ :=
    hwalks.shows rfl (.refl w.store) hstaged.start hstaged.depicts hstaged.nodup hm
      (hreach.of_frames hframes hbelow)
      (by rw [hframes.element?_eq (Document.lt_size_of_element? hn) hne, hn]) hmarked htext hbare
  obtain rfl := Option.some.inj (hstaged.yields.document.symm.trans hd₂)
  have hd' : w'.documents[t.document]? = some (d₁.appendChildren root (d.children root)) := by
    rw [hstaged.world_eq, documents_modifyDocument, if_pos rfl, hd₂]
    rfl
  have hholds' := hstaged.holds (Document.isSome_element?_of_hasChild hm) hne hholds
  refine ⟨v, hv, ?_⟩
  rw [document_eq hd', hholds'.text_eq]
  refine ⟨fun hplain => ?_, fun hplaceholder => ?_, id, hid, fun u hu => ?_⟩
  · rw [textOf, hplain, if_neg (by simp)] at hx
    exact (Except.ok.inj hx).symm
  · rw [textOf, if_pos hplaceholder, filled_eq_render _ _ hplaceholder] at hx
    rw [runOn_render_read, hx]
  · have heffect' : w'.effects[id]? = some effect := by
      rw [hstaged.world_eq]
      exact heffect
    obtain ⟨m, hm⟩ := (later_of_moves hu).effects_eq id effect heffect'
    have hisElement : u.IsElement ⟨t.document, n⟩ := by
      obtain ⟨el, hel⟩ := Option.isSome_iff_exists.1 hholds'.1
      exact (documentsKeep_of_moves hu).isElement ⟨_, el, hd', Document.element?_eq_some_iff.1 hel⟩
    refine ⟨_, hm, hpath, hroot, fun call v' hv' hgate => ?_⟩
    exact runOn_update_text call hm hreaction (by rw [hpath, hroot]; exact hv')
      (by rw [hgated]; exact hgate) hisElement

/-- A text without placeholders is shown, and then one with a placeholder. -/
theorem compile_shows_update :
    let w := Scene.after callDepth (Scene.start "<div id=r><p title=t v-text=n>x</p></div>") [
      .model (.create "m" (.object [("n", .text "a")]))]
    let t : Setting Script := ⟨0, 0, .empty, false⟩
    let w' := ((t.compile 1).runOn w).2
    (w'.document 0).text 2 = "a" ∧
      ∃ u, (Act.update (Script.invoke callDepth) 0).runOn (w'.assign 0 (.text "{{b}}")) =
          (.ok ⟨⟩, u) ∧
        (u.document 0).text 2 = "{{b}}" := by
  intro w t w'
  have hrun : (t.compile 1).runOn w = (.ok ⟨[0], 0⟩, w') := Prod.ext (by decide +kernel) rfl
  obtain ⟨v, hv, hplain, -, id, hid, hlater⟩ := compile_shows t 1 w w' (w.document 0) ⟨[0], 0⟩ 2 2
    "v-text" "n" rfl (.of_forall_lt (by decide +kernel) (by decide +kernel))
    (.of_forall_lt (by decide +kernel)) hrun (by decide +kernel) .refl (by decide +kernel)
    (by decide +kernel) (by decide +kernel)
  obtain rfl : v = .text "a" := Except.ok.inj hv.symm
  obtain rfl := List.mem_singleton.1 hid
  refine ⟨hplain (by decide +kernel), ?_⟩
  obtain ⟨_, -, -, -, hupdate⟩ := hlater _ (.single (.assign w' 0 (.text "{{b}}")))
  exact hupdate (Script.invoke callDepth) (.text "{{b}}") (by decide +kernel) rfl

/-- The compilation fills in a placeholder in the text of a value. A later update does not. -/
theorem compile_shows_filled_in :
    let w := Scene.after callDepth (Scene.start "<div id=r><p v-text=n>x</p></div>") [
      .model (.create "m" (.object [("n", .text "{{b}}"), ("b", .text "y")])),
      .template (.compile "s" ⟨false, "#r", []⟩ "m" [] false)]
    let w' := Scene.after callDepth w [.model (.set "m" ⟨"n"⟩ (.plain (.text "a"))),
      .model (.set "m" ⟨"n"⟩ (.plain (.text "{{b}}")))]
    w.names.scopes = [("s", ⟨[0, 1], 0⟩)] ∧
      w.store.get ⟨"n"⟩ 0 = .ok (.text "{{b}}") ∧ (w.document 0).text 2 = "y" ∧
      w'.store.get ⟨"n"⟩ 0 = .ok (.text "{{b}}") ∧ (w'.document 0).text 2 = "{{b}}" := by
  decide +kernel

end Setting

end LiveBinding
