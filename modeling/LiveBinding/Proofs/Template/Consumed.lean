import LiveBinding.Proofs.Template.Root

/-!
# A compiled template has no directives left

A compilation that succeeds takes every directive away that it comes to, and leaves everything else
as it is. What is compiled has nothing in it that a second compilation would look at, unless the
model has put a placeholder into a text.

## Key results

- `Setting.compile_of_inert`: without directives and placeholders, a compilation does nothing
- `Setting.compile_consumes`: what a successful compilation leaves
-/

namespace LiveBinding

variable {σ : Type}

open Relation World

/-- Changing a document and changing it back. -/
theorem World.modifyDocument_modifyDocument {w : World σ} {i : DocumentId}
    {d : Document (Listener σ)} (hd : w.documents[i]? = some d)
    {f g : Document (Listener σ) → Document (Listener σ)} (h : g (f d) = d) :
    (w.modifyDocument i f).modifyDocument i g = w := by
  have hdocuments : (w.documents.modify i f).modify i g = w.documents := by
    refine Array.ext_getElem? fun j => ?_
    rw [modify_modify, Array.getElem?_modify]
    split
    · rename_i heq
      rw [← heq, hd, Option.map_some, h]
    · rfl
  rw [modifyDocument, modifyDocument]
  dsimp only
  rw [hdocuments]

/-- Plain attributes show no markup. -/
theorem markupOf?_of_plain {as : Fields String}
    (has : ∀ a ∈ as, Directive.isMarked a.1 = false) : markupOf? as = none := by
  have hfold : ∀ last, as.foldl fill last = last := by
    intro last
    induction as with
    | nil => rfl
    | cons a as ih =>
      obtain ⟨ha, has⟩ := List.forall_mem_cons.1 has
      have hfill : fill last a = last := by
        rw [fill, (Directive.parse?_eq_none_iff a.1).2 ha]
      rw [List.foldl_cons, hfill]
      exact ih has
  exact hfold none

namespace Document

variable {κ : Type}

/-- There is nothing to compile at a node: no directive, no placeholder. -/
structure InertAt (d : Document κ) (n : NodeId) : Prop where
  attributes : ∀ a ∈ d.attributes n, Directive.isMarked a.1 = false
  text : ∀ s, d.content? n = some (.text s) → containsPlaceholder s.toList = false

end Document

namespace Setting

variable {t : Setting σ} {w w' : World σ} {s : Store} {d d' : Document (Listener σ)}
  {root n : NodeId} {scope : Scope} {fp : List NodeId}

/-! ### Nothing to compile -/

/-- Attributes that are no directives are passed over. -/
theorem compileAttributes_of_plain {as : Fields String}
    (has : ∀ a ∈ as, Directive.isMarked a.1 = false) :
    (as.foldlM (t.compileAttribute n) scope).runOn w = (.ok scope, w) := by
  induction as with
  | nil => rfl
  | cons a as ih =>
    obtain ⟨ha, has⟩ := List.forall_mem_cons.1 has
    have hfirst : (t.compileAttribute n scope a).runOn w = (.ok scope, w) := by
      rw [compileAttribute, Act.runOn_bind, Act.runOn_ofExcept,
        (Directive.parse?_eq_none_iff a.1).2 ha]
      rfl
    rw [List.foldlM_cons, Act.runOn_bind, hfirst]
    exact ih has

theorem compileNode_of_inert (hd : w.documents[t.document]? = some d) (hn : d.InertAt n) :
    (t.compileNode scope n).runOn w = (.ok scope, w) := by
  rw [compileNode, Act.runOn_bind, runOn_currentDocument hd]
  dsimp only
  split
  · exact compileAttributes_of_plain hn.attributes
  · rename_i hsort
    obtain ⟨x, hx⟩ : ∃ x, d.content? n = some (.text x) := by
      rw [Document.sort] at hsort
      split at hsort
      · cases hsort
      · exact ⟨_, ‹_›⟩
      · cases hsort
    rw [Document.text_of_content? hx, hn.text x hx]
    rfl
  · rfl

/-- A walk over nodes without directives and placeholders does nothing. -/
theorem Walks.of_inert {ns visited : List NodeId} {r : Except Fault Scope}
    (h : t.Walks w scope ns visited r w') (hd : w.documents[t.document]? = some d)
    (hns : ns ⊆ fp) (hclosed : ∀ p ∈ fp, d.children p ⊆ fp) (hinert : ∀ n ∈ fp, d.InertAt n) :
    r = .ok scope ∧ w' = w := by
  -- Every step ends in the world in which it began.
  induction h with
  | done => exact ⟨rfl, rfl⟩
  | @fault w w' scope n ns f h =>
    have hn := hinert n (hns (List.mem_cons_self ..))
    cases h.symm.trans (compileNode_of_inert hd hn)
  | @node w w₁ w' scope made n ns visited r h hrest ih =>
    obtain ⟨hn, hns⟩ := List.cons_subset.1 hns
    obtain ⟨hmade, rfl⟩ :=
      Prod.mk.inj (h.symm.trans (compileNode_of_inert hd (hinert n hn)))
    obtain rfl := Except.ok.inj hmade
    rw [document_eq hd] at ih
    exact ih hd (List.append_subset.2 ⟨hclosed n hn, hns⟩)

/-- A compilation of nodes without directives and placeholders does nothing. -/
theorem compile_of_inert {ms : List Markup} (hd : w.documents[t.document]? = some d)
    (hdepicts : d.Depicts (d.children root) ms fp) (hfp : fp.Nodup) (hroot : root ∉ fp)
    (hnodup : (d.children root).Nodup) (hparents : ∀ c ∈ d.children root, d.parent? c = some root)
    (hinert : ∀ n ∈ fp, d.InertAt n) : (t.compile root).runOn w = (.ok .empty, w) := by
  let w₀ := w.modifyDocument t.document (·.detachChildren root)
  have hd₀ : w₀.documents[t.document]? = some (d.detachChildren root) := by
    rw [documents_modifyDocument, if_pos rfl, hd]
    rfl
  have hframes := Document.frames_detachChildren d root
  have hne : ∀ n ∈ fp, n ≠ root := fun n hn heq => hroot (heq ▸ hn)
  have hdepicts₀ := hdepicts.of_frames hframes hne
  have hinert₀ : ∀ n ∈ fp, (d.detachChildren root).InertAt n := by
    intro n hn
    have hcontent := hframes.content?_eq n (hdepicts.lt_size n hn) (hne n hn)
    constructor
    · rw [Document.attributes, Document.element?, hcontent]
      exact (hinert n hn).attributes
    · rw [hcontent]
      exact (hinert n hn).text
  -- No directive shows markup, so one round is enough.
  have hfits : (d.detachChildren root).TreeAll (w.store.Fits t.model (w.store.cells.size + 1))
      (d.children root) fp := by
    refine hdepicts₀.treeAll.of_forall fun n hn e he => ⟨by omega, fun text hshows => ?_⟩
    have hplain := (hinert₀ n hn).attributes
    rw [Document.attributes, he] at hplain
    obtain ⟨expression, hmarkup, -⟩ := hshows
    cases hmarkup.symm.trans (markupOf?_of_plain hplain)
  rcases hr : ((d.children root).foldlM (t.walk (rounds w.store)) Scope.empty).runOn w₀ with
    ⟨r, w₁⟩
  obtain ⟨hexhausted, -⟩ := completes_foldlM (completes_walk t w.store _ fp.length) hr (.refl _)
    hd₀ hfits hfp (Nat.le_refl _)
  obtain ⟨visited, hwalks⟩ := walks_foldlM (isWalk_walk t _) hr hexhausted
  obtain ⟨rfl, rfl⟩ := hwalks.of_inert hd₀ hdepicts₀.subset
    (fun p hp m => hdepicts₀.mem_of_mem_children hp) hinert₀
  rw [runOn_compile hd, hr]
  refine Prod.ext rfl ?_
  refine World.modifyDocument_modifyDocument hd (Document.appendChildren_detachChildren hnodup
    fun c hc => ⟨?_, hparents c hc⟩)
  exact hne c (hdepicts.subset hc)

/-! ### Successful compilations -/

/-- A successful compilation consumes its directives and leaves everything else as it is. No value
of the model changes, and no node but those below the root, which keeps its children. What is below
the root becomes what the template says: each element has its plain attributes, in order, and those
that its directives bind. Texts without placeholders and comments stay, and lose their parent only
to a directive that replaces its children. If the model puts no placeholder into a text, another
compilation does nothing. -/
theorem compile_consumes (t : Setting σ) (root : NodeId) (w w' : World σ)
    (d : Document (Listener σ)) (scope : Scope) (hd : w.documents[t.document]? = some d)
    (hc : d.Consistent) (ha : d.Acyclic)
    (hplain : ∀ as, t.Meets w.store (d.innerMarkup root) as → as.BindsPlain)
    (h : (t.compile root).runOn w = (.ok scope, w')) :
    w.store.SameData w'.store ∧ (∀ i, i ≠ t.document → w'.documents[i]? = w.documents[i]?) ∧
    ∃ d', w'.documents[t.document]? = some d' ∧
      d'.content? root = d.content? root ∧ (∀ c ∈ d.children root, d'.parent? c = some root) ∧
      (∀ m, m < d.size → ¬ TransGen d.HasChild root m → d'.nodes[m]? = d.nodes[m]?) ∧
      t.Compiled w.store (d.innerMarkup root) (d'.innerMarkup root) ∧
      (∀ n e, TransGen d'.HasChild root n → d'.element? n = some e →
        (∀ a ∈ e.attributes, Directive.isMarked a.1 = false) ∧
        ∃ as bs, t.Meets w.store (d.innerMarkup root) as ∧ t.bindings w.store as = .ok bs ∧
          e.attributes = bs.foldl ElementBinding.put as.plain ∧
          (n < d.size → as = d.attributes n)) ∧
      (∀ n c, d.content? n = some c → ∃ c', d'.content? n = some c' ∧ c.Kept c') ∧
      d.KeepsParents (fun m => ∃ p, TransGen d.HasChild root p ∧ m ∈ d.children p ∧
        (d.attributes p).fills) d' ∧
      ((∀ n s, TransGen d'.HasChild root n → d'.content? n = some (.text s) →
          containsPlaceholder s.toList = false) →
        ∀ t' : Setting σ, t'.document = t.document →
          (t'.compile root).runOn w' = (.ok .empty, w')) := by
  obtain ⟨d', hyields, hworked, -, hfinished⟩ := below_compile hd hc ha h (by simp)
  obtain ⟨fp, fp', -, hroot, hfinished⟩ := hfinished scope rfl hplain
  have hdepicts := hfinished.depicts
  rw [← hworked.children_eq] at hdepicts
  have hbelow : ∀ n, n ∈ fp' ↔ TransGen d'.HasChild root n := fun _ => hdepicts.mem_iff_transGen
  have helements : ∀ n e, TransGen d'.HasChild root n → d'.element? n = some e →
      ∃ as bs, t.Meets w.store (d.innerMarkup root) as ∧ t.bindings w.store as = .ok bs ∧
        e.attributes = bs.foldl ElementBinding.put as.plain ∧
        (n < d.size → as = d.attributes n) := by
    intro n e hn he
    have hmem := (hbelow n).2 hn
    by_cases hlt : n < d.size
    · -- An element that was there has been one before.
      obtain ⟨e₀, he₀⟩ := hworked.exists_element hlt he
      obtain ⟨hmeets, bs, hbs, hattributes⟩ := hfinished.attributes n hmem e₀ he₀
      rw [Document.attributes, he] at hattributes
      refine ⟨e₀.attributes, bs, hmeets, hbs, hattributes, fun _ => ?_⟩
      rw [Document.attributes, he₀]
      rfl
    · obtain ⟨as, bs, hmeets, hbs, hattributes⟩ :=
        hfinished.compiled.exists_bindings (hdepicts.attributes_mem hmem he)
      exact ⟨as, bs, hmeets, hbs, hattributes, fun h => absurd h hlt⟩
  have hmarks : ∀ n e, TransGen d'.HasChild root n → d'.element? n = some e →
      ∀ a ∈ e.attributes, Directive.isMarked a.1 = false := by
    intro n e hn he
    obtain ⟨as, bs, hmeets, hbs, hattributes, -⟩ := helements n e hn he
    rw [hattributes]
    refine isMarked_of_mem_foldl_put (fun a ha => ?_) (isMarked_of_bindings hbs (hplain as hmeets))
    simpa using (List.mem_filter.1 ha).2
  refine ⟨hyields.sameData, hyields.others, d', hyields.document, hworked.self, hworked.parent_eq,
    hworked.outside, hfinished.compiled, fun n e hn he => ⟨hmarks n e hn he, helements n e hn he⟩,
    hworked.kept, hworked.parents, fun htexts t' ht' => ?_⟩
  have hd' : w'.documents[t'.document]? = some d' := by rw [ht', hyields.document]
  refine compile_of_inert hd' hdepicts hfinished.nodup hroot ?_ ?_ fun n hn => ⟨?_, ?_⟩
  · rw [hworked.children_eq]
    exact hc.nodup_children root
  · rw [hworked.children_eq]
    exact hworked.parent_eq
  · rw [Document.attributes]
    cases he : d'.element? n with
    | none => exact fun a ha => absurd ha List.not_mem_nil
    | some e => exact hmarks n e ((hbelow n).1 hn) he
  · exact fun s => htexts n s ((hbelow n).1 hn)

/-- An element with an attribute that is bound anew and with markup that binds another one. -/
theorem compile_consumes_titled :
    let w := Scene.after callDepth (Scene.start
      "<div id=r><p title=a :title=n v-html=h>x</p><!--c-->y</div>") [
      .model (.create "m" (.object [("n", .number (.integer 1)),
        ("h", .text "<b :id=n>z</b>")]))]
    let t : Setting Script := ⟨0, 0, .empty, false⟩
    let w' := ((t.compile 1).runOn w).2
    (w'.document 0).innerHtml 1 = "<p title=\"1\"><b id=\"1\">z</b></p><!--c-->y" ∧
      (t.compile 1).runOn w' = (.ok .empty, w') := by
  intro w t w'
  have hmarkup : (w.document 0).innerMarkup 1 =
      [.element "p" [("title", "a"), (":title", "n"), ("v-html", "h")] [.text "x"],
        .comment "c", .text "y"] := by decide +kernel
  have hbindings : t.bindings w.store [("title", "a"), (":title", "n"), ("v-html", "h")] =
      .ok [⟨some (.attr "title", "1"), none⟩, ⟨some (.markup, "<b :id=n>z</b>"), none⟩] := by rfl
  have hparse : Markup.parse "<b :id=n>z</b>" = [.element "b" [(":id", "n")] [.text "z"]] := by
    decide +kernel
  have hinner : t.bindings w.store [(":id", "n")] = .ok [⟨some (.attr "id", "1"), none⟩] := by rfl
  have hplain : ∀ as, t.Meets w.store ((w.document 0).innerMarkup 1) as → as.BindsPlain := by
    intro as hmeets
    rw [hmarkup] at hmeets
    rcases hmeets with _ | ⟨hbs, hmeets⟩ | hmeets
    · decide
    · obtain rfl := Except.ok.inj (hbindings.symm.trans hbs)
      change t.Meets w.store (Markup.parse "<b :id=n>z</b>") as at hmeets
      rw [hparse] at hmeets
      rcases hmeets with _ | ⟨hbs, hmeets⟩ | hmeets
      · decide
      · obtain rfl := Except.ok.inj (hinner.symm.trans hbs)
        rcases hmeets with _ | _ | ⟨⟨⟩⟩
      · rcases hmeets
    · rcases hmeets with _ | _ | hmeets
      rcases hmeets with _ | _ | ⟨⟨⟩⟩
  have hrun : (t.compile 1).runOn w = (.ok ⟨[0, 1, 2], 0⟩, w') :=
    Prod.ext (by decide +kernel) rfl
  obtain ⟨-, -, d', hd', -, -, -, -, -, -, -, hagain⟩ := compile_consumes t 1 w w' (w.document 0) _
    rfl (.of_forall_lt (by decide +kernel) (by decide +kernel)) (.of_forall_lt (by decide +kernel))
    hplain hrun
  refine ⟨by decide +kernel, hagain (fun n s _ hs => ?_) t rfl⟩
  obtain rfl : w'.document 0 = d' := document_eq hd'
  have htexts : ∀ n < (w'.document 0).size,
      containsPlaceholder ((w'.document 0).text n).toList = false := by decide +kernel
  rw [← Document.text_of_content? hs]
  exact htexts n (Document.lt_size_of_content? hs)

end Setting

end LiveBinding
