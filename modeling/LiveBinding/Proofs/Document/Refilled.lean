import LiveBinding.Proofs.Document.Preorder

/-!
# An element with a new content

When the children of an element are replaced, the new nodes are numbered in document order behind
all others, the old children become roots with everything below them, and every other node stays
as it is. All this follows from `Document.Refilled` and from links that are stored at both ends.

## Key results

- `Consistent.preorder_eq_of_frames`: edits of other nodes leave what is below a node as it is
- `Refilled.innerMarkup_eq`, `Refilled.exists_parent`: the new nodes
- `Refilled.parent?_eq_none`: the old children
- `Reached.setMarkup_stores`: what an element stores when it is given markup
-/

namespace LiveBinding.Document

open Relation

variable {κ : Type} {d d' : Document κ} {n m : NodeId} {ms : List Markup}

/-- Edits of other nodes leave the nodes below a node, and the markup of all of them, as they
are. -/
theorem Consistent.preorder_eq_of_frames {free : NodeId → Prop} (h : d.Consistent) (ha : d.Acyclic)
    (hframes : Frames free d d') (hm : m < d.size)
    (hfree : ∀ k, ReflTransGen d.HasChild m k → ¬ free k) :
    d'.preorder m = d.preorder m ∧ d'.markup? m = d.markup? m := by
  obtain ⟨htree, hnodup⟩ := h.treeAll_preorder ha hm
  obtain ⟨ms, hdepicts⟩ := htree.exists_depicts
  have hlisted : ∀ k ∈ d.preorder m, ¬ free k := fun k hk =>
    hfree k ((h.mem_preorder_iff ha (Nat.zero_lt_of_lt hm)).1 hk)
  have hdepicts' : d'.Depicts [m] ms (d.preorder m) := hdepicts.of_frames hframes hlisted
  constructor
  · simpa using hdepicts'.treeAll.flatMap_preorder hnodup
  · have hmarkup := congrArg List.head?
      ((hdepicts'.filterMap_markup? hnodup).trans (hdepicts.filterMap_markup? hnodup).symm)
    rwa [List.head?_filterMap, List.head?_filterMap, List.findSome?_singleton,
      List.findSome?_singleton] at hmarkup

namespace Refilled

/-! ### The new nodes -/

/-- The children look like the markup that was asked for. -/
theorem innerMarkup_eq (h : d.Refilled n ms d') : d'.innerMarkup n = ms :=
  h.depicts.filterMap_markup? (nodup_added d d')

/-- The new nodes are listed below the element. -/
theorem flatMap_preorder (h : d.Refilled n ms d') :
    (d'.children n).flatMap d'.preorder = added d d' :=
  h.treeAll.flatMap_preorder (nodup_added d d')

/-- The parent of a new node is the element or another new node. -/
theorem exists_parent (h : d.Refilled n ms d') (hc : d'.Consistent) (hm : m ∈ added d d') :
    ∃ p, d'.parent? m = some p ∧ m ∈ d'.children p ∧ (p = n ∨ p ∈ added d d') := by
  obtain ⟨c, hchild, hbelow⟩ := h.depicts.exists_below hm
  rcases hbelow.cases_tail with rfl | ⟨p, hcp, hpm⟩
  · exact ⟨n, hc.mem_children_iff.1 hchild, hchild, .inl rfl⟩
  · exact ⟨p, hc.mem_children_iff.1 hpm, hpm, .inr (h.depicts.mem_of_reflTransGen hchild hcp)⟩

/-! ### The nodes that were there -/

/-- A child of the element or of a new node is new. -/
theorem mem_added_of_mem_children (h : d.Refilled n ms d') {p c : NodeId}
    (hp : p = n ∨ d.size ≤ p) (hc : c ∈ d'.children p) : c ∈ added d d' := by
  rcases hp with rfl | hp
  · exact h.depicts.subset hc
  · rcases Nat.lt_or_ge p d'.size with hlt | hle
    · exact h.depicts.mem_of_mem_children (mem_added_iff.2 ⟨hp, hlt⟩) hc
    · rw [children_eq_nil_of_le hle] at hc
      cases hc

/-- A former child of the element has no parent. -/
theorem parent?_eq_none (h : d.Refilled n ms d') (hd : d.Consistent) (hd' : d'.Consistent)
    {c : NodeId} (hc : c ∈ d.children n) : d'.parent? c = none := by
  have hparent : d.parent? c = some n := hd.mem_children_iff.1 hc
  refine Option.eq_none_iff_forall_ne_some.2 fun p hp => ?_
  have hchild : c ∈ d'.children p := hd'.mem_children_iff.2 hp
  by_cases hnew : p = n ∨ d.size ≤ p
  · have hle := (mem_added_iff.1 (h.mem_added_of_mem_children hnew hchild)).1
    exact absurd (lt_size_of_parent? hparent) (Nat.not_lt.2 hle)
  · -- Another node that was there has the children that it had, and `c` was not among them.
    obtain ⟨hne, hlt⟩ := not_or.1 hnew
    rw [h.frames.children_eq (Nat.lt_of_not_le hlt) hne, hd.mem_children_iff, hparent] at hchild
    exact hne (Option.some.inj hchild).symm

end Refilled

/-- In a document without cycles, an element that is given markup stores just that. Its children are
the nodes that the markup describes, and its markup is theirs. The new nodes are numbered in
document order behind those that were there, and each is a child of its parent, which is the
element or new too. The former children have no parent any more, and are as they were with all that
is below them. The element itself changes nothing but its children, and the other nodes change
nothing at all. -/
theorem Reached.setMarkup_stores (h : d.Reached) (ha : d.Acyclic) {e : Element κ}
    (he : d.element? n = some e) (source : String) :
    let d' := d.setMarkup n source
    d'.Acyclic ∧ d'.innerMarkup n = Markup.parse source ∧
      d'.innerHtml n = Markup.html (Markup.parse source) ∧
      (∃ k, d'.size = d.size + k ∧
        (d'.children n).flatMap d'.preorder = List.range' d.size k) ∧
      (∀ m, d.size ≤ m → m < d'.size →
        ∃ p, d'.parent? m = some p ∧ m ∈ d'.children p ∧ (p = n ∨ d.size ≤ p)) ∧
      (∀ c ∈ d.children n, d'.parent? c = none ∧ (∀ p, c ∉ d'.children p) ∧
        d'.preorder c = d.preorder c ∧ d'.markup? c = d.markup? c) ∧
      d'.element? n = some { e with children := d'.children n } ∧
      (∀ m < d.size, m ≠ n → d'.content? m = d.content? m) ∧
      ∀ m < d.size, m ∉ d.children n → d'.parent? m = d.parent? m := by
  intro d'
  have hd : d.Consistent := h.consistent
  have hd' : d'.Consistent := hd.setMarkup n source
  have hrefilled : d.Refilled n (Markup.parse source) d' :=
    refilled_setMarkup (by rw [he]; rfl) source
  have hinner : d'.innerMarkup n = Markup.parse source := hrefilled.innerMarkup_eq
  have hsize : d.size ≤ d'.size := hrefilled.frames.size_le
  refine ⟨hd.acyclic_setMarkup ha n source, hinner, by rw [innerHtml, hinner],
    ⟨d'.size - d.size, by omega, hrefilled.flatMap_preorder⟩, fun m hm hlt => ?_, fun c hc => ?_,
    hrefilled.element e he, hrefilled.frames.content?_eq, hrefilled.parents⟩
  · obtain ⟨p, hparent, hchild, hp⟩ := hrefilled.exists_parent hd' (mem_added_iff.2 ⟨hm, hlt⟩)
    exact ⟨p, hparent, hchild, hp.imp_right fun hp => (mem_added_iff.1 hp).1⟩
  · have hnone : d'.parent? c = none := hrefilled.parent?_eq_none hd hd' hc
    have hroot : ∀ p, c ∉ d'.children p := fun p hp => by
      rw [hd'.mem_children_iff, hnone] at hp
      cases hp
    have hkept := hd.preorder_eq_of_frames ha hrefilled.frames
      (lt_size_of_parent? (hd.mem_children_iff.1 hc)) fun k hk hkn => ha n (.head' hc (hkn ▸ hk))
    exact ⟨hnone, hroot, hkept⟩

/-- The item of a list keeps its text when the list gets other nodes. -/
theorem setMarkup_stores_list :
    let d : Document Unit := ofMarkup "<ul><li>a</li></ul><p>"
    let d' := d.setMarkup 1 "<!--b--><li>c</li>d"
    d.children 1 = [2] ∧ d'.innerHtml 1 = "<!--b--><li>c</li>d" ∧ d'.children 1 = [5, 6, 8] ∧
      d'.parent? 2 = none ∧ d'.preorder 2 = [2, 3] ∧ d'.parent? 7 = some 6 ∧
      d'.content? 4 = d.content? 4 := by
  intro d d'
  have ha : d.Acyclic := .of_forall_lt (by decide +kernel)
  obtain ⟨e, he⟩ := Option.isSome_iff_exists.1 (by decide +kernel : (d.element? 1).isSome)
  obtain ⟨-, -, hhtml, -, -, hformer, -, hothers, -⟩ :=
    Reached.setMarkup_stores (.ofMarkup _ : d.Reached) ha he "<!--b--><li>c</li>d"
  have hchildren : d.children 1 = [2] := by decide +kernel
  obtain ⟨hnone, -, hbelow, -⟩ := hformer 2 (by rw [hchildren]; exact List.mem_singleton_self 2)
  refine ⟨hchildren, hhtml.trans (by decide +kernel), by decide +kernel, hnone,
    hbelow.trans (by decide +kernel), by decide +kernel, hothers 4 (by decide +kernel) (by decide)⟩

end LiveBinding.Document
