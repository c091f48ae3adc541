import LiveBinding.Proofs.Document.Depicts

/-!
# Detaching children and attaching them again

The children of a node are taken out and, after other changes, put back. Whatever happened to the
nodes below them, the node has its children again, and they have it as their parent.

## Key results

- `Document.appendChildren_of_detached`: attaching nodes that have no parent
- `Document.reattached`: what holds after the children were put back
- `Document.appendChildren_detachChildren`: without changes in between, nothing has changed
-/

namespace LiveBinding.Document

variable {κ : Type} {d d₁ : Document κ} {n : NodeId} {free : NodeId → Prop}

/-- A node is its content and its parent. -/
theorem node_eq (hcontent : d₁.content? n = d.content? n) (hparent : d₁.parent? n = d.parent? n) :
    d₁.nodes[n]? = d.nodes[n]? := by
  rw [content?, content?] at hcontent
  rw [parent?, parent?] at hparent
  cases h₁ : d₁.nodes[n]? with
  | none =>
    rw [h₁] at hcontent
    exact (Option.map_eq_none_iff.1 hcontent.symm).symm
  | some node₁ =>
    rw [h₁] at hcontent hparent
    obtain ⟨node, h, hnode⟩ := Option.map_eq_some_iff.1 hcontent.symm
    rw [h] at hparent ⊢
    obtain ⟨content, parent⟩ := node
    obtain ⟨content₁, parent₁⟩ := node₁
    rw [show content₁ = content from hnode.symm, show parent₁ = parent from hparent]

/-- Two documents with the same nodes are equal. -/
theorem ext_nodes (h : ∀ n : Nat, d₁.nodes[n]? = d.nodes[n]?) : d₁ = d := by
  obtain ⟨nodes⟩ := d
  obtain ⟨nodes₁⟩ := d₁
  exact congrArg Document.mk (Array.ext_getElem? h)

/-! ### Attaching -/

/-- Attaching nodes without a parent: they become the last children, and nothing else changes. -/
theorem appendChildren_of_detached {e : Element κ} {cs : List NodeId}
    (he : d.element? n = some e) (hcs : ∀ c ∈ cs, c < d.size ∧ c ≠ n ∧ d.parent? c = none)
    (hnodup : cs.Nodup) :
    (d.appendChildren n cs).size = d.size ∧
      (d.appendChildren n cs).element? n = some { e with children := e.children ++ cs } ∧
      (∀ m, m ≠ n → (d.appendChildren n cs).content? m = d.content? m) ∧
      ∀ m, (d.appendChildren n cs).parent? m = if m ∈ cs then some n else d.parent? m := by
  rw [appendChildren, if_pos (by rw [he]; rfl)]
  -- A node without a parent is not taken out anywhere, so one step only appends it, and the nodes
  -- that come later still have no parent.
  induction cs generalizing d e with
  | nil => exact ⟨rfl, by rw [List.append_nil]; exact he, fun _ _ => rfl, fun _ => rfl⟩
  | cons c cs ih =>
    obtain ⟨⟨hlt, hne, hparent⟩, hcs⟩ := List.forall_mem_cons.1 hcs
    obtain ⟨hnot, hnodup⟩ := List.nodup_cons.1 hnodup
    have happend : d.appendChild n c = (d.setParent c (some n)).modifyElement n fun e =>
        { e with children := e.children ++ [c] } := by
      rw [appendChild, if_pos ⟨hlt, hne⟩, detach, hparent]
    have he₁ : (d.appendChild n c).element? n = some { e with children := e.children ++ [c] } := by
      rw [happend, element?_modifyElement, if_pos rfl, element?_setParent, he]
      rfl
    have hparent₁ : ∀ m, (d.appendChild n c).parent? m = if m = c then some n else d.parent? m := by
      intro m
      rw [happend, parent?_modifyElement]
      by_cases hm : m = c
      · rw [if_pos hm, hm, parent?_setParent_self hlt]
      · rw [if_neg hm, parent?_setParent_of_ne d hm]
    have hsize₁ : (d.appendChild n c).size = d.size := by
      rw [happend, size_modifyElement, size_setParent]
    obtain ⟨hsize, helement, hcontent, hparents⟩ := ih he₁ (fun c' hc' => by
      obtain ⟨hlt', hne', hparent'⟩ := hcs c' hc'
      have hother : c' ≠ c := fun heq => hnot (heq ▸ hc')
      exact ⟨by rwa [hsize₁], hne', by rw [hparent₁, if_neg hother, hparent']⟩) hnodup
    rw [List.foldl_cons]
    refine ⟨hsize.trans hsize₁, ?_, fun m hm => ?_, fun m => ?_⟩
    · rw [helement, List.append_assoc, List.singleton_append]
    · rw [hcontent m hm, happend, modifyElement, content?_modifyContent, if_neg (Ne.symm hm),
        content?_setParent]
    · rw [hparents, hparent₁]
      by_cases hm : m ∈ cs
      · rw [if_pos hm, if_pos (List.mem_cons_of_mem _ hm)]
      · by_cases hmc : m = c
        · rw [if_neg hm, if_pos hmc, if_pos (hmc ▸ List.mem_cons_self ..)]
        · rw [if_neg hm, if_neg hmc, if_neg fun h => (List.mem_cons.1 h).elim hmc hm]

/-- A detached child has no parent. -/
theorem parent?_detachChildren {c : NodeId} (hc : c ∈ d.children n) (hlt : c < d.size) :
    (d.detachChildren n).parent? c = none := by
  have hfold : ∀ (cs : List NodeId) (d : Document κ), c < d.size → (c ∈ cs ∨ d.parent? c = none) →
      (cs.foldl (fun d c => d.setParent c none) d).parent? c = none := by
    intro cs
    induction cs with
    | nil => exact fun d _ h => h.resolve_left nofun
    | cons c' cs ih =>
      intro d hlt h
      refine ih _ (by rwa [size_setParent]) ?_
      by_cases heq : c = c'
      · exact .inr (heq ▸ parent?_setParent_self hlt none)
      · rw [parent?_setParent_of_ne d heq]
        exact h.imp_left fun h => (List.mem_cons.1 h).resolve_left heq
  exact hfold _ _ (by rwa [setChildren, size_modifyElement]) (.inl hc)

/-- The children of a node have been put back in the document `d'`, after changes that led from the
document without them to `d₁`. -/
structure Reattached (d : Document κ) (n : NodeId) (d₁ d' : Document κ) : Prop where
  size_eq : d'.size = d₁.size
  self : d'.content? n = d.content? n
  others : ∀ m, m ≠ n → d'.content? m = d₁.content? m
  parents : ∀ m, d'.parent? m = if m ∈ d.children n then some n else d₁.parent? m

/-- Whatever happens to other nodes, the children are put back. -/
theorem reattached (hchildren : ∀ c ∈ d.children n, c < d.size ∧ c ≠ n)
    (hnodup : (d.children n).Nodup)
    (hself : d₁.content? n = (d.detachChildren n).content? n) (hsize : d.size ≤ d₁.size)
    (hparents : ∀ c ∈ d.children n, d₁.parent? c = (d.detachChildren n).parent? c) :
    d.Reattached n d₁ (d₁.appendChildren n (d.children n)) := by
  -- What is no element has no children to put back.
  cases he : d.element? n with
  | none =>
    have hnil : d.children n = [] := children_eq_nil_of_element?_eq_none he
    have hdetached : (d.detachChildren n).content? n = d.content? n := by
      rw [detachChildren, hnil, List.foldl_nil, setChildren, modifyElement,
        content?_modifyContent, if_pos rfl]
      rw [element?] at he
      rcases hcontent : d.content? n with _ | _ | _ | _
      · rfl
      · rw [hcontent] at he
        cases he
      · rfl
      · rfl
    have hid : d₁.appendChildren n [] = d₁ := by
      rw [appendChildren]
      split <;> rfl
    rw [hnil, hid]
    refine ⟨rfl, hself.trans hdetached, fun _ _ => rfl, fun m => ?_⟩
    rw [hnil, if_neg List.not_mem_nil]
  | some e =>
    have hdetached := element?_detachChildren he
    have he₁ : d₁.element? n = some { e with children := [] } := by
      rw [element?_eq_some_iff, hself, ← element?_eq_some_iff, hdetached]
    have hdetached₁ : ∀ c ∈ d.children n, c < d₁.size ∧ c ≠ n ∧ d₁.parent? c = none := by
      intro c hc
      obtain ⟨hlt, hne⟩ := hchildren c hc
      exact ⟨Nat.lt_of_lt_of_le hlt hsize, hne, by
        rw [hparents c hc, parent?_detachChildren hc hlt]⟩
    obtain ⟨hsize', helement, hcontent, hparent⟩ :=
      appendChildren_of_detached he₁ hdetached₁ hnodup
    refine ⟨hsize', ?_, hcontent, hparent⟩
    rw [element?_eq_some_iff.1 helement, element?_eq_some_iff.1 he, children, he]
    rfl

/-- Without changes in between, nothing has changed. -/
theorem appendChildren_detachChildren (hnodup : (d.children n).Nodup)
    (hchildren : ∀ c ∈ d.children n, c ≠ n ∧ d.parent? c = some n) :
    (d.detachChildren n).appendChildren n (d.children n) = d := by
  have hre : d.Reattached n (d.detachChildren n)
      ((d.detachChildren n).appendChildren n (d.children n)) :=
    reattached (fun c hc => ⟨lt_size_of_parent? (hchildren c hc).2, (hchildren c hc).1⟩) hnodup rfl
      (Nat.le_of_eq (size_detachChildren d n).symm) fun _ _ => rfl
  refine ext_nodes fun m => ?_
  by_cases hm : m < d.size
  · refine node_eq ?_ ?_
    · by_cases hne : m = n
      · rw [hne, hre.self]
      · rw [hre.others m hne, (frames_detachChildren d n).content?_eq m hm hne]
    · rw [hre.parents]
      by_cases hmem : m ∈ d.children n
      · rw [if_pos hmem, (hchildren m hmem).2]
      · rw [if_neg hmem, keepsParents_detachChildren d n m hm hmem]
  · have hm' : ((d.detachChildren n).appendChildren n (d.children n)).size ≤ m := by
      rw [hre.size_eq, size_detachChildren]
      exact Nat.le_of_not_lt hm
    rw [Array.getElem?_eq_none hm', Array.getElem?_eq_none (Nat.le_of_not_lt hm)]

end LiveBinding.Document
