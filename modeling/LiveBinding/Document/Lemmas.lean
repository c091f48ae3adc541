import LiveBinding.Document.Edit
import LiveBinding.Document.Query

/-!
# What the changes of a document do

A document is looked at through its size and two views of each node: its content and its parent.
For each elementary change there is one lemma per view. The children of a node are a part of its
content, so `element?_modifyElement` and its neighbours follow from the first view.
-/

namespace LiveBinding.Document

variable {κ : Type}

theorem content?_eq_none_of_le {d : Document κ} {n : NodeId} (h : d.size ≤ n) :
    d.content? n = none := by
  simp [content?, Array.getElem?_eq_none h]

theorem parent?_eq_none_of_le {d : Document κ} {n : NodeId} (h : d.size ≤ n) :
    d.parent? n = none := by
  simp [parent?, Array.getElem?_eq_none h]

theorem lt_size_of_parent? {d : Document κ} {n p : NodeId} (h : d.parent? n = some p) :
    n < d.size := by
  apply Nat.lt_of_not_le
  intro hn
  simp [parent?_eq_none_of_le hn] at h

theorem lt_size_of_content? {d : Document κ} {n : NodeId} {c : Content κ}
    (h : d.content? n = some c) : n < d.size := by
  apply Nat.lt_of_not_le
  intro hn
  simp [content?_eq_none_of_le hn] at h

theorem text_of_content? {d : Document κ} {n : NodeId} {s : String}
    (h : d.content? n = some (.text s)) : d.text n = s := by
  obtain ⟨depth, hdepth⟩ := Nat.exists_eq_add_one.2 (Nat.zero_lt_of_lt (lt_size_of_content? h))
  simp only [text, h, hdepth, textTo]

theorem element?_eq_some_iff {d : Document κ} {n : NodeId} {e : Element κ} :
    d.element? n = some e ↔ d.content? n = some (.element e) := by
  unfold element?
  split <;> simp_all

theorem lt_size_of_element? {d : Document κ} {n : NodeId} {e : Element κ}
    (h : d.element? n = some e) : n < d.size :=
  lt_size_of_content? (element?_eq_some_iff.1 h)

/-! ### Changing the content of a node -/

@[simp] theorem size_modifyContent (d : Document κ) (n : NodeId) (f : Content κ → Content κ) :
    (d.modifyContent n f).size = d.size := by
  simp [modifyContent, size]

theorem content?_modifyContent (d : Document κ) (n m : NodeId) (f : Content κ → Content κ) :
    (d.modifyContent n f).content? m =
      if n = m then (d.content? m).map f else d.content? m := by
  simp only [content?, modifyContent, Array.getElem?_modify]
  split
  · cases d.nodes[m]? <;> rfl
  · rfl

@[simp] theorem parent?_modifyContent (d : Document κ) (n m : NodeId)
    (f : Content κ → Content κ) : (d.modifyContent n f).parent? m = d.parent? m := by
  simp only [parent?, modifyContent, Array.getElem?_modify]
  split
  · cases d.nodes[m]? <;> rfl
  · rfl

@[simp] theorem size_modifyElement (d : Document κ) (n : NodeId) (f : Element κ → Element κ) :
    (d.modifyElement n f).size = d.size := size_modifyContent d n _

@[simp] theorem parent?_modifyElement (d : Document κ) (n m : NodeId)
    (f : Element κ → Element κ) : (d.modifyElement n f).parent? m = d.parent? m :=
  parent?_modifyContent d n m _

theorem element?_modifyElement (d : Document κ) (n m : NodeId) (f : Element κ → Element κ) :
    (d.modifyElement n f).element? m =
      if n = m then (d.element? m).map f else d.element? m := by
  unfold element? modifyElement
  rw [content?_modifyContent]
  by_cases h : n = m
  · rw [if_pos h, if_pos h]
    rcases d.content? m with _ | _ | _ | _ <;> rfl
  · rw [if_neg h, if_neg h]

theorem element?_modifyElement_of_ne (d : Document κ) {n m : NodeId} (h : m ≠ n)
    (f : Element κ → Element κ) : (d.modifyElement n f).element? m = d.element? m := by
  rw [element?_modifyElement, if_neg (Ne.symm h)]

theorem children_modifyElement_of_ne (d : Document κ) {n m : NodeId} (h : m ≠ n)
    (f : Element κ → Element κ) : (d.modifyElement n f).children m = d.children m := by
  simp [children, element?_modifyElement_of_ne d h]

theorem children_setChildren_self {d : Document κ} {n : NodeId} (h : (d.element? n).isSome)
    (children : List NodeId) : (d.setChildren n children).children n = children := by
  obtain ⟨e, he⟩ := Option.isSome_iff_exists.1 h
  simp [setChildren, Document.children, element?_modifyElement, he]

/-! ### Changing the parent of a node -/

@[simp] theorem size_setParent (d : Document κ) (n : NodeId) (p : Option NodeId) :
    (d.setParent n p).size = d.size := by
  simp [setParent, size]

@[simp] theorem content?_setParent (d : Document κ) (n m : NodeId) (p : Option NodeId) :
    (d.setParent n p).content? m = d.content? m := by
  simp only [content?, setParent, Array.getElem?_modify]
  split
  · cases d.nodes[m]? <;> rfl
  · rfl

@[simp] theorem element?_setParent (d : Document κ) (n m : NodeId) (p : Option NodeId) :
    (d.setParent n p).element? m = d.element? m := by
  simp [element?]

@[simp] theorem children_setParent (d : Document κ) (n m : NodeId) (p : Option NodeId) :
    (d.setParent n p).children m = d.children m := by
  simp [children]

theorem parent?_setParent_self {d : Document κ} {n : NodeId} (h : n < d.size)
    (p : Option NodeId) : (d.setParent n p).parent? n = p := by
  have hn : n < d.nodes.size := h
  simp only [parent?, setParent, Array.getElem?_modify, Array.getElem?_eq_getElem hn]
  rfl

theorem parent?_setParent_of_ne (d : Document κ) {n m : NodeId} (h : m ≠ n)
    (p : Option NodeId) : (d.setParent n p).parent? m = d.parent? m := by
  simp [parent?, setParent, Array.getElem?_modify, Ne.symm h]

/-! ### New nodes -/

@[simp] theorem size_add (d : Document κ) (c : Content κ) (p : Option NodeId) :
    (d.add c p).1.size = d.size + 1 := by
  simp [add, size]

theorem content?_add (d : Document κ) (c : Content κ) (p : Option NodeId) (m : NodeId) :
    (d.add c p).1.content? m = if m = d.size then some c else d.content? m := by
  by_cases h : m = d.nodes.size <;> simp [content?, add, Array.getElem?_push, size, h]

theorem parent?_add (d : Document κ) (c : Content κ) (p : Option NodeId) (m : NodeId) :
    (d.add c p).1.parent? m = if m = d.size then p else d.parent? m := by
  by_cases h : m = d.nodes.size <;> simp [parent?, add, Array.getElem?_push, size, h]

end LiveBinding.Document
