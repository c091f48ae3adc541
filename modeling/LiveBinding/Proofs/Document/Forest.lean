import LiveBinding.Proofs.Document.Links

/-!
# Documents are forests

Whatever is done to a document from outside, with whatever nodes, every link is stored at both of
its ends and once. Cycles are possible, and there is one way to make them: to append a node below
itself.

## Key definitions

- `Document.Operation`: what can be done to a document
- `Document.Reached`: the documents that operations lead to

## Key results

- `Document.Consistent.apply`, `Document.Consistent.acyclic_apply`: one operation
- `Document.Reached.consistent`: any sequence of operations
- `Document.Reached.forest`: the forest and its cycles
-/

namespace LiveBinding.Document

open Relation

variable {κ : Type} {d : Document κ} {n : NodeId}

/-- A change of a document that can be asked for. Nodes are given by their numbers, which may be
anything. -/
inductive Operation (κ : Type) where
  | createElement (tag : String)
  | createText (s : String)
  | append (n : NodeId) (children : List NodeId)
  | take (n : NodeId)
  | setAttribute (n : NodeId) (name value : String)
  | removeAttribute (n : NodeId) (name : String)
  | setText (n : NodeId) (s : String)
  | setMarkup (n : NodeId) (source : String)
  | setInputValue (n : NodeId) (value : String)
  | listen (n : NodeId) (event : String) (listener : κ)

/-- Make a change. -/
def Operation.apply (d : Document κ) : Operation κ → Document κ
  | .createElement tag => (d.createElement tag).1
  | .createText s => (d.createText s).1
  | .append n children => d.appendChildren n children
  | .take n => d.detachChildren n
  | .setAttribute n name value => d.setAttribute n name value
  | .removeAttribute n name => d.removeAttribute n name
  | .setText n s => d.setText n s
  | .setMarkup n source => d.setMarkup n source
  | .setInputValue n value => d.setInputValue n value
  | .listen n event listener => d.addListener n event listener

/-- The documents that changes lead to, from the empty one or from that of a markup text. -/
inductive Reached : Document κ → Prop
  | empty : Reached empty
  | ofMarkup (source : String) : Reached (ofMarkup source)
  | operate {d : Document κ} (h : Reached d) (op : Operation κ) : Reached (op.apply d)

/-! ### One operation -/

/-- A change of an element apart from its children. -/
theorem Consistent.modifyElement (h : d.Consistent) (n : NodeId) {f : Element κ → Element κ}
    (hf : ∀ e, (f e).children = e.children) : (d.modifyElement n f).Consistent :=
  h.of_eq (fun p => children_modifyElement d n p hf) fun c => parent?_modifyElement d n c f

theorem Acyclic.modifyElement (ha : d.Acyclic) (n : NodeId) {f : Element κ → Element κ}
    (hf : ∀ e, (f e).children = e.children) : (d.modifyElement n f).Acyclic :=
  ha.mono fun p c hc => by rwa [HasChild, children_modifyElement d n p hf] at hc

/-- A new root without children. -/
theorem Consistent.add (h : d.Consistent) {c : Content κ}
    (hc : ∀ e, c = .element e → e.children = []) : (d.add c none).1.Consistent := by
  refine h.of_eq (children_add d hc none) fun m => ?_
  rw [parent?_add]
  split
  · rename_i hm
    rw [parent?_eq_none_of_le (Nat.le_of_eq hm.symm)]
  · rfl

theorem Acyclic.add (ha : d.Acyclic) {c : Content κ}
    (hc : ∀ e, c = .element e → e.children = []) : (d.add c none).1.Acyclic :=
  ha.mono fun p m hm => by rwa [HasChild, children_add d hc none] at hm

/-- Every operation keeps the two ends of all links in step. -/
theorem Consistent.apply (h : d.Consistent) (op : Operation κ) : (op.apply d).Consistent := by
  cases op with
  | createElement tag => exact h.add fun e he => by cases he; rfl
  | createText s => exact h.add fun e he => by cases he
  | append n children => exact h.appendChildren n children
  | take n => exact h.detachChildren n
  | setAttribute n name value => exact h.modifyElement n fun _ => rfl
  | removeAttribute n name => exact h.modifyElement n fun _ => rfl
  | setText n s => exact h.setText n s
  | setMarkup n source => exact h.setMarkup n source
  | setInputValue n value => exact h.modifyElement n fun _ => rfl
  | listen n event listener => exact h.modifyElement n fun _ => rfl

/-- Only appending makes a cycle. -/
theorem Consistent.acyclic_apply (h : d.Consistent) (ha : d.Acyclic) {op : Operation κ}
    (hop : ∀ n children, op ≠ .append n children) : (op.apply d).Acyclic := by
  cases op with
  | createElement tag => exact ha.add fun e he => by cases he; rfl
  | createText s => exact ha.add fun e he => by cases he
  | append n children => exact absurd rfl (hop n children)
  | take n => exact ha.detachChildren n
  | setAttribute n name value => exact ha.modifyElement n fun _ => rfl
  | removeAttribute n name => exact ha.modifyElement n fun _ => rfl
  | setText n s => exact h.acyclic_setText ha n s
  | setMarkup n source => exact h.acyclic_setMarkup ha n source
  | setInputValue n value => exact ha.modifyElement n fun _ => rfl
  | listen n event listener => exact ha.modifyElement n fun _ => rfl

/-! ### Appending several nodes -/

theorem appendChildren_singleton (hn : (d.element? n).isSome) (c : NodeId) :
    d.appendChildren n [c] = d.appendChild n c := by
  rw [appendChildren, if_pos hn]
  rfl

theorem appendChildren_of_isNone (hn : d.element? n = none) (cs : List NodeId) :
    d.appendChildren n cs = d := by
  rw [appendChildren, hn]
  rfl

/-- Several nodes are appended one after the other. -/
theorem appendChildren_cons (d : Document κ) (n c : NodeId) (cs : List NodeId) :
    d.appendChildren n (c :: cs) = (d.appendChildren n [c]).appendChildren n cs := by
  cases hn : d.element? n with
  | none => simp only [appendChildren_of_isNone hn]
  | some e =>
    have hsome : (d.element? n).isSome := by rw [hn]; rfl
    have hsome' : ((d.appendChild n c).element? n).isSome := by rwa [isSome_element?_appendChild]
    rw [appendChildren_singleton hsome, appendChildren, appendChildren, if_pos hsome,
      if_pos hsome', List.foldl_cons]

/-! ### Any sequence of operations -/

theorem consistent_empty : (empty : Document κ).Consistent :=
  .of_forall_lt (fun p hp => by
    obtain rfl : p = 0 := Nat.lt_one_iff.1 hp
    exact ⟨List.nodup_nil, nofun⟩) fun c hc p hp => by
    obtain rfl : c = 0 := Nat.lt_one_iff.1 hc
    cases hp

theorem Reached.consistent (h : d.Reached) : d.Consistent := by
  induction h with
  | empty => exact consistent_empty
  | ofMarkup source => exact consistent_empty.setMarkup body source
  | operate _ op ih => exact ih.apply op

/-- No node stands twice in the lists of children of the whole document. -/
theorem Consistent.nodup_flatMap_children (h : d.Consistent) :
    ((List.range d.size).flatMap d.children).Nodup := by
  refine List.nodup_flatMap.2 ⟨fun p _ => h.nodup_children p, ?_⟩
  refine List.nodup_range.imp fun {p q} hne c hp hq => hne ?_
  exact Option.some.inj ((h.mem_children_iff.1 hp).symm.trans (h.mem_children_iff.1 hq))

/-- A document that operations lead to is a forest: every link is in range, is stored at both ends
and once, and appending a node moves it. From a document without cycles, appending a node to an
element makes one exactly if the element is below the node, and nothing else makes one. -/
theorem Reached.forest (h : d.Reached) :
    (∀ p c, c ∈ d.children p → p < d.size ∧ c < d.size) ∧
    (∀ p c, d.parent? c = some p → p < d.size ∧ c < d.size) ∧
    (∀ p c, c ∈ d.children p ↔ d.parent? c = some p) ∧
    ((List.range d.size).flatMap d.children).Nodup ∧
    (∀ n c, (d.element? n).isSome → c < d.size → c ≠ n →
      (∀ m, (d.appendChildren n [c]).parent? m = if m = c then some n else d.parent? m) ∧
      ∀ p, (d.appendChildren n [c]).children p =
        (d.children p).filter (· != c) ++ if p = n then [c] else []) ∧
    (∀ n c, (d.element? n = none ∨ d.size ≤ c ∨ c = n) → d.appendChildren n [c] = d) ∧
    (∀ n c cs, d.appendChildren n (c :: cs) = (d.appendChildren n [c]).appendChildren n cs) ∧
    (d.Acyclic → ∀ n c, (d.element? n).isSome →
      (¬ (d.appendChildren n [c]).Acyclic ↔ TransGen d.HasChild c n)) ∧
    (d.Acyclic → ∀ op : Operation κ, (∀ n children, op ≠ .append n children) →
      (op.apply d).Acyclic) := by
  have hd := h.consistent
  refine ⟨fun p c hc => hd.lt_size hc, fun p c hc => hd.lt_size (hd.mem_children_iff.2 hc),
    fun p c => hd.mem_children_iff, hd.nodup_flatMap_children, fun n c hn hc hne => ?_,
    fun n c hnot => ?_, fun n c cs => d.appendChildren_cons n c cs, fun ha n c hn => ?_,
    fun ha op hop => hd.acyclic_apply ha hop⟩
  · rw [appendChildren_singleton hn]
    exact ⟨parent?_appendChild hc hne, hd.children_appendChild hn hc hne⟩
  · by_cases hn : d.element? n = none
    · exact appendChildren_of_isNone hn [c]
    · rw [appendChildren_singleton (Option.isSome_iff_ne_none.2 hn), appendChild, if_neg]
      rintro ⟨hlt, hne⟩
      exact hnot.elim hn (·.elim (Nat.not_le.2 hlt) hne)
  · rw [appendChildren_singleton hn, hd.acyclic_appendChild_iff ha hn, not_not]

/-- The document of a list with one item has no cycle, until the item gets the list as a child. -/
theorem forest_list :
    (ofMarkup "<ul><li>a</li></ul>" : Document Unit).Acyclic ∧
      ¬ ((ofMarkup "<ul><li>a</li></ul>" : Document Unit).appendChildren 2 [1]).Acyclic := by
  have ha : (ofMarkup "<ul><li>a</li></ul>" : Document Unit).Acyclic :=
    .of_forall_lt (by decide +kernel)
  have hreached : (ofMarkup "<ul><li>a</li></ul>" : Document Unit).Reached := .ofMarkup _
  obtain ⟨-, -, -, -, -, -, -, hcycle, -⟩ := Reached.forest hreached
  have hbelow : (ofMarkup "<ul><li>a</li></ul>" : Document Unit).HasChild 1 2 :=
    show 2 ∈ (ofMarkup "<ul><li>a</li></ul>" : Document Unit).children 1 by decide +kernel
  exact ⟨ha, (hcycle ha 2 1 (by decide +kernel)).2 (.single hbelow)⟩

end LiveBinding.Document
