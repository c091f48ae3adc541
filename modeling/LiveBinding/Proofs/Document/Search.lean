import LiveBinding.Proofs.Document.Keeps
import LiveBinding.Proofs.Document.Preorder

/-!
# Looking for an element

A search keeps a stack of nodes that are left to look at. What is still to come is what the nodes of
the stack list in document order, one after the other: passing over an element puts its children in
its place. So the search finds the first match in document order, and as many steps as there are
nodes are enough.

## Key definitions

- `Selector.name`, `Selector.Fits`: what a selector asks for, read off its text

## Key results

- `search_succ`: one step
- `TreeAll.search_append`: a search through trees, with more nodes below them on the stack
- `Reached.find?_first`: the first match in document order
-/

namespace LiveBinding

/-! ### Selectors -/

namespace Selector

/-- The name that a selector asks for: what is behind its mark, if it has one. -/
def name (selector : String) : List Char :=
  match Text.trimChars selector.toList with
  | '#' :: name => name
  | '.' :: name => name
  | name => name

/-- What a selector asks of an element: that it has the name as its id, among the words of its
class, or as its tag, where the case of letters does not matter. -/
def Fits {κ : Type} (selector : String) (e : Element κ) : Prop :=
  match Text.trimChars selector.toList with
  | '#' :: name => e.attributes.get? "id" = some (String.ofList name)
  | '.' :: name =>
    ∃ list, e.attributes.get? "class" = some list ∧ String.ofList name ∈ Text.words list
  | name => e.tag.toList.map Char.toLower = name.map Char.toLower

variable {κ : Type} {selector : String}

/-- A selector is refused exactly if its name is empty. -/
theorem parse?_eq_none_iff : parse? selector = none ↔ name selector = [] := by
  unfold parse? name
  split <;> simp_all

theorem name_ne_nil {sel : Selector} (h : parse? selector = some sel) : name selector ≠ [] :=
  fun hnil => by
    rw [parse?_eq_none_iff.2 hnil] at h
    cases h

/-- A selector that is read off a text matches what the text asks for. -/
theorem selects_iff_fits {sel : Selector} (h : parse? selector = some sel) (e : Element κ) :
    selects e sel = true ↔ Fits selector e := by
  unfold parse? at h
  unfold Fits
  generalize Text.trimChars selector.toList = cs at h ⊢
  -- Three texts are refused; what is left has a mark of the one or the other kind, or none.
  split at h
  · cases h
  · cases h
  · cases h
  · rename_i name _
    obtain rfl := Option.some.inj h
    exact beq_iff_eq
  · rename_i name _
    obtain rfl := Option.some.inj h
    simp only [selects, Option.any_map, Option.any_eq_true, List.contains_eq_mem, decide_eq_true_eq]
  · rename_i hid hclass
    obtain rfl := Option.some.inj h
    rw [selects, sameIgnoringCase, beq_iff_eq, String.toList_ofList]
    split
    · exact absurd rfl (hid _)
    · exact absurd rfl (hclass _)
    · rfl

end Selector

namespace Document

open Relation

variable {κ : Type} {d : Document κ} {P : Fields String → Prop} {ns fp : List NodeId}
  {sel : Selector}

/-- Whether a node is an element that a selector asks for. -/
def Fits (d : Document κ) (selector : String) (n : NodeId) : Prop :=
  ∃ e, d.element? n = some e ∧ Selector.Fits selector e

theorem isSelected_iff_fits {selector : String} (h : Selector.parse? selector = some sel)
    (n : NodeId) : d.isSelected sel n = true ↔ d.Fits selector n := by
  rw [isSelected, Option.any_eq_true, Fits]
  exact exists_congr fun e => and_congr_right fun _ => Selector.selects_iff_fits h e

/-! ### The stack -/

/-- One step: the node on the top is the result, or its children take its place. -/
theorem search_succ (d : Document κ) (sel : Selector) (steps : Nat) (n : NodeId)
    (stack : List NodeId) :
    d.search sel (steps + 1) (n :: stack) =
      if d.isSelected sel n then some n else d.search sel steps (d.children n ++ stack) := by
  rw [search, isSelected]
  cases he : d.element? n with
  | none =>
    rw [children_eq_nil_of_element?_eq_none he]
    rfl
  | some e =>
    have hchildren : d.children n = e.children := children_of_content? (element?_eq_some_iff.1 he)
    rw [hchildren]
    simp only [List.foldl_reverse, List.foldr_cons_eq_append', Option.any_some]

/-- With nothing on the stack nothing is found. -/
theorem search_nil (d : Document κ) (sel : Selector) (steps : Nat) :
    d.search sel steps [] = none := by
  cases steps <;> rfl

/-- A search through trees finds the first match among their nodes, and goes on below them on the
stack if there is none. Each node takes one step. -/
theorem TreeAll.search_append (h : d.TreeAll P ns fp) {steps : Nat} (hsteps : fp.length ≤ steps)
    (stack : List NodeId) :
    d.search sel steps (ns ++ stack) =
      (fp.find? (d.isSelected sel)).or (d.search sel (steps - fp.length) stack) := by
  -- The trees on the stack are the trees inside the first node and then those behind it, so the
  -- induction takes them one after the other.
  induction h generalizing steps stack with
  | nil => rfl
  | @cons n ns inner fp _ _ _ _ ihinner ihrest =>
    obtain ⟨steps, rfl⟩ := Nat.exists_eq_add_one.2 (Nat.zero_lt_of_lt hsteps)
    rw [List.length_cons, List.length_append] at hsteps
    rw [List.cons_append, search_succ]
    by_cases hn : d.isSelected sel n = true
    · rw [if_pos hn, List.find?_cons_of_pos hn, Option.some_or]
    · have hleft : steps + 1 - (n :: (inner ++ fp)).length = steps - inner.length - fp.length := by
        rw [List.length_cons, List.length_append]
        omega
      rw [if_neg hn, List.find?_cons_of_neg hn, List.find?_append, Option.or_assoc, hleft,
        ihinner (by omega), ihrest (by omega)]

/-! ### Documents -/

theorem Reached.size_pos (h : d.Reached) : 0 < d.size := by
  suffices hbody : ∃ c, d.content? body = some c by
    obtain ⟨c, hc⟩ := hbody
    exact lt_size_of_content? hc
  induction h with
  | empty => exact ⟨_, rfl⟩
  | ofMarkup source =>
    obtain ⟨c, hc, -⟩ :=
      keeps_apply Document.empty (.setMarkup body source) body _ rfl
    exact ⟨c, hc⟩
  | operate _ op ih =>
    obtain ⟨c, hc⟩ := ih
    obtain ⟨c', hc', -⟩ := keeps_apply _ op body c hc
    exact ⟨c', hc'⟩

/-- A search from a node is a search through the list of the nodes in document order. -/
theorem Consistent.find?_eq (h : d.Consistent) (ha : d.Acyclic) (hpos : 0 < d.size) (n : NodeId)
    (selector : String) :
    d.find? n selector =
      (Selector.parse? selector).bind fun sel => (d.preorder n).find? (d.isSelected sel) := by
  rw [find?]
  refine congrArg _ (funext fun sel => ?_)
  rcases Nat.lt_or_ge n d.size with hn | hn
  · obtain ⟨htree, hnodup⟩ := h.treeAll_preorder ha hn
    have hsearch : d.search sel d.size ([n] ++ []) =
        ((d.preorder n).find? (d.isSelected sel)).or
          (d.search sel (d.size - (d.preorder n).length) []) :=
      htree.search_append (htree.length_le_size hnodup) []
    -- With nothing below the tree on the stack, the search ends with it.
    rwa [List.append_nil, search_nil, Option.or_none] at hsearch
  · -- A node that is not there is taken off the stack, and that was all.
    obtain ⟨steps, hsteps⟩ := Nat.exists_eq_add_one.2 hpos
    rw [preorder_of_le hpos hn, hsteps, search_succ, children_eq_nil_of_le hn, List.append_nil,
      search_nil, List.find?_singleton]

/-- In a document without cycles, the first match in document order is found, the node itself being
the first to be looked at, and nothing is found exactly if the name is empty or there is no match.
Document order puts a node before those below it, and lists what is below its children child by
child; each of these nodes is listed once. -/
theorem Reached.find?_first (h : d.Reached) (ha : d.Acyclic) (n : NodeId) (selector : String) :
    (∀ m, d.find? n selector = some m ↔ Selector.name selector ≠ [] ∧ d.Fits selector m ∧
      ∃ before after, d.preorder n = before ++ m :: after ∧
        ∀ k ∈ before, ¬ d.Fits selector k) ∧
    (d.find? n selector = none ↔ Selector.name selector = [] ∨
      ∀ m, ReflTransGen d.HasChild n m → ¬ d.Fits selector m) ∧
    d.preorder n = n :: (d.children n).flatMap d.preorder ∧ (d.preorder n).Nodup ∧
    ∀ m, m ∈ d.preorder n ↔ ReflTransGen d.HasChild n m := by
  have hc := h.consistent
  have hpos := h.size_pos
  refine ⟨fun m => ?_, ?_, hc.preorder_eq ha hpos n, hc.nodup_preorder ha hpos n,
    fun m => hc.mem_preorder_iff ha hpos⟩
  · rw [hc.find?_eq ha hpos]
    cases hparse : Selector.parse? selector with
    | none => simp [Selector.parse?_eq_none_iff.1 hparse]
    | some sel =>
      simp only [Option.bind_some, List.find?_eq_some_iff_append, isSelected_iff_fits hparse,
        Bool.not_eq_true', ← Bool.not_eq_true, Selector.name_ne_nil hparse, ne_eq,
        not_false_eq_true, true_and]
  · rw [hc.find?_eq ha hpos]
    cases hparse : Selector.parse? selector with
    | none => simp [Selector.parse?_eq_none_iff.1 hparse]
    | some sel =>
      simp only [Option.bind_some, List.find?_eq_none, isSelected_iff_fits hparse,
        Selector.name_ne_nil hparse, false_or, hc.mem_preorder_iff ha hpos]

/-- Here the second paragraph is the first element with the class, and nothing has the id. -/
theorem find?_second_paragraph :
    let d : Document Unit := ofMarkup "<div><p class='x'>1</p><p class='w y'>2</p></div><p class=y>"
    d.preorder body = [0, 1, 2, 3, 4, 5, 6] ∧ d.find? body " .y " = some 4 ∧ d.Fits " .y " 4 ∧
      ∀ m, ReflTransGen d.HasChild body m → ¬ d.Fits "#y" m := by
  intro d
  have hreached : d.Reached := .ofMarkup _
  have ha : d.Acyclic := .of_forall_lt (by decide +kernel)
  have hfound : d.find? body " .y " = some 4 := by decide +kernel
  obtain ⟨-, hfits, -⟩ := ((Reached.find?_first hreached ha body " .y ").1 4).1 hfound
  refine ⟨by decide +kernel, hfound, hfits, ?_⟩
  have hnone := (Reached.find?_first hreached ha body "#y").2.1.1 (by decide +kernel)
  exact hnone.resolve_left (by decide +kernel)

end Document

end LiveBinding
