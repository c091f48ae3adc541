import LiveBinding.Document.Edit
import LiveBinding.Document.Lemmas

/-!
# Edits of links

Detaching, appending and filling in are all made from three steps: the list of children of an
element changes, the parent of a node changes, and a new node without listeners is made.
`Document.Relinks d d'` says that such steps lead from `d` to `d'`. What every step keeps, every
edit of links keeps, and this is shown by induction on `Relinks` with one case for each step.

## Key results

- `relinks_detachChildren`, `relinks_appendChildren`, `relinks_setMarkup`: edits of links
- `relinks_setText`: a text for an element
- `Relinks.listeners_eq`: the listeners of all nodes stay as they are
-/

namespace LiveBinding.Document

variable {κ : Type} {d d' : Document κ}

/-- Links change and nodes come; apart from its links, every node stays as it is. -/
inductive Relinks : Document κ → Document κ → Prop
  | refl (d : Document κ) : Relinks d d
  | trans {d₁ d₂ d₃ : Document κ} (h : Relinks d₁ d₂) (h' : Relinks d₂ d₃) : Relinks d₁ d₃
  | children (d : Document κ) (n : NodeId) (f : List NodeId → List NodeId) :
      Relinks d (d.modifyElement n fun e => { e with children := f e.children })
  | parent (d : Document κ) (n : NodeId) (p : Option NodeId) : Relinks d (d.setParent n p)
  | add (d : Document κ) {c : Content κ} (p : Option NodeId)
      (hc : ∀ e, c = .element e → e.listeners = []) : Relinks d (d.add c p).1

theorem relinks_foldl {α : Type} {f : Document κ → α → Document κ} (hf : ∀ d a, Relinks d (f d a))
    (as : List α) (d : Document κ) : Relinks d (as.foldl f d) := by
  induction as generalizing d with
  | nil => exact .refl d
  | cons a as ih => exact (hf d a).trans (ih _)

theorem relinks_setChildren (d : Document κ) (n : NodeId) (cs : List NodeId) :
    Relinks d (d.setChildren n cs) :=
  .children d n fun _ => cs

theorem relinks_detachChildren (d : Document κ) (n : NodeId) : Relinks d (d.detachChildren n) :=
  (relinks_setChildren d n []).trans (relinks_foldl (fun d c => .parent d c none) _ _)

theorem relinks_detach (d : Document κ) (n : NodeId) : Relinks d (d.detach n) := by
  unfold detach
  split
  · exact .refl d
  · exact (Relinks.parent d n none).trans (.children _ _ _)

theorem relinks_appendChildren (d : Document κ) (n : NodeId) (cs : List NodeId) :
    Relinks d (d.appendChildren n cs) := by
  have hone (d : Document κ) (c : NodeId) : Relinks d (d.appendChild n c) := by
    unfold appendChild
    split
    · exact ((relinks_detach d c).trans (.parent _ c _)).trans (.children _ n (· ++ [c]))
    · exact .refl d
  unfold appendChildren
  split
  · exact relinks_foldl hone cs d
  · exact .refl d

mutual

theorem relinks_instantiate (d : Document κ) (parent : NodeId) :
    (m : Markup) → Relinks d (d.instantiate parent m).1
  | .text s => by
    simp only [instantiate]
    exact .add d _ nofun
  | .comment s => by
    simp only [instantiate]
    exact .add d _ nofun
  | .element tag attributes children => by
    simp only [instantiate]
    have hnew : Relinks d (d.add (.element (Element.new tag attributes)) (some parent)).1 := by
      refine .add d _ fun e he => ?_
      obtain ⟨⟩ := he
      rfl
    exact (hnew.trans (relinks_instantiateAll _ _ children)).trans (relinks_setChildren _ _ _)

theorem relinks_instantiateAll (d : Document κ) (parent : NodeId) :
    (ms : List Markup) → Relinks d (d.instantiateAll parent ms).1
  | [] => by
    simp only [instantiateAll]
    exact .refl d
  | m :: ms => by
    simp only [instantiateAll]
    exact (relinks_instantiate d parent m).trans (relinks_instantiateAll _ parent ms)

end

theorem relinks_setMarkup (d : Document κ) (n : NodeId) (source : String) :
    Relinks d (d.setMarkup n source) := by
  unfold setMarkup
  split
  · exact ((relinks_detachChildren d n).trans (relinks_instantiateAll _ _ _)).trans
      (relinks_setChildren _ _ _)
  · exact .refl d

/-- An element gets a text as its only child, or none. -/
theorem relinks_setText {n : NodeId} {e : Element κ} (he : d.content? n = some (.element e))
    (s : String) : Relinks d (d.setText n s) := by
  rw [setText, he]
  dsimp only
  split
  · exact relinks_detachChildren d n
  · exact ((relinks_detachChildren d n).trans (.add _ _ fun _ h => by cases h)).trans
      (relinks_setChildren _ _ _)

/-- An element that is there keeps its listeners. -/
theorem Relinks.listeners_eq (h : d.Relinks d') {n : NodeId} {e : Element κ}
    (he : d.element? n = some e) :
    ∃ e', d'.element? n = some e' ∧ e'.listeners = e.listeners := by
  induction h generalizing e with
  | refl d => exact ⟨e, he, rfl⟩
  | trans _ _ ih ih' =>
    obtain ⟨e₁, he₁, hlisteners⟩ := ih he
    obtain ⟨e₂, he₂, hlisteners'⟩ := ih' he₁
    exact ⟨e₂, he₂, hlisteners'.trans hlisteners⟩
  | children d m f =>
    rw [element?_modifyElement, he]
    split
    · exact ⟨_, rfl, rfl⟩
    · exact ⟨e, rfl, rfl⟩
  | parent d m p =>
    rw [element?_setParent]
    exact ⟨e, he, rfl⟩
  | add d p _ =>
    refine ⟨e, ?_, rfl⟩
    rw [element?_eq_some_iff, content?_add, if_neg (Nat.ne_of_lt (lt_size_of_element? he)),
      element?_eq_some_iff.1 he]

end LiveBinding.Document
