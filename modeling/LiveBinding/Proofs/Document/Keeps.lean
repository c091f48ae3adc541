import LiveBinding.Proofs.Document.Forest
import LiveBinding.Proofs.Document.Relinks
import LiveBinding.World

/-!
# What changes of a document leave alone

A node shows things in four ways: as a text, as markup below it, in its attributes, and as an
input value. `Document.Keeps free d d'` says that every node of `d` is still there in `d'`, of the
same sort, with all its listeners, and with its text, attributes and input value unchanged where
`free` does not allow a change. Links between nodes play no part: moving nodes keeps everything.

## Key results

- `keeps_setAttribute`, `keeps_setInputValue`, `keeps_setText`: changes of one thing
- `Relinks.keeps`: edits of links, such as `keeps_setMarkup` and `keeps_appendChildren`
- `keeps_apply`: every operation
-/

namespace LiveBinding

variable {κ : Type}

/-- Removing another name does not change what is found under a name. -/
theorem Fields.get?_erase_of_ne {α : Type} (fs : Fields α) {key other : String}
    (h : other ≠ key) : (fs.erase key).get? other = fs.get? other := by
  induction fs with
  | nil => rfl
  | cons f fs ih =>
    obtain ⟨k, a⟩ := f
    simp only [erase, get?, List.find?_filter] at ih ⊢
    by_cases hk : k = other
    · simp [hk, h]
    · simpa [hk] using ih

/-- What is left of the content of a node; `free` says what may have changed. -/
def Content.Keeps (free : Sink → Prop) : Content κ → Content κ → Prop
  | .text s, .text s' => ¬ free .text → s' = s
  | .comment _, .comment _ => True
  | .element e, .element e' =>
    (∀ name, ¬ free (.attr name) → e'.attributes.get? name = e.attributes.get? name) ∧
      (¬ free .input → e'.input = e.input) ∧ ∀ l ∈ e.listeners, l ∈ e'.listeners
  | _, _ => False

theorem Content.Keeps.refl (free : Sink → Prop) (c : Content κ) : c.Keeps free c := by
  cases c with
  | element e => exact ⟨fun _ _ => rfl, fun _ => rfl, fun _ h => h⟩
  | text s => exact fun _ => rfl
  | comment s => trivial

theorem Content.Keeps.trans {free : Sink → Prop} {a b c : Content κ} (h : a.Keeps free b)
    (h' : b.Keeps free c) : a.Keeps free c := by
  cases a <;> cases b <;> cases c <;> simp only [Content.Keeps] at h h' ⊢
  · exact ⟨fun name hn => (h'.1 name hn).trans (h.1 name hn),
      fun hn => (h'.2.1 hn).trans (h.2.1 hn), fun l hl => h'.2.2 l (h.2.2 l hl)⟩
  · exact fun hn => (h' hn).trans (h hn)

theorem Content.Keeps.mono {free free' : Sink → Prop} {a b : Content κ} (h : a.Keeps free b)
    (hfree : ∀ sink, free sink → free' sink) : a.Keeps free' b := by
  cases a <;> cases b <;> simp only [Content.Keeps] at h ⊢
  · exact ⟨fun name hn => h.1 name fun hf => hn (hfree _ hf),
      fun hn => h.2.1 fun hf => hn (hfree _ hf), h.2.2⟩
  · exact fun hn => h fun hf => hn (hfree _ hf)

/-- An element is left as an element. -/
theorem Content.Keeps.exists_element {free : Sink → Prop} {e : Element κ} {c : Content κ}
    (h : (Content.element e).Keeps free c) : ∃ e', c = .element e' ∧
      (∀ name, ¬ free (.attr name) → e'.attributes.get? name = e.attributes.get? name) ∧
      (¬ free .input → e'.input = e.input) ∧ ∀ l ∈ e.listeners, l ∈ e'.listeners := by
  cases c with
  | element e' => exact ⟨e', rfl, h⟩
  | text => exact h.elim
  | comment => exact h.elim

/-- A text is left as a text. -/
theorem Content.Keeps.exists_text {free : Sink → Prop} {s : String} {c : Content κ}
    (h : (Content.text s).Keeps free c) : ∃ s', c = .text s' ∧ (¬ free .text → s' = s) := by
  cases c with
  | text s' => exact ⟨s', rfl, h⟩
  | element => exact h.elim
  | comment => exact h.elim

namespace Document

/-- Every node is left with its sort, its listeners and everything that is not free. -/
def Keeps (free : Sink → NodeId → Prop) (d d' : Document κ) : Prop :=
  ∀ n c, d.content? n = some c →
    ∃ c', d'.content? n = some c' ∧ c.Keeps (fun sink => free sink n) c'

/-- Nothing may change. -/
def nothing : Sink → NodeId → Prop := fun _ _ => False

variable {free free' : Sink → NodeId → Prop}

theorem Keeps.refl (free : Sink → NodeId → Prop) (d : Document κ) : Keeps free d d :=
  fun _ c hc => ⟨c, hc, .refl _ c⟩

theorem Keeps.trans {a b c : Document κ} (h : Keeps free a b) (h' : Keeps free b c) :
    Keeps free a c := by
  intro n x hx
  obtain ⟨y, hy, hxy⟩ := h n x hx
  obtain ⟨z, hz, hyz⟩ := h' n y hy
  exact ⟨z, hz, hxy.trans hyz⟩

theorem Keeps.mono {d d' : Document κ} (h : Keeps free d d')
    (hfree : ∀ sink n, free sink n → free' sink n) : Keeps free' d d' := by
  intro n c hc
  obtain ⟨c', hc', hcc⟩ := h n c hc
  exact ⟨c', hc', hcc.mono fun sink => hfree sink n⟩

/-! ### Changing one node -/

theorem keeps_modifyContent (d : Document κ) (n : NodeId) {f : Content κ → Content κ}
    (hf : ∀ c, d.content? n = some c → c.Keeps (fun sink => free sink n) (f c)) :
    Keeps free d (d.modifyContent n f) := by
  intro m c hc
  rw [content?_modifyContent]
  by_cases hm : n = m
  · subst hm
    rw [if_pos rfl, hc]
    exact ⟨f c, rfl, hf c hc⟩
  · rw [if_neg hm]
    exact ⟨c, hc, .refl _ c⟩

theorem keeps_modifyElement (d : Document κ) (n : NodeId) {f : Element κ → Element κ}
    (hf : ∀ e, (Content.element e).Keeps (fun sink => free sink n) (.element (f e))) :
    Keeps free d (d.modifyElement n f) := by
  refine keeps_modifyContent d n fun c _ => ?_
  cases c with
  | element e => exact hf e
  | text s => exact .refl _ _
  | comment s => exact .refl _ _

/-- A change of one attribute. -/
theorem keeps_setAttribute (d : Document κ) (n : NodeId) (name value : String)
    (h : free (.attr name) n) : Keeps free d (d.setAttribute n name value) := by
  refine keeps_modifyElement d n fun e => ⟨fun other ho => ?_, fun _ => rfl, fun _ hl => hl⟩
  have hne : other ≠ name := by
    rintro rfl
    exact ho h
  exact Fields.get?_put_of_ne _ hne _

theorem keeps_removeAttribute (d : Document κ) (n : NodeId) (name : String)
    (h : free (.attr name) n) : Keeps free d (d.removeAttribute n name) := by
  refine keeps_modifyElement d n fun e => ⟨fun other ho => ?_, fun _ => rfl, fun _ hl => hl⟩
  have hne : other ≠ name := by
    rintro rfl
    exact ho h
  exact Fields.get?_erase_of_ne _ hne

/-- A change of the input value. -/
theorem keeps_setInputValue (d : Document κ) (n : NodeId) (value : String) (h : free .input n) :
    Keeps free d (d.setInputValue n value) :=
  keeps_modifyElement d n fun _ => ⟨fun _ _ => rfl, fun hn => absurd h hn, fun _ hl => hl⟩

theorem keeps_addListener (d : Document κ) (n : NodeId) (event : String) (listener : κ) :
    Keeps free d (d.addListener n event listener) :=
  keeps_modifyElement d n fun _ =>
    ⟨fun _ _ => rfl, fun _ => rfl, fun _ hl => List.mem_append_left _ hl⟩

/-! ### Changing links -/

theorem keeps_add (d : Document κ) (c : Content κ) (p : Option NodeId) :
    Keeps free d (d.add c p).1 := by
  intro n x hx
  have hn : n < d.size := by
    apply Nat.lt_of_not_le
    intro hle
    rw [content?_eq_none_of_le hle] at hx
    cases hx
  refine ⟨x, ?_, .refl _ x⟩
  rw [content?_add, if_neg (Nat.ne_of_lt hn), hx]

/-- Edits of links keep everything. -/
theorem Relinks.keeps {d d' : Document κ} (h : d.Relinks d') : Keeps free d d' := by
  induction h with
  | refl d => exact .refl _ d
  | trans _ _ ih ih' => exact ih.trans ih'
  | children d n f =>
    exact keeps_modifyElement d n fun _ => ⟨fun _ _ => rfl, fun _ => rfl, fun _ hl => hl⟩
  | parent d n p => exact fun m c hc => ⟨c, by rwa [content?_setParent], .refl _ c⟩
  | add d p _ => exact keeps_add d _ p

theorem keeps_detachChildren (d : Document κ) (n : NodeId) : Keeps free d (d.detachChildren n) :=
  (relinks_detachChildren d n).keeps

theorem keeps_appendChildren (d : Document κ) (n : NodeId) (children : List NodeId) :
    Keeps free d (d.appendChildren n children) :=
  (relinks_appendChildren d n children).keeps

/-! ### Changing what is below a node -/

/-- A text is the only content that replacing the content of a node changes. -/
theorem keeps_setText (d : Document κ) (n : NodeId) (s : String) (h : free .text n) :
    Keeps free d (d.setText n s) := by
  cases hn : d.content? n with
  | none =>
    rw [setText, hn]
    exact .refl _ d
  | some content =>
    cases content with
    | element e => exact (relinks_setText hn s).keeps
    | text t =>
      rw [setText, hn]
      refine keeps_modifyContent d n fun c hc => ?_
      obtain rfl := Option.some.inj (hn.symm.trans hc)
      exact fun hfree => absurd h hfree
    | comment t =>
      rw [setText, hn]
      refine keeps_modifyContent d n fun c hc => ?_
      obtain rfl := Option.some.inj (hn.symm.trans hc)
      trivial

/-- Replacing the children of a node by new ones leaves the old ones as they are. -/
theorem keeps_setMarkup (d : Document κ) (n : NodeId) (source : String) :
    Keeps free d (d.setMarkup n source) :=
  (relinks_setMarkup d n source).keeps

/-- An operation leaves every node its sort and its listeners. -/
theorem keeps_apply (d : Document κ) (op : Operation κ) :
    Keeps (fun _ _ => True) d (op.apply d) := by
  cases op with
  | createElement tag => exact keeps_add d _ _
  | createText s => exact keeps_add d _ _
  | append n children => exact keeps_appendChildren d n children
  | take n => exact keeps_detachChildren d n
  | setAttribute n name value => exact keeps_setAttribute d n name value trivial
  | removeAttribute n name => exact keeps_removeAttribute d n name trivial
  | setText n s => exact keeps_setText d n s trivial
  | setMarkup n source => exact keeps_setMarkup d n source
  | setInputValue n value => exact keeps_setInputValue d n value trivial
  | listen n event listener => exact keeps_addListener d n event listener

end Document

end LiveBinding
