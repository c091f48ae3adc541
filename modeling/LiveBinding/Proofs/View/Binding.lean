import LiveBinding.Proofs.Evolution.Carried
import LiveBinding.Proofs.Freshness

/-!
# Bindings

A binding says what a template shows in one place: a text with its placeholders filled in, or the
value of a path. It is kept by the effects in its place, one for each path that it needs. A binding
is ready if each of these paths leads through cells, with which an effect for the path is
registered, to a leaf. What a ready binding should show depends on the values of its paths and on
nothing else.

Which effects are in the place is counted from a moment: effects that were constructed before it,
and were no longer in use at that moment, play no part.

## Key definitions

- `Binding.shows`: what the place of a binding should show
- `Binding.IsIn`: an effect in the place
- `Binding.Ready`: a change of a needed value is noticed

## Key results

- `Binding.shows_congr`: needed values that are leaves decide what is shown
- `Binding.exists_texts`: a binding that can be shown has a text for each path
- `Store.display_eq_of_agrees`: leaves that count as equal look alike
-/

namespace LiveBinding

variable {σ : Type}

open World

/-! ### Values that look alike -/

theorem Store.display_eq_of_isLeaf (s s' : Store) {v : Value} (h : v.isLeaf = true) :
    s'.display v = s.display v := by
  cases v <;> first | rfl | cases h

/-- The value whose text a lookup gives. -/
theorem Store.exists_of_display_eq_ok {s : Store} {p : KeyPath} {root : MappingId} {t : String}
    (h : (s.get p root).map s.display = .ok t) : ∃ v, s.get p root = .ok v ∧ s.display v = t := by
  cases hget : s.get p root with
  | error f =>
    rw [hget] at h
    cases h
  | ok v =>
    rw [hget] at h
    exact ⟨v, rfl, Except.ok.inj h⟩

theorem Value.eq_text_of_same {v : Value} {t : String} (h : v.same (.text t) = true) :
    v = .text t := by
  cases v with
  | text u => simpa [same] using h
  | _ => cases h

/-- The two zeros are written alike. -/
theorem Number.text_eq_of_equal {x y : Number} (h : x.equal y = true) :
    x.text Value.numberLayout = y.text Value.numberLayout := by
  rcases eq_or_zero_of_equal h with rfl | ⟨a, b, q, hx, hy, rfl, rfl⟩
  · rfl
  · simp [text, Value.numberLayout]

theorem Value.Agrees.isLeaf_eq {v w : Value} (h : v.Agrees w) : v.isLeaf = w.isLeaf := by
  rcases h with h | ⟨rfl, rfl⟩
  · cases v <;> cases w <;> first | rfl | cases h
  · rfl

/-- Leaves that count as equal look alike. -/
theorem Store.display_eq_of_agrees (s : Store) {v w : Value} (h : v.Agrees w)
    (hleaf : v.isLeaf = true) : s.display v = s.display w := by
  rcases h with h | ⟨rfl, rfl⟩
  · cases v with
    | null => cases w <;> first | rfl | cases h
    | boolean a =>
      cases w with
      | boolean b =>
        obtain rfl : a = b := by simpa [Value.same] using h
        rfl
      | _ => cases h
    | number x =>
      cases w with
      | number y => exact Number.text_eq_of_equal h
      | _ => cases h
    | text t =>
      cases w with
      | text u =>
        obtain rfl : t = u := by simpa [Value.same] using h
        rfl
      | _ => cases h
    | _ => cases hleaf
  · rfl

/-- A text with placeholders on a node, or the value of a path in a sink of a node. -/
inductive Binding where
  | text (template : Interpolation) (node : NodeRef) (root : MappingId)
  | value (sink : Sink) (node : NodeRef) (path : KeyPath) (root : MappingId)

namespace Binding

def sink : Binding → Sink
  | text .. => .text
  | value sink .. => sink

def node : Binding → NodeRef
  | text _ node _ => node
  | value _ node .. => node

def root : Binding → MappingId
  | text _ _ root => root
  | value _ _ _ root => root

/-- The paths whose values are shown. -/
def needs : Binding → List KeyPath
  | text template .. => template.placeholders
  | value _ _ path _ => [path]

/-- What should be shown. -/
def shows (b : Binding) (s : Store) : Except Fault String :=
  match b with
  | text template _ root =>
    Interpolation.render (fun p => (s.get p root).map s.display) template.segments
  | value _ _ path root => (s.get path root).map s.display

/-- The effect was constructed for the binding. -/
def Owns (b : Binding) (effect : Effect σ) : Prop :=
  match b with
  | text template node root =>
    effect.reaction = .render template node ∧ effect.path ∈ template.placeholders ∧
      effect.root = root
  | value sink node path root =>
    effect.reaction = .display sink node ∧ effect.path = path ∧ effect.root = root

instance (effect : Effect σ) (template : Interpolation) (node : NodeRef) :
    Decidable (effect.reaction = .render template node) :=
  match effect.reaction with
  | .run _ => isFalse nofun
  | .display .. => isFalse nofun
  | .render t m => decidable_of_iff (t = template ∧ m = node) (by simp)

instance (effect : Effect σ) (sink : Sink) (node : NodeRef) :
    Decidable (effect.reaction = .display sink node) :=
  match effect.reaction with
  | .run _ => isFalse nofun
  | .render .. => isFalse nofun
  | .display k m => decidable_of_iff (k = sink ∧ m = node) (by simp)

instance (b : Binding) (effect : Effect σ) : Decidable (b.Owns effect) :=
  match b with
  | text template node root =>
    inferInstanceAs (Decidable (effect.reaction = .render template node ∧
      effect.path ∈ template.placeholders ∧ effect.root = root))
  | value sink node path root =>
    inferInstanceAs (Decidable
      (effect.reaction = .display sink node ∧ effect.path = path ∧ effect.root = root))

/-! ### What a binding shows -/

/-- Every effect of a binding shows all of the binding. -/
theorem Owns.shown_eq {b : Binding} {effect : Effect σ} (h : b.Owns effect) (s : Store) :
    effect.shown s = b.shows s := by
  cases b with
  | text template node root =>
    obtain ⟨hreaction, -, hroot⟩ := h
    rw [Effect.shown, hreaction, hroot]
    rfl
  | value sink node path root =>
    obtain ⟨hreaction, hpath, hroot⟩ := h
    rw [Effect.shown, hreaction, hpath, hroot]
    rfl

theorem Owns.root_eq {b : Binding} {effect : Effect σ} (h : b.Owns effect) :
    effect.root = b.root := by
  cases b with
  | text => exact h.2.2
  | value => exact h.2.2

/-- An effect of a binding has one of the paths that the binding needs. -/
theorem Owns.path_mem {b : Binding} {effect : Effect σ} (h : b.Owns effect) :
    effect.path ∈ b.needs := by
  cases b with
  | text => exact h.2.1
  | value => exact List.mem_singleton.2 h.2.1

/-- Needed values that are leaves decide what is shown. -/
theorem shows_congr (b : Binding) {s s' : Store}
    (h : ∀ p ∈ b.needs, ∃ v, v.isLeaf = true ∧ s.get p b.root = .ok v ∧ s'.get p b.root = .ok v) :
    b.shows s' = b.shows s := by
  have hmap (p : KeyPath) (hp : ∃ v, v.isLeaf = true ∧ s.get p b.root = .ok v ∧
      s'.get p b.root = .ok v) :
      (s'.get p b.root).map s'.display = (s.get p b.root).map s.display := by
    obtain ⟨v, hleaf, hv, hv'⟩ := hp
    rw [hv, hv', Except.map, Except.map, s.display_eq_of_isLeaf s' hleaf]
  cases b with
  | text template node root =>
    refine Interpolation.render_congr fun p hp => hmap p ?_
    -- The path of a placeholder may be written in another way than the one that is needed.
    obtain ⟨q, hq, hsegments⟩ :=
      Interpolation.exists_mem_placeholders (Interpolation.mem_paths_iff.2 hp)
    obtain ⟨v, hleaf, hv, hv'⟩ := h q hq
    exact ⟨v, hleaf, Store.get_congr hsegments.symm hv, Store.get_congr hsegments.symm hv'⟩
  | value sink node path root => exact hmap path (h path (List.mem_cons_self ..))

/-- What a binding shows if its paths have these texts. -/
def fill (b : Binding) (texts : List String → String) : Except Fault String :=
  match b with
  | text template _ _ => Interpolation.render (fun p => .ok (texts p.segments)) template.segments
  | value _ _ path _ => .ok (texts path.segments)

/-- What should be shown is what the texts of the values give. -/
theorem shows_eq_fill {b : Binding} {s : Store} {texts : List String → String}
    (h : ∀ p ∈ b.needs, (s.get p b.root).map s.display = .ok (texts p.segments)) :
    b.shows s = b.fill texts := by
  cases b with
  | text template node root =>
    refine Interpolation.render_congr fun p hp => ?_
    obtain ⟨q, hq, hsegments⟩ :=
      Interpolation.exists_mem_placeholders (Interpolation.mem_paths_iff.2 hp)
    obtain ⟨v, hv, hdisplay⟩ := Store.exists_of_display_eq_ok (h q hq)
    have hv' : s.get p root = .ok v := Store.get_congr hsegments.symm hv
    rw [hv', Except.map, hdisplay, hsegments]
  | value sink node path root => exact h path (List.mem_cons_self ..)

/-- A binding that can be shown has a text for each path that it needs. -/
theorem exists_texts {b : Binding} {s : Store} {t : String} (h : b.shows s = .ok t) :
    ∃ texts : List String → String,
      ∀ p ∈ b.needs, (s.get p b.root).map s.display = .ok (texts p.segments) := by
  -- Every needed path resolves.
  have hget : ∀ p ∈ b.needs, ∃ v, s.get p b.root = .ok v := by
    intro p hp
    cases b with
    | text template node root =>
      have hplaceholder := Interpolation.mem_paths_iff.1 (Interpolation.mem_paths_of_mem hp)
      obtain ⟨u, hu⟩ := Interpolation.exists_of_render_eq_ok h hplaceholder
      obtain ⟨v, hv, -⟩ := Store.exists_of_display_eq_ok hu
      exact ⟨v, hv⟩
    | value sink node path root =>
      obtain rfl := List.mem_singleton.1 hp
      obtain ⟨v, hv, -⟩ := Store.exists_of_display_eq_ok h
      exact ⟨v, hv⟩
  -- Paths with the same segments resolve to the same value, so the segments give the text.
  refine ⟨fun segments =>
    ((s.walk ⟨""⟩ (.mapping b.root) segments).2.toOption.map s.display).getD "", fun p hp => ?_⟩
  obtain ⟨v, hv⟩ := hget p hp
  have hwalk : s.walk ⟨""⟩ (.mapping b.root) p.segments = (s.reads p b.root, .ok v) :=
    Store.walk_congr (Prod.ext rfl hv)
  dsimp only
  rw [hv, hwalk]
  rfl

/-- What a binding of a value shows is the text of the value. -/
theorem exists_of_shows_value {sink : Sink} {node : NodeRef} {path : KeyPath} {root : MappingId}
    {s : Store} {t : String} (h : (value sink node path root).shows s = .ok t) :
    ∃ v, s.get path root = .ok v ∧ s.display v = t :=
  Store.exists_of_display_eq_ok h

end Binding

/-! ### What effects watch -/

namespace Store

/-- The path of the effect leads to the value, through cells with which the effect is registered. -/
def Watches (s : Store) (e : EffectId) (effect : Effect σ) (v : Value) : Prop :=
  ∃ cells, s.Leads (.mapping effect.root) effect.path.segments cells v ∧
    ∀ c ∈ cells, e ∈ s.watchers c

variable {s : Store} {e : EffectId} {effect : Effect σ} {v : Value}

theorem Watches.get_eq (h : s.Watches e effect v) : s.get effect.path effect.root = .ok v := by
  obtain ⟨cells, hleads, -⟩ := h
  exact hleads.get_eq

/-- A path leads to one value. -/
theorem Watches.eq_of_get (h : s.Watches e effect v) {u : Value}
    (hget : s.get effect.path effect.root = .ok u) : v = u :=
  Except.ok.inj (h.get_eq.symm.trans hget)

/-- An assignment to the path changes a cell that the effect watches. -/
theorem Watches.placeOf_eq (h : s.Watches e effect v) : ∃ c, e ∈ s.watchers c ∧
    s.placeOf effect.path effect.root = .ok (.cell c) ∧ v = s.value c := by
  obtain ⟨cells, hleads, hwatch⟩ := h
  obtain ⟨c, hc, hplace, hv⟩ := hleads.placeOf_eq
  exact ⟨c, hwatch c hc, hplace, hv⟩

/-- The cells on the way are those that the path reads. -/
theorem watches_iff : s.Watches e effect v ↔
    s.get effect.path effect.root = .ok v ∧
      (s.reads effect.path effect.root).length = effect.path.segments.length ∧
        ∀ c ∈ s.reads effect.path effect.root, e ∈ s.watchers c := by
  constructor
  · rintro ⟨cells, hleads, hwatch⟩
    obtain ⟨hwalk, hlength⟩ := (leads_iff effect.path).1 hleads
    have hreads : s.reads effect.path effect.root = cells := by rw [reads, hwalk]
    rw [hreads]
    exact ⟨hleads.get_eq, hlength, hwatch⟩
  · rintro ⟨hget, hlength, hwatch⟩
    exact ⟨_, (leads_iff effect.path).2 ⟨Prod.ext rfl hget, hlength⟩, hwatch⟩

end Store

/-- An effect that is up to date has got the value that its path leads to. -/
theorem World.UpToDate.agrees {w : World σ} {e : EffectId} {effect : Effect σ} {v : Value}
    (h : w.UpToDate e) (he : w.effects[e]? = some effect) (hv : w.store.Watches e effect v) :
    effect.last.Agrees v := by
  obtain ⟨cells, hleads, hwatch⟩ := hv
  exact h effect cells v he hleads hwatch

/-! ### The effects in the place of a binding -/

namespace Binding

/-- The effect shows something in the place of the binding, and was constructed since a moment. -/
structure IsIn (b : Binding) (s : Moment) (effects : Array (Effect σ)) (e : EffectId)
    (effect : Effect σ) : Prop where
  size_le : s.size ≤ e
  effect_eq : effects[e]? = some effect
  place_eq : effect.place? = some (b.sink, b.node)

/-- Each path that the binding needs leads to a leaf, through cells with which an effect in the
place is registered that has this path. -/
def Ready (b : Binding) (s : Moment) (w : World σ) : Prop :=
  ∀ p ∈ b.needs, ∃ e effect v, b.IsIn s w.effects e effect ∧ effect.path = p ∧
    w.store.Watches e effect v ∧ v.isLeaf = true

variable {b : Binding} {s : Moment} {w w' : World σ}

/-- Effects in the place of the binding that were there before were in its place before. -/
theorem IsIn.of_later {e : EffectId} {effect : Effect σ} (h : b.IsIn s w'.effects e effect)
    (hl : Later w w') (he : e < w.effects.size) :
    ∃ m, b.IsIn s w.effects e { effect with memory := m } := by
  have hold := Array.getElem?_eq_getElem he
  obtain ⟨m, hm⟩ := hl.effects_eq e _ hold
  obtain rfl : effect = { w.effects[e] with memory := m } :=
    Option.some.inj (h.effect_eq.symm.trans hm)
  exact ⟨w.effects[e].memory, h.size_le, hold, h.place_eq⟩

/-- Effects stay in the place of the binding. -/
theorem IsIn.later {e : EffectId} {effect : Effect σ} (h : b.IsIn s w.effects e effect)
    (hl : Later w w') : ∃ m, b.IsIn s w'.effects e { effect with memory := m } := by
  obtain ⟨m, hm⟩ := hl.effects_eq e effect h.effect_eq
  exact ⟨m, h.size_le, hm, h.place_eq⟩

theorem IsIn.lt_size {effects : Array (Effect σ)} {e : EffectId} {effect : Effect σ}
    (h : b.IsIn s effects e effect) : e < effects.size :=
  (Array.getElem?_eq_some_iff.1 h.effect_eq).1

/-- An effect in a place has one record. -/
theorem IsIn.eq_of_effect {effects : Array (Effect σ)} {e : EffectId} {effect record : Effect σ}
    (h : b.IsIn s effects e effect) (he : effects[e]? = some record) : effect = record :=
  Option.some.inj (h.effect_eq.symm.trans he)

/-- There is a last effect in the place of the binding, if there is one. -/
theorem exists_last {e : EffectId} {effect : Effect σ} (h : b.IsIn s w.effects e effect) :
    ∃ f last, e ≤ f ∧ b.IsIn s w.effects f last ∧
      ∀ e' effect', f < e' → ¬ b.IsIn s w.effects e' effect' := by
  -- By induction on the number of effects that come after it.
  induction hk : w.effects.size - e using Nat.strongRecOn generalizing e effect with
  | ind k ih =>
    by_cases hmore : ∃ e' effect', e < e' ∧ b.IsIn s w.effects e' effect'
    · obtain ⟨e', effect', hlt, hin⟩ := hmore
      have hless : w.effects.size - e' < k := hk ▸ Nat.sub_lt_sub_left h.lt_size hlt
      obtain ⟨f, last, hle, hf⟩ := ih _ hless hin rfl
      exact ⟨f, last, Nat.le_trans (Nat.le_of_lt hlt) hle, hf⟩
    · exact ⟨e, effect, Nat.le_refl e, h, fun e' effect' hlt hin => hmore ⟨e', effect', hlt, hin⟩⟩

/-! ### Deciding -/

theorem ready_iff : b.Ready s w ↔ ∀ p ∈ b.needs, ∃ e, e < w.effects.size ∧
    ∃ effect ∈ w.effects[e]?, (s.size ≤ e ∧ effect.place? = some (b.sink, b.node)) ∧
      effect.path = p ∧
        ((w.store.reads effect.path effect.root).length = effect.path.segments.length ∧
          ∀ c ∈ w.store.reads effect.path effect.root, e ∈ w.store.watchers c) ∧
            ∃ v ∈ (w.store.get effect.path effect.root).toOption, v.isLeaf = true := by
  refine forall₂_congr fun p _ => ⟨?_, ?_⟩
  · rintro ⟨e, effect, v, hin, hpath, hwatch, hleaf⟩
    obtain ⟨hget, hcells⟩ := Store.watches_iff.1 hwatch
    refine ⟨e, hin.lt_size, effect, hin.effect_eq, ⟨hin.size_le, hin.place_eq⟩, hpath, hcells, v,
      ?_, hleaf⟩
    rw [hget]
    rfl
  · rintro ⟨e, -, effect, he, ⟨hle, hplace⟩, hpath, hcells, v, hv, hleaf⟩
    have hget : w.store.get effect.path effect.root = .ok v := by
      cases hget : w.store.get effect.path effect.root with
      | error f =>
        rw [hget] at hv
        cases hv
      | ok u =>
        rw [hget] at hv
        exact congrArg Except.ok (Option.some.inj hv)
    exact ⟨e, effect, v, ⟨hle, he, hplace⟩, hpath, Store.watches_iff.2 ⟨hget, hcells⟩, hleaf⟩

instance : Decidable (b.Ready s w) := decidable_of_iff _ ready_iff.symm

end Binding

/-! ### Reading the view -/

namespace World.Displays

variable {w : World σ} {node : NodeRef} {s : String}

theorem text_eq (h : w.Displays .text node s)
    (hsort : (w.document node.document).sort node.node = .text) :
    (w.document node.document).text node.node = s := by
  obtain ⟨d, c, hd, hc, hshow⟩ := h
  obtain ⟨d', u, hd', hu⟩ := Setting.isText_of_sort_eq_text hsort
  obtain rfl : d' = d := Option.some.inj (hd'.symm.trans hd)
  obtain rfl : .text u = c := Option.some.inj (hu.symm.trans hc)
  rw [World.document, hd, Option.getD_some, Document.text_of_content? hu, hshow u rfl]

theorem attribute_eq {name : String} (h : w.Displays (.attr name) node s) :
    ((w.document node.document).attributes node.node).get? name = some s := by
  obtain ⟨d, c, hd, hc, el, rfl, hvalue⟩ := h
  rw [World.document, hd, Option.getD_some, Document.attributes,
    Document.element?_eq_some_iff.2 hc]
  exact hvalue

theorem inputValue_eq (h : w.Displays .input node s) :
    (w.document node.document).inputValue node.node = s := by
  obtain ⟨d, c, hd, hc, el, rfl, hinput⟩ := h
  rw [World.document, hd, Option.getD_some, Document.inputValue,
    Document.element?_eq_some_iff.2 hc]
  simp only [hinput]
  rfl

end World.Displays

end LiveBinding
