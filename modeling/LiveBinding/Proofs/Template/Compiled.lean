import LiveBinding.Compile
import LiveBinding.Proofs.Document.Depicts
import LiveBinding.Proofs.Store.Growth

/-!
# What a template becomes

A template is markup, and so is what a compilation makes of it. Each directive of an element shows
a text in one place of the element, or adds a listener; both are its binding. The bindings of an
element say which attributes it keeps, and what is compiled below it.

`Setting.Compiled` relates a template to the markup that it becomes, and `Setting.Fails` relates it
to the fault that ends its compilation: the first one on a walk that comes to an element before the
nodes below it, and takes its directives in the order of its attributes.

## Key definitions

- `Directive.isMarked`: names of attributes that are directives
- `Setting.binding`, `Setting.bindings`: what the directives of an element do
- `Setting.Compiled`, `Setting.Fails`: how a compilation ends
- `Setting.Meets`: the elements that it comes to

## Key results

- `Directive.parse?_eq_none_iff`: plain attributes are those without a mark
- `Setting.Compiled.exists_bindings`: where the attributes of a compiled element come from
- `Setting.Fails.unique`: there is one first fault
-/

namespace LiveBinding

variable {σ : Type}

/-! ### Attribute names -/

/-- Whether an attribute name starts with one of the marks `v-`, `:` and `@`. -/
def Directive.isMarked (name : String) : Bool :=
  match name.toList with
  | '@' :: _ | ':' :: _ | 'v' :: '-' :: _ => true
  | _ => false

/-- Plain attributes are those without a mark. -/
theorem Directive.parse?_eq_none_iff (name : String) :
    parse? name = .ok none ↔ isMarked name = false := by
  have hmap (r : Except Fault Directive) : r.map some ≠ .ok none := by
    cases r <;> simp [Except.map]
  unfold parse? isMarked
  generalize name.toList = cs
  split
  next => simp [hmap]
  next => simp [hmap]
  next => simp [hmap]
  next => simp

/-- The plain attributes of an element, in order. -/
def Fields.plain (fs : Fields String) : Fields String := fs.filter fun f => !Directive.isMarked f.1

/-! ### Bindings -/

/-- The fault of a result. -/
def faultOf? {α : Type} : Except Fault α → Option Fault
  | .error f => some f
  | .ok _ => none

namespace Store

/-- The text that is shown for a path. -/
def shown (s : Store) (model : MappingId) (expression : String) : Except Fault String :=
  (s.get ⟨expression⟩ model).map s.display

/-- A text with its placeholders filled in, or, if it has none, the text that is shown for it as a
path. The first placeholder that does not resolve is the fault. -/
def filled (s : Store) (model : MappingId) (content : String) : Except Fault String :=
  let template := Interpolation.parse content
  if template.hasPlaceholders then
    match template.placeholders.findSome? fun p => faultOf? (s.get p model) with
    | some f => .error f
    | none => Interpolation.render (fun p => (s.get p model).map s.display) template.segments
  else s.shown model content

variable {s s' : Store} {model : MappingId}

theorem SameData.shown_eq (h : SameData s s') (expression : String) :
    s'.shown model expression = s.shown model expression := by
  rw [shown, shown, h.get_eq, funext h.display_eq]

theorem SameData.filled_eq (h : SameData s s') (content : String) :
    s'.filled model content = s.filled model content := by
  simp only [filled, h.get_eq, h.shown_eq, funext h.display_eq]

end Store

/-- What a directive does: it shows a text on a part of its element, or adds a listener for an
event, or both. -/
structure ElementBinding (σ : Type) where
  shown : Option (Sink × String)
  listener : Option (String × Listener σ)

namespace ElementBinding

/-- What is below an element after a binding. -/
def refill (children : List Markup) (b : ElementBinding σ) : List Markup :=
  match b.shown with
  | some (.text, s) => Markup.ofText s
  | some (.markup, s) => Markup.parse s
  | _ => children

/-- The attributes of an element after a binding. -/
def put (attributes : Fields String) (b : ElementBinding σ) : Fields String :=
  match b.shown with
  | some (.attr name, s) => attributes.put name s
  | _ => attributes

/-- A binding replaces what is below its element. -/
def fills (b : ElementBinding σ) : Prop :=
  match b.shown with
  | some (.text, _) | some (.markup, _) => True
  | _ => False

end ElementBinding

/-- Among the attributes of an element is a directive that replaces what is below it. -/
def Fields.fills (as : Fields String) : Prop :=
  ∃ a ∈ as, Directive.parse? a.1 = .ok (some .text) ∨ Directive.parse? a.1 = .ok (some .html)

instance (as : Fields String) : Decidable as.fills :=
  inferInstanceAs (Decidable (∃ a ∈ as,
    Directive.parse? a.1 = .ok (some .text) ∨ Directive.parse? a.1 = .ok (some .html)))

/-- The directives among the attributes of an element bind plain attributes only. -/
def Fields.BindsPlain (as : Fields String) : Prop :=
  ∀ a ∈ as, ∀ name, Directive.parse? a.1 = .ok (some (.bind name)) →
    Directive.isMarked name = false

instance (as : Fields String) : Decidable as.BindsPlain :=
  decidable_of_iff (∀ a ∈ as, (match Directive.parse? a.1 with
    | .ok (some (.bind name)) => Directive.isMarked name
    | _ => false) = false) <| by
    refine forall₂_congr fun a _ => ?_
    split
    · rename_i target hparse
      rw [hparse]
      constructor
      · rintro h name ⟨⟩
        exact h
      · exact fun h => h target rfl
    · rename_i hother
      exact ⟨fun _ name hparse => (hother name hparse).elim, fun _ => rfl⟩

namespace Setting

/-- The binding of a directive. -/
def binding (t : Setting σ) (s : Store) (expression : String) :
    Directive → Except Fault (ElementBinding σ)
  | .text => (s.filled t.model expression).map fun x => ⟨some (.text, x), none⟩
  | .html => (s.shown t.model expression).map fun x => ⟨some (.markup, x), none⟩
  | .model => (s.shown t.model expression).map fun x =>
    ⟨some (.input, x), some ("input", .writeBack ⟨expression⟩ t.model)⟩
  | .bind name => (s.shown t.model expression).map fun x => ⟨some (.attr name, x), none⟩
  | .on event => (t.methods.resolve expression).map fun l => ⟨none, some (event, l)⟩

/-- The binding of an attribute, if it is a directive. -/
def binding? (t : Setting σ) (s : Store) (a : String × String) :
    Except Fault (Option (ElementBinding σ)) :=
  match Directive.parse? a.1 with
  | .error f => .error f
  | .ok none => .ok none
  | .ok (some directive) => (t.binding s a.2 directive).map some

/-- The bindings of the attributes of an element, in order; the first fault ends them. -/
def bindings (t : Setting σ) (s : Store) : Fields String → Except Fault (List (ElementBinding σ))
  | [] => .ok []
  | a :: as => do
    let b ← t.binding? s a
    let bs ← t.bindings s as
    return b.toList ++ bs

/-- What a text of a template says when it is compiled. -/
def textOf (t : Setting σ) (s : Store) (content : String) : Except Fault String :=
  if containsPlaceholder content.toList then s.filled t.model content else .ok content

section

variable {t : Setting σ} {s s' : Store} {as as' : Fields String} {a : String × String}
  {b : ElementBinding σ}

theorem binding?_congr (h : s.SameData s') (a : String × String) :
    t.binding? s' a = t.binding? s a := by
  rw [binding?, binding?]
  split
  · rfl
  · rfl
  · rename_i directive _
    cases directive <;> simp only [binding, h.shown_eq, h.filled_eq]

theorem textOf_congr (h : s.SameData s') (content : String) :
    t.textOf s' content = t.textOf s content := by
  rw [textOf, textOf, h.filled_eq]

theorem bindings_append (t : Setting σ) (s : Store) (as as' : Fields String) :
    t.bindings s (as ++ as') = (t.bindings s as).bind fun bs =>
      (t.bindings s as').map fun bs' => bs ++ bs' := by
  induction as with
  | nil =>
    rw [List.nil_append, bindings, Except.bind]
    cases t.bindings s as' <;> rfl
  | cons a as ih =>
    rw [List.cons_append, bindings, bindings, ih]
    cases t.binding? s a with
    | error f => rfl
    | ok b? =>
      cases t.bindings s as with
      | error f => rfl
      | ok bs =>
        cases t.bindings s as' with
        | error f => rfl
        | ok bs' => exact congrArg Except.ok (List.append_assoc ..).symm

/-- A binding of an attribute is that of its directive. -/
theorem exists_directive (h : t.binding? s a = .ok (some b)) :
    ∃ directive, Directive.parse? a.1 = .ok (some directive) ∧
      t.binding s a.2 directive = .ok b := by
  rw [binding?] at h
  split at h
  · cases h
  · cases h
  · rename_i directive hparse
    refine ⟨directive, hparse, ?_⟩
    cases hb : t.binding s a.2 directive with
    | error f =>
      rw [hb] at h
      cases h
    | ok b' =>
      rw [hb] at h
      rw [Option.some.inj (Except.ok.inj h)]

/-- An attribute without a binding is plain. -/
theorem isMarked_of_binding? (h : t.binding? s a = .ok none) :
    Directive.isMarked a.1 = false := by
  rw [← Directive.parse?_eq_none_iff]
  rw [binding?] at h
  split at h
  · cases h
  · assumption
  · cases hb : t.binding s a.2 _ <;> rw [hb] at h <;> cases h

/-- What the binding of a directive shows. -/
theorem shown_of_binding {expression : String} {directive : Directive}
    (h : t.binding s expression directive = .ok b) :
    match directive with
    | .text => ∃ x, b.shown = some (.text, x)
    | .html => ∃ x, b.shown = some (.markup, x)
    | .model => ∃ x, b.shown = some (.input, x)
    | .bind name => ∃ x, b.shown = some (.attr name, x)
    | .on _ => b.shown = none := by
  have hmap {γ : Type} {e : Except Fault γ} {f : γ → ElementBinding σ} (h : e.map f = .ok b) :
      ∃ x, b = f x := by
    cases e with
    | error f => cases h
    | ok x => exact ⟨x, (Except.ok.inj h).symm⟩
  cases directive with
  | on event =>
    obtain ⟨l, rfl⟩ := hmap h
    rfl
  | _ =>
    obtain ⟨x, rfl⟩ := hmap h
    exact ⟨x, rfl⟩

/-- Only `v-text` and `v-html` replace what is below their element. -/
theorem fills_of_binding? (h : t.binding? s a = .ok (some b)) (hb : b.fills) :
    Fields.fills [a] := by
  obtain ⟨directive, hparse, h⟩ := exists_directive h
  have hshown := shown_of_binding h
  refine ⟨a, List.mem_singleton_self a, ?_⟩
  rw [ElementBinding.fills] at hb
  cases directive with
  | text => exact .inl hparse
  | html => exact .inr hparse
  | on event =>
    dsimp only at hshown
    rw [hshown] at hb
    exact hb.elim
  | _ =>
    obtain ⟨x, hshown⟩ := hshown
    rw [hshown] at hb
    exact hb.elim

/-- A binding of a plain attribute has a plain name. -/
theorem isMarked_of_shown {name x : String} (h : t.binding? s a = .ok (some b))
    (hplain : Fields.BindsPlain [a]) (hb : b.shown = some (.attr name, x)) :
    Directive.isMarked name = false := by
  obtain ⟨directive, hparse, h⟩ := exists_directive h
  have hshown := shown_of_binding h
  cases directive with
  | bind target =>
    obtain ⟨y, hshown⟩ := hshown
    rw [hb] at hshown
    obtain rfl : name = target := by simpa using congrArg (Option.map Prod.fst) hshown
    exact hplain a (List.mem_singleton_self a) name hparse
  | on event => exact nomatch hb.symm.trans hshown
  | _ =>
    obtain ⟨y, hshown⟩ := hshown
    rw [hb] at hshown
    cases hshown

/-- The bindings of plain attributes have plain names. -/
theorem isMarked_of_bindings {bs : List (ElementBinding σ)} (h : t.bindings s as = .ok bs)
    (hplain : as.BindsPlain) : ∀ b ∈ bs, ∀ name x, b.shown = some (.attr name, x) →
      Directive.isMarked name = false := by
  induction as generalizing bs with
  | nil =>
    obtain rfl := Except.ok.inj h
    exact nofun
  | cons a as ih =>
    rw [bindings] at h
    cases ha : t.binding? s a with
    | error f =>
      rw [ha] at h
      cases h
    | ok b? =>
      cases has : t.bindings s as with
      | error f =>
        rw [ha, has] at h
        cases h
      | ok bs' =>
        rw [ha, has] at h
        obtain rfl := (Except.ok.inj h).symm
        intro b hb name x hshown
        rcases List.mem_append.1 hb with hb | hb
        · obtain rfl := Option.mem_toList.1 hb
          refine isMarked_of_shown ha (fun a' ha' => hplain a' ?_) hshown
          exact List.mem_singleton.1 ha' ▸ List.mem_cons_self ..
        · exact ih has (fun a' ha' => hplain a' (List.mem_cons_of_mem _ ha')) b hb name x hshown

end

/-! ### Compiled templates -/

/-- What the nodes of a template become. -/
inductive Compiled (t : Setting σ) (s : Store) : List Markup → List Markup → Prop
  | nil : Compiled t s [] []
  | comment {c : String} {ms ms' : List Markup} (rest : Compiled t s ms ms') :
      Compiled t s (.comment c :: ms) (.comment c :: ms')
  | text {content shown : String} {ms ms' : List Markup} (h : t.textOf s content = .ok shown)
      (rest : Compiled t s ms ms') : Compiled t s (.text content :: ms) (.text shown :: ms')
  | element {tag : String} {as : Fields String} {bs : List (ElementBinding σ)}
      {children inner ms ms' : List Markup} (h : t.bindings s as = .ok bs)
      (inside : Compiled t s (bs.foldl ElementBinding.refill children) inner)
      (rest : Compiled t s ms ms') :
      Compiled t s (.element tag as children :: ms)
        (.element tag (bs.foldl ElementBinding.put as.plain) inner :: ms')

/-- The fault of the nodes of a template. -/
inductive Fails (t : Setting σ) (s : Store) : List Markup → Fault → Prop
  | text {content : String} {f : Fault} {ms : List Markup} (h : t.textOf s content = .error f) :
      Fails t s (.text content :: ms) f
  | attributes {tag : String} {as : Fields String} {f : Fault} {children ms : List Markup}
      (h : t.bindings s as = .error f) : Fails t s (.element tag as children :: ms) f
  | afterComment {c : String} {f : Fault} {ms : List Markup} (rest : Fails t s ms f) :
      Fails t s (.comment c :: ms) f
  | afterText {content shown : String} {f : Fault} {ms : List Markup}
      (h : t.textOf s content = .ok shown) (rest : Fails t s ms f) :
      Fails t s (.text content :: ms) f
  | afterAttributes {tag : String} {as : Fields String} {bs : List (ElementBinding σ)} {f : Fault}
      {children ms : List Markup} (h : t.bindings s as = .ok bs)
      (rest : Fails t s (bs.foldl ElementBinding.refill children ++ ms) f) :
      Fails t s (.element tag as children :: ms) f

/-- The compilation of a template comes to an element with these attributes. -/
inductive Meets (t : Setting σ) (s : Store) : List Markup → Fields String → Prop
  | here {tag : String} {as : Fields String} {children ms : List Markup} :
      Meets t s (.element tag as children :: ms) as
  | inside {tag : String} {as as' : Fields String} {bs : List (ElementBinding σ)}
      {children ms : List Markup} (h : t.bindings s as = .ok bs)
      (h' : Meets t s (bs.foldl ElementBinding.refill children) as') :
      Meets t s (.element tag as children :: ms) as'
  | later {m : Markup} {ms : List Markup} {as : Fields String} (h : Meets t s ms as) :
      Meets t s (m :: ms) as

variable {t : Setting σ} {s s' : Store} {ms ms' ms₁ ms₂ : List Markup} {as : Fields String}
  {f f' : Fault}

/-- A compilation comes to the elements of both parts of a template. -/
theorem meets_append_iff : t.Meets s (ms₁ ++ ms₂) as ↔ t.Meets s ms₁ as ∨ t.Meets s ms₂ as := by
  induction ms₁ with
  | nil => exact ⟨.inr, fun h => h.resolve_left nofun⟩
  | cons m ms₁ ih =>
    constructor
    · intro h
      cases h with
      | here => exact .inl .here
      | inside h h' => exact .inl (.inside h h')
      | later h => exact (ih.1 h).imp_left .later
    · rintro (h | h)
      · cases h with
        | here => exact .here
        | inside h h' => exact .inside h h'
        | later h => exact .later (ih.2 (.inl h))
      · exact .later (ih.2 (.inr h))

theorem Compiled.append {ms₁' ms₂' : List Markup} (h : t.Compiled s ms₁ ms₁')
    (h' : t.Compiled s ms₂ ms₂') : t.Compiled s (ms₁ ++ ms₂) (ms₁' ++ ms₂') := by
  induction h with
  | nil => exact h'
  | comment _ ih => exact .comment ih
  | text h _ ih => exact .text h ih
  | element h inside _ _ ih => exact .element h inside ih

/-- The parts of a template become the parts of what it becomes. -/
theorem Compiled.exists_append (h : t.Compiled s (ms₁ ++ ms₂) ms') :
    ∃ ms₁' ms₂', ms' = ms₁' ++ ms₂' ∧ t.Compiled s ms₁ ms₁' ∧ t.Compiled s ms₂ ms₂' := by
  induction ms₁ generalizing ms' with
  | nil => exact ⟨[], ms', rfl, .nil, h⟩
  | cons m ms₁ ih =>
    cases h with
    | comment rest =>
      obtain ⟨ms₁', ms₂', rfl, h₁, h₂⟩ := ih rest
      exact ⟨_ :: ms₁', ms₂', rfl, .comment h₁, h₂⟩
    | text h rest =>
      obtain ⟨ms₁', ms₂', rfl, h₁, h₂⟩ := ih rest
      exact ⟨_ :: ms₁', ms₂', rfl, .text h h₁, h₂⟩
    | element h inside rest =>
      obtain ⟨ms₁', ms₂', rfl, h₁, h₂⟩ := ih rest
      exact ⟨_ :: ms₁', ms₂', rfl, .element h inside h₁, h₂⟩

theorem Compiled.length_eq (h : t.Compiled s ms ms') : ms'.length = ms.length := by
  induction h with
  | nil => rfl
  | comment _ ih => rw [List.length_cons, ih, List.length_cons]
  | text _ _ ih => rw [List.length_cons, ih, List.length_cons]
  | element _ _ _ _ ih => rw [List.length_cons, ih, List.length_cons]

/-- A compiled element has the plain attributes of an element that the compilation came to, and
those that its directives bind. -/
theorem Compiled.exists_bindings (h : t.Compiled s ms ms') {as' : Fields String}
    (has' : as' ∈ Markup.elementsAll ms') : ∃ as bs, t.Meets s ms as ∧
      t.bindings s as = .ok bs ∧ as' = bs.foldl ElementBinding.put as.plain := by
  induction h with
  | nil => cases has'
  | comment _ ih =>
    obtain ⟨as, bs, hmeets, h⟩ := ih has'
    exact ⟨as, bs, .later hmeets, h⟩
  | text _ _ ih =>
    obtain ⟨as, bs, hmeets, h⟩ := ih has'
    exact ⟨as, bs, .later hmeets, h⟩
  | element h _ _ ihinside ih =>
    simp only [Markup.elementsAll, Markup.elements, List.cons_append, List.mem_cons,
      List.mem_append] at has'
    rcases has' with rfl | has' | has'
    · exact ⟨_, _, .here, h, rfl⟩
    · obtain ⟨as, bs, hmeets, h'⟩ := ihinside has'
      exact ⟨as, bs, .inside h hmeets, h'⟩
    · obtain ⟨as, bs, hmeets, h'⟩ := ih has'
      exact ⟨as, bs, .later hmeets, h'⟩

/-- There is one first fault. -/
theorem Fails.unique (h : t.Fails s ms f) (h' : t.Fails s ms f') : f = f' := by
  have herror {α : Type} {r : Except Fault α} {f f' : Fault} (h : r = .error f)
      (h' : r = .error f') : f = f' := Except.error.inj (h.symm.trans h')
  have hne {α : Type} {r : Except Fault α} {f : Fault} {a : α} (h : r = .error f)
      (h' : r = .ok a) : False := nomatch h.symm.trans h'
  -- Both derivations follow the same walk, so up to the fault they agree in every step.
  induction h with
  | text h =>
    cases h' with
    | text h' => exact herror h h'
    | afterText h' _ => exact (hne h h').elim
  | attributes h =>
    cases h' with
    | attributes h' => exact herror h h'
    | afterAttributes h' _ => exact (hne h h').elim
  | afterComment _ ih =>
    cases h' with
    | afterComment rest => exact ih rest
  | afterText h _ ih =>
    cases h' with
    | text h' => exact (hne h' h).elim
    | afterText _ rest => exact ih rest
  | afterAttributes h _ ih =>
    cases h' with
    | attributes h' => exact (hne h' h).elim
    | afterAttributes h' rest =>
      obtain rfl := Except.ok.inj (h.symm.trans h')
      exact ih rest

end Setting

end LiveBinding
