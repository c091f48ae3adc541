import LiveBinding.Compile
import LiveBinding.Proofs.Document.Trees
import LiveBinding.Proofs.Store.Growth
import Mathlib.Data.List.TakeWhile

/-!
# Texts that show texts

The markup of a text can have elements that show further texts as markup. A text that has elements
is the text of a cell: a missing value shows nothing, and the length of a sequence shows digits. So
unless a text shows itself again, a chain of texts is at most as long as there are cells.

## Key definitions

- `markupOf?`: the expression whose markup is below an element at the end
- `Store.ShowsInside`: the markup of a text shows another text
- `Store.Nests`: a number of rounds is enough for the nodes of a text

## Key results

- `Store.mem_texts_of_shows`: a text with elements is the text of a cell
- `Store.nests_of_acyclic`: one round more than there are cells is enough
-/

namespace LiveBinding

open Relation

/-! ### What decides about the nodes below an element -/

/-- One more attribute: the expression of a directive that puts markup below the element counts
until another directive replaces what is below. -/
def fill (last : Option String) (a : String × String) : Option String :=
  match Directive.parse? a.1 with
  | .ok (some .html) => some a.2
  | .ok (some .text) => none
  | _ => last

/-- The expression whose markup the directives of an element leave below it, if they leave any. -/
def markupOf? (attributes : Fields String) : Option String := attributes.foldl fill none

theorem markupOf?_concat (attributes : Fields String) (a : String × String) :
    markupOf? (attributes ++ [a]) = fill (markupOf? attributes) a := by
  simp [markupOf?]

/-! ### Texts without markup -/

namespace Markup

/-- A text without `<` is one token. -/
theorem scan_of_not_mem {c : Char} {cs : List Char} (h : '<' ∉ c :: cs) :
    Token.scan (c :: cs) = [.text (String.ofList (c :: cs))] := by
  simp only [List.mem_cons, not_or] at h
  have hall : ∀ x ∈ cs, (x != '<') = true := by
    intro x hx
    have hne : x ≠ '<' := fun he => h.2 (he ▸ hx)
    simpa using hne
  have hnext : Token.next c cs = (.text (String.ofList (c :: cs)), []) := by
    have hrun : Token.next c cs = Token.textRun c cs := by
      unfold Token.next
      split
      · exact absurd rfl h.1
      · exact absurd rfl h.1
      · exact absurd rfl h.1
      · rfl
    rw [hrun, Token.textRun, List.takeWhile_eq_self_iff.2 hall, List.dropWhile_eq_nil_iff.2 hall]
  rw [Token.scan, hnext, Token.scan]

/-- A text without `<` has no elements. -/
theorem elementsAll_parse_of_not_mem {text : String} (h : '<' ∉ text.toList) :
    elementsAll (parse text) = [] := by
  rw [parse]
  cases hcs : text.toList with
  | nil =>
    rw [Token.scan]
    rfl
  | cons c cs =>
    rw [hcs] at h
    rw [scan_of_not_mem h]
    rfl

end Markup

/-- The digits of a number are no markup. -/
theorem lt_not_mem_toDigits (n : Nat) : '<' ∉ Nat.toDigits 10 n := by
  intro h
  have hdigit := Nat.isDigit_of_mem_toDigits (by decide) (by decide) h
  exact absurd hdigit (by decide)

theorem Layout.lt_not_mem_decimal (l : Layout) (d : Decimal) : '<' ∉ l.decimal d := by
  have hdigits : '<' ∉ d.digitChars := lt_not_mem_toDigits d.digits
  have hexponent : '<' ∉ Nat.toDigits 10 d.leading.natAbs := lt_not_mem_toDigits _
  unfold Layout.decimal
  split
  · unfold Layout.positional
    dsimp only
    split
    · cases l.pointZero <;> simp [hdigits]
    · split
      · have htake : '<' ∉ d.digitChars.take (d.digitChars.length - (-d.exponent).toNat) :=
          fun h => hdigits (List.mem_of_mem_take h)
        have hdrop : '<' ∉ d.digitChars.drop (d.digitChars.length - (-d.exponent).toNat) :=
          fun h => hdigits (List.mem_of_mem_drop h)
        simp [htake, hdrop]
      · simp [hdigits]
  · unfold Layout.scientific
    dsimp only
    have hsign : '<' ∉ (if d.leading < 0 then ['-'] else if l.plus then ['+'] else []) := by
      split
      · simp
      · split <;> simp
    simp only [List.mem_append, List.mem_cons, not_or]
    refine ⟨⟨?_, by decide, hsign⟩, hexponent⟩
    -- The point stands behind the first digit, if there are others.
    split
    · rename_i heq
      rw [heq] at hdigits
      simpa using hdigits
    · exact hdigits

/-- The text of a number is no markup. -/
theorem Number.lt_not_mem_text (x : Number) : '<' ∉ (x.text Value.numberLayout).toList := by
  cases x with
  | nan => decide
  | infinite negative => cases negative <;> decide
  | finite negative m q hm =>
    have hdecimal := Layout.lt_not_mem_decimal Value.numberLayout
      (shortestDecimal Value.numberLayout.tie m q)
    simp only [Number.text, String.toList_ofList]
    split <;> split <;> simp_all [Value.numberLayout]

namespace Store

variable {s s' : Store} {model : MappingId}

/-! ### The texts of a store -/

/-- The texts of the cells. -/
def texts (s : Store) : List String := (List.range s.cells.size).map fun c => s.display (s.value c)

/-- An element with these attributes shows a text as markup. -/
def Shows (s : Store) (model : MappingId) (attributes : Fields String) (text : String) : Prop :=
  ∃ expression, markupOf? attributes = some expression ∧
    (s.get ⟨expression⟩ model).map s.display = .ok text

theorem Shows.unique {s : Store} {model : MappingId} {attributes : Fields String}
    {text text' : String} (h : s.Shows model attributes text)
    (h' : s.Shows model attributes text') : text = text' := by
  obtain ⟨expression, hexpression, htext⟩ := h
  obtain ⟨expression', hexpression', htext'⟩ := h'
  obtain rfl := Option.some.inj (hexpression.symm.trans hexpression')
  exact Except.ok.inj (htext.symm.trans htext')

/-- The markup of a text has an element that shows another text. -/
def ShowsInside (s : Store) (model : MappingId) (text next : String) : Prop :=
  ∃ attributes ∈ Markup.elementsAll (Markup.parse text), s.Shows model attributes next

theorem SameData.shows_iff (h : SameData s s') {attributes : Fields String} {text : String} :
    s'.Shows model attributes text ↔ s.Shows model attributes text := by
  have hdisplay : s'.display = s.display := funext h.display_eq
  simp only [Shows, h.get_eq, hdisplay]

/-- What a step gives that reads no cell is missing, or a number. -/
theorem step?_cases {v w : Value} {segment : String} {c : Option CellId}
    (h : s.step? v segment = some (c, w)) :
    (∃ c', w = s.value c') ∨ w = .null ∨ ∃ x, w = .number x := by
  cases v with
  | mapping m =>
    simp only [step?] at h
    split at h
    · obtain ⟨⟩ := h
      exact .inl ⟨_, rfl⟩
    · obtain ⟨⟩ := h
      exact .inr (.inl rfl)
  | sequence q =>
    simp only [step?] at h
    split at h
    · split at h
      · obtain ⟨⟩ := h
        exact .inl ⟨_, rfl⟩
      · obtain ⟨⟩ := h
        exact .inr (.inl rfl)
    · split at h
      · obtain ⟨⟩ := h
        exact .inr (.inr ⟨_, rfl⟩)
      · obtain ⟨⟩ := h
        exact .inr (.inl rfl)
  | _ => cases h

/-- A path with a segment resolves to the value of a cell, to nothing, or to a number. -/
theorem walk_cases {path : KeyPath} {v w : Value} {segment : String} {segments : List String}
    (h : (s.walk path v (segment :: segments)).2 = .ok w) :
    (∃ c, w = s.value c) ∨ w = .null ∨ ∃ x, w = .number x := by
  induction segments generalizing v segment with
  | nil =>
    rw [walk] at h
    cases hstep : s.step? v segment with
    | none =>
      rw [hstep] at h
      cases h
    | some found =>
      rw [hstep] at h
      obtain ⟨⟩ := h
      exact step?_cases hstep
  | cons next segments ih =>
    rw [walk] at h
    cases hstep : s.step? v segment with
    | none =>
      rw [hstep] at h
      cases h
    | some found =>
      rw [hstep] at h
      exact ih h

/-- A text with elements that is shown is the text of a cell. -/
theorem mem_texts_of_shows {attributes : Fields String} {text : String}
    (h : s.Shows model attributes text)
    (helements : Markup.elementsAll (Markup.parse text) ≠ []) : text ∈ s.texts := by
  obtain ⟨expression, -, htext⟩ := h
  have hplain (hnot : '<' ∉ text.toList) : text ∈ s.texts :=
    absurd (Markup.elementsAll_parse_of_not_mem hnot) helements
  cases hget : s.get ⟨expression⟩ model with
  | error f =>
    rw [hget] at htext
    cases htext
  | ok v =>
    rw [hget] at htext
    obtain rfl : s.display v = text := Except.ok.inj htext
    obtain ⟨segment, segments, hsegments⟩ :=
      List.exists_cons_of_ne_nil (KeyPath.segments_ne_nil ⟨expression⟩)
    rw [get, hsegments] at hget
    have hempty : '<' ∉ (s.display .null).toList := List.not_mem_nil
    rcases walk_cases hget with ⟨c, rfl⟩ | rfl | ⟨x, rfl⟩
    · by_cases hc : c < s.cells.size
      · exact List.mem_map_of_mem (List.mem_range.2 hc)
      · -- A cell that does not exist reads as nothing.
        have hnull : s.value c = .null := by
          rw [value, Array.getElem?_eq_none (Nat.le_of_not_lt hc)]
          rfl
        rw [hnull] at hplain ⊢
        exact hplain hempty
    · exact hplain hempty
    · exact hplain (Number.lt_not_mem_text x)

/-! ### Rounds -/

/-- A number of rounds is enough to compile the nodes of a text: each of its elements leaves a round
for what its directives put below it. -/
def Nests (s : Store) (model : MappingId) : Nat → String → Prop
  | 0, _ => False
  | rounds + 1, text => ∀ attributes ∈ Markup.elementsAll (Markup.parse text),
    1 ≤ rounds ∧ ∀ next, s.Shows model attributes next → s.Nests model rounds next

/-- A number of rounds is enough for what the directives of an element put below it. -/
def Fits (s : Store) (model : MappingId) (rounds : Nat) (attributes : Fields String) : Prop :=
  1 ≤ rounds ∧ ∀ text, s.Shows model attributes text → s.Nests model rounds text

theorem fits_of_nests {rounds : Nat} {text : String} (h : s.Nests model (rounds + 1) text)
    {attributes : Fields String} (ha : attributes ∈ Markup.elementsAll (Markup.parse text)) :
    s.Fits model rounds attributes :=
  h attributes ha

/-- If no text shows itself again, one round more than there are cells is enough for a text. -/
theorem nests_of_acyclic {attributes : Fields String} {text : String}
    (hshows : s.Shows model attributes text)
    (hacyclic : ∀ next, ReflTransGen (s.ShowsInside model) text next →
      ¬ TransGen (s.ShowsInside model) next next) :
    s.Nests model (s.cells.size + 1) text := by
  classical
  -- Only the texts that are shown sooner or later count.
  let R (a b : String) : Prop :=
    ReflTransGen (s.ShowsInside model) text a ∧ s.ShowsInside model a b
  have hR : ∀ a, ¬ TransGen R a a := by
    intro a ha
    have hreach : ReflTransGen (s.ShowsInside model) text a := by
      obtain ⟨b, hb, -⟩ := TransGen.head'_iff.1 ha
      exact hb.1
    exact hacyclic a hreach (TransGen.mono (fun _ _ h => h.2) _ _ ha)
  obtain ⟨rank, hbound, hrank⟩ := exists_rank s.texts.toFinset hR
  have hcard : s.texts.toFinset.card ≤ s.cells.size := by
    refine Nat.le_trans s.texts.toFinset_card_le ?_
    simp [texts]
  -- By induction on the rounds: each text leaves fewer texts ahead.
  have hnests : ∀ rounds a, 1 ≤ rounds → ReflTransGen (s.ShowsInside model) text a →
      (Markup.elementsAll (Markup.parse a) ≠ [] → rank a + 2 ≤ rounds) →
      s.Nests model rounds a := by
    intro rounds
    induction rounds with
    | zero => intro a h; omega
    | succ rounds ih =>
      intro a _ hreach hle as has
      have hle' := hle (List.ne_nil_of_mem has)
      refine ⟨by omega, fun next hnext => ?_⟩
      have hinside : s.ShowsInside model a next := ⟨as, has, hnext⟩
      refine ih next (by omega) (hreach.tail hinside) fun helements => ?_
      have hlt := hrank a next ⟨hreach, hinside⟩
        (List.mem_toFinset.2 (mem_texts_of_shows hnext helements))
      omega
  refine hnests _ text (by omega) .refl fun helements => ?_
  have hlt := hbound text (List.mem_toFinset.2 (mem_texts_of_shows hshows helements))
  omega

end Store

end LiveBinding
