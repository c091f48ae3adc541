import LiveBinding.Proofs.Template.Compiled
import Mathlib.Data.List.TakeWhile

/-!
# How directives are spelled

There are three kinds of attribute names. `Directive.Spells` lists those that stand for a directive,
and `Directive.Misspells` those that have a mark and stand for none, each with its fault; the others
are plain. `Directive.parse?` tells them apart, and the long form of a directive spells it.

## Key definitions

- `Directive.Spells`: the names of a directive
- `Directive.Misspells`: names with a mark that no directive has

## Key results

- `Directive.parse?_cases`: every name is plain, spells a directive or misspells one
- `Directive.parse?_exact`: what is read from an attribute name
-/

namespace LiveBinding.Directive

/-- The attribute names that stand for a directive. Some directives ignore their argument. -/
inductive Spells : String → Directive → Prop
  | event {a : String} (h : a ≠ "") : Spells ("@" ++ a) (.on a)
  | longEvent {a : String} (h : a ≠ "") : Spells ("v-on:" ++ a) (.on a)
  | target {a : String} (h : a ≠ "") : Spells (":" ++ a) (.bind a)
  | longTarget {a : String} (h : a ≠ "") : Spells ("v-bind:" ++ a) (.bind a)
  | bare {d : Directive} (h : d.argument? = none) : Spells ("v-" ++ d.name) d
  | ignored {d : Directive} (h : d.argument? = none) (a : String) :
      Spells ("v-" ++ d.name ++ ":" ++ a) d

/-- The attribute names with a mark that stand for no directive, and what is wrong with them: an
argument is missing, or there is no directive with the name up to the first colon. -/
inductive Misspells : String → Fault → Prop
  | missing {name : String} (h : name ∈ ["@", ":", "v-on", "v-on:", "v-bind", "v-bind:"]) :
      Misspells name (.missingArgument name)
  | unknown {part rest : String} (hpart : ':' ∉ part.toList)
      (hunknown : part ∉ ["text", "html", "model", "bind", "on"])
      (hrest : rest = "" ∨ ∃ a, rest = ":" ++ a) :
      Misspells ("v-" ++ part ++ rest) (.unknownDirective part)

/-! ### Reading what is spelled -/

/-- An argument that is not empty is taken as it is. -/
theorem map_withArgument (attr : String) (make : String → Directive) {a : String} (h : a ≠ "") :
    (withArgument attr make a.toList).map some = .ok (some (make a)) := by
  rw [withArgument, if_neg (fun hnil => h (String.toList_eq_nil_iff.1 hnil)), String.ofList_toList]
  rfl

/-- A name is read up to its first colon. -/
theorem takeWhile_part {part rest : List Char} (hpart : ':' ∉ part)
    (hrest : rest = [] ∨ ∃ a, rest = ':' :: a) : (part ++ rest).takeWhile (· != ':') = part := by
  have hne : ∀ c ∈ part, (c != ':') = true := fun c hc => bne_iff_ne.2 fun heq => hpart (heq ▸ hc)
  rw [List.takeWhile_append_of_pos hne]
  rcases hrest with rfl | ⟨a, rfl⟩
  · exact List.append_nil _
  · exact List.append_nil _

/-- A directive that is spelled is read. -/
theorem Spells.parse? {name : String} {d : Directive} (h : Spells name d) :
    parse? name = .ok (some d) := by
  -- The characters in front of an argument are known, so reading them is computation.
  cases h with
  | event h =>
    rw [Directive.parse?, String.toList_append]
    exact map_withArgument _ .on h
  | longEvent h =>
    rw [Directive.parse?, String.toList_append]
    exact map_withArgument _ .on h
  | target h =>
    rw [Directive.parse?, String.toList_append]
    exact map_withArgument _ .bind h
  | longTarget h =>
    rw [Directive.parse?, String.toList_append]
    exact map_withArgument _ .bind h
  | bare h =>
    cases d with
    | bind _ => cases h
    | on _ => cases h
    | _ => rfl
  | ignored h a =>
    rw [Directive.parse?, String.toList_append]
    cases d with
    | bind _ => cases h
    | on _ => cases h
    | _ => rfl

/-- What is wrong with a name is found. -/
theorem Misspells.parse? {name : String} {f : Fault} (h : Misspells name f) :
    parse? name = .error f := by
  cases h with
  | missing h =>
    simp only [List.mem_cons, List.not_mem_nil, or_false] at h
    rcases h with rfl | rfl | rfl | rfl | rfl | rfl <;> rfl
  | @unknown part rest hpart hunknown hrest =>
    have hname : (part.toList ++ rest.toList).takeWhile (· != ':') = part.toList := by
      refine takeWhile_part hpart ?_
      rcases hrest with rfl | ⟨a, rfl⟩
      · exact .inl rfl
      · exact .inr ⟨a.toList, String.toList_append⟩
    rw [Directive.parse?, String.toList_append, String.toList_append]
    change (named _ (part.toList ++ rest.toList)).map some = _
    rw [named, hname, String.ofList_toList]
    simp only [List.mem_cons, List.not_mem_nil, or_false, not_or] at hunknown
    obtain ⟨htext, hhtml, hmodel, hbind, hon⟩ := hunknown
    -- None of the five names is the one that was read.
    split
    · exact absurd rfl htext
    · exact absurd rfl hhtml
    · exact absurd rfl hmodel
    · exact absurd rfl hbind
    · exact absurd rfl hon
    · rfl

/-! ### Every name -/

theorem eq_append_of_toList {name mark : String} {rest : List Char}
    (h : name.toList = mark.toList ++ rest) : name = mark ++ String.ofList rest := by
  rw [← String.toList_inj, String.toList_append, String.toList_ofList, h]

/-- A name has a mark if it starts with one. -/
theorem isMarked_iff {name : String} :
    isMarked name = true ↔ ∃ mark ∈ ["@", ":", "v-"], ∃ rest, name = mark ++ rest := by
  constructor
  · intro h
    unfold isMarked at h
    split at h
    · rename_i cs hname
      exact ⟨"@", by simp, _, eq_append_of_toList hname⟩
    · rename_i cs hname
      exact ⟨":", by simp, _, eq_append_of_toList hname⟩
    · rename_i cs hname
      exact ⟨"v-", by simp, _, eq_append_of_toList hname⟩
    · cases h
  · rintro ⟨mark, hmark, rest, rfl⟩
    rw [isMarked, String.toList_append]
    simp only [List.mem_cons, List.not_mem_nil, or_false] at hmark
    rcases hmark with rfl | rfl | rfl <;> rfl

/-- A text is cut at its first colon, if it has one. -/
theorem exists_part (s : String) :
    ∃ part rest, s = part ++ rest ∧ ':' ∉ part.toList ∧ (rest = "" ∨ ∃ a, rest = ":" ++ a) := by
  refine ⟨.ofList (s.toList.takeWhile (· != ':')), .ofList (s.toList.dropWhile (· != ':')),
    ?_, fun hcolon => ?_, ?_⟩
  · rw [← String.ofList_append, List.takeWhile_append_dropWhile, String.ofList_toList]
  · rw [String.toList_ofList] at hcolon
    exact absurd (List.mem_takeWhile_imp hcolon) (by decide)
  · have hhead := List.head?_dropWhile_not (· != ':') s.toList
    cases hrest : s.toList.dropWhile (· != ':') with
    | nil => exact .inl rfl
    | cons c a =>
      rw [hrest, List.head?_cons] at hhead
      obtain rfl : c = ':' := by simpa using hhead
      exact .inr ⟨.ofList a, @String.ofList_append [':'] a⟩

/-- A directive without an argument is spelled with any. -/
theorem Spells.of_argument?_eq_none (d : Directive) (h : d.argument? = none) {rest : String}
    (hrest : rest = "" ∨ ∃ a, rest = ":" ++ a) : Spells ("v-" ++ d.name ++ rest) d := by
  rcases hrest with rfl | ⟨a, rfl⟩
  · rw [String.append_empty]
    exact .bare h
  · rw [← String.append_assoc]
    exact .ignored h a

/-- A mark or name that needs an argument spells a directive, unless its argument is empty. -/
theorem spells_or_misspells {front : String} {make : String → Directive}
    (hspells : ∀ {a}, a ≠ "" → Spells (front ++ a) (make a))
    (hfront : front ∈ ["@", ":", "v-on", "v-on:", "v-bind", "v-bind:"]) (a : String) :
    (∃ d, Spells (front ++ a) d) ∨ ∃ f, Misspells (front ++ a) f := by
  by_cases ha : a = ""
  · subst ha
    rw [String.append_empty]
    exact .inr ⟨_, .missing hfront⟩
  · exact .inl ⟨_, hspells ha⟩

/-- A name with a mark spells a directive or misspells one. -/
theorem marked_cases {name : String} (h : isMarked name = true) :
    (∃ d, Spells name d) ∨ ∃ f, Misspells name f := by
  obtain ⟨mark, hmark, a, rfl⟩ := isMarked_iff.1 h
  simp only [List.mem_cons, List.not_mem_nil, or_false] at hmark
  rcases hmark with rfl | rfl | rfl
  · exact spells_or_misspells .event (by decide) a
  · exact spells_or_misspells .target (by decide) a
  -- Behind `v-` the first colon ends the name.
  · obtain ⟨part, rest, rfl, hpart, hrest⟩ := exists_part a
    rw [← String.append_assoc]
    by_cases hknown : part ∈ ["text", "html", "model", "bind", "on"]
    · simp only [List.mem_cons, List.not_mem_nil, or_false] at hknown
      rcases hknown with rfl | rfl | rfl | rfl | rfl
      · exact .inl ⟨_, .of_argument?_eq_none .text rfl hrest⟩
      · exact .inl ⟨_, .of_argument?_eq_none .html rfl hrest⟩
      · exact .inl ⟨_, .of_argument?_eq_none .model rfl hrest⟩
      -- The other two need an argument.
      · rcases hrest with rfl | ⟨b, rfl⟩
        · exact .inr ⟨_, .missing (by decide)⟩
        · rw [← String.append_assoc]
          exact spells_or_misspells .longTarget (by decide) b
      · rcases hrest with rfl | ⟨b, rfl⟩
        · exact .inr ⟨_, .missing (by decide)⟩
        · rw [← String.append_assoc]
          exact spells_or_misspells .longEvent (by decide) b
    · exact .inr ⟨_, .unknown hpart hknown hrest⟩

/-- A name is plain, or spells what is read, or misspells it. -/
theorem parse?_cases (name : String) :
    parse? name = .ok none ∨ (∃ d, Spells name d ∧ parse? name = .ok (some d)) ∨
      ∃ f, Misspells name f ∧ parse? name = .error f := by
  cases hmarked : isMarked name with
  | false => exact .inl ((parse?_eq_none_iff name).2 hmarked)
  | true =>
    rcases marked_cases hmarked with ⟨d, hd⟩ | ⟨f, hf⟩
    · exact .inr (.inl ⟨d, hd, hd.parse?⟩)
    · exact .inr (.inr ⟨f, hf, hf.parse?⟩)

/-- A directive is read from a name exactly if the name spells it. -/
theorem parse?_eq_some_iff {name : String} {d : Directive} :
    parse? name = .ok (some d) ↔ Spells name d := by
  refine ⟨fun h => ?_, Spells.parse?⟩
  rcases parse?_cases name with hparse | ⟨d', hd', hparse⟩ | ⟨f, -, hparse⟩
  all_goals
    rw [hparse] at h
    cases h
  exact hd'

/-- A name is refused exactly if it misspells a directive. -/
theorem parse?_eq_error_iff {name : String} {f : Fault} :
    parse? name = .error f ↔ Misspells name f := by
  refine ⟨fun h => ?_, Misspells.parse?⟩
  rcases parse?_cases name with hparse | ⟨d, -, hparse⟩ | ⟨f', hf', hparse⟩
  all_goals
    rw [hparse] at h
    cases h
  exact hf'

/-- The long form of a directive that has a name spells it too. -/
theorem Spells.written {name : String} {d : Directive} (h : Spells name d) :
    Spells d.written d := by
  cases h with
  | event h | longEvent h => exact .longEvent h
  | target h | longTarget h => exact .longTarget h
  | bare h | ignored h _ =>
    rw [Directive.written, h]
    exact .bare h

/-- What is read from an attribute name. It is a plain attribute exactly if it starts with none of
the marks. It is a directive exactly if it spells that directive: `@a` and `v-on:a`, `:a` and
`v-bind:a` with an argument that is not empty and may have colons, and `v-text`, `v-html` and
`v-model` with or without anything behind a colon. It is refused exactly if it misspells one: for
want of an argument, with the name as it is written, or because there is no directive with the name
between `v-` and the first colon. The long form of a directive that is read is read as the same
directive. -/
theorem parse?_exact (name : String) :
    (parse? name = .ok none ↔ ∀ mark ∈ ["@", ":", "v-"], ∀ rest, name ≠ mark ++ rest) ∧
    (∀ d, parse? name = .ok (some d) ↔ Spells name d) ∧
    (∀ f, parse? name = .error f ↔ Misspells name f) ∧
    ∀ d, parse? name = .ok (some d) → parse? d.written = .ok (some d) := by
  refine ⟨?_, fun _ => parse?_eq_some_iff, fun _ => parse?_eq_error_iff, fun d h => ?_⟩
  · rw [parse?_eq_none_iff, ← Bool.not_eq_true, isMarked_iff]
    push Not
    rfl
  · exact (parse?_eq_some_iff.1 h).written.parse?

/-- Arguments keep their colons, and a directive that ignores its argument forgets it. -/
theorem parse?_exact_colons :
    parse? "@a:b" = .ok (some (.on "a:b")) ∧ parse? (Directive.on "a:b").written = parse? "@a:b" ∧
      parse? "v-text::x" = .ok (some .text) ∧ parse? Directive.text.written = .ok (some .text) := by
  have hevent := ((parse?_exact "@a:b").2.1 (.on "a:b")).2 (.event (a := "a:b") (by decide))
  have htext := ((parse?_exact "v-text::x").2.1 .text).2 (.ignored (d := .text) rfl ":x")
  exact ⟨hevent, ((parse?_exact "@a:b").2.2.2 _ hevent).trans hevent.symm, htext,
    (parse?_exact "v-text::x").2.2.2 _ htext⟩

end LiveBinding.Directive
