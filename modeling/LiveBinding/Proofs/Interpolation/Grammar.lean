import LiveBinding.Proofs.Interpolation.Render
import LiveBinding.Reactive.Render
import Mathlib.Order.Bounds.Basic

/-!
# The grammar of placeholders

Where a placeholder starts and where it ends is said here by positions of the text, without the
scanner: it starts at the first position behind the placeholder before it where one can start, and
ends at the nearest closing braces. `Segment.Splits` collects what is asked of the segments of a
text, and leaves no choice: cutting is the only way to meet it.

## Key definitions

- `Segment.Opens`, `Segment.IsOpen`: a text that starts with a placeholder
- `Segment.Splits`: the segments of a text, by positions
- `Segment.Cut`: the same, one segment at a time

## Key results

- `Segment.placeholder?_eq_some_iff`: the scanner takes the nearest end
- `Segment.splits_iff`: cutting is the only way to split a text
- `Interpolation.parse_splits`: the segments of a text, and texts without a placeholder
-/

namespace LiveBinding

namespace Segment

/-! ### Where a placeholder can start -/

/-- A text starts with a placeholder: two opening braces, a path of at least one character without
a line feed, and two closing braces. What is behind them is `rest`. -/
structure Opens (cs raw rest : List Char) : Prop where
  eq : cs = '\x7b' :: '\x7b' :: raw ++ '\x7d' :: '\x7d' :: rest
  ne_nil : raw ≠ []
  one_line : '\n' ∉ raw

/-- A placeholder can start at the beginning of a text. -/
def IsOpen (cs : List Char) : Prop := ∃ raw rest, Opens cs raw rest

/-- What stands behind a placeholder does not keep it from starting. -/
theorem IsOpen.append {cs : List Char} (h : IsOpen cs) (more : List Char) :
    IsOpen (cs ++ more) := by
  obtain ⟨raw, rest, heq, hne, hline⟩ := h
  exact ⟨raw, rest ++ more, by simp [heq], hne, hline⟩

theorem not_mem_of_untilClosed? {cs raw rest : List Char}
    (h : untilClosed? cs = some (raw, rest)) : '\n' ∉ raw := by
  fun_induction untilClosed? cs generalizing raw rest with
  | case1 => simp at h
  | case2 => simp at h
  | case3 cs => simp_all
  | case4 c cs hline _ ih =>
    obtain ⟨cut, hcut, heq⟩ := Option.map_eq_some_iff.1 h
    simp only [Prod.mk.injEq] at heq
    have hc : '\n' ≠ c := fun hc => hline hc.symm
    simp [← heq.1, hc, ih hcut]

/-- Closing braces are found, and none behind them. -/
theorem exists_untilClosed? (raw rest : List Char) (hline : '\n' ∉ raw) :
    ∃ raw' rest', untilClosed? (raw ++ '\x7d' :: '\x7d' :: rest) = some (raw', rest') ∧
      raw'.length ≤ raw.length := by
  induction raw with
  | nil => exact ⟨[], rest, by simp [untilClosed?], Nat.le_refl 0⟩
  | cons c raw ih =>
    simp only [List.mem_cons, not_or] at hline
    obtain ⟨raw', rest', hcut, hle⟩ := ih hline.2
    rw [List.cons_append]
    -- Either the braces start here, or they are found behind this character.
    by_cases hclosed : ∃ cs, c = '\x7d' ∧ raw ++ '\x7d' :: '\x7d' :: rest = '\x7d' :: cs
    · obtain ⟨cs, rfl, heq⟩ := hclosed
      exact ⟨[], cs, by rw [heq, untilClosed?], Nat.zero_le _⟩
    · refine ⟨c :: raw', rest', ?_, by simpa using hle⟩
      rw [untilClosed?, hcut]
      · rfl
      · exact fun hc => hline.1 hc.symm
      · exact fun cs hc heq => hclosed ⟨cs, hc, heq⟩

/-- What the scanner finds is a placeholder. -/
theorem opens_of_placeholder? {cs raw rest : List Char} (h : placeholder? cs = some (raw, rest)) :
    Opens cs raw rest := by
  have heq := placeholder?_eq h
  unfold placeholder? at h
  split at h
  · rename_i c cs
    split at h
    · simp at h
    · rename_i hc
      obtain ⟨cut, hcut, hraw⟩ := Option.map_eq_some_iff.1 h
      simp only [Prod.mk.injEq] at hraw
      have hline := not_mem_of_untilClosed? hcut
      exact ⟨heq, by simp [← hraw.1], by simp [← hraw.1, Ne.symm hc, hline]⟩
  · simp at h

/-- Where a placeholder can start, the scanner finds one, and none that is longer. -/
theorem Opens.exists_placeholder? {cs raw rest : List Char} (h : Opens cs raw rest) :
    ∃ found behind, placeholder? cs = some (found, behind) ∧ found.length ≤ raw.length := by
  obtain ⟨heq, hne, hline⟩ := h
  obtain ⟨c, raw, rfl⟩ := List.exists_cons_of_ne_nil hne
  simp only [List.mem_cons, not_or] at hline
  obtain ⟨found, behind, hcut, hle⟩ := exists_untilClosed? raw rest hline.2
  refine ⟨c :: found, behind, ?_, by simpa using hle⟩
  simp [heq, placeholder?, hcut, Ne.symm hline.1]

/-- The scanner takes the nearest end. -/
theorem placeholder?_eq_some_iff {cs raw rest : List Char} :
    placeholder? cs = some (raw, rest) ↔
      Opens cs raw rest ∧ ∀ raw' rest', Opens cs raw' rest' → raw.length ≤ raw'.length := by
  constructor
  · intro h
    refine ⟨opens_of_placeholder? h, fun raw' rest' h' => ?_⟩
    obtain ⟨found, behind, hfind, hle⟩ := h'.exists_placeholder?
    simp_all
  · rintro ⟨h, hleast⟩
    obtain ⟨found, behind, hfind, hle⟩ := h.exists_placeholder?
    have hopens := opens_of_placeholder? hfind
    have hsame := Nat.le_antisymm hle (hleast _ _ hopens)
    -- Two placeholders of one length at the start of one text are the same.
    have heq := hopens.eq.symm.trans h.eq
    simp only [List.cons_append, List.cons.injEq, true_and] at heq
    obtain ⟨rfl, hrest⟩ := List.append_inj heq hsame
    simp_all

theorem isOpen_iff {cs : List Char} : IsOpen cs ↔ placeholder? cs ≠ none := by
  constructor
  · rintro ⟨raw, rest, h⟩
    obtain ⟨found, behind, hfind, -⟩ := h.exists_placeholder?
    simp [hfind]
  · intro h
    obtain ⟨⟨raw, rest⟩, hfind⟩ := Option.ne_none_iff_exists'.1 h
    exact ⟨raw, rest, opens_of_placeholder? hfind⟩

theorem placeholder?_eq_none_iff {cs : List Char} : placeholder? cs = none ↔ ¬ IsOpen cs := by
  rw [isOpen_iff, not_not]

theorem not_isOpen_nil : ¬ IsOpen [] := by simp [isOpen_iff, placeholder?]

/-! ### Cut texts -/

@[simp] theorem joined_nil : joined [] = [] := rfl

@[simp] theorem joined_cons (segment : Segment) (segments : List Segment) :
    joined (segment :: segments) = segment.written ++ joined segments := rfl

@[simp] theorem joined_append (earlier later : List Segment) :
    joined (earlier ++ later) = joined earlier ++ joined later := List.flatMap_append

/-- A text that is cut, one segment at a time: at a placeholder the scanner finds it, and nowhere
in a literal it finds one. -/
inductive Cut : List Segment → Prop
  | nil : Cut []
  | placeholder (path : KeyPath) (segments : List Segment)
      (found : placeholder? (joined (.placeholder path :: segments)) =
        some (path.raw.toList, joined segments))
      (rest : Cut segments) : Cut (.placeholder path :: segments)
  | literal (s : String) (segments : List Segment) (ne : s ≠ "")
      (none : ∀ i < s.toList.length, placeholder? (s.toList.drop i ++ joined segments) = none)
      (apart : ∀ t, segments.head? ≠ some (.literal t))
      (rest : Cut segments) : Cut (.literal s :: segments)

/-- A character in front of a cut text at which no placeholder starts. -/
theorem Cut.consChar {c : Char} {segments : List Segment} (h : Cut segments)
    (hnone : placeholder? (c :: joined segments) = none) : Cut (consChar c segments) := by
  have hnew (more : List Segment) (hmore : Cut more)
      (hnone : placeholder? (c :: joined more) = none)
      (hapart : ∀ t, more.head? ≠ some (.literal t)) :
      Cut (.literal (String.ofList [c]) :: more) := by
    refine .literal _ _ (by simp) (fun i hi => ?_) hapart hmore
    obtain rfl : i = 0 := by simpa using hi
    simpa using hnone
  cases h with
  | nil => exact hnew _ .nil hnone (by simp)
  | placeholder path segments hfound hrest =>
    exact hnew _ (.placeholder _ _ hfound hrest) hnone (by simp)
  | literal s segments hne hlit hapart hrest =>
    refine .literal _ _ (by simp) (fun i hi => ?_) hapart hrest
    cases i with
    | zero => simpa [written] using hnone
    | succ i => simpa using hlit i (by simpa using hi)

theorem cut_split (cs : List Char) : Cut (split cs) := by
  fun_induction split cs with
  | case1 => exact .nil
  | case2 c cs raw rest h ih =>
    refine .placeholder _ _ ?_ ih
    rw [joined_cons, joined_split, written, String.toList_ofList, List.append_assoc]
    rw [placeholder?_eq h] at h
    simpa using h
  | case3 c cs h ih => exact ih.consChar (by rwa [joined_split])

/-- Where the scanner finds nothing, cutting goes on with the next character. -/
theorem split_cons {c : Char} {cs : List Char} (h : placeholder? (c :: cs) = none) :
    split (c :: cs) = Segment.consChar c (split cs) := by
  rw [split]
  split <;> simp_all

theorem split_eq_of_placeholder? {cs raw rest : List Char}
    (h : placeholder? cs = some (raw, rest)) :
    split cs = .placeholder ⟨String.ofList raw⟩ :: split rest := by
  cases cs with
  | nil => simp [placeholder?] at h
  | cons c cs =>
    rw [split]
    split <;> simp_all

/-- A stretch in which no placeholder starts is a literal. -/
theorem split_append {cs rest : List Char} (hne : cs ≠ [])
    (hnone : ∀ i < cs.length, placeholder? (cs.drop i ++ rest) = none)
    (hapart : ∀ t, (split rest).head? ≠ some (.literal t)) :
    split (cs ++ rest) = .literal (String.ofList cs) :: split rest := by
  induction cs with
  | nil => exact absurd rfl hne
  | cons c cs ih =>
    rw [List.cons_append, split_cons (by simpa using hnone 0 (by simp))]
    cases cs with
    | nil =>
      rw [List.nil_append]
      unfold Segment.consChar
      split
      · simp_all
      · rfl
    | cons c' cs =>
      rw [ih (by simp) (fun i hi => hnone (i + 1) (by simpa using hi)), Segment.consChar]
      simp

/-- A cut text is cut in the only way. -/
theorem Cut.split_eq {segments : List Segment} (h : Cut segments) :
    split (joined segments) = segments := by
  induction h with
  | nil => simp [split]
  | placeholder path segments hfound _ ih =>
    rw [split_eq_of_placeholder? hfound, ih, String.ofList_toList]
  | literal s segments hne hnone hapart _ ih =>
    rw [joined_cons, written, split_append (by simpa using hne) hnone (by rwa [ih]), ih,
      String.ofList_toList]

theorem Cut.of_append {earlier later : List Segment} (h : Cut (earlier ++ later)) : Cut later := by
  induction earlier with
  | nil => exact h
  | cons segment earlier ih =>
    rw [List.cons_append] at h
    cases h with
    | placeholder _ _ _ hrest => exact ih hrest
    | literal _ _ _ _ _ hrest => exact ih hrest

/-! ### The segments of a text, by positions -/

/-- What is asked of the segments of a text. -/
structure Splits (cs : List Char) (segments : List Segment) : Prop where
  /-- The segments, written one after the other, are the text. -/
  joined_eq : joined segments = cs
  /-- Behind any segments, with literals only in between, a placeholder starts at the first
  position where one can start. -/
  first (earlier between : List Segment) (path : KeyPath) (later : List Segment)
    (eq : segments = earlier ++ between ++ .placeholder path :: later)
    (literals : ∀ segment ∈ between, segment.path? = none) :
    IsLeast {i | (joined earlier).length ≤ i ∧ IsOpen (cs.drop i)}
      (joined (earlier ++ between)).length
  /-- The path of a placeholder ends at the nearest closing braces. -/
  nearest (earlier : List Segment) (path : KeyPath) (later : List Segment)
    (eq : segments = earlier ++ .placeholder path :: later) :
    Opens (cs.drop (joined earlier).length) path.raw.toList (joined later) ∧
      ∀ raw rest, Opens (cs.drop (joined earlier).length) raw rest →
        path.raw.toList.length ≤ raw.length
  /-- Literals are nonempty and contain no placeholder. -/
  literal (s : String) (mem : .literal s ∈ segments) :
    s ≠ "" ∧ ∀ i, ¬ IsOpen (s.toList.drop i)
  /-- Two literals are not adjacent. -/
  apart (earlier : List Segment) (s t : String) (later : List Segment) :
    segments ≠ earlier ++ .literal s :: .literal t :: later

/-- Where a placeholder can start behind literals, it starts behind all of them. -/
theorem Cut.length_le_of_isOpen {between later : List Segment} (h : Cut (between ++ later))
    (hliterals : ∀ segment ∈ between, segment.path? = none) {i : Nat}
    (hopen : IsOpen ((joined (between ++ later)).drop i)) : (joined between).length ≤ i := by
  induction between generalizing i with
  | nil => exact Nat.zero_le i
  | cons segment between ih =>
    cases h with
    | placeholder path => simp [path?] at hliterals
    | literal s _ _ hnone _ hrest =>
      rw [List.cons_append, joined_cons, written, List.drop_append] at hopen
      by_cases hi : i < s.toList.length
      · have := hnone i hi
        simp_all [isOpen_iff, Nat.sub_eq_zero_of_le hi.le]
      · rw [List.drop_eq_nil_of_le (by omega), List.nil_append] at hopen
        have := ih hrest (fun segment hmem => hliterals segment (List.mem_cons_of_mem _ hmem)) hopen
        simp only [joined_cons, written, List.length_append]
        omega

theorem Cut.splits {segments : List Segment} (h : Cut segments) :
    Splits (joined segments) segments where
  joined_eq := rfl
  first := by
    rintro earlier between path later rfl hliterals
    rw [List.append_assoc] at h
    have hcut := h.of_append
    constructor
    · have hplaceholder := hcut.of_append
      cases hplaceholder with
      | placeholder _ _ hfound =>
        exact ⟨by simp, by simp_all [isOpen_iff]⟩
    · rintro i ⟨hle, hopen⟩
      rw [List.append_assoc, joined_append, List.drop_append, List.drop_eq_nil_of_le hle,
        List.nil_append] at hopen
      have := hcut.length_le_of_isOpen hliterals hopen
      simp only [joined_append, List.length_append]
      omega
  nearest := by
    rintro earlier path later rfl
    cases h.of_append with
    | placeholder _ _ hfound =>
      rw [joined_append, List.drop_left]
      exact placeholder?_eq_some_iff.1 hfound
  literal := by
    intro s hmem
    obtain ⟨earlier, later, rfl⟩ := List.append_of_mem hmem
    cases h.of_append with
    | literal _ _ hne hnone =>
      refine ⟨hne, fun i hopen => ?_⟩
      by_cases hi : i < s.toList.length
      · exact placeholder?_eq_none_iff.1 (hnone i hi) (hopen.append _)
      · rw [List.drop_eq_nil_of_le (by omega)] at hopen
        exact not_isOpen_nil hopen
  apart := by
    rintro earlier s t later rfl
    cases h.of_append with
    | literal _ _ _ _ hapart => exact hapart t rfl

/-- Segments that split a text are what the scanner cuts. -/
theorem Splits.cut {cs : List Char} {segments : List Segment} (h : Splits cs segments) :
    Cut segments := by
  -- From the end of the text on, with the segments before as they are.
  suffices hsuffix : ∀ later earlier, segments = earlier ++ later → Cut later from
    hsuffix segments [] rfl
  intro later
  induction later with
  | nil => exact fun _ _ => .nil
  | cons segment later ih =>
    intro earlier heq
    have hrest : Cut later := ih (earlier ++ [segment]) (by simp [heq])
    have hdrop : cs.drop (joined earlier).length = joined (segment :: later) := by
      rw [← h.joined_eq, heq, joined_append, List.drop_left]
    cases segment with
    | placeholder path =>
      have hnearest := h.nearest earlier path later heq
      rw [hdrop] at hnearest
      exact .placeholder path later (placeholder?_eq_some_iff.2 hnearest) hrest
    | literal s =>
      obtain ⟨hne, hinside⟩ := h.literal s (by simp [heq])
      refine .literal s later hne (fun i hi => ?_) (fun t ht => ?_) hrest
      · rw [placeholder?_eq_none_iff]
        intro hopen
        -- A placeholder that starts in the literal starts before the next one does.
        cases later with
        | nil => exact hinside i (by simpa using hopen)
        | cons next later =>
          cases next with
          | literal t => exact h.apart earlier s t later heq
          | placeholder path =>
            have hbehind : IsOpen (cs.drop ((joined earlier).length + i)) := by
              rwa [← List.drop_drop, hdrop, joined_cons, written,
                List.drop_append_of_le_length hi.le]
            have hle := (h.first earlier [.literal s] path later (by simp [heq])
              (by simp [path?])).2 ⟨Nat.le_add_right _ i, hbehind⟩
            simp only [joined_append, joined_cons, joined_nil, written, List.append_nil,
              List.length_append] at hle
            omega
      · obtain ⟨later', rfl⟩ := List.head?_eq_some_iff.1 ht
        exact h.apart earlier s t later' heq

/-- Cutting is the only way to split a text. -/
theorem splits_iff {cs : List Char} {segments : List Segment} :
    Splits cs segments ↔ segments = split cs := by
  constructor
  · intro h
    rw [← h.joined_eq, h.cut.split_eq]
  · rintro rfl
    simpa only [joined_split] using (cut_split cs).splits

end Segment

open Segment

/-! ### Texts without a placeholder -/

/-- A text contains a placeholder if one can start somewhere in it. -/
theorem containsPlaceholder_iff {cs : List Char} :
    containsPlaceholder cs = true ↔ ∃ i, IsOpen (cs.drop i) := by
  induction cs with
  | nil => simp [containsPlaceholder, not_isOpen_nil]
  | cons c cs ih =>
    rw [containsPlaceholder, Bool.or_eq_true, ih, Option.isSome_iff_ne_none, ← isOpen_iff]
    constructor
    · rintro (h | ⟨i, h⟩)
      · exact ⟨0, h⟩
      · exact ⟨i + 1, h⟩
    · rintro ⟨_ | i, h⟩
      · exact .inl h
      · exact .inr ⟨i, h⟩

theorem Segment.placeholder_mem_consChar {path : KeyPath} {c : Char} {segments : List Segment} :
    .placeholder path ∈ consChar c segments ↔ .placeholder path ∈ segments := by
  unfold consChar
  split <;> simp

/-- A text contains a placeholder if one of its segments is a placeholder. -/
theorem containsPlaceholder_iff_exists_mem {cs : List Char} :
    containsPlaceholder cs = true ↔ ∃ path, .placeholder path ∈ split cs := by
  fun_induction split cs with
  | case1 => simp [containsPlaceholder]
  | case2 c cs raw rest h ih => simp [containsPlaceholder, h]
  | case3 c cs h ih => simp [containsPlaceholder, h, ih, placeholder_mem_consChar]

/-- A text without a placeholder is one literal, or nothing. -/
theorem Segment.split_of_containsPlaceholder {cs : List Char}
    (h : containsPlaceholder cs = false) :
    split cs = if cs = [] then [] else [.literal (String.ofList cs)] := by
  rw [← Bool.not_eq_true, containsPlaceholder_iff, not_exists] at h
  split
  · simp [*, split]
  · have hsplit : split (cs ++ []) = .literal (String.ofList cs) :: split [] :=
      split_append ‹_› (fun i _ => by simpa [placeholder?_eq_none_iff] using h i) (by simp [split])
    simpa [split] using hsplit

namespace Interpolation

theorem hasPlaceholders_parse (s : String) :
    (parse s).hasPlaceholders = containsPlaceholder s.toList := by
  rw [Bool.eq_iff_iff, containsPlaceholder_iff_exists_mem, hasPlaceholders, Bool.not_eq_true',
    List.isEmpty_eq_false_iff_exists_mem]
  exact exists_congr fun path => mem_paths_iff

/-- The segments of a text are the only ones that split it: written one after the other they are
the text, each placeholder starts and ends as early as it can, and the literals between them are
nonempty, not adjacent and without a placeholder. A text without a placeholder is one literal or
nothing, and is rendered as itself, whatever the lookup. -/
theorem parse_splits (s : String) :
    (∀ segments, Splits s.toList segments ↔ segments = (parse s).segments) ∧
      (containsPlaceholder s.toList = true ↔ ∃ i, IsOpen (s.toList.drop i)) ∧
      (containsPlaceholder s.toList = true ↔ ∃ path, .placeholder path ∈ (parse s).segments) ∧
      (containsPlaceholder s.toList = false →
        (parse s).segments = (if s = "" then [] else [.literal s]) ∧
          ∀ (σ : Type) (lookup : KeyPath → Act σ Value) (w : World σ),
            (Act.render lookup (parse s)).runOn w = (.ok s, w)) := by
  refine ⟨fun segments => splits_iff, containsPlaceholder_iff, containsPlaceholder_iff_exists_mem,
    fun h => ?_⟩
  have hsegments : (parse s).segments = if s = "" then [] else [.literal s] := by
    simpa [parse, String.toList_eq_nil_iff] using split_of_containsPlaceholder h
  refine ⟨hsegments, fun σ lookup w => ?_⟩
  -- No lookup is made, so that any pure one may stand for it.
  rw [Act.runOn_render (f := fun _ => .ok .null), hsegments]
  · split
    · simp [render, *]
    · simp [render, pure, Except.pure, bind, Except.bind]
  · intro p hp
    rw [hsegments] at hp
    split at hp <;> simp at hp

/-- Runs of braces: a path begins with a brace, and a path is a brace. Without closing braces there
is no placeholder. -/
theorem parse_splits_braces :
    Splits "\x7b\x7b\x7ba\x7d\x7d\x7d\x7b\x7b\x7d\x7d\x7d".toList
        [.placeholder ⟨"\x7ba"⟩, .literal "\x7d", .placeholder ⟨"\x7d"⟩] ∧
      (parse "\x7b\x7b\x7d\x7d x\n\x7d\x7d").segments =
        [.literal "\x7b\x7b\x7d\x7d x\n\x7d\x7d"] :=
  ⟨((parse_splits _).1 _).2 (by decide +kernel), ((parse_splits _).2.2.2 (by decide)).1⟩

end Interpolation

end LiveBinding
