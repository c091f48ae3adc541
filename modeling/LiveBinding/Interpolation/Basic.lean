import LiveBinding.KeyPath

/-!
# Interpolated text

A text may hold placeholders: two opening braces, the text of a key path, and two closing braces,
without a line feed in between. A placeholder starts as far left as possible, its path has at
least one character, and it ends at the nearest closing braces.

`Segment.split` cuts a text into literals and placeholders.

Main statements:

* `length_placeholder?_lt`: a placeholder uses up characters, so that the cutting ends;
* `joined_split`: the segments of a text, written one after the other, are the text.
-/

namespace LiveBinding

/-- A part of an interpolated text. -/
inductive Segment where
  | literal (s : String)
  | placeholder (path : KeyPath)
  deriving DecidableEq, Repr

namespace Segment

/-- The characters before the nearest two closing braces, if no line feed comes first, and the
characters behind them. -/
def untilClosed? : List Char → Option (List Char × List Char)
  | [] => none
  | '\n' :: _ => none
  | '\x7d' :: '\x7d' :: cs => some ([], cs)
  | c :: cs => (untilClosed? cs).map fun cut => (c :: cut.1, cut.2)

/-- The placeholder with which a text starts: its path as written, and the text behind it. -/
def placeholder? : List Char → Option (List Char × List Char)
  | '\x7b' :: '\x7b' :: c :: cs =>
    if c = '\n' then none else (untilClosed? cs).map fun cut => (c :: cut.1, cut.2)
  | _ => none

theorem length_untilClosed?_lt {cs raw rest : List Char}
    (h : untilClosed? cs = some (raw, rest)) : rest.length < cs.length := by
  fun_induction untilClosed? cs generalizing raw rest with
  | case1 => simp at h
  | case2 => simp at h
  | case3 cs =>
    simp only [Option.some.injEq, Prod.mk.injEq] at h
    simp only [← h.2, List.length_cons]
    omega
  | case4 c cs _ _ ih =>
    obtain ⟨⟨a, b⟩, hcut, he⟩ := Option.map_eq_some_iff.1 h
    simp only [Prod.mk.injEq] at he
    rw [← he.2]
    exact Nat.lt_succ_of_lt (ih hcut)

theorem length_placeholder?_lt {cs raw rest : List Char}
    (h : placeholder? cs = some (raw, rest)) : rest.length < cs.length := by
  unfold placeholder? at h
  split at h
  · split at h
    · simp at h
    · obtain ⟨⟨a, b⟩, hcut, he⟩ := Option.map_eq_some_iff.1 h
      simp only [Prod.mk.injEq] at he
      have := length_untilClosed?_lt hcut
      simp only [← he.2, List.length_cons]
      omega
  · simp at h

/-- A character in front of segments: it joins a literal that comes first. -/
def consChar (c : Char) : List Segment → List Segment
  | .literal s :: segments => .literal (String.ofList (c :: s.toList)) :: segments
  | segments => .literal (String.ofList [c]) :: segments

/-- The segments of a text. -/
def split : List Char → List Segment
  | [] => []
  | c :: cs =>
    match _h : placeholder? (c :: cs) with
    | some (raw, rest) => .placeholder ⟨String.ofList raw⟩ :: split rest
    | none => consChar c (split cs)
termination_by cs => cs.length
decreasing_by
  · exact length_placeholder?_lt _h
  · simp

/-- The characters of a segment as written. -/
def written : Segment → List Char
  | .literal s => s.toList
  | .placeholder path => '\x7b' :: '\x7b' :: path.raw.toList ++ ['\x7d', '\x7d']

/-- The path of a placeholder. -/
def path? : Segment → Option KeyPath
  | .literal _ => none
  | .placeholder path => some path

/-- The characters of several segments, one after the other. -/
def joined (segments : List Segment) : List Char := segments.flatMap written

theorem untilClosed?_eq {cs raw rest : List Char} (h : untilClosed? cs = some (raw, rest)) :
    cs = raw ++ '\x7d' :: '\x7d' :: rest := by
  fun_induction untilClosed? cs generalizing raw rest with
  | case1 => simp at h
  | case2 => simp at h
  | case3 cs =>
    simp only [Option.some.injEq, Prod.mk.injEq] at h
    simp [← h.1, ← h.2]
  | case4 c cs _ _ ih =>
    obtain ⟨⟨a, b⟩, hcut, he⟩ := Option.map_eq_some_iff.1 h
    simp only [Prod.mk.injEq] at he
    simp [← he.1, ← he.2, ih hcut]

theorem placeholder?_eq {cs raw rest : List Char} (h : placeholder? cs = some (raw, rest)) :
    cs = '\x7b' :: '\x7b' :: raw ++ '\x7d' :: '\x7d' :: rest := by
  unfold placeholder? at h
  split at h
  · split at h
    · simp at h
    · obtain ⟨⟨a, b⟩, hcut, he⟩ := Option.map_eq_some_iff.1 h
      simp only [Prod.mk.injEq] at he
      simp [← he.1, ← he.2, untilClosed?_eq hcut]
  · simp at h

theorem joined_consChar (c : Char) (segments : List Segment) :
    joined (consChar c segments) = c :: joined segments := by
  unfold consChar
  split <;> simp [joined, written]

/-- Cutting a text loses nothing. -/
theorem joined_split (cs : List Char) : joined (split cs) = cs := by
  fun_induction split cs with
  | case1 => rfl
  | case2 c cs raw rest h ih =>
    rw [placeholder?_eq h]
    simp only [joined, List.flatMap_cons, written, String.toList_ofList] at ih ⊢
    rw [ih]
    simp
  | case3 c cs _ ih => rw [joined_consChar, ih]

end Segment

/-- Whether a text holds a placeholder. -/
def containsPlaceholder : List Char → Bool
  | [] => false
  | c :: cs => (Segment.placeholder? (c :: cs)).isSome || containsPlaceholder cs

/-- An interpolated text, cut into its segments. -/
structure Interpolation where
  segments : List Segment
  deriving DecidableEq, Repr

namespace Interpolation

/-- Cut a text into literals and placeholders. -/
def parse (s : String) : Interpolation := ⟨Segment.split s.toList⟩

/-- The text that was cut. -/
def source (t : Interpolation) : String := String.ofList (Segment.joined t.segments)

/-- The paths of all placeholders, in order. -/
def paths (t : Interpolation) : List KeyPath := t.segments.filterMap Segment.path?

/-- Whether there is a placeholder. -/
def hasPlaceholders (t : Interpolation) : Bool := !t.paths.isEmpty

/-- The first path of each list of segments. -/
def firstOfEachPath : List KeyPath → List KeyPath
  | [] => []
  | p :: ps => p :: (firstOfEachPath ps).filter (·.segments != p.segments)

/-- The placeholders with distinct segments, in order of first appearance. -/
def placeholders (t : Interpolation) : List KeyPath := firstOfEachPath t.paths

/-- The text with every placeholder replaced by what `lookup` gives for its path. The first fault
ends the rendering. -/
def render {ε : Type} (lookup : KeyPath → Except ε String) : List Segment → Except ε String
  | [] => .ok ""
  | .literal s :: segments => do
    let rest ← render lookup segments
    return s ++ rest
  | .placeholder path :: segments => do
    let s ← lookup path
    let rest ← render lookup segments
    return s ++ rest

end Interpolation

theorem source_parse (s : String) : (Interpolation.parse s).source = s := by
  simp [Interpolation.parse, Interpolation.source, Segment.joined_split]

end LiveBinding
