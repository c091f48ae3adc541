import LiveBinding.Text.Blank

/-!
# Key paths

A key path is a text like `person.tags.0`. Its segments are the parts between the points, without
the blanks around them. A segment is a key of a mapping or, in canonical decimal form, an index of
a sequence.

Main statements: `segments_ne_nil` says that a path has a last segment, `segments_eq` that it
consists of its parents and that last segment, and `segments_eq_singleton` that it has no parents if
there is no point in it.
-/

namespace LiveBinding

/-- A key path, kept as written. -/
structure KeyPath where
  raw : String
  deriving DecidableEq, Repr

namespace KeyPath

/-- The segments: the parts between points, trimmed. -/
def segments (p : KeyPath) : List String :=
  (Text.splitWhere (· == '.') p.raw.toList).map fun cs => String.ofList (Text.trimChars cs)

theorem segments_ne_nil (p : KeyPath) : p.segments ≠ [] := by
  simp [segments, Text.splitWhere_ne_nil]

/-- A text without points is one segment. -/
theorem segments_eq_singleton {raw : String} (h : '.' ∉ raw.toList) :
    (mk raw).segments = [Text.trim raw] := by
  have hpoint : ∀ c ∈ raw.toList, (c == '.') = false :=
    fun c hc => beq_eq_false_iff_ne.2 fun heq => h (heq ▸ hc)
  rw [segments, Text.splitWhere_eq_singleton hpoint, List.map_singleton]
  rfl

/-- The segments before the last one. -/
def parents (p : KeyPath) : List String := p.segments.dropLast

/-- The last segment. -/
def last (p : KeyPath) : String := p.segments.getLast p.segments_ne_nil

theorem segments_eq (p : KeyPath) : p.segments = p.parents ++ [p.last] :=
  (List.dropLast_concat_getLast p.segments_ne_nil).symm

end KeyPath

/-- The largest index that a segment can name: an index has 64 bits. -/
def maxIndex : Nat := 0xffffffffffffffff

/-- The index that a segment names: decimal digits only, no zero in front of other digits, and at
most `maxIndex`. -/
def index? (segment : String) : Option Nat :=
  let cs := segment.toList
  if cs ≠ [] ∧ cs.all Char.isDigit ∧ (cs.head? = some '0' → cs.length = 1) then
    let n := Nat.ofDigitChars 10 cs 0
    if n ≤ maxIndex then some n else none
  else none

end LiveBinding
