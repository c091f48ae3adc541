/-!
# Blank characters, trimming and words

The blank characters are those with the Unicode property `White_Space`. This file lists them,
and defines on character lists the three things the library does with them: trimming both ends
(`trim`), cutting a text at separators (`splitWhere`) and listing its blank-separated words
(`words`).

Main statements:

* `trimChars_surround`: blanks around a text do not count;
* `splitWhere_ne_nil`: cutting a text gives at least one piece.
-/

namespace LiveBinding.Text

/-- The characters with the property `White_Space`, in code point order. -/
def blanks : List Char :=
  ['\x09', '\x0a', '\x0b', '\x0c', '\x0d', ' ', '\u0085', '\u00a0', '\u1680',
   '\u2000', '\u2001', '\u2002', '\u2003', '\u2004', '\u2005', '\u2006', '\u2007', '\u2008',
   '\u2009', '\u200a', '\u2028', '\u2029', '\u202f', '\u205f', '\u3000']

/-- Whether a character is white space. -/
def isBlank (c : Char) : Bool := blanks.contains c

/-- The text from its first to its last character that is not blank. -/
def trimChars (cs : List Char) : List Char :=
  ((cs.dropWhile isBlank).reverse.dropWhile isBlank).reverse

/-- The text without the blanks at its two ends. -/
def trim (s : String) : String := String.ofList (trimChars s.toList)

@[simp] theorem trimChars_nil : trimChars [] = [] := rfl

/-- Blanks around a text do not count. -/
theorem trimChars_surround {front back : List Char} (hfront : ∀ c ∈ front, isBlank c = true)
    (hback : ∀ c ∈ back, isBlank c = true) (cs : List Char) :
    trimChars (front ++ cs ++ back) = trimChars cs := by
  have hreverse : ∀ c ∈ back.reverse, isBlank c = true :=
    fun c hc => hback c (List.mem_reverse.1 hc)
  have hnil : (back ++ []).dropWhile isBlank = [] := List.dropWhile_append_of_pos hback
  rw [trimChars, List.append_assoc, List.dropWhile_append_of_pos hfront, List.dropWhile_append]
  -- If the text is all blank, the blanks behind it go with those in front.
  split
  · rename_i hempty
    rw [List.append_nil] at hnil
    rw [trimChars, List.isEmpty_iff.1 hempty, hnil]
  · rw [List.reverse_append, List.dropWhile_append_of_pos hreverse, trimChars]

/-- Blanks around a text do not count. -/
theorem trim_surround {front back : String} (hfront : ∀ c ∈ front.toList, isBlank c = true)
    (hback : ∀ c ∈ back.toList, isBlank c = true) (s : String) :
    trim (front ++ s ++ back) = trim s := by
  rw [trim, trim, String.toList_append, String.toList_append, trimChars_surround hfront hback]

/-- A text is what is left of it after trimming, with blanks around. -/
theorem exists_surround (cs : List Char) :
    ∃ front back, cs = front ++ trimChars cs ++ back ∧ (∀ c ∈ front, isBlank c = true) ∧
      ∀ c ∈ back, isBlank c = true := by
  have hall (ds : List Char) : ∀ c ∈ ds.takeWhile isBlank, isBlank c = true :=
    List.all_eq_true.1 List.all_takeWhile
  refine ⟨cs.takeWhile isBlank, ((cs.dropWhile isBlank).reverse.takeWhile isBlank).reverse, ?_,
    hall cs, fun c hc => hall _ c (List.mem_reverse.1 hc)⟩
  rw [List.append_assoc, trimChars, ← List.reverse_append, List.takeWhile_append_dropWhile,
    List.reverse_reverse, List.takeWhile_append_dropWhile]

/-- What is trimmed has no blanks around it. -/
theorem trim_trim (s : String) : trim (trim s) = trim s := by
  obtain ⟨front, back, hs, hfront, hback⟩ := exists_surround s.toList
  have htrim := trimChars_surround hfront hback (trimChars s.toList)
  rw [← hs] at htrim
  rw [trim, trim, String.toList_ofList, ← htrim]

/-- The pieces of a text between the characters that satisfy `sep`, empty pieces included. -/
def splitWhere (sep : Char → Bool) : List Char → List (List Char)
  | [] => [[]]
  | c :: cs =>
    if sep c then [] :: splitWhere sep cs
    else match splitWhere sep cs with
      | [] => [[c]]
      | piece :: pieces => (c :: piece) :: pieces

theorem splitWhere_ne_nil (sep : Char → Bool) (cs : List Char) : splitWhere sep cs ≠ [] := by
  cases cs with
  | nil => simp [splitWhere]
  | cons c cs =>
    rw [splitWhere]
    split
    · simp
    · split <;> simp

/-- A text without a separator is one piece. -/
theorem splitWhere_eq_singleton {sep : Char → Bool} {cs : List Char}
    (h : ∀ c ∈ cs, sep c = false) : splitWhere sep cs = [cs] := by
  induction cs with
  | nil => rfl
  | cons c cs ih =>
    rw [List.forall_mem_cons] at h
    rw [splitWhere, h.1, ih h.2]
    rfl

/-- The nonempty runs of characters between blanks. -/
def words (s : String) : List String :=
  ((splitWhere isBlank s.toList).filter (! ·.isEmpty)).map String.ofList

end LiveBinding.Text
