import LiveBinding.Text.Blank

/-!
# Markup tokens

A markup text is scanned into comments, closing tags, opening tags and runs of text. Every text
can be scanned: what is no comment and no tag is text, and a comment or a tag that is not closed
reaches to the end.

`Token.next` takes the first token off a nonempty text, and `Token.scan` takes tokens until
nothing is left. `length_next_le` says that each token uses at least one character.
-/

namespace LiveBinding.Markup

/-- The text before the first occurrence of `mark`, and the text behind it. -/
def cutAt? (mark : List Char) (cs : List Char) : Option (List Char × List Char) :=
  if mark.isPrefixOf cs then some ([], cs.drop mark.length)
  else match cs with
    | [] => none
    | c :: cs => (cutAt? mark cs).map fun cut => (c :: cut.1, cut.2)

theorem length_le_of_cutAt? {mark cs before after : List Char}
    (h : cutAt? mark cs = some (before, after)) : after.length ≤ cs.length := by
  induction cs generalizing before after with
  | nil =>
    unfold cutAt? at h
    split at h
    · simp only [Option.some.injEq, Prod.mk.injEq] at h
      simp [← h.2]
    · simp at h
  | cons c cs ih =>
    unfold cutAt? at h
    split at h
    · simp only [Option.some.injEq, Prod.mk.injEq] at h
      rw [← h.2]
      simp
    · obtain ⟨⟨b, a⟩, hcut, he⟩ := Option.map_eq_some_iff.1 h
      simp only [Prod.mk.injEq] at he
      rw [← he.2]
      exact Nat.le_succ_of_le (ih hcut)

/-- A token of a markup text. The attributes of an opening tag are all those written, repeated
names included. -/
inductive Token where
  | opening (tag : String) (attributes : List (String × String)) (selfClosing : Bool)
  | closing (tag : String)
  | comment (s : String)
  | text (s : String)
  deriving DecidableEq, Repr

namespace Token

/-- The characters of a tag. -/
def isTagChar (c : Char) : Bool := c.isAlphanum || c == '-'

/-- The characters of an attribute name. -/
def isNameChar (c : Char) : Bool :=
  !Text.isBlank c && !(['=', '>', '/', '"', '\''].contains c)

/-- The characters of an attribute value without quotes. -/
def isBareChar (c : Char) : Bool := !Text.isBlank c && c != '>'

/-- Lower case of the letters `A` to `Z`. -/
def lower (cs : List Char) : String := String.ofList (cs.map Char.toLower)

/-- A value between quotes: it ends at the next quote of the same sort or at the end of the
text. -/
def quotedValue (quote : Char) (cs : List Char) : List Char × List Char :=
  (cs.takeWhile (· != quote), (cs.dropWhile (· != quote)).tail)

/-- An attribute value, quoted or bare. -/
def value : List Char → List Char × List Char
  | '"' :: cs => quotedValue '"' cs
  | '\'' :: cs => quotedValue '\'' cs
  | cs => (cs.takeWhile isBareChar, cs.dropWhile isBareChar)

/-- What stands behind an attribute name: `=` and a value, or nothing, which is the empty value. -/
def assigned (cs : List Char) : List Char × List Char :=
  match cs.dropWhile Text.isBlank with
  | '=' :: cs => value (cs.dropWhile Text.isBlank)
  | cs => ([], cs)

theorem length_dropWhile_le (p : Char → Bool) (cs : List Char) :
    (cs.dropWhile p).length ≤ cs.length :=
  (List.dropWhile_suffix p).length_le

theorem length_quotedValue_le (quote : Char) (cs : List Char) :
    (quotedValue quote cs).2.length ≤ cs.length := by
  have := length_dropWhile_le (· != quote) cs
  simp only [quotedValue, List.length_tail]
  omega

theorem length_value_le (cs : List Char) : (value cs).2.length ≤ cs.length := by
  unfold value
  split
  · exact Nat.le_succ_of_le (length_quotedValue_le _ _)
  · exact Nat.le_succ_of_le (length_quotedValue_le _ _)
  · exact length_dropWhile_le _ _

theorem length_assigned_le (cs : List Char) : (assigned cs).2.length ≤ cs.length := by
  have hcs := length_dropWhile_le Text.isBlank cs
  unfold assigned
  split
  · rename_i rest h
    rw [h] at hcs
    have h₁ := length_value_le (rest.dropWhile Text.isBlank)
    have h₂ := length_dropWhile_le Text.isBlank rest
    simp only [List.length_cons] at hcs
    omega
  · exact hcs

/-- The rest of an opening tag: its attributes, whether it closes itself, and the text behind it.
A character that starts no attribute name is skipped. -/
def attributes (cs : List Char) : List (String × String) × Bool × List Char :=
  match _h : cs.dropWhile Text.isBlank with
  | [] => ([], false, [])
  | '/' :: '>' :: rest => ([], true, rest)
  | '>' :: rest => ([], false, rest)
  | c :: rest =>
    if isNameChar c then
      let written := assigned (rest.dropWhile isNameChar)
      let more := attributes written.2
      ((String.ofList (c :: rest.takeWhile isNameChar), String.ofList written.1) :: more.1, more.2)
    else attributes rest
termination_by cs.length
decreasing_by
  all_goals
    have hcs := length_dropWhile_le Text.isBlank cs
    rw [_h, List.length_cons] at hcs
  · have h₁ := length_assigned_le (rest.dropWhile isNameChar)
    have h₂ := length_dropWhile_le isNameChar rest
    omega
  · omega

theorem length_attributes_le (cs : List Char) : (attributes cs).2.2.length ≤ cs.length := by
  fun_induction attributes cs with
  | case1 => simp
  | case2 cs rest h | case3 cs rest h =>
    have hcs := length_dropWhile_le Text.isBlank cs
    simp only [h, List.length_cons] at hcs
    show rest.length ≤ cs.length
    omega
  | case4 cs c rest _ _ h _ written more ih =>
    have hcs := length_dropWhile_le Text.isBlank cs
    have h₁ := length_assigned_le (rest.dropWhile isNameChar)
    have h₂ := length_dropWhile_le isNameChar rest
    simp only [h, List.length_cons] at hcs
    show more.2.2.length ≤ cs.length
    have h₃ : more.2.2.length ≤ written.2.length := ih
    have h₄ : written.2.length ≤ (rest.dropWhile isNameChar).length := h₁
    omega
  | case5 cs c rest _ _ h _ ih =>
    have hcs := length_dropWhile_le Text.isBlank cs
    simp only [h, List.length_cons] at hcs
    omega

/-- A run of text: its first character is taken as it is, and it ends before the next `<`. -/
def textRun (c : Char) (cs : List Char) : Token × List Char :=
  (.text (String.ofList (c :: cs.takeWhile (· != '<'))), cs.dropWhile (· != '<'))

/-- A comment, behind its opening mark. -/
def commentRun (cs : List Char) : Token × List Char :=
  match cutAt? ['-', '-', '>'] cs with
  | some (s, rest) => (.comment (String.ofList s), rest)
  | none => (.comment (String.ofList cs), [])

/-- A closing tag, behind its opening mark. -/
def closingRun (cs : List Char) : Token × List Char :=
  match cutAt? ['>'] cs with
  | some (tag, rest) => (.closing (lower (Text.trimChars tag)), rest)
  | none => (.closing (lower (Text.trimChars cs)), [])

/-- An opening tag, behind its `<`. -/
def openingRun (cs : List Char) : Token × List Char :=
  let written := attributes (cs.dropWhile isTagChar)
  (.opening (lower (cs.takeWhile isTagChar)) written.1 written.2.1, written.2.2)

/-- The first token of a nonempty text, and the text behind it. -/
def next (c : Char) (cs : List Char) : Token × List Char :=
  match c, cs with
  | '<', '!' :: '-' :: '-' :: rest => commentRun rest
  | '<', '/' :: rest => closingRun rest
  | '<', letter :: rest =>
    if letter.isAlpha then openingRun (letter :: rest) else textRun '<' (letter :: rest)
  | c, cs => textRun c cs

theorem length_textRun_le (c : Char) (cs : List Char) : (textRun c cs).2.length ≤ cs.length :=
  length_dropWhile_le _ _

theorem length_commentRun_le (cs : List Char) : (commentRun cs).2.length ≤ cs.length := by
  unfold commentRun
  split
  · exact length_le_of_cutAt? ‹_›
  · simp

theorem length_closingRun_le (cs : List Char) : (closingRun cs).2.length ≤ cs.length := by
  unfold closingRun
  split
  · exact length_le_of_cutAt? ‹_›
  · simp

theorem length_openingRun_le (cs : List Char) : (openingRun cs).2.length ≤ cs.length :=
  Nat.le_trans (length_attributes_le _) (length_dropWhile_le _ _)

/-- Every token uses at least one character. -/
theorem length_next_le (c : Char) (cs : List Char) : (next c cs).2.length ≤ cs.length := by
  unfold next
  split
  · rename_i rest
    have := length_commentRun_le rest
    simp only [List.length_cons]
    omega
  · exact Nat.le_succ_of_le (length_closingRun_le _)
  · split
    · exact length_openingRun_le _
    · exact length_textRun_le _ _
  · exact length_textRun_le _ _

/-- The tokens of a text, in order. -/
def scan : List Char → List Token
  | [] => []
  | c :: cs => (next c cs).1 :: scan (next c cs).2
termination_by cs => cs.length
decreasing_by exact Nat.lt_succ_of_le (length_next_le c cs)

end Token

end LiveBinding.Markup
