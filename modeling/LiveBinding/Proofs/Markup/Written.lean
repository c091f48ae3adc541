import LiveBinding.Proofs.Markup.Canonical

/-!
# How tokens are written

The scanner takes one token after the other off a text. What it takes is said here without it: a
comment ends at the first end mark, a run of text before the next `<`, a name where no character of
a name follows, a value at its second quote or, without quotes, before a blank or `>`. Such a piece
is written in front of other characters, and what may stand behind it is part of how it is written.

Every text is written in one way, and the scanner finds it.

Main statements:

* `Token.exists_written_next`, `Token.next_of_written`: the first token of a text;
* `Token.writtenAll_iff`: the tokens of a text are those that are written in it, one after the
  other.
-/

namespace LiveBinding.Markup

/-- Whether a text starts with `<` and a letter, with `</` or with `<!--`. -/
def opensMark : List Char → Bool
  | '<' :: cs => cs.head?.any (fun c => c.isAlpha || c == '/') || ['!', '-', '-'].isPrefixOf cs
  | _ => false

/-- A text at which a run of text ends: it is empty or starts with `<`. -/
def Bounded (cs : List Char) : Prop := ∀ c ∈ cs.head?, c = '<'

theorem bounded_nil : Bounded [] := nofun

theorem bounded_cons (cs : List Char) : Bounded ('<' :: cs) := by
  rintro c ⟨⟩
  rfl

namespace Token

/-- How the value of an attribute is written: between quotes, of which the second is missing only at
the end of a text, or bare. -/
inductive ValueWritten (v behind : List Char) : List Char → Prop
  | quoted {quote : Char} (hquote : quote = '"' ∨ quote = '\'') (hv : quote ∉ v) :
    ValueWritten v behind (quote :: v ++ [quote])
  | unclosed {quote : Char} (hquote : quote = '"' ∨ quote = '\'') (hv : quote ∉ v)
    (hbehind : behind = []) : ValueWritten v behind (quote :: v)
  | bare (hv : ∀ c ∈ v, isBareChar c = true)
    (hfirst : ∀ c ∈ (v ++ behind).head?, c ≠ '"' ∧ c ≠ '\'')
    (hbehind : ∀ c ∈ behind.head?, isBareChar c = false) : ValueWritten v behind v

/-- How a value is assigned to a name: it stands behind `=`, or nothing is assigned, which is the
empty value. -/
inductive AssignedWritten (v behind : List Char) : List Char → Prop
  | value {before after cs : List Char} (hbefore : ∀ c ∈ before, Text.isBlank c = true)
    (hafter : ∀ c ∈ after, Text.isBlank c = true)
    (hstop : ∀ c ∈ (cs ++ behind).head?, Text.isBlank c = false)
    (hcs : ValueWritten v behind cs) :
    AssignedWritten v behind (before ++ '=' :: (after ++ cs))
  | empty {blanks : List Char} (hblanks : ∀ c ∈ blanks, Text.isBlank c = true) (hv : v = [])
    (hbehind : ∀ c ∈ behind.head?, Text.isBlank c = false ∧ c ≠ '=') :
    AssignedWritten v behind blanks

/-- How the attributes of an opening tag are written, and how the tag ends: with `>`, with `/>`,
which closes the element, or with the text. Between the attributes there may be characters that
belong to none. -/
inductive AttributesWritten (behind : List Char) :
    List (String × String) → Bool → List Char → Prop
  | closed {blanks : List Char} (hblanks : ∀ c ∈ blanks, Text.isBlank c = true) :
    AttributesWritten behind [] false (blanks ++ ['>'])
  | selfClosed {blanks : List Char} (hblanks : ∀ c ∈ blanks, Text.isBlank c = true) :
    AttributesWritten behind [] true (blanks ++ ['/', '>'])
  | unclosed {blanks : List Char} (hblanks : ∀ c ∈ blanks, Text.isBlank c = true)
    (hbehind : behind = []) : AttributesWritten behind [] false blanks
  | skip {blanks cs : List Char} {c : Char} {as : List (String × String)} {selfClosing : Bool}
    (hblanks : ∀ c ∈ blanks, Text.isBlank c = true) (hc : c ∈ ['=', '/', '"', '\''])
    (hslash : c = '/' → (cs ++ behind).head? ≠ some '>')
    (h : AttributesWritten behind as selfClosing cs) :
    AttributesWritten behind as selfClosing (blanks ++ c :: cs)
  | named {blanks name v assigned cs : List Char} {as : List (String × String)}
    {selfClosing : Bool} (hblanks : ∀ c ∈ blanks, Text.isBlank c = true) (hne : name ≠ [])
    (hname : ∀ c ∈ name, isNameChar c = true)
    (hstop : ∀ c ∈ (assigned ++ (cs ++ behind)).head?, isNameChar c = false)
    (hassigned : AssignedWritten v (cs ++ behind) assigned)
    (h : AttributesWritten behind as selfClosing cs) :
    AttributesWritten behind ((.ofList name, .ofList v) :: as) selfClosing
      (blanks ++ (name ++ (assigned ++ cs)))

/-- How a token is written in front of other characters. Only at the end of a text may a comment or
a tag be unclosed. A run of text goes up to the next `<`, and begins with one only if this opens no
mark. -/
inductive Written (behind : List Char) : Token → List Char → Prop
  | text {s : String} {c : Char} {cs : List Char} (hs : s.toList = c :: cs) (hcs : '<' ∉ cs)
    (hopen : opensMark (c :: (cs ++ behind)) = false) (hbehind : Bounded behind) :
    Written behind (.text s) (c :: cs)
  | comment {s : String} (hs : ¬ ['-', '-', '>'] <:+: s.toList) :
    Written behind (.comment s) ('<' :: '!' :: '-' :: '-' :: s.toList ++ ['-', '-', '>'])
  | unclosedComment {s : String} (hs : ¬ ['-', '-', '>'] <:+: s.toList) (hbehind : behind = []) :
    Written behind (.comment s) ('<' :: '!' :: '-' :: '-' :: s.toList)
  | closing {name : List Char} (hname : '>' ∉ name) :
    Written behind (.closing (lower (Text.trimChars name))) ('<' :: '/' :: name ++ ['>'])
  | unclosedClosing {name : List Char} (hname : '>' ∉ name) (hbehind : behind = []) :
    Written behind (.closing (lower (Text.trimChars name))) ('<' :: '/' :: name)
  | opening {letter : Char} {name cs : List Char} {as : List (String × String)}
    {selfClosing : Bool} (hletter : letter.isAlpha = true)
    (hname : ∀ c ∈ name, isTagChar c = true)
    (hstop : ∀ c ∈ (cs ++ behind).head?, isTagChar c = false)
    (hcs : AttributesWritten behind as selfClosing cs) :
    Written behind (.opening (lower (letter :: name)) as selfClosing)
      ('<' :: letter :: name ++ cs)

/-- How tokens are written, one after the other. -/
inductive WrittenAll : List Token → List Char → Prop
  | nil : WrittenAll [] []
  | cons {t : Token} {ts : List Token} {piece behind : List Char} (ht : Written behind t piece)
    (hts : WrittenAll ts behind) : WrittenAll (t :: ts) (piece ++ behind)

end Token

/-! ## The scanner reads what is written -/

section Span

variable {p : Char → Bool} {cs rest : List Char}

theorem takeWhile_append_of_head? (h : ∀ c ∈ rest.head?, p c = false) :
    (cs ++ rest).takeWhile p = cs.takeWhile p := by
  induction cs with
  | nil =>
    cases rest with
    | nil => rfl
    | cons c rest => simp [h c rfl]
  | cons c cs ih =>
    simp only [List.cons_append, List.takeWhile_cons, ih]

theorem dropWhile_append_of_head? (h : ∀ c ∈ rest.head?, p c = false) :
    (cs ++ rest).dropWhile p = cs.dropWhile p ++ rest := by
  induction cs with
  | nil =>
    cases rest with
    | nil => rfl
    | cons c rest => simp [h c rfl]
  | cons c cs ih =>
    simp only [List.cons_append, List.dropWhile_cons, ih]
    split <;> rfl

end Span

/-- A text is cut where its first tail that starts with the mark begins. -/
theorem cutAt?_append {mark cs rest : List Char}
    (h : ∀ tail, tail <:+ cs → tail ≠ [] → ¬ mark <+: tail ++ (mark ++ rest)) :
    cutAt? mark (cs ++ (mark ++ rest)) = some (cs, rest) := by
  induction cs with
  | nil =>
    have hhere : mark.isPrefixOf (mark ++ rest) = true :=
      List.isPrefixOf_iff_prefix.2 (List.prefix_append mark rest)
    unfold cutAt?
    rw [List.nil_append, if_pos hhere, List.drop_left]
  | cons c cs ih =>
    have hhere : ¬ mark.isPrefixOf (c :: (cs ++ (mark ++ rest))) = true := fun hp =>
      h (c :: cs) (List.suffix_refl _) (List.cons_ne_nil c cs) (List.isPrefixOf_iff_prefix.1 hp)
    have hlater := ih fun tail ht => h tail (ht.trans (List.suffix_cons c cs))
    rw [List.cons_append]
    unfold cutAt?
    rw [if_neg hhere]
    simp only [hlater, Option.map_some]

/-- A text that holds no mark is not cut. -/
theorem cutAt?_eq_none {mark cs : List Char} (h : ¬ mark <:+: cs) : cutAt? mark cs = none := by
  refine Option.eq_none_iff_forall_ne_some.2 fun cut hcut => h ?_
  exact ⟨cut.1, cut.2, by rw [List.append_assoc, ← eq_append_of_cutAt? hcut]⟩

namespace Token

/-- Where no mark opens, a run of text starts. -/
theorem next_of_opensMark_eq_false {c : Char} {cs : List Char} (h : opensMark (c :: cs) = false) :
    next c cs = textRun c cs := by
  unfold next
  split
  · simp [opensMark] at h
  · simp [opensMark] at h
  · rename_i letter rest
    simp [opensMark] at h
    simp [h]
  · rfl

/-- A letter behind `<` begins an opening tag. -/
theorem next_of_isAlpha {letter : Char} (h : letter.isAlpha = true) (cs : List Char) :
    next '<' (letter :: cs) = openingRun (letter :: cs) := by
  unfold next
  split
  · rename_i heq
    rw [(List.cons.inj heq).1] at h
    exact nomatch h
  · rename_i heq
    rw [(List.cons.inj heq).1] at h
    exact nomatch h
  · rename_i heq
    obtain ⟨rfl, rfl⟩ := List.cons.inj heq
    rw [if_pos h]
  · rename_i hno
    exact (hno _ _ rfl rfl).elim

theorem scan_cons (c : Char) (cs : List Char) :
    scan (c :: cs) = (next c cs).1 :: scan (next c cs).2 := by
  rw [scan]

/-- The end mark of a comment begins behind the comment, also when the comment ends in dashes. -/
theorem commentRun_append {cs : List Char} (h : ¬ ['-', '-', '>'] <:+: cs) (rest : List Char) :
    commentRun (cs ++ '-' :: '-' :: '>' :: rest) = (.comment (String.ofList cs), rest) := by
  have hcut : cutAt? ['-', '-', '>'] (cs ++ (['-', '-', '>'] ++ rest)) = some (cs, rest) := by
    refine cutAt?_append fun tail htail hne hp => ?_
    -- One or two characters before the end mark cannot begin a mark: its `>` would be a dash.
    rcases tail with _ | ⟨a, _ | ⟨b, _ | ⟨c, tail⟩⟩⟩
    · exact hne rfl
    · simp at hp
    · simp at hp
    · simp only [List.cons_append, List.cons_prefix_cons] at hp
      obtain ⟨rfl, rfl, rfl, -⟩ := hp
      have hhere : ['-', '-', '>'] <+: '-' :: '-' :: '>' :: tail := by simp
      exact h (hhere.isInfix.trans htail.isInfix)
  simp only [List.cons_append, List.nil_append] at hcut
  simp only [commentRun, hcut]

theorem dropWhile_blanks_append {blanks rest : List Char}
    (hblanks : ∀ c ∈ blanks, Text.isBlank c = true)
    (hrest : ∀ c ∈ rest.head?, Text.isBlank c = false) :
    (blanks ++ rest).dropWhile Text.isBlank = rest := by
  rw [dropWhile_append_of_head? hrest, List.dropWhile_eq_nil_iff.2 hblanks, List.nil_append]

theorem value_of_written {v behind cs : List Char} (h : ValueWritten v behind cs) :
    value (cs ++ behind) = (v, behind) := by
  -- Between quotes a value is taken as it is, whichever sort they are of.
  have hquoted {quote : Char} (hquote : quote = '"' ∨ quote = '\'') (cs : List Char) :
      value (quote :: cs) = quotedValue quote cs := by
    rcases hquote with rfl | rfl <;> rfl
  have hrun {quote : Char} (hv : quote ∉ v) : ∀ c ∈ v, (c != quote) = true := fun c hc => by
    simpa using fun he : c = quote => hv (he ▸ hc)
  cases h with
  | @quoted quote hquote hv =>
    have hstop : ∀ c ∈ (quote :: behind).head?, (c != quote) = false := by
      rintro c ⟨⟩
      simp
    rw [List.cons_append, List.cons_append, hquoted hquote, List.append_assoc,
      List.singleton_append, quotedValue,
      takeWhile_append_of_head? hstop, dropWhile_append_of_head? hstop,
      List.takeWhile_eq_self_iff.2 (hrun hv), List.dropWhile_eq_nil_iff.2 (hrun hv)]
    rfl
  | unclosed hquote hv hbehind =>
    subst hbehind
    rw [List.append_nil, hquoted hquote, quotedValue, List.takeWhile_eq_self_iff.2 (hrun hv),
      List.dropWhile_eq_nil_iff.2 (hrun hv)]
    rfl
  | bare hv hfirst hbehind =>
    unfold value
    split
    · rename_i heq
      exact absurd rfl (hfirst '"' (heq ▸ rfl)).1
    · rename_i heq
      exact absurd rfl (hfirst '\'' (heq ▸ rfl)).2
    · rw [takeWhile_append_of_head? hbehind, dropWhile_append_of_head? hbehind,
        List.takeWhile_eq_self_iff.2 hv, List.dropWhile_eq_nil_iff.2 hv, List.nil_append]

theorem assigned_of_written {v behind cs : List Char} (h : AssignedWritten v behind cs) :
    assigned (cs ++ behind) = (v, behind) := by
  cases h with
  | @value before after cs hbefore hafter hstop hcs =>
    have hsign : ∀ c ∈ ('=' :: (after ++ (cs ++ behind))).head?, Text.isBlank c = false := by
      rintro c ⟨⟩
      rfl
    rw [List.append_assoc, List.cons_append, List.append_assoc, assigned,
      dropWhile_blanks_append hbefore hsign]
    change value ((after ++ (cs ++ behind)).dropWhile Text.isBlank) = _
    rw [dropWhile_blanks_append hafter hstop, value_of_written hcs]
  | empty hblanks hv hbehind =>
    subst hv
    rw [assigned, dropWhile_blanks_append hblanks fun c hc => (hbehind c hc).1]
    split
    · exact absurd rfl (hbehind '=' rfl).2
    · rfl

section Attributes

variable {cs rest : List Char}

theorem attributes_of_nil (h : cs.dropWhile Text.isBlank = []) :
    attributes cs = ([], false, []) := by
  unfold attributes
  split
  · rfl
  all_goals
    rename_i heq
    cases h.symm.trans heq

theorem attributes_of_selfClosed (h : cs.dropWhile Text.isBlank = '/' :: '>' :: rest) :
    attributes cs = ([], true, rest) := by
  unfold attributes
  split
  · rename_i heq
    cases h.symm.trans heq
  · rename_i heq
    cases h.symm.trans heq
    rfl
  · rename_i heq
    cases h.symm.trans heq
  · rename_i hslash _ heq
    cases h.symm.trans heq
    exact (hslash rest rfl rfl).elim

theorem attributes_of_closed (h : cs.dropWhile Text.isBlank = '>' :: rest) :
    attributes cs = ([], false, rest) := by
  unfold attributes
  split
  · rename_i heq
    cases h.symm.trans heq
  · rename_i heq
    cases h.symm.trans heq
  · rename_i heq
    cases h.symm.trans heq
    rfl
  · rename_i hclose heq
    cases h.symm.trans heq
    exact (hclose rfl).elim

/-- Behind the blanks stands a character that ends no tag: it begins a name, or is skipped. -/
theorem attributes_of_cons {c : Char} (h : cs.dropWhile Text.isBlank = c :: rest)
    (hclose : c ≠ '>') (hslash : c = '/' → rest.head? ≠ some '>') :
    attributes cs = if isNameChar c then
      ((String.ofList (c :: rest.takeWhile isNameChar),
          String.ofList (assigned (rest.dropWhile isNameChar)).1) ::
        (attributes (assigned (rest.dropWhile isNameChar)).2).1,
      (attributes (assigned (rest.dropWhile isNameChar)).2).2)
    else attributes rest := by
  conv_lhs => unfold attributes
  split
  · rename_i heq
    cases h.symm.trans heq
  · rename_i heq
    cases h.symm.trans heq
    exact absurd rfl (hslash rfl)
  · rename_i heq
    cases h.symm.trans heq
    exact absurd rfl hclose
  · rename_i heq
    cases h.symm.trans heq
    rfl

end Attributes

theorem attributes_of_written {behind cs : List Char} {as : List (String × String)}
    {selfClosing : Bool} (h : AttributesWritten behind as selfClosing cs) :
    attributes (cs ++ behind) = (as, selfClosing, behind) := by
  induction h with
  | closed hblanks =>
    refine attributes_of_closed ?_
    rw [List.append_assoc]
    exact dropWhile_blanks_append hblanks (by rintro c ⟨⟩; rfl)
  | selfClosed hblanks =>
    refine attributes_of_selfClosed ?_
    rw [List.append_assoc]
    exact dropWhile_blanks_append hblanks (by rintro c ⟨⟩; rfl)
  | unclosed hblanks hbehind =>
    subst hbehind
    exact attributes_of_nil (by simpa using hblanks)
  | @skip blanks cs c as selfClosing hblanks hc hslash _ ih =>
    have hmark : Text.isBlank c = false ∧ c ≠ '>' ∧ isNameChar c = false := by
      simp only [List.mem_cons, List.not_mem_nil, or_false] at hc
      rcases hc with rfl | rfl | rfl | rfl <;> decide
    obtain ⟨hblank, hclose, hname⟩ := hmark
    have hdrop : (blanks ++ c :: cs ++ behind).dropWhile Text.isBlank = c :: (cs ++ behind) := by
      rw [List.append_assoc]
      exact dropWhile_blanks_append hblanks (by rintro d ⟨⟩; exact hblank)
    rw [attributes_of_cons hdrop hclose hslash, if_neg (by simp [hname]), ih]
  | @named blanks name v assignment cs as selfClosing hblanks hne hname hstop hassigned _ ih =>
    obtain ⟨c, name, rfl⟩ := List.exists_cons_of_ne_nil hne
    obtain ⟨hc, hname⟩ := List.forall_mem_cons.1 hname
    have hmark : Text.isBlank c = false ∧ c ∉ ['=', '>', '/', '"', '\''] := by
      simpa [isNameChar] using hc
    have hdrop : (blanks ++ (c :: name ++ (assignment ++ cs)) ++ behind).dropWhile Text.isBlank =
        c :: (name ++ (assignment ++ (cs ++ behind))) := by
      simp only [List.append_assoc, List.cons_append]
      exact dropWhile_blanks_append hblanks (by rintro d ⟨⟩; exact hmark.1)
    simp only [List.mem_cons, List.not_mem_nil, or_false, not_or] at hmark
    obtain ⟨-, -, hclose, hslash, -⟩ := hmark
    rw [attributes_of_cons hdrop hclose fun he => absurd he hslash, if_pos hc,
      takeWhile_append_of_head? hstop, dropWhile_append_of_head? hstop,
      List.takeWhile_eq_self_iff.2 hname, List.dropWhile_eq_nil_iff.2 hname, List.nil_append,
      assigned_of_written hassigned, ih]

/-- What is written is the first token of the text. -/
theorem next_of_written {t : Token} {piece behind : List Char} (h : Written behind t piece) :
    ∃ c cs, piece ++ behind = c :: cs ∧ next c cs = (t, behind) := by
  cases h with
  | @text s c cs hs hcs hopen hbehind =>
    have hrun : ∀ d ∈ cs, (d != '<') = true := fun d hd => by
      simpa using fun he : d = '<' => hcs (he ▸ hd)
    have hstop : ∀ d ∈ behind.head?, (d != '<') = false := fun d hd => by simp [hbehind d hd]
    refine ⟨c, cs ++ behind, rfl, ?_⟩
    rw [next_of_opensMark_eq_false hopen, textRun, takeWhile_append_of_head? hstop,
      dropWhile_append_of_head? hstop, List.takeWhile_eq_self_iff.2 hrun,
      List.dropWhile_eq_nil_iff.2 hrun, ← hs, String.ofList_toList, List.nil_append]
  | @comment s hs =>
    refine ⟨'<', _, rfl, ?_⟩
    have hrun := commentRun_append hs behind
    rw [String.ofList_toList] at hrun
    simpa [next] using hrun
  | @unclosedComment s hs hbehind =>
    subst hbehind
    refine ⟨'<', _, rfl, ?_⟩
    simp [next, commentRun, cutAt?_eq_none hs]
  | @closing name hname =>
    have hcut : cutAt? ['>'] (name ++ (['>'] ++ behind)) = some (name, behind) := by
      refine cutAt?_append fun tail htail hne hp => ?_
      obtain ⟨c, tail, rfl⟩ := List.exists_cons_of_ne_nil hne
      obtain rfl : '>' = c := (List.cons_prefix_cons.1 hp).1
      exact hname (htail.subset (List.mem_cons_self ..))
    simp only [List.singleton_append] at hcut
    refine ⟨'<', _, rfl, ?_⟩
    simp [next, closingRun, hcut]
  | @unclosedClosing name hname hbehind =>
    subst hbehind
    have hcut : cutAt? ['>'] name = none :=
      cutAt?_eq_none fun hinfix => hname ((List.singleton_infix_iff _ _).1 hinfix)
    refine ⟨'<', _, rfl, ?_⟩
    simp [next, closingRun, hcut]
  | @opening letter name cs as selfClosing hletter hname hstop hcs =>
    have hfirst : isTagChar letter = true := by simp [isTagChar, Char.isAlphanum, hletter]
    have hrun : ∀ c ∈ letter :: name, isTagChar c = true :=
      List.forall_mem_cons.2 ⟨hfirst, hname⟩
    have hopening : openingRun (letter :: name ++ (cs ++ behind)) =
        (.opening (lower (letter :: name)) as selfClosing, behind) := by
      rw [openingRun, takeWhile_append_of_head? hstop, dropWhile_append_of_head? hstop,
        List.takeWhile_eq_self_iff.2 hrun, List.dropWhile_eq_nil_iff.2 hrun, List.nil_append,
        attributes_of_written hcs]
    refine ⟨'<', letter :: name ++ (cs ++ behind), by simp, ?_⟩
    rw [← hopening]
    exact next_of_isAlpha hletter _

theorem scan_append_of_written {t : Token} {piece behind : List Char}
    (h : Written behind t piece) : scan (piece ++ behind) = t :: scan behind := by
  obtain ⟨c, cs, hcs, hnext⟩ := next_of_written h
  rw [hcs, scan_cons, hnext]

theorem scan_of_writtenAll {ts : List Token} {cs : List Char} (h : WrittenAll ts cs) :
    scan cs = ts := by
  induction h with
  | nil => rw [scan]
  | cons ht _ ih => rw [scan_append_of_written ht, ih]

/-! ## What the scanner reads is written -/

/-- Where characters of a sort end, there is none of the sort. -/
theorem eq_false_of_mem_head?_dropWhile {p : Char → Bool} {cs : List Char} {c : Char}
    (h : c ∈ (cs.dropWhile p).head?) : p c = false := by
  have hnot := List.head?_dropWhile_not p cs
  rwa [Option.mem_def.1 h] at hnot

theorem eq_false_of_dropWhile_eq_cons {p : Char → Bool} {c : Char} {cs rest : List Char}
    (h : cs.dropWhile p = c :: rest) : p c = false :=
  eq_false_of_mem_head?_dropWhile (Option.mem_def.2 (congrArg List.head? h))

theorem forall_mem_takeWhile (p : Char → Bool) (cs : List Char) :
    ∀ c ∈ cs.takeWhile p, p c = true :=
  fun _ hc => List.mem_takeWhile_imp hc

theorem blanks_append {cs rest : List Char} (h : cs.dropWhile Text.isBlank = rest) :
    cs.takeWhile Text.isBlank ++ rest = cs :=
  h ▸ List.takeWhile_append_dropWhile

theorem exists_written_quotedValue {quote : Char} (hquote : quote = '"' ∨ quote = '\'')
    (cs : List Char) : ∃ piece, quote :: cs = piece ++ (quotedValue quote cs).2 ∧
      ValueWritten (quotedValue quote cs).1 (quotedValue quote cs).2 piece := by
  have hv : quote ∉ cs.takeWhile (· != quote) := fun hmem => by
    simpa using forall_mem_takeWhile _ _ _ hmem
  have hcs := List.takeWhile_append_dropWhile (p := (· != quote)) (l := cs)
  unfold quotedValue
  cases hdrop : cs.dropWhile (· != quote) with
  | nil =>
    rw [hdrop, List.append_nil] at hcs
    refine ⟨quote :: cs.takeWhile (· != quote), ?_, .unclosed hquote hv rfl⟩
    rw [List.tail_nil, List.append_nil, hcs]
  | cons c rest =>
    obtain rfl : c = quote := by simpa using eq_false_of_dropWhile_eq_cons hdrop
    refine ⟨c :: (cs.takeWhile (· != c) ++ [c]), ?_, .quoted hquote hv⟩
    rw [List.tail_cons, List.cons_append, List.append_assoc, List.singleton_append, ← hdrop, hcs]

theorem exists_written_value (cs : List Char) : ∃ piece, cs = piece ++ (value cs).2 ∧
    ValueWritten (value cs).1 (value cs).2 piece := by
  unfold value
  split
  · exact exists_written_quotedValue (.inl rfl) _
  · exact exists_written_quotedValue (.inr rfl) _
  · rename_i hdouble hsingle
    have hcs := List.takeWhile_append_dropWhile (p := isBareChar) (l := cs)
    refine ⟨_, hcs.symm, .bare (forall_mem_takeWhile _ _) (fun c hc => ?_)
      fun c hc => eq_false_of_mem_head?_dropWhile hc⟩
    obtain ⟨rest, hrest⟩ := List.head?_eq_some_iff.1 (hcs ▸ hc)
    exact ⟨fun he => hdouble rest (he ▸ hrest), fun he => hsingle rest (he ▸ hrest)⟩

theorem exists_written_assigned (cs : List Char) : ∃ piece, cs = piece ++ (assigned cs).2 ∧
    AssignedWritten (assigned cs).1 (assigned cs).2 piece := by
  unfold assigned
  split
  · rename_i rest hrest
    obtain ⟨piece, hpiece, hwritten⟩ := exists_written_value (rest.dropWhile Text.isBlank)
    refine ⟨_, ?_, .value (forall_mem_takeWhile Text.isBlank cs)
      (forall_mem_takeWhile Text.isBlank rest) (fun c hc => ?_) hwritten⟩
    · rw [List.append_assoc, List.cons_append, List.append_assoc, ← hpiece, blanks_append rfl,
        blanks_append hrest]
    · rw [← hpiece] at hc
      exact eq_false_of_mem_head?_dropWhile hc
  · rename_i hno
    refine ⟨_, (blanks_append rfl).symm, .empty (forall_mem_takeWhile _ _) rfl fun c hc =>
      ⟨eq_false_of_mem_head?_dropWhile hc, ?_⟩⟩
    rintro rfl
    obtain ⟨rest, hrest⟩ := List.head?_eq_some_iff.1 hc
    exact hno rest hrest

theorem exists_written_attributes (cs : List Char) : ∃ piece, cs = piece ++ (attributes cs).2.2 ∧
    AttributesWritten (attributes cs).2.2 (attributes cs).1 (attributes cs).2.1 piece := by
  -- The cases: the end of the text, the two ends of a tag, an attribute, and a character that
  -- belongs to none.
  fun_induction attributes cs with
  | case1 cs h =>
    exact ⟨cs, (List.append_nil cs).symm, .unclosed (by simpa using h) rfl⟩
  | case2 cs rest h =>
    refine ⟨_, ?_, .selfClosed (forall_mem_takeWhile Text.isBlank cs)⟩
    rw [List.append_assoc, List.cons_append, List.singleton_append, blanks_append h]
  | case3 cs rest h =>
    refine ⟨_, ?_, .closed (forall_mem_takeWhile Text.isBlank cs)⟩
    rw [List.append_assoc, List.singleton_append, blanks_append h]
  | case4 cs c rest _ _ h hname written more ih =>
    obtain ⟨assignment, hassignment, hassigned⟩ :=
      exists_written_assigned (rest.dropWhile isNameChar)
    obtain ⟨piece, hpiece, hwritten⟩ := ih
    have hbehind : rest.dropWhile isNameChar = assignment ++ (piece ++ more.2.2) := by
      rw [← hpiece, ← hassignment]
    refine ⟨_, ?_, .named (forall_mem_takeWhile Text.isBlank cs) (List.cons_ne_nil _ _)
      (List.forall_mem_cons.2 ⟨hname, forall_mem_takeWhile _ rest⟩) (fun d hd => ?_)
        (hpiece ▸ hassigned) hwritten⟩
    · simp only [List.append_assoc, List.cons_append]
      rw [← hbehind, List.takeWhile_append_dropWhile, blanks_append h]
    · rw [← hbehind] at hd
      exact eq_false_of_mem_head?_dropWhile hd
  | case5 cs c rest hslash hclose h hname ih =>
    obtain ⟨piece, hpiece, hwritten⟩ := ih
    have hblank : Text.isBlank c = false := eq_false_of_dropWhile_eq_cons h
    refine ⟨cs.takeWhile Text.isBlank ++ c :: piece, ?_,
      .skip (forall_mem_takeWhile Text.isBlank cs) ?_ ?_ hwritten⟩
    · rw [List.append_assoc, List.cons_append, ← hpiece, blanks_append h]
    · have hmem : c ∈ ['=', '>', '/', '"', '\''] := by
        by_contra hother
        exact hname (by simpa [isNameChar, hblank] using hother)
      rcases List.mem_cons.1 hmem with rfl | hrest
      · exact List.mem_cons_self ..
      · exact List.mem_cons_of_mem _ ((List.mem_cons.1 hrest).resolve_left hclose)
    · rintro rfl hhead
      obtain ⟨more, hmore⟩ := List.head?_eq_some_iff.1 hhead
      exact hslash more rfl (hpiece.trans hmore)

theorem exists_written_textRun {c : Char} {cs : List Char} (h : opensMark (c :: cs) = false) :
    ∃ piece, c :: cs = piece ++ (textRun c cs).2 ∧
      Written (textRun c cs).2 (textRun c cs).1 piece := by
  have hcs := List.takeWhile_append_dropWhile (p := (· != '<')) (l := cs)
  refine ⟨c :: cs.takeWhile (· != '<'), ?_, .text (String.toList_ofList ..) (fun hmem => ?_) ?_
    fun d hd => ?_⟩
  · rw [textRun, List.cons_append, hcs]
  · simpa using forall_mem_takeWhile _ _ _ hmem
  · rwa [textRun, hcs]
  · simpa using eq_false_of_mem_head?_dropWhile hd

theorem exists_written_commentRun (cs : List Char) : ∃ piece,
    '<' :: '!' :: '-' :: '-' :: cs = piece ++ (commentRun cs).2 ∧
      Written (commentRun cs).2 (commentRun cs).1 piece := by
  unfold commentRun
  split
  · rename_i s behind hcut
    have hs := not_infix_of_cutAt? (by simp) hcut
    rw [← String.toList_ofList (l := s)] at hs
    refine ⟨_, ?_, .comment hs⟩
    rw [eq_append_of_cutAt? hcut]
    simp
  · rename_i hcut
    have hs := not_infix_of_cutAt?_eq_none hcut
    rw [← String.toList_ofList (l := cs)] at hs
    refine ⟨_, ?_, .unclosedComment hs rfl⟩
    simp

theorem exists_written_closingRun (cs : List Char) : ∃ piece,
    '<' :: '/' :: cs = piece ++ (closingRun cs).2 ∧
      Written (closingRun cs).2 (closingRun cs).1 piece := by
  unfold closingRun
  split
  · rename_i name behind hcut
    refine ⟨_, ?_, .closing fun hmem =>
      not_infix_of_cutAt? (by simp) hcut ((List.singleton_infix_iff _ _).2 hmem)⟩
    rw [eq_append_of_cutAt? hcut]
    simp
  · rename_i hcut
    exact ⟨_, (List.append_nil _).symm, .unclosedClosing (fun hmem =>
      not_infix_of_cutAt?_eq_none hcut ((List.singleton_infix_iff _ _).2 hmem)) rfl⟩

theorem exists_written_openingRun {letter : Char} (h : letter.isAlpha = true) (cs : List Char) :
    ∃ piece, '<' :: letter :: cs = piece ++ (openingRun (letter :: cs)).2 ∧
      Written (openingRun (letter :: cs)).2 (openingRun (letter :: cs)).1 piece := by
  have hletter : isTagChar letter = true := by simp [isTagChar, Char.isAlphanum, h]
  rw [openingRun, List.takeWhile_cons_of_pos hletter, List.dropWhile_cons_of_pos hletter]
  obtain ⟨piece, hpiece, hwritten⟩ := exists_written_attributes (cs.dropWhile isTagChar)
  refine ⟨_, ?_, .opening h (forall_mem_takeWhile isTagChar cs) (fun c hc => ?_) hwritten⟩
  · rw [List.append_assoc, ← hpiece, List.cons_append, List.cons_append,
      List.takeWhile_append_dropWhile]
  · dsimp only at hc
    rw [← hpiece] at hc
    exact eq_false_of_mem_head?_dropWhile hc

/-- The first token of a text is written at its start. -/
theorem exists_written_next (c : Char) (cs : List Char) :
    ∃ piece, c :: cs = piece ++ (next c cs).2 ∧ Written (next c cs).2 (next c cs).1 piece := by
  unfold next
  split
  · exact exists_written_commentRun _
  · exact exists_written_closingRun _
  -- A letter behind `<` begins an opening tag, and everything else is text.
  · rename_i letter rest hcomment hslash
    split
    · exact exists_written_openingRun ‹_› rest
    · rename_i hletter
      refine exists_written_textRun (Bool.or_eq_false_iff.2 ⟨?_, Bool.eq_false_iff.2 fun hp => ?_⟩)
      · simpa [hletter] using hslash
      · obtain ⟨more, hmore⟩ := List.isPrefixOf_iff_prefix.1 hp
        obtain ⟨rfl, rfl⟩ := List.cons.inj hmore
        exact hcomment more rfl rfl
  · rename_i hnone
    refine exists_written_textRun ?_
    unfold opensMark
    split
    · rename_i rest heq
      obtain ⟨rfl, rfl⟩ := List.cons.inj heq
      cases cs with
      | nil => rfl
      | cons letter rest => exact (hnone letter rest rfl rfl).elim
    · rfl

/-- The tokens of a text are written in it, one after the other. -/
theorem writtenAll_scan (cs : List Char) : WrittenAll (scan cs) cs := by
  fun_induction scan cs with
  | case1 => exact .nil
  | case2 c cs ih =>
    obtain ⟨piece, hpiece, hfirst⟩ := exists_written_next c cs
    exact hpiece ▸ .cons hfirst ih

/-- The tokens of a text are the only ones that are written in it. -/
theorem writtenAll_iff {ts : List Token} {cs : List Char} : WrittenAll ts cs ↔ scan cs = ts :=
  ⟨scan_of_writtenAll, fun h => h ▸ writtenAll_scan cs⟩

end Token

end LiveBinding.Markup
