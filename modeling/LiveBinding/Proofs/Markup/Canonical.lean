import Mathlib
import LiveBinding.Markup.Tree

/-!
# Canonical markup

Not every list of nodes is written the way a parser reads it: a tag may hold a blank, a comment
its own end mark, two texts may stand side by side. `Canonical` and `CanonicalAll` say that none
of this happens, at any depth.

Whatever text is parsed, the nodes are canonical. The scanner only makes `Token.WellFormed`
tokens, and a builder that is `Builder.Canonical`, open elements included, remains so with every
such token.

Main statements:

* `Token.wellFormed_of_mem_scan`: the tokens of any text are well formed;
* `mem_firstOfEachName_iff`, `nodup_firstOfEachName`: which attributes an element keeps;
* `Builder.Canonical.add`: one token keeps a builder canonical;
* `canonicalAll_ofTokens`: the nodes of well-formed tokens are canonical.
-/

namespace LiveBinding.Markup

/-! ## Canonical nodes -/

/-- A tag: a lower-case letter, then lower-case letters, digits and dashes. -/
def IsTag (tag : String) : Prop :=
  ∃ c ∈ tag.toList.head?, c.isLower = true ∧
    ∀ d ∈ tag.toList.tail, d.isLower = true ∨ d.isDigit = true ∨ d = '-'

/-- An attribute name: nonempty, without blanks, quotes and the marks of an opening tag. -/
def IsName (name : String) : Prop :=
  name ≠ "" ∧ ∀ c ∈ name.toList, Text.isBlank c = false ∧ c ∉ ['=', '>', '/', '"', '\'']

/-- Whether a node is a text. -/
def isText : Markup → Bool
  | .text _ => true
  | _ => false

/-- Two nodes that may stand side by side: not both are texts. -/
def Apart (a b : Markup) : Prop := ¬ (isText a = true ∧ isText b = true)

theorem Apart.symm {a b : Markup} (h : Apart a b) : Apart b a := fun hba => h hba.symm

mutual

/-- A node in the form that the parser gives it. -/
def Canonical : Markup → Prop
  | .text s => s ≠ ""
  | .comment s => ¬ ['-', '-', '>'] <:+: s.toList
  | .element tag attributes children =>
    IsTag tag ∧ (∀ a ∈ attributes, IsName a.1) ∧ (attributes.map (·.1)).Nodup ∧
      (isVoid tag = true → children = []) ∧ CanonicalAll children

/-- Canonical nodes, no two texts side by side. -/
def CanonicalAll : List Markup → Prop
  | [] => True
  | node :: nodes => Canonical node ∧ (∀ next ∈ nodes.head?, Apart node next) ∧ CanonicalAll nodes

end

instance : DecidablePred IsTag := fun tag =>
  decidable_of_iff ((tag.toList.head?.any Char.isLower &&
    tag.toList.tail.all fun d => d.isLower || d.isDigit || d == '-') = true) (by
      rw [IsTag]
      cases tag.toList <;> simp [or_assoc])

instance : DecidablePred IsName := fun name =>
  decidable_of_iff (name ≠ "" ∧ name.toList.all Token.isNameChar = true) (by
    simp [IsName, Token.isNameChar])

instance : DecidableRel Apart := fun a b =>
  inferInstanceAs (Decidable (¬ (isText a = true ∧ isText b = true)))

mutual

/-- Whether a node is canonical can be computed. -/
def decidableCanonical : (node : Markup) → Decidable (Canonical node)
  | .text s => inferInstanceAs (Decidable (s ≠ ""))
  | .comment s => inferInstanceAs (Decidable (¬ ['-', '-', '>'] <:+: s.toList))
  | .element tag attributes children =>
    have := decidableCanonicalAll children
    inferInstanceAs (Decidable (IsTag tag ∧ (∀ a ∈ attributes, IsName a.1) ∧
      (attributes.map (·.1)).Nodup ∧ (isVoid tag = true → children = []) ∧ CanonicalAll children))

/-- Whether several nodes are canonical can be computed. -/
def decidableCanonicalAll : (nodes : List Markup) → Decidable (CanonicalAll nodes)
  | [] => isTrue trivial
  | node :: nodes =>
    have := decidableCanonical node
    have := decidableCanonicalAll nodes
    inferInstanceAs (Decidable (Canonical node ∧ (∀ next ∈ nodes.head?, Apart node next) ∧
      CanonicalAll nodes))

end

instance : DecidablePred Canonical := decidableCanonical

instance : DecidablePred CanonicalAll := decidableCanonicalAll

theorem canonicalAll_iff {nodes : List Markup} :
    CanonicalAll nodes ↔ (∀ node ∈ nodes, Canonical node) ∧ nodes.IsChain Apart := by
  induction nodes with
  | nil => simp [CanonicalAll]
  | cons node nodes ih =>
    simp only [CanonicalAll, ih, List.forall_mem_cons, List.isChain_cons]
    tauto

/-- The order of the nodes does not matter, so the reversed lists of a builder can be looked at as
they are. -/
theorem canonicalAll_reverse {nodes : List Markup} :
    CanonicalAll nodes.reverse ↔ CanonicalAll nodes := by
  have hflip : (fun a b => Apart b a) = Apart := by
    funext a b
    exact propext ⟨Apart.symm, Apart.symm⟩
  simp only [canonicalAll_iff, List.mem_reverse, List.isChain_reverse, hflip]

/-! ## The tokens of a text -/

/-- A token that a builder can take: its tag, its attribute names, its comment or its text are
those of canonical nodes. Attribute names may be repeated. -/
def Token.WellFormed : Token → Prop
  | .opening tag attributes _ => IsTag tag ∧ ∀ a ∈ attributes, IsName a.1
  | .closing _ => True
  | .comment s => ¬ ['-', '-', '>'] <:+: s.toList
  | .text s => s ≠ ""

/-- A cut text is what stands before the mark, the mark and what stands behind it. -/
theorem eq_append_of_cutAt? {mark cs before after : List Char}
    (h : cutAt? mark cs = some (before, after)) : cs = before ++ (mark ++ after) := by
  fun_induction cutAt? mark cs generalizing before after with
  | case1 cs hmark =>
    obtain ⟨rfl, rfl⟩ := Prod.mk.inj (Option.some.inj h)
    exact List.prefix_iff_eq_append.1 (List.isPrefixOf_iff_prefix.1 hmark) |>.symm
  | case2 => exact nomatch h
  | case3 c cs _ ih =>
    obtain ⟨⟨b, a⟩, hcut, he⟩ := Option.map_eq_some_iff.1 h
    obtain ⟨rfl, rfl⟩ := Prod.mk.inj he
    rw [ih hcut, List.cons_append]

/-- The cut is made at the first occurrence of the mark. -/
theorem not_infix_of_cutAt? {mark cs before after : List Char} (hmark : mark ≠ [])
    (h : cutAt? mark cs = some (before, after)) : ¬ mark <:+: before := by
  fun_induction cutAt? mark cs generalizing before after with
  | case1 =>
    obtain ⟨rfl, rfl⟩ := Prod.mk.inj (Option.some.inj h)
    simpa using hmark
  | case2 => exact nomatch h
  | case3 c cs hprefix ih =>
    obtain ⟨⟨b, a⟩, hcut, he⟩ := Option.map_eq_some_iff.1 h
    obtain ⟨rfl, rfl⟩ := Prod.mk.inj he
    intro hinfix
    -- A mark that starts here would have been cut here; any other one stands in `b`.
    rcases List.infix_cons_iff.1 hinfix with hhere | hlater
    · have hcs : c :: b <+: c :: cs :=
        List.cons_prefix_cons.2 ⟨rfl, eq_append_of_cutAt? hcut ▸ List.prefix_append b _⟩
      exact hprefix (List.isPrefixOf_iff_prefix.2 (hhere.trans hcs))
    · exact ih hcut hlater

/-- A text that is not cut does not hold the mark. -/
theorem not_infix_of_cutAt?_eq_none {mark cs : List Char} (h : cutAt? mark cs = none) :
    ¬ mark <:+: cs := by
  fun_induction cutAt? mark cs with
  | case1 => exact nomatch h
  | case2 hprefix => simpa [List.isPrefixOf_iff_prefix] using hprefix
  | case3 c cs hprefix ih =>
    intro hinfix
    rcases List.infix_cons_iff.1 hinfix with hhere | hlater
    · exact hprefix (List.isPrefixOf_iff_prefix.2 hhere)
    · exact ih (Option.map_eq_none_iff.1 h) hlater

namespace Token

theorem toLower_eq_self {c : Char} (h : c.isUpper = false) : c.toLower = c := by
  grind [Char.isUpper, Char.toLower]

theorem isLower_toLower {c : Char} (h : c.isAlpha = true) : c.toLower.isLower = true := by
  unfold Char.toLower
  split
  · rename_i hc
    simp [Char.isLower, UInt32.le_iff_toNat_le] at hc ⊢
    omega
  · rename_i hc
    simp only [Char.isAlpha, Char.isUpper, Bool.or_eq_true, decide_eq_true_eq] at h
    exact h.resolve_left hc

/-- The tag of an opening tag is put in lower case, letter by letter. -/
theorem isTag_lower {letter : Char} (h : letter.isAlpha = true) (cs : List Char) :
    IsTag (lower ((letter :: cs).takeWhile isTagChar)) := by
  have hletter : isTagChar letter = true := by simp [isTagChar, Char.isAlphanum, h]
  rw [List.takeWhile_cons_of_pos hletter]
  refine ⟨letter.toLower, by simp [lower], isLower_toLower h, fun d hd => ?_⟩
  simp only [lower, String.toList_ofList, List.map_cons, List.tail_cons, List.mem_map] at hd
  obtain ⟨c, hc, rfl⟩ := hd
  have hc := List.mem_takeWhile_imp hc
  simp only [isTagChar, Char.isAlphanum, Bool.or_eq_true, beq_iff_eq] at hc
  rcases hc with (halpha | hdigit) | rfl
  · exact .inl (isLower_toLower halpha)
  · have hupper : c.isUpper = false := by grind [Char.isUpper, Char.isDigit]
    rw [toLower_eq_self hupper]
    exact .inr (.inl hdigit)
  · exact .inr (.inr rfl)

theorem isName_ofList {c : Char} (h : isNameChar c = true) (cs : List Char) :
    IsName (String.ofList (c :: cs.takeWhile isNameChar)) := by
  refine ⟨by simp [← String.toList_inj], fun d hd => ?_⟩
  have hd : isNameChar d = true := by
    rw [String.toList_ofList] at hd
    rcases List.mem_cons.1 hd with rfl | hd
    · exact h
    · exact List.mem_takeWhile_imp hd
  simpa [isNameChar] using hd

theorem isName_of_mem_attributes {cs : List Char} {a : String × String}
    (h : a ∈ (attributes cs).1) : IsName a.1 := by
  fun_induction attributes cs with
  | case1 | case2 | case3 => exact absurd h List.not_mem_nil
  | case4 cs c rest _ _ _ hc written more ih =>
    rcases List.mem_cons.1 h with rfl | h
    · exact isName_ofList hc rest
    · exact ih h
  | case5 cs c rest _ _ _ _ ih => exact ih h

theorem wellFormed_textRun (c : Char) (cs : List Char) : (textRun c cs).1.WellFormed := by
  simp [textRun, WellFormed, ← String.toList_inj]

theorem wellFormed_commentRun (cs : List Char) : (commentRun cs).1.WellFormed := by
  unfold commentRun
  split
  · rename_i hcut
    simpa [WellFormed] using not_infix_of_cutAt? (by simp) hcut
  · rename_i hcut
    simpa [WellFormed] using not_infix_of_cutAt?_eq_none hcut

theorem wellFormed_closingRun (cs : List Char) : (closingRun cs).1.WellFormed := by
  unfold closingRun
  split <;> exact trivial

theorem wellFormed_openingRun {letter : Char} (h : letter.isAlpha = true) (cs : List Char) :
    (openingRun (letter :: cs)).1.WellFormed :=
  ⟨isTag_lower h cs, fun _ ha => isName_of_mem_attributes ha⟩

theorem wellFormed_next (c : Char) (cs : List Char) : (next c cs).1.WellFormed := by
  unfold next
  split
  · exact wellFormed_commentRun _
  · exact wellFormed_closingRun _
  · split
    · exact wellFormed_openingRun ‹_› _
    · exact wellFormed_textRun _ _
  · exact wellFormed_textRun _ _

/-- Every token of every text is well formed. -/
theorem wellFormed_of_mem_scan {cs : List Char} {t : Token} (h : t ∈ scan cs) : t.WellFormed := by
  fun_induction scan cs with
  | case1 => exact nomatch h
  | case2 c cs ih =>
    rcases List.mem_cons.1 h with rfl | h
    · exact wellFormed_next c cs
    · exact ih h

end Token

/-! ## The builder -/

/-- The fields that are kept stay in their order. -/
theorem firstOfEachName_sublist (as : List (String × String)) :
    (firstOfEachName as).Sublist as := by
  induction as with
  | nil => exact List.Sublist.refl []
  | cons a as ih => exact (List.filter_sublist.trans ih).cons_cons a

/-- A field is kept if it is what a look-up of its name finds. -/
theorem mem_firstOfEachName_iff {as : List (String × String)} {a : String × String} :
    a ∈ firstOfEachName as ↔ Fields.get? as a.1 = some a.2 := by
  induction as with
  | nil => simp [firstOfEachName, Fields.get?]
  | cons first as ih =>
    rw [firstOfEachName, List.mem_cons, List.mem_filter, ih, Fields.get?_cons, bne_iff_ne]
    by_cases h : first.1 = a.1
    · rw [if_pos h, Option.some_inj]
      exact ⟨fun ha => ha.elim (fun he => he ▸ rfl) fun hlater => absurd h.symm hlater.2,
        fun hvalue => .inl (Prod.ext h.symm hvalue.symm)⟩
    · rw [if_neg h]
      exact ⟨fun ha => ha.elim (fun he => absurd (he ▸ rfl) h) And.left,
        fun hvalue => .inr ⟨hvalue, fun he => h he.symm⟩⟩

theorem nodup_firstOfEachName (as : List (String × String)) :
    ((firstOfEachName as).map (·.1)).Nodup := by
  induction as with
  | nil => simp [firstOfEachName]
  | cons a as ih =>
    rw [firstOfEachName, List.map_cons, List.nodup_cons]
    refine ⟨?_, ih.sublist ((List.filter_sublist).map _)⟩
    simp

/-- An open element that will be canonical when it is closed. -/
structure OpenElement.Canonical (e : OpenElement) : Prop where
  tag : IsTag e.tag
  names : ∀ a ∈ e.attributes, IsName a.1
  nodup : (e.attributes.map (·.1)).Nodup
  notVoid : isVoid e.tag = false
  children : CanonicalAll e.children

/-- A builder whose nodes and open elements are canonical. -/
structure Builder.Canonical (b : Builder) : Prop where
  top : CanonicalAll b.top
  opened : ∀ e ∈ b.opened, e.Canonical

theorem OpenElement.Canonical.close {e : OpenElement} (h : e.Canonical) :
    Markup.Canonical e.close :=
  ⟨h.tag, h.names, h.nodup, fun hv => absurd hv (by simp [h.notVoid]),
    canonicalAll_reverse.2 h.children⟩

/-- A text never comes to stand beside a text: it joins it. -/
theorem canonicalAll_join {node : Markup} {siblings : List Markup} (hnode : Canonical node)
    (h : CanonicalAll siblings) : CanonicalAll (join node siblings) := by
  unfold join
  -- Two texts become one, which is nonempty since the first one was. Other nodes are put in front.
  split
  · rename_i more s rest
    obtain ⟨hs, hrest, hall⟩ := h
    refine ⟨fun he => hs ?_, hrest, hall⟩
    exact (String.append_eq_empty_iff.1 he).1
  · rename_i hjoin
    refine ⟨hnode, fun next hnext ⟨htext, htext'⟩ => ?_, h⟩
    cases siblings with
    | nil => exact nomatch hnext
    | cons m ms =>
      obtain rfl : m = next := Option.some.inj hnext
      cases node with
      | text more =>
        cases m with
        | text s => exact hjoin more s ms rfl rfl
        | _ => exact nomatch htext'
      | _ => exact nomatch htext

namespace Builder.Canonical

theorem push {b : Builder} (h : b.Canonical) {node : Markup} (hnode : Markup.Canonical node) :
    (b.push node).Canonical := by
  unfold Builder.push
  split
  · exact ⟨canonicalAll_join hnode h.top, h.opened⟩
  · rename_i e es hopened
    obtain ⟨he, hes⟩ := List.forall_mem_cons.1 (hopened ▸ h.opened)
    refine ⟨h.top, List.forall_mem_cons.2 ⟨?_, hes⟩⟩
    exact { he with children := canonicalAll_join hnode he.children }

theorem close {b : Builder} (h : b.Canonical) : b.close.Canonical := by
  unfold Builder.close
  split
  · exact h
  · rename_i e es hopened
    obtain ⟨he, hes⟩ := List.forall_mem_cons.1 (hopened ▸ h.opened)
    exact push (b := { b with opened := es }) ⟨h.top, hes⟩ he.close

theorem closeMany {b : Builder} (h : b.Canonical) (n : Nat) : (b.closeMany n).Canonical := by
  induction n with
  | zero => exact h
  | succ n ih => exact ih.close

/-- One token keeps a builder canonical. -/
theorem add {b : Builder} (h : b.Canonical) {t : Token} (ht : t.WellFormed) :
    (b.add t).Canonical := by
  cases t with
  | text s => exact h.push ht
  | comment s => exact h.push ht
  | closing tag =>
    simp only [Builder.add]
    split
    · exact h.closeMany _
    · exact h
  | opening tag attributes selfClosing =>
    -- A token may repeat a name; the builder keeps the first attribute of each.
    obtain ⟨htag, hnames⟩ := ht
    have hnames' : ∀ a ∈ firstOfEachName attributes, IsName a.1 :=
      fun a ha => hnames a ((firstOfEachName_sublist attributes).subset ha)
    simp only [Builder.add]
    split
    · exact h.push ⟨htag, hnames', nodup_firstOfEachName attributes, fun _ => rfl, trivial⟩
    · rename_i hvoid
      simp only [Bool.or_eq_true, not_or, Bool.not_eq_true] at hvoid
      refine ⟨h.top, List.forall_mem_cons.2 ⟨?_, h.opened⟩⟩
      exact ⟨htag, hnames', nodup_firstOfEachName attributes, hvoid.2, trivial⟩

theorem foldl_add {b : Builder} (h : b.Canonical) {tokens : List Token}
    (ht : ∀ t ∈ tokens, t.WellFormed) : (tokens.foldl Builder.add b).Canonical := by
  induction tokens generalizing b with
  | nil => exact h
  | cons t tokens ih =>
    obtain ⟨ht, hts⟩ := List.forall_mem_cons.1 ht
    exact ih (h.add ht) hts

end Builder.Canonical

/-- The nodes that well-formed tokens describe are canonical. -/
theorem canonicalAll_ofTokens {tokens : List Token} (h : ∀ t ∈ tokens, t.WellFormed) :
    CanonicalAll (ofTokens tokens) := by
  have hempty : Builder.empty.Canonical := ⟨trivial, nofun⟩
  exact canonicalAll_reverse.2 ((hempty.foldl_add h).closeMany _).top

end LiveBinding.Markup
