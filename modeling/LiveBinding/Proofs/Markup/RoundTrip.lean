import LiveBinding.Proofs.Markup.Written

/-!
# Reading back written markup

Canonical nodes are read back from their own text, unless a text or an attribute value holds
something that the parser takes for a mark: `Harmless` and `HarmlessAll` exclude this.

The statement that carries the induction, `foldl_add_scan_render`, is about a node written in
front of any text and read at any place of a tree under construction: its tokens have the effect of
`Builder.push`. A text node needs the text behind it to be `Bounded`, for otherwise the run of text
would not end there.

Main statements:

* `Token.written_renderOpening`, `Token.written_closing`: the tags of canonical elements are written
  as tokens are;
* `parse_html`: canonical harmless nodes are read back from their text;
* `canonicalAll_parse`: what is read from any text is canonical, so it is read back from its own
  text when it is harmless.
-/

namespace LiveBinding.Markup

/-! ## Texts without marks -/

mutual

/-- A node whose texts hold no start of a tag or a comment, and whose attribute values hold no
double quote. -/
def Harmless : Markup → Prop
  | .text s => ∀ rest ∈ s.toList.tails, opensMark rest = false
  | .comment _ => True
  | .element _ attributes children => (∀ a ∈ attributes, '"' ∉ a.2.toList) ∧ HarmlessAll children

/-- Nodes that are all harmless. -/
def HarmlessAll : List Markup → Prop
  | [] => True
  | node :: nodes => Harmless node ∧ HarmlessAll nodes

end

mutual

/-- Whether a node is harmless can be computed. -/
def decidableHarmless : (node : Markup) → Decidable (Harmless node)
  | .text s => inferInstanceAs (Decidable (∀ rest ∈ s.toList.tails, opensMark rest = false))
  | .comment _ => isTrue trivial
  | .element _ attributes children =>
    have := decidableHarmlessAll children
    inferInstanceAs (Decidable ((∀ a ∈ attributes, '"' ∉ a.2.toList) ∧ HarmlessAll children))

/-- Whether several nodes are harmless can be computed. -/
def decidableHarmlessAll : (nodes : List Markup) → Decidable (HarmlessAll nodes)
  | [] => isTrue trivial
  | node :: nodes =>
    have := decidableHarmless node
    have := decidableHarmlessAll nodes
    inferInstanceAs (Decidable (Harmless node ∧ HarmlessAll nodes))

end

instance : DecidablePred Harmless := decidableHarmless

instance : DecidablePred HarmlessAll := decidableHarmlessAll

/-- What is written behind a text opens no mark together with it: of the characters of a mark only
the first is `<`. -/
theorem opensMark_append {cs rest : List Char} (hcs : cs ≠ []) (hrest : Bounded rest) :
    opensMark (cs ++ rest) = opensMark cs := by
  cases rest with
  | nil => rw [List.append_nil]
  | cons r rest =>
    obtain rfl := hrest r rfl
    cases cs with
    | nil => exact absurd rfl hcs
    | cons a cs =>
      have hhead : (cs ++ '<' :: rest).head?.any (fun c => c.isAlpha || c == '/')
          = cs.head?.any (fun c => c.isAlpha || c == '/') := by
        cases cs <;> rfl
      have hprefix : ['!', '-', '-'].isPrefixOf (cs ++ '<' :: rest)
          = ['!', '-', '-'].isPrefixOf cs := by
        rcases cs with _ | ⟨b, _ | ⟨c, _ | ⟨d, cs⟩⟩⟩ <;> simp [List.isPrefixOf]
      by_cases ha : a = '<'
      · subst ha
        simp only [List.cons_append, opensMark, hhead, hprefix]
      · simp [opensMark, ha]

/-! ## The tokens of written nodes -/

namespace Token

theorem isBlank_of_isTagChar {c : Char} (h : isTagChar c = true) : Text.isBlank c = false := by
  have hblanks : (Text.blanks.all fun b => !isTagChar b) = true := by decide
  by_contra hblank
  simp only [Bool.not_eq_false, Text.isBlank, List.contains_iff_mem] at hblank
  exact absurd (List.all_eq_true.1 hblanks c hblank) (by simp [h])

section Tag

variable {tag : String} (h : IsTag tag)
include h

/-- A tag with its first letter apart. -/
theorem exists_letter_of_isTag : ∃ c cs, tag.toList = c :: cs ∧ c.isLower = true := by
  obtain ⟨c, hc, hlower, -⟩ := h
  obtain ⟨cs, hcs⟩ := List.head?_eq_some_iff.1 hc
  exact ⟨c, cs, hcs, hlower⟩

theorem char_of_isTag {c : Char} (hc : c ∈ tag.toList) :
    c.isLower = true ∨ c.isDigit = true ∨ c = '-' := by
  obtain ⟨d, hd, hlower, hrest⟩ := h
  obtain ⟨ds, hds⟩ := List.head?_eq_some_iff.1 hd
  rw [hds] at hc hrest
  rcases List.mem_cons.1 hc with rfl | hc
  · exact .inl hlower
  · exact hrest c hc

theorem isTagChar_of_isTag {c : Char} (hc : c ∈ tag.toList) : isTagChar c = true := by
  rcases char_of_isTag h hc with hlower | hdigit | rfl
  · simp [isTagChar, Char.isAlphanum, Char.isAlpha, hlower]
  · simp [isTagChar, Char.isAlphanum, hdigit]
  · rfl

theorem lower_of_isTag : lower tag.toList = tag := by
  have hmap : tag.toList.map Char.toLower = tag.toList := by
    refine List.map_congr_left (fun c hc => ?_) |>.trans (List.map_id _)
    refine toLower_eq_self ?_
    rcases char_of_isTag h hc with hlower | hdigit | rfl
    · grind [Char.isUpper, Char.isLower]
    · grind [Char.isUpper, Char.isDigit]
    · rfl
  rw [lower, hmap, String.ofList_toList]

theorem trimChars_of_isTag : Text.trimChars tag.toList = tag.toList := by
  have hdrop : ∀ cs : List Char, (∀ c ∈ cs, isTagChar c = true) →
      cs.dropWhile Text.isBlank = cs := by
    intro cs hcs
    cases cs with
    | nil => rfl
    | cons c cs =>
      exact List.dropWhile_cons_of_neg (by simp [isBlank_of_isTagChar (hcs c (by simp))])
  have htag : ∀ c ∈ tag.toList, isTagChar c = true := fun c hc => isTagChar_of_isTag h hc
  rw [Text.trimChars, hdrop _ htag, hdrop _ (by simpa using htag), List.reverse_reverse]

end Tag

theorem isNameChar_of_isName {name : String} (h : IsName name) {c : Char} (hc : c ∈ name.toList) :
    isNameChar c = true := by
  obtain ⟨hblank, hmark⟩ := h.2 c hc
  simp [isNameChar, hblank] at hmark ⊢
  exact hmark

/-- Attributes are rendered with a blank before the name and the value between quotes. -/
theorem attributesWritten_render {as : List (String × String)} (hnames : ∀ a ∈ as, IsName a.1)
    (hvalues : ∀ a ∈ as, '"' ∉ a.2.toList) (behind : List Char) :
    AttributesWritten behind as false (as.flatMap renderAttribute ++ ['>']) := by
  induction as with
  | nil =>
    have hnone : ∀ c ∈ ([] : List Char), Text.isBlank c = true := nofun
    exact .closed hnone
  | cons a as ih =>
    obtain ⟨hname, hnames⟩ := List.forall_mem_cons.1 hnames
    obtain ⟨hvalue, hvalues⟩ := List.forall_mem_cons.1 hvalues
    have hnone : ∀ c ∈ ([] : List Char), Text.isBlank c = true := nofun
    have hblank : ∀ c ∈ [' '], Text.isBlank c = true := fun c hc => by
      obtain rfl := List.mem_singleton.1 hc
      decide
    have hrest := ih hnames hvalues
    rw [List.flatMap_cons, List.append_assoc]
    generalize as.flatMap renderAttribute ++ ['>'] = cs at hrest ⊢
    have hquoted : ValueWritten a.2.toList (cs ++ behind) ('"' :: a.2.toList ++ ['"']) :=
      .quoted (.inl rfl) hvalue
    have hassigned := AssignedWritten.value hnone hnone (by rintro c ⟨⟩; rfl) hquoted
    have hwritten := AttributesWritten.named hblank (fun he => hname.1 (String.toList_inj.1 he))
      (fun c hc => isNameChar_of_isName hname hc) (by rintro c ⟨⟩; rfl) hassigned hrest
    simpa [renderAttribute] using hwritten

/-- The opening tag of a canonical element is written. -/
theorem written_renderOpening {tag : String} (h : IsTag tag) {as : List (String × String)}
    (hnames : ∀ a ∈ as, IsName a.1) (hvalues : ∀ a ∈ as, '"' ∉ a.2.toList) (behind : List Char) :
    Written behind (.opening tag as false) (renderOpening tag as) := by
  obtain ⟨letter, name, htag, hlower⟩ := exists_letter_of_isTag h
  have hstop : ∀ c ∈ ((as.flatMap renderAttribute ++ ['>']) ++ behind).head?,
      isTagChar c = false := by
    cases as <;> rintro c ⟨⟩ <;> rfl
  have hletter : letter.isAlpha = true := by simp [Char.isAlpha, hlower]
  have hopening : Written behind _ _ := .opening hletter
    (fun c hc => isTagChar_of_isTag h (htag ▸ List.mem_cons_of_mem letter hc)) hstop
    (attributesWritten_render hnames hvalues behind)
  rw [← htag, lower_of_isTag h] at hopening
  rwa [renderOpening, List.append_assoc]

/-- The closing tag of a canonical element is written. -/
theorem written_closing {tag : String} (h : IsTag tag) (behind : List Char) :
    Written behind (.closing tag) ('<' :: '/' :: tag.toList ++ ['>']) := by
  have hname : '>' ∉ tag.toList := fun hmem => absurd (isTagChar_of_isTag h hmem) (by decide)
  have hclosing : Written behind _ _ := .closing hname
  rwa [trimChars_of_isTag h, lower_of_isTag h] at hclosing

end Token

/-! ## The effect of written nodes on a builder -/

namespace Builder

/-- Two texts that meet count as one. -/
theorem push_text_push_text (b : Builder) (s t : String) :
    (b.push (.text s)).push (.text t) = b.push (.text (s ++ t)) := by
  have hjoin : ∀ siblings : List Markup,
      join (.text t) (join (.text s) siblings) = join (.text (s ++ t)) siblings := by
    intro siblings
    rcases siblings with _ | ⟨⟨⟩ | u | ⟨⟩, rest⟩
    all_goals first | rfl | simp [join, String.append_assoc]
  obtain ⟨top, opened⟩ := b
  cases opened with
  | nil => simp only [push, hjoin]
  | cons e es => simp only [push, hjoin]

/-- Nodes under an open element are its children. -/
theorem foldl_push_opened (top : List Markup) (e : OpenElement) (es : List OpenElement)
    (nodes : List Markup) :
    nodes.foldl push ⟨top, e :: es⟩ =
      ⟨top, { e with children := nodes.foldl (fun siblings node => join node siblings) e.children }
        :: es⟩ := by
  induction nodes generalizing e with
  | nil => rfl
  | cons node nodes ih =>
    simp only [List.foldl_cons]
    exact ih { e with children := join node e.children }

theorem foldl_push_top (top : List Markup) (nodes : List Markup) :
    nodes.foldl push ⟨top, []⟩ =
      ⟨nodes.foldl (fun siblings node => join node siblings) top, []⟩ := by
  induction nodes generalizing top with
  | nil => rfl
  | cons node nodes ih => exact ih (join node top)

end Builder

theorem join_eq_cons {node : Markup} {siblings : List Markup}
    (h : ∀ last ∈ siblings.head?, Apart last node) : join node siblings = node :: siblings := by
  unfold join
  split
  · exact absurd ⟨rfl, rfl⟩ (h _ rfl)
  · rfl

/-- Nodes of which no two are texts side by side are not joined. -/
theorem foldl_join {nodes : List Markup} (h : CanonicalAll nodes) :
    nodes.foldl (fun siblings node => join node siblings) [] = nodes.reverse := by
  have haccum : ∀ siblings : List Markup, (∀ last ∈ siblings.head?, ∀ next ∈ nodes.head?,
      Apart last next) → nodes.foldl (fun siblings node => join node siblings) siblings =
        nodes.reverse ++ siblings := by
    induction nodes with
    | nil => exact fun _ _ => rfl
    | cons node nodes ih =>
      intro siblings hlast
      obtain ⟨-, hapart, hnodes⟩ := h
      have hjoin := join_eq_cons fun last hl => hlast last hl node rfl
      rw [List.foldl_cons, hjoin, ih hnodes _ fun last hl next hn => ?_]
      · simp
      · cases hl
        exact hapart next hn
  simpa using haccum [] nofun

open Token Builder

/-- A written text is read as one text, in as many runs as it has `<`. -/
theorem foldl_add_scan_text : ∀ (cs rest : List Char) (b : Builder), cs ≠ [] →
    (∀ tail, tail <:+ cs → opensMark tail = false) → Bounded rest →
    (scan (cs ++ rest)).foldl add b = (scan rest).foldl add (b.push (.text (String.ofList cs)))
  | [], _, _, hcs, _, _ => absurd rfl hcs
  | c :: cs, rest, b, hcs, hmark, hrest => by
    have hopen : opensMark (c :: (cs ++ rest)) = false := by
      rw [← List.cons_append, opensMark_append hcs hrest]
      exact hmark _ (List.suffix_refl _)
    have hstop : ∀ d ∈ rest.head?, (d != '<') = false := by
      intro d hd
      simp [hrest d hd]
    have hsplit := List.takeWhile_append_dropWhile (p := (· != '<')) (l := cs)
    rw [List.cons_append, scan_cons, next_of_opensMark_eq_false hopen]
    simp only [textRun, List.foldl_cons, takeWhile_append_of_head? hstop,
      dropWhile_append_of_head? hstop]
    -- The run ends before the next `<`. That one opens no mark either, so the text goes on with
    -- another run, which the builder joins to this one.
    cases hafter : cs.dropWhile (· != '<') with
    | nil =>
      rw [hafter, List.append_nil] at hsplit
      rw [hsplit]
      rfl
    | cons d ds =>
      have hsuffix : d :: ds <:+ c :: cs :=
        hafter ▸ (List.dropWhile_suffix _).trans (List.suffix_cons c cs)
      have hlength : (d :: ds).length ≤ cs.length := hafter ▸ length_dropWhile_le _ cs
      rw [foldl_add_scan_text (d :: ds) rest _ (List.cons_ne_nil d ds)
        (fun tail htail => hmark tail (htail.trans hsuffix)) hrest]
      rw [add, push_text_push_text, ← String.ofList_append, List.cons_append, ← hafter, hsplit]
termination_by cs => cs.length
decreasing_by
  simp only [List.length_cons] at hlength ⊢
  omega

/-- The text behind a node that is no text starts with a mark of its own. -/
theorem bounded_render {node : Markup} (h : isText node = false) (rest : List Char) :
    Bounded (render node ++ rest) := by
  cases node with
  | text s => exact nomatch h
  | comment s => exact bounded_cons _
  | element tag attributes children =>
    simp only [render, renderOpening, List.cons_append]
    exact bounded_cons _

theorem firstOfEachName_eq_self {as : List (String × String)} (h : (as.map (·.1)).Nodup) :
    firstOfEachName as = as := by
  induction as with
  | nil => rfl
  | cons a as ih =>
    obtain ⟨ha, has⟩ := List.nodup_cons.1 h
    have hfilter : as.filter (·.1 != a.1) = as := by
      refine List.filter_eq_self.2 fun b hb => ?_
      simpa using fun he : b.1 = a.1 => ha (List.mem_map.2 ⟨b, hb, he⟩)
    rw [firstOfEachName, ih has, hfilter]

/-- The closing tag of the innermost open element closes it and nothing else. -/
theorem add_closing (top : List Markup) (e : OpenElement) (es : List OpenElement) :
    add ⟨top, e :: es⟩ (.closing e.tag) = push ⟨top, es⟩ e.close := by
  simp [add, List.findIdx?_cons, closeMany, close, Nat.repeat]

mutual

/-- A canonical, harmless node that is written in front of a text and read at any place is added
there as it is. -/
theorem foldl_add_scan_render : ∀ (node : Markup), Canonical node → Harmless node →
    ∀ (b : Builder) (rest : List Char), (isText node = true → Bounded rest) →
    (scan (render node ++ rest)).foldl add b = (scan rest).foldl add (b.push node)
  | .text s, hs, hmark, b, rest, hrest => by
    have hne : s.toList ≠ [] := fun he => hs (String.toList_inj.1 he)
    rw [render, foldl_add_scan_text s.toList rest b hne
      (fun tail htail => hmark tail ((List.mem_tails _ _).2 htail)) (hrest rfl)]
    rw [String.ofList_toList]
  | .comment s, hs, _, b, rest, _ => by
    rw [render, scan_append_of_written (.comment hs), List.foldl_cons, add]
  | .element tag as children, ⟨htag, hnames, hnodup, hvoid, hchildren⟩, ⟨hvalues, hmarks⟩, b, rest,
      _ => by
    have hfirst := firstOfEachName_eq_self hnodup
    rw [render, List.append_assoc,
      scan_append_of_written (written_renderOpening htag hnames hvalues _), List.foldl_cons]
    -- A void element has no closing tag. Any other one is opened, its children are read inside it,
    -- and its closing tag puts it where it was opened.
    cases hv : isVoid tag with
    | true =>
      rw [if_pos rfl, List.nil_append, hvoid hv]
      simp only [add, hv, Bool.or_true, if_true, hfirst]
    | false =>
      have hopening : b.add (.opening tag as false) = ⟨b.top, ⟨tag, as, []⟩ :: b.opened⟩ := by
        simp [add, hv, hfirst]
      have hclose :
          (⟨tag, as, children.reverse⟩ : OpenElement).close = .element tag as children := by
        rw [OpenElement.close, List.reverse_reverse]
      have hclosing : renderAll children ++ '<' :: '/' :: tag.toList ++ ['>'] ++ rest =
          renderAll children ++ ('<' :: '/' :: tag.toList ++ ['>'] ++ rest) := by
        simp only [List.append_assoc]
      have hbounded : Bounded ('<' :: '/' :: tag.toList ++ ['>'] ++ rest) := bounded_cons _
      rw [if_neg Bool.false_ne_true, hopening, hclosing,
        foldl_add_scan_renderAll children hchildren hmarks _ _ hbounded,
        foldl_push_opened, foldl_join hchildren, scan_append_of_written (written_closing htag rest),
        List.foldl_cons, add_closing, hclose]

/-- The same for several nodes, one after the other. -/
theorem foldl_add_scan_renderAll : ∀ (nodes : List Markup), CanonicalAll nodes →
    HarmlessAll nodes → ∀ (b : Builder) (rest : List Char), Bounded rest →
    (scan (renderAll nodes ++ rest)).foldl add b = (scan rest).foldl add (nodes.foldl push b)
  | [], _, _, b, rest, _ => rfl
  | node :: nodes, ⟨hnode, hapart, hnodes⟩, ⟨hmark, hmarks⟩, b, rest, hrest => by
    have hbounded : isText node = true → Bounded (renderAll nodes ++ rest) := by
      intro htext
      cases nodes with
      | nil => exact hrest
      | cons next nodes =>
        have hnext : isText next = false := by
          simpa [htext] using not_and.1 (hapart next rfl) htext
        rw [renderAll, List.append_assoc]
        exact bounded_render hnext _
    rw [renderAll, List.append_assoc, foldl_add_scan_render node hnode hmark b _ hbounded,
      foldl_add_scan_renderAll nodes hnodes hmarks (b.push node) rest hrest, List.foldl_cons]

end

/-- The tokens of written nodes describe these nodes. -/
theorem ofTokens_scan_renderAll {nodes : List Markup} (hc : CanonicalAll nodes)
    (hm : HarmlessAll nodes) : ofTokens (scan (renderAll nodes)) = nodes := by
  have hscan := foldl_add_scan_renderAll nodes hc hm Builder.empty [] bounded_nil
  rw [List.append_nil] at hscan
  rw [ofTokens, hscan, Builder.empty, foldl_push_top, foldl_join hc, scan]
  exact List.reverse_reverse nodes

/-- Canonical nodes without marks in their texts and values are read back from their own text. -/
theorem parse_html {nodes : List Markup} (hc : CanonicalAll nodes) (hm : HarmlessAll nodes) :
    parse (html nodes) = nodes := by
  rw [parse, html, String.toList_ofList]
  exact ofTokens_scan_renderAll hc hm

/-- A comment may end in dashes, and a text in `<!` or `<-` right before a mark. -/
theorem parse_html_before_mark :
    let nodes := [.text "a < b <!", .comment "a--", .element "p" [("title", "x > y"), ("v-if", "")]
      [.element "br" [] [], .text "<-", .element "h1" [] []]]
    CanonicalAll nodes ∧ HarmlessAll nodes ∧ parse (html nodes) = nodes :=
  ⟨by decide, by decide, parse_html (by decide) (by decide)⟩

/-- Whatever is read is canonical. It is read back from its own text, unless one of its texts or
values holds a mark. -/
theorem canonicalAll_parse (s : String) :
    CanonicalAll (parse s) ∧ (HarmlessAll (parse s) → parse (html (parse s)) = parse s) := by
  have hc : CanonicalAll (parse s) := canonicalAll_ofTokens fun _ ht => wellFormed_of_mem_scan ht
  refine ⟨hc, fun hm => ?_⟩
  have hback := ofTokens_scan_renderAll hc hm
  generalize parse s = nodes at hback ⊢
  rw [parse, html, String.toList_ofList, hback]

/-- Upper case, a repeated name, a stray closing tag and what is left open at the end. -/
theorem canonicalAll_parse_unclosed :
    let s := "<P a=1 a='2' >x<1<br>y</b><i><!--z"
    HarmlessAll (parse s) ∧ CanonicalAll (parse s) ∧ parse (html (parse s)) = parse s := by
  intro s
  have hm : HarmlessAll (parse s) := by decide +kernel
  exact ⟨hm, (canonicalAll_parse s).1, (canonicalAll_parse s).2 hm⟩

end LiveBinding.Markup
