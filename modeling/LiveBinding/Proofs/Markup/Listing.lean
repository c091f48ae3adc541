import LiveBinding.Proofs.Markup.Written

/-!
# Reading markup loses nothing

The nodes of a text, listed in document order, are what the scanner met in it, in the same order:
each opening tag is an element before what is inside it, each comment is a comment, and each
character of a run of text is a character of a text. Closing tags only say what is inside what.

A node is attached to its parent as late as its element is closed, by its own closing tag, by an
outer one or by the end of the text. `Builder.marks` therefore lists a tree under construction with
its open elements, the outermost first. Closing an element does not change this list, and a token
adds its own marks at the end.

Main statements:

* `Builder.marks_close`, `Builder.marks_add`: what one token does to the list;
* `marksAll_ofTokens`: the nodes of any tokens;
* `marksAll_parse`: the nodes of a text.
-/

namespace LiveBinding.Markup

/-- What is met in reading nodes in document order. -/
inductive Mark where
  | element (tag : String) (attributes : List (String × String))
  | comment (s : String)
  | char (c : Char)
  deriving DecidableEq, Repr

mutual

/-- What is met in reading a node: an element comes before its children. -/
def marks : Markup → List Mark
  | .element tag attributes children => .element tag attributes :: marksAll children
  | .text s => s.toList.map .char
  | .comment s => [.comment s]

/-- What is met in reading several nodes, one after the other. -/
def marksAll : List Markup → List Mark
  | [] => []
  | node :: nodes => marks node ++ marksAll nodes

end

/-- What a token leaves in the tree. -/
def Token.marks : Token → List Mark
  | .opening tag attributes _ => [.element tag (firstOfEachName attributes)]
  | .closing _ => []
  | .comment s => [.comment s]
  | .text s => s.toList.map .char

/-- Whether a token is the opening tag of an element. -/
def Token.opens (tag : String) (attributes : List (String × String)) : Token → Bool
  | .opening tag' attributes' _ => tag' == tag && firstOfEachName attributes' == attributes
  | _ => false

/-! ## Building the tree -/

theorem marksAll_append (nodes nodes' : List Markup) :
    marksAll (nodes ++ nodes') = marksAll nodes ++ marksAll nodes' := by
  induction nodes with
  | nil => rfl
  | cons node nodes ih => rw [List.cons_append, marksAll, marksAll, ih, List.append_assoc]

/-- A node behind its siblings, which are in reverse order. -/
theorem marksAll_reverse_cons (node : Markup) (siblings : List Markup) :
    marksAll (node :: siblings).reverse = marksAll siblings.reverse ++ marks node := by
  rw [List.reverse_cons, marksAll_append, marksAll, marksAll, List.append_nil]

/-- It makes no difference to the characters whether two texts have become one. -/
theorem marksAll_join (node : Markup) (siblings : List Markup) :
    marksAll (join node siblings).reverse = marksAll siblings.reverse ++ marks node := by
  unfold join
  split
  · rw [marksAll_reverse_cons, marksAll_reverse_cons, List.append_assoc]
    simp only [marks, String.toList_append, List.map_append]
  · exact marksAll_reverse_cons node siblings

/-- An open element with the children met so far. -/
def OpenElement.marks (e : OpenElement) : List Mark :=
  .element e.tag e.attributes :: marksAll e.children.reverse

theorem OpenElement.marks_close (e : OpenElement) : Markup.marks e.close = e.marks := by
  rw [OpenElement.close, Markup.marks, OpenElement.marks]

namespace Builder

/-- A tree under construction: the finished nodes, and behind them the open elements from the
outermost to the innermost. -/
def marks (b : Builder) : List Mark :=
  marksAll b.top.reverse ++ b.opened.reverse.flatMap OpenElement.marks

/-- The innermost open element comes last. -/
theorem marks_cons (top : List Markup) (e : OpenElement) (es : List OpenElement) :
    marks ⟨top, e :: es⟩ = marks ⟨top, es⟩ ++ e.marks := by
  simp only [marks, List.reverse_cons, List.flatMap_append, List.flatMap_singleton,
    List.append_assoc]

/-- A node is added at the end, wherever the current place is. -/
theorem marks_push (b : Builder) (node : Markup) :
    (b.push node).marks = b.marks ++ Markup.marks node := by
  obtain ⟨top, opened⟩ := b
  cases opened with
  | nil => simp only [push, marks, List.reverse_nil, List.flatMap_nil, List.append_nil,
      marksAll_join]
  | cons e es =>
    have hchild : OpenElement.marks { e with children := join node e.children } =
        e.marks ++ Markup.marks node := by
      rw [OpenElement.marks, marksAll_join, OpenElement.marks, List.cons_append]
    rw [push, marks_cons, marks_cons, hchild, List.append_assoc]

/-- Closing an element puts it where it already stands in the list. -/
theorem marks_close (b : Builder) : b.close.marks = b.marks := by
  obtain ⟨top, opened⟩ := b
  cases opened with
  | nil => rfl
  | cons e es => rw [close, marks_push, OpenElement.marks_close, marks_cons]

theorem marks_closeMany (b : Builder) (n : Nat) : (b.closeMany n).marks = b.marks := by
  induction n with
  | zero => rfl
  | succ n ih => exact (marks_close _).trans ih

/-- One token adds what it leaves in the tree at the end. -/
theorem marks_add (b : Builder) (t : Token) : (b.add t).marks = b.marks ++ t.marks := by
  cases t with
  | text s => exact marks_push b (.text s)
  | comment s => exact marks_push b (.comment s)
  | opening tag attributes selfClosing =>
    rw [add]
    split
    · exact marks_push b (.element tag (firstOfEachName attributes) [])
    · exact marks_cons b.top _ b.opened
  | closing tag =>
    rw [add, Token.marks, List.append_nil]
    -- A closing tag that closes nothing leaves the tree as it is.
    split
    · exact marks_closeMany b _
    · rfl

theorem marks_foldl_add (b : Builder) (tokens : List Token) :
    (tokens.foldl add b).marks = b.marks ++ tokens.flatMap Token.marks := by
  induction tokens generalizing b with
  | nil => rw [List.foldl_nil, List.flatMap_nil, List.append_nil]
  | cons t tokens ih =>
    rw [List.foldl_cons, ih, marks_add, List.flatMap_cons, List.append_assoc]

theorem length_opened_push (b : Builder) (node : Markup) :
    (b.push node).opened.length = b.opened.length := by
  unfold push
  split <;> simp_all

theorem length_opened_close (b : Builder) : b.close.opened.length = b.opened.length - 1 := by
  unfold close
  split
  · simp_all
  · rename_i e es hopened
    rw [length_opened_push, hopened, List.length_cons, Nat.add_sub_cancel]

theorem length_opened_closeMany (b : Builder) (n : Nat) :
    (b.closeMany n).opened.length = b.opened.length - n := by
  induction n with
  | zero => rfl
  | succ n ih =>
    change (b.closeMany n).close.opened.length = _
    rw [length_opened_close, ih, Nat.sub_sub]

/-- At the end no element is open, so that the nodes of the tree are the whole list. -/
theorem marksAll_finish (b : Builder) : marksAll b.finish = b.marks := by
  have hclosed : (b.closeMany b.opened.length).opened = [] := by
    rw [← List.length_eq_zero_iff, length_opened_closeMany, Nat.sub_self]
  rw [← marks_closeMany b b.opened.length, marks, hclosed, List.reverse_nil, List.flatMap_nil,
    List.append_nil, finish]

end Builder

/-- The nodes that tokens describe are what the tokens leave, whatever they close. -/
theorem marksAll_ofTokens (tokens : List Token) :
    marksAll (ofTokens tokens) = tokens.flatMap Token.marks := by
  rw [ofTokens, Builder.marksAll_finish, Builder.marks_foldl_add]
  rfl

/-- An element is met as often as its opening tag. -/
theorem count_flatMap_marks (tag : String) (attributes : List (String × String))
    (tokens : List Token) :
    (tokens.flatMap Token.marks).count (.element tag attributes) =
      tokens.countP (Token.opens tag attributes) := by
  induction tokens with
  | nil => rfl
  | cons t tokens ih =>
    have hone : t.marks.count (.element tag attributes) =
        if t.opens tag attributes then 1 else 0 := by
      cases t with
      | opening tag' attributes' _ => simp [Token.marks, Token.opens, List.count_singleton]
      | closing _ => rfl
      | comment s => simp [Token.marks, Token.opens]
      | text s =>
        rw [List.count_eq_zero.2 (by simp [Token.marks])]
        rfl
    rw [List.flatMap_cons, List.count_append, ih, hone, List.countP_cons, Nat.add_comm]

/-! ## Parsing -/

/-- The nodes of a text, in document order, are the elements, comments and characters of the tokens
that are written in it, one after the other, in the only way in which tokens are. Each element is
there as often as it was opened, whatever is closed and where. -/
theorem marksAll_parse (s : String) :
    marksAll (parse s) = (Token.scan s.toList).flatMap Token.marks ∧
    (∀ tag attributes, (marksAll (parse s)).count (.element tag attributes) =
      (Token.scan s.toList).countP (Token.opens tag attributes)) ∧
    ∀ tokens, Token.WrittenAll tokens s.toList ↔ tokens = Token.scan s.toList := by
  have hmarks : marksAll (parse s) = (Token.scan s.toList).flatMap Token.marks :=
    marksAll_ofTokens _
  refine ⟨hmarks, fun tag attributes => ?_, fun tokens => ?_⟩
  · rw [hmarks, count_flatMap_marks]
  · rw [Token.writtenAll_iff, eq_comm]

/-- Crossing, stray and missing closing tags: each element is there once, in the order of the
opening tags. -/
example : marksAll (parse "<b>x<i></b></p>y</i><u>") =
    [.element "b" [], .char 'x', .element "i" [], .char 'y', .element "u" []] := by
  decide +kernel

end LiveBinding.Markup
