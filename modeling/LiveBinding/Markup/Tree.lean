import LiveBinding.Markup.Basic
import LiveBinding.Markup.Token

/-!
# Markup trees

The nodes of a markup text are built from its tokens with a stack of open elements. A closing tag
closes the elements up to the innermost open one with its name, and has no effect when there is
none; the end of the text closes all. Texts that meet become one text, and of repeated attribute
names the first counts.
-/

namespace LiveBinding.Markup

/-- An element whose closing tag has not been met; its children are in reverse order. -/
structure OpenElement where
  tag : String
  attributes : List (String × String)
  children : List Markup

/-- The element with the children met so far. -/
def OpenElement.close (e : OpenElement) : Markup := .element e.tag e.attributes e.children.reverse

/-- A tree under construction: the finished top nodes in reverse order, and the open elements from
the innermost to the outermost. -/
structure Builder where
  top : List Markup
  opened : List OpenElement

/-- The first field of each name. -/
def firstOfEachName : List (String × String) → List (String × String)
  | [] => []
  | a :: as => a :: (firstOfEachName as).filter (·.1 != a.1)

/-- A node after its siblings, which are in reverse order. A text joins a text before it. -/
def join (node : Markup) (siblings : List Markup) : List Markup :=
  match node, siblings with
  | .text more, .text s :: rest => .text (s ++ more) :: rest
  | node, siblings => node :: siblings

namespace Builder

/-- The tree of no tokens. -/
def empty : Builder := ⟨[], []⟩

/-- Add a finished node at the current place. -/
def push (b : Builder) (node : Markup) : Builder :=
  match b.opened with
  | [] => { b with top := join node b.top }
  | e :: es => { b with opened := { e with children := join node e.children } :: es }

/-- Close the innermost open element. -/
def close (b : Builder) : Builder :=
  match b.opened with
  | [] => b
  | e :: es => push { b with opened := es } e.close

/-- Close the `n` innermost open elements. -/
def closeMany (b : Builder) (n : Nat) : Builder := n.repeat close b

/-- Take one token into account. -/
def add (b : Builder) : Token → Builder
  | .text s => b.push (.text s)
  | .comment s => b.push (.comment s)
  | .opening tag attributes selfClosing =>
    if selfClosing || isVoid tag then b.push (.element tag (firstOfEachName attributes) [])
    else { b with opened := ⟨tag, firstOfEachName attributes, []⟩ :: b.opened }
  | .closing tag =>
    match b.opened.findIdx? (·.tag == tag) with
    | some i => b.closeMany (i + 1)
    | none => b

/-- The nodes of the tree, all open elements closed. -/
def finish (b : Builder) : List Markup := (b.closeMany b.opened.length).top.reverse

end Builder

/-- The nodes that a list of tokens describes. -/
def ofTokens (tokens : List Token) : List Markup := (tokens.foldl Builder.add .empty).finish

/-- The nodes of a markup text. -/
def parse (s : String) : List Markup := ofTokens (Token.scan s.toList)

/-- Whether nodes are read back from their own text. -/
def stable (nodes : List Markup) : Bool := decide (parse (html nodes) = nodes)

end LiveBinding.Markup
