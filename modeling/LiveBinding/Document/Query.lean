import LiveBinding.Document.Basic
import LiveBinding.Text.Blank

/-!
# Reading documents

What a node looks like as markup and as text, the nodes below it in document order, and the first
of them that a selector matches.

A path from a node downwards has at most as many nodes as the document, unless a node lies below
itself. The walks take this number as the depth to which they look.
-/

namespace LiveBinding

namespace Document

variable {κ : Type}

/-- A node and the nodes below it, in document order, up to a depth. -/
def preorderTo (d : Document κ) : Nat → NodeId → List NodeId
  | 0, _ => []
  | depth + 1, n => n :: (d.children n).flatMap (d.preorderTo depth)

/-- A node and the nodes below it, in document order. -/
def preorder (d : Document κ) (n : NodeId) : List NodeId := d.preorderTo d.size n

/-- A node as markup, up to a depth. -/
def markupTo (d : Document κ) : Nat → NodeId → Option Markup
  | 0, _ => none
  | depth + 1, n =>
    match d.content? n with
    | none => none
    | some (.text s) => some (.text s)
    | some (.comment s) => some (.comment s)
    | some (.element e) =>
      some (.element e.tag e.attributes (e.children.filterMap (d.markupTo depth)))

/-- A node as markup. -/
def markup? (d : Document κ) (n : NodeId) : Option Markup := d.markupTo d.size n

/-- The children of a node as markup. -/
def innerMarkup (d : Document κ) (n : NodeId) : List Markup := (d.children n).filterMap d.markup?

/-- The markup text of a node. -/
def outerHtml (d : Document κ) (n : NodeId) : String := Markup.html (d.markup? n).toList

/-- The markup text of the children of a node. -/
def innerHtml (d : Document κ) (n : NodeId) : String := Markup.html (d.innerMarkup n)

/-- The texts below a node, one after the other, up to a depth; comments are left out. -/
def textTo (d : Document κ) : Nat → NodeId → String
  | 0, _ => ""
  | depth + 1, n =>
    match d.content? n with
    | some (.text s) => s
    | some (.element e) => String.join (e.children.map (d.textTo depth))
    | _ => ""

/-- The text of a node: its own for a text or a comment, the texts below it for an element. -/
def text (d : Document κ) (n : NodeId) : String :=
  match d.content? n with
  | some (.comment s) => s
  | _ => d.textTo d.size n

/-- The live input values of the elements below the body with the tag `input`, in document
order. -/
def inputs (d : Document κ) : List String :=
  ((d.preorder body).filter fun n => d.tag? n == some "input").map d.inputValue

end Document

/-- How an element is looked for. -/
inductive Selector where
  | hasId (name : String)
  | hasClass (name : String)
  | hasTag (name : String)
  deriving DecidableEq, Repr

namespace Selector

/-- Read a selector: `#` and an id, `.` and a class, or a tag. An empty name selects nothing. -/
def parse? (s : String) : Option Selector :=
  match Text.trimChars s.toList with
  | ['#'] | ['.'] | [] => none
  | '#' :: name => some (.hasId (String.ofList name))
  | '.' :: name => some (.hasClass (String.ofList name))
  | name => some (.hasTag (String.ofList name))

/-- Whether two texts differ at most in the case of the letters `A` to `Z`. -/
def sameIgnoringCase (s t : String) : Bool := s.toList.map Char.toLower == t.toList.map Char.toLower

/-- Whether a selector matches an element. -/
def selects {κ : Type} (e : Element κ) : Selector → Bool
  | .hasId name => e.attributes.get? "id" == some name
  | .hasClass name => ((e.attributes.get? "class").map Text.words).any (·.contains name)
  | .hasTag name => sameIgnoringCase e.tag name

end Selector

namespace Document

variable {κ : Type}

/-- Whether a node is an element that a selector matches. -/
def isSelected (d : Document κ) (selector : Selector) (n : NodeId) : Bool :=
  (d.element? n).any (Selector.selects · selector)

/-- Look at the nodes of a stack, from its top, for an element that a selector matches. The children
of an element that is passed over are put on the stack, the last one first. Each step takes one node
off. -/
def search (d : Document κ) (selector : Selector) : Nat → List NodeId → Option NodeId
  | 0, _ => none
  | _ + 1, [] => none
  | steps + 1, n :: stack =>
    match d.element? n with
    | none => d.search selector steps stack
    | some e =>
      if Selector.selects e selector then some n
      else d.search selector steps (e.children.reverse.foldl (fun stack c => c :: stack) stack)

/-- The first element that a selector matches, a node and those below it in document order. No node
is taken off the stack twice, unless it lies below itself. -/
def find? (d : Document κ) (n : NodeId) (selector : String) : Option NodeId :=
  (Selector.parse? selector).bind fun sel => d.search sel d.size [n]

end Document

end LiveBinding
