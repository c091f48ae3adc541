import LiveBinding.Fields
import LiveBinding.Markup.Tree

/-!
# Documents

A document is a forest of nodes that are kept in the order of their creation. Node `0` is the
body. Every node knows its parent, and an element knows its children, so a link is stored at both
of its ends. Nodes are never removed: a node that is taken out of its parent becomes a root.

Elements carry listeners of a type `κ`, which the document only keeps. Requests about a node that
does not exist, or that is of the wrong sort, get an empty answer.
-/

namespace LiveBinding

/-- A node of a document. -/
abbrev NodeId := Nat

/-- An element: what its markup says, the value it has as an input, its children and its
listeners with the events that they wait for. -/
structure Element (κ : Type) where
  tag : String
  attributes : Fields String
  input : Option String
  children : List NodeId
  listeners : List (String × κ)

/-- A new element. -/
def Element.new {κ : Type} (tag : String) (attributes : Fields String) : Element κ :=
  ⟨tag, attributes, none, [], []⟩

/-- What a node is. -/
inductive Content (κ : Type) where
  | element (e : Element κ)
  | text (s : String)
  | comment (s : String)

/-- A node: what it is, and its parent. -/
structure Node (κ : Type) where
  content : Content κ
  parent : Option NodeId

/-- The three sorts of nodes that a template distinguishes. -/
inductive NodeSort where
  | element
  | text
  | other
  deriving DecidableEq, Repr

/-- A document. -/
structure Document (κ : Type) where
  nodes : Array (Node κ)

namespace Document

variable {κ : Type}

/-- The node of every document's body. -/
def body : NodeId := 0

/-- The document with an empty body. -/
def empty : Document κ := ⟨#[⟨.element (Element.new "body" []), none⟩]⟩

/-- The number of nodes, in the forest or out of it. -/
def size (d : Document κ) : Nat := d.nodes.size

/-! ### Looking -/

/-- What a node is. -/
def content? (d : Document κ) (n : NodeId) : Option (Content κ) := d.nodes[n]?.map Node.content

/-- A node that is an element. -/
def element? (d : Document κ) (n : NodeId) : Option (Element κ) :=
  match d.content? n with
  | some (.element e) => some e
  | _ => none

/-- The parent of a node. -/
def parent? (d : Document κ) (n : NodeId) : Option NodeId := d.nodes[n]?.bind Node.parent

/-- The children of a node, in order. -/
def children (d : Document κ) (n : NodeId) : List NodeId :=
  ((d.element? n).map Element.children).getD []

/-- The attributes of an element, in order. -/
def attributes (d : Document κ) (n : NodeId) : Fields String :=
  ((d.element? n).map Element.attributes).getD []

/-- The tag of an element. -/
def tag? (d : Document κ) (n : NodeId) : Option String := (d.element? n).map Element.tag

/-- The sort of a node. -/
def sort (d : Document κ) (n : NodeId) : NodeSort :=
  match d.content? n with
  | some (.element _) => .element
  | some (.text _) => .text
  | _ => .other

/-- The listeners of an element that wait for an event, in order of registration. -/
def listenersFor (d : Document κ) (n : NodeId) (event : String) : List κ :=
  ((((d.element? n).map Element.listeners).getD []).filter (·.1 == event)).map Prod.snd

/-- The value of an element as an input: the one set last, else its attribute `value`. -/
def inputValue (d : Document κ) (n : NodeId) : String :=
  match d.element? n with
  | some e => (e.input <|> e.attributes.get? "value").getD ""
  | none => ""

/-! ### Changing one node -/

/-- Change what a node is. -/
def modifyContent (d : Document κ) (n : NodeId) (f : Content κ → Content κ) : Document κ :=
  ⟨d.nodes.modify n fun node => { node with content := f node.content }⟩

/-- Change a node if it is an element. -/
def modifyElement (d : Document κ) (n : NodeId) (f : Element κ → Element κ) : Document κ :=
  d.modifyContent n fun
    | .element e => .element (f e)
    | c => c

/-- Give a node a parent, or none. -/
def setParent (d : Document κ) (n : NodeId) (parent : Option NodeId) : Document κ :=
  ⟨d.nodes.modify n fun node => { node with parent := parent }⟩

/-- A new node behind the existing ones. -/
def add (d : Document κ) (content : Content κ) (parent : Option NodeId) : Document κ × NodeId :=
  (⟨d.nodes.push ⟨content, parent⟩⟩, d.nodes.size)

/-- A new element without a parent. -/
def createElement (d : Document κ) (tag : String) : Document κ × NodeId :=
  d.add (.element (Element.new tag [])) none

/-- A new text without a parent. -/
def createText (d : Document κ) (s : String) : Document κ × NodeId := d.add (.text s) none

/-- Set an attribute of an element, in its place if it is there. -/
def setAttribute (d : Document κ) (n : NodeId) (name value : String) : Document κ :=
  d.modifyElement n fun e => { e with attributes := e.attributes.put name value }

/-- Remove an attribute of an element. -/
def removeAttribute (d : Document κ) (n : NodeId) (name : String) : Document κ :=
  d.modifyElement n fun e => { e with attributes := e.attributes.erase name }

/-- Set the value of an element as an input. -/
def setInputValue (d : Document κ) (n : NodeId) (value : String) : Document κ :=
  d.modifyElement n fun e => { e with input := some value }

/-- Add a listener to an element. -/
def addListener (d : Document κ) (n : NodeId) (event : String) (listener : κ) : Document κ :=
  d.modifyElement n fun e => { e with listeners := e.listeners ++ [(event, listener)] }

end Document

end LiveBinding
