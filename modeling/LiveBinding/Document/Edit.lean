import LiveBinding.Document.Basic

/-!
# Editing documents

Operations that change the links of a document: detaching all children of a node, appending
children, and replacing the children by a text or by markup. Each link is changed at both ends.
-/

namespace LiveBinding.Document

variable {κ : Type}

/-- Replace the list of children of an element; the children are not told. -/
def setChildren (d : Document κ) (n : NodeId) (children : List NodeId) : Document κ :=
  d.modifyElement n fun e => { e with children := children }

/-- Detach every child of a node. -/
def detachChildren (d : Document κ) (n : NodeId) : Document κ :=
  (d.children n).foldl (fun d c => d.setParent c none) (d.setChildren n [])

/-- Take a node out of its parent. -/
def detach (d : Document κ) (n : NodeId) : Document κ :=
  match d.parent? n with
  | none => d
  | some p =>
    (d.setParent n none).modifyElement p fun e => { e with children := e.children.filter (· != n) }

/-- Move a node to the end of an element's children. A node that does not exist, and the element
itself, are left where they are. -/
def appendChild (d : Document κ) (n child : NodeId) : Document κ :=
  if child < d.size ∧ child ≠ n then
    ((d.detach child).setParent child (some n)).modifyElement n fun e =>
      { e with children := e.children ++ [child] }
  else d

/-- Move nodes, one after the other, to the end of an element's children. -/
def appendChildren (d : Document κ) (n : NodeId) (children : List NodeId) : Document κ :=
  if (d.element? n).isSome then children.foldl (fun d c => d.appendChild n c) d else d

/-- Replace the content of a node by plain text. An element gets one text as its only child, or
none for the empty text. -/
def setText (d : Document κ) (n : NodeId) (s : String) : Document κ :=
  match d.content? n with
  | none => d
  | some (.text _) => d.modifyContent n fun _ => .text s
  | some (.comment _) => d.modifyContent n fun _ => .comment s
  | some (.element _) =>
    let detached := d.detachChildren n
    if s = "" then detached
    else
      let added := detached.add (.text s) (some n)
      added.1.setChildren n [added.2]

mutual

/-- New nodes for a markup node and all below it, in document order. -/
def instantiate (d : Document κ) (parent : NodeId) : Markup → Document κ × NodeId
  | .text s => d.add (.text s) (some parent)
  | .comment s => d.add (.comment s) (some parent)
  | .element tag attributes children =>
    let added := d.add (.element (Element.new tag attributes)) (some parent)
    let inner := added.1.instantiateAll added.2 children
    (inner.1.setChildren added.2 inner.2, added.2)

/-- New nodes for several markup nodes. -/
def instantiateAll (d : Document κ) (parent : NodeId) : List Markup → Document κ × List NodeId
  | [] => (d, [])
  | m :: ms =>
    let first := d.instantiate parent m
    let rest := first.1.instantiateAll parent ms
    (rest.1, first.2 :: rest.2)

end

/-- Replace the children of an element by the nodes of a markup text. -/
def setMarkup (d : Document κ) (n : NodeId) (source : String) : Document κ :=
  if (d.element? n).isSome then
    let added := (d.detachChildren n).instantiateAll n (Markup.parse source)
    added.1.setChildren n added.2
  else d

/-- The document whose body holds the nodes of a markup text. -/
def ofMarkup (source : String) : Document κ := empty.setMarkup body source

end LiveBinding.Document
