import LiveBinding.Fields

/-!
# Markup

A markup node is an element, a text or a comment. Elements with one of the `voidTags` have neither
children nor a closing tag.

`render` writes nodes as text. Nothing is escaped: an attribute value stands between two double
quotes as it is, a text and a comment as they are.
-/

namespace LiveBinding

/-- A markup node. -/
inductive Markup where
  | element (tag : String) (attributes : List (String × String)) (children : List Markup)
  | text (s : String)
  | comment (s : String)
  deriving Repr

namespace Markup

instance : Inhabited Markup := ⟨.text ""⟩

/-- The tags of elements that never have children or a closing tag. -/
def voidTags : List String :=
  ["area", "base", "br", "col", "embed", "hr", "img", "input", "link", "meta", "source", "track",
    "wbr"]

/-- Whether an element with this tag never has children. -/
def isVoid (tag : String) : Bool := voidTags.contains tag

mutual

/-- Equality of nodes is decidable. -/
def decEq : (a b : Markup) → Decidable (a = b)
  | .element t as cs, .element t' as' cs' =>
    if h : t = t' ∧ as = as' then
      match decEqAll cs cs' with
      | isTrue hc => isTrue (by rw [h.1, h.2, hc])
      | isFalse hc => isFalse fun e => hc (by injection e)
    else isFalse fun e => h (by injection e with h₁ h₂ _; exact ⟨h₁, h₂⟩)
  | .text s, .text s' =>
    if h : s = s' then isTrue (by rw [h]) else isFalse fun e => h (by injection e)
  | .comment s, .comment s' =>
    if h : s = s' then isTrue (by rw [h]) else isFalse fun e => h (by injection e)
  | .element .., .text _ | .element .., .comment _ | .text _, .element .. | .text _, .comment _
  | .comment _, .element .. | .comment _, .text _ => isFalse nofun

/-- Equality of lists of nodes is decidable. -/
def decEqAll : (as bs : List Markup) → Decidable (as = bs)
  | [], [] => isTrue rfl
  | a :: as, b :: bs =>
    match decEq a b, decEqAll as bs with
    | isTrue ha, isTrue has => isTrue (by rw [ha, has])
    | isFalse ha, _ => isFalse fun e => ha (by injection e)
    | _, isFalse has => isFalse fun e => has (by injection e)
  | [], _ :: _ | _ :: _, [] => isFalse nofun

end

instance : DecidableEq Markup := decEq

/-- One attribute, after a blank. -/
def renderAttribute (a : String × String) : List Char :=
  ' ' :: a.1.toList ++ '=' :: '"' :: a.2.toList ++ ['"']

/-- The opening tag of an element. -/
def renderOpening (tag : String) (attributes : List (String × String)) : List Char :=
  '<' :: tag.toList ++ attributes.flatMap renderAttribute ++ ['>']

mutual

/-- The characters of a node. -/
def render : Markup → List Char
  | .text s => s.toList
  | .comment s => '<' :: '!' :: '-' :: '-' :: s.toList ++ ['-', '-', '>']
  | .element tag attributes children =>
    renderOpening tag attributes ++
      if isVoid tag then [] else renderAll children ++ '<' :: '/' :: tag.toList ++ ['>']

/-- The characters of several nodes, one after the other. -/
def renderAll : List Markup → List Char
  | [] => []
  | node :: nodes => render node ++ renderAll nodes

end

/-- The text of several nodes. -/
def html (nodes : List Markup) : String := String.ofList (renderAll nodes)

end Markup

end LiveBinding
