import LiveBinding.Interpolation.Basic

/-!
# Templates from pieces

A template over a list of keys is a list of literals and placeholders, each placeholder given by
the position of its key and by whether blanks surround it. `source` writes the template as
interpolated text, and `expand` gives the text that it stands for when the keys have values.
-/

namespace LiveBinding

/-- A piece of a template. -/
inductive Piece where
  | literal (s : String)
  | placeholder (index : Nat) (padded : Bool)
  deriving DecidableEq, Repr

namespace Piece

/-- The key at a position. -/
def key (keys : List String) (index : Nat) : String := keys[index]?.getD ""

/-- The characters of a piece in interpolated text. -/
def written (keys : List String) : Piece → List Char
  | .literal s => s.toList
  | .placeholder index padded =>
    let blank := if padded then [' '] else []
    '\x7b' :: '\x7b' :: blank ++ (key keys index).toList ++ blank ++ ['\x7d', '\x7d']

/-- What a piece stands for. -/
def value (keys : List String) (lookup : String → String) : Piece → List Char
  | .literal s => s.toList
  | .placeholder index _ => (lookup (key keys index)).toList

/-- The interpolated text of a template. -/
def source (pieces : List Piece) (keys : List String) : String :=
  String.ofList (pieces.flatMap (written keys))

/-- The text that a template stands for. -/
def expand (pieces : List Piece) (keys : List String) (lookup : String → String) : String :=
  String.ofList (pieces.flatMap (value keys lookup))

end Piece

end LiveBinding
