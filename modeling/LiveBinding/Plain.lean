import LiveBinding.Fields
import LiveBinding.Number.Layout

/-!
# Plain data

`Plain` is data without identity: what a model is built from, and what a snapshot of a model is.
`Plain.json` writes it as compact JSON.
-/

namespace LiveBinding

/-- A number of plain data: a whole number, or a number of the format binary64. The two differ in
how they are written. -/
inductive Numeral where
  | integer (z : Int)
  | double (x : Number)
  deriving DecidableEq

/-- Plain data. The fields of an object have an order. -/
inductive Plain where
  | null
  | boolean (b : Bool)
  | number (n : Numeral)
  | text (s : String)
  | array (items : List Plain)
  | object (fields : List (String × Plain))

instance : Inhabited Plain := ⟨.null⟩

namespace Numeral

/-- The number of the model that a numeral denotes. -/
def toNumber : Numeral → Number
  | .integer z => Number.ofInt z
  | .double x => x

/-- The number format of JSON texts. -/
def layout : Layout where
  lowest := -5
  highest := 15
  pointZero := true
  plus := true
  signedZero := true
  tie := .even
  nan := "null"
  infinity := "null"

/-- The text of a numeral in JSON. -/
def json : Numeral → String
  | .integer z => toString z
  | .double x => x.text layout

end Numeral

namespace Plain

/-- A number of the model as plain data: integers of magnitude below `2 ^ 53` are whole numbers,
and a number that JSON cannot write is `null`. -/
def ofNumber (x : Number) : Plain :=
  match x.smallInt? with
  | some z => .number (.integer z)
  | none => match x with
    | .finite .. => .number (.double x)
    | .nan => .null
    | .infinite _ => .null

/-- One hexadecimal digit, in lower case. -/
def hexDigit (n : Nat) : Char := (Nat.toDigits 16 n).headD '0'

/-- A character of a JSON string: the quote, the backslash and the control characters are
escaped. -/
def escapeChar (c : Char) : List Char :=
  match c with
  | '"' => ['\\', '"']
  | '\\' => ['\\', '\\']
  | '\x08' => ['\\', 'b']
  | '\x0c' => ['\\', 'f']
  | '\n' => ['\\', 'n']
  | '\r' => ['\\', 'r']
  | '\t' => ['\\', 't']
  | c =>
    if c.toNat < 0x20 then ['\\', 'u', '0', '0', hexDigit (c.toNat / 16), hexDigit (c.toNat % 16)]
    else [c]

/-- A JSON string. -/
def quote (s : String) : String :=
  String.ofList ('"' :: s.toList.flatMap escapeChar ++ ['"'])

mutual

/-- The data as JSON without blanks. -/
def json : Plain → String
  | .null => "null"
  | .boolean b => if b then "true" else "false"
  | .number n => n.json
  | .text s => quote s
  | .array items => "[" ++ jsonItems items ++ "]"
  | .object fields => "\x7b" ++ jsonFields fields ++ "\x7d"

/-- The items of an array, separated by commas. -/
def jsonItems : List Plain → String
  | [] => ""
  | [item] => json item
  | item :: next :: items => json item ++ "," ++ jsonItems (next :: items)

/-- The fields of an object, separated by commas. -/
def jsonFields : List (String × Plain) → String
  | [] => ""
  | [(key, value)] => quote key ++ ":" ++ json value
  | (key, value) :: next :: fields =>
    quote key ++ ":" ++ json value ++ "," ++ jsonFields (next :: fields)

end

end Plain

end LiveBinding
