import LiveBinding.Fields
import LiveBinding.Text.Blank

/-!
# Engine configuration

Two switches decide how a view model works. They start from their defaults, can be set by a
settings file, and can be overridden by two environment variables.

A settings file has one setting a line, `name = true` or `name = false`, with comments after `#`.
A name may be quoted. A file that sets anything else, or one switch twice, is malformed.
-/

namespace LiveBinding

/-- The switches of a view model. -/
structure Config where
  /-- Whether an effect is silent when the value it reads is the one it delivered last. -/
  equalityGating : Bool := false
  /-- Whether the keys of the model can be reached through the view model. -/
  proxyData : Bool := true
  deriving DecidableEq, Repr

/-- Why a configuration could not be read. -/
inductive ConfigFault where
  /-- The settings file is malformed. -/
  | malformed
  /-- An environment variable does not hold a truth value. -/
  | notBoolean (name value : String)
  deriving DecidableEq, Repr

/-- The wording of a configuration fault. -/
def ConfigFault.message : ConfigFault → String
  | .malformed => "invalid engine config"
  | .notBoolean name value =>
    name ++ "=" ++ value ++ ": expected a boolean (1/0/true/false/yes/no/on/off)"

namespace Config

/-- The variable that overrides `equalityGating`. -/
def equalityGatingVariable : String := "FBIND_EQUALITY_GATING"

/-- The variable that overrides `proxyData`. -/
def proxyDataVariable : String := "FBIND_PROXY_DATA"

/-- The truth value that a variable holds, in any case and with blanks around it. -/
def truth? (value : String) : Option Bool :=
  let word := String.ofList ((Text.trimChars value.toList).map Char.toLower)
  if ["1", "true", "yes", "on"].contains word then some true
  else if ["0", "false", "no", "off"].contains word then some false
  else none

/-- The value of a switch after the override by a variable. -/
def overridden (lookup : String → Option String) (name : String) (value : Bool) :
    Except ConfigFault Bool :=
  match lookup name with
  | none => .ok value
  | some s =>
    match truth? s with
    | some b => .ok b
    | none => .error (.notBoolean name s)

/-- The configuration after the overrides by the environment. -/
def withOverrides (c : Config) (lookup : String → Option String) : Except ConfigFault Config := do
  let gating ← overridden lookup equalityGatingVariable c.equalityGating
  let proxy ← overridden lookup proxyDataVariable c.proxyData
  return ⟨gating, proxy⟩

/-! ### Settings files -/

/-- The blanks inside a line of a settings file. -/
def isSpace (c : Char) : Bool := c == ' ' || c == '\t'

/-- The characters of a name without quotes. -/
def isBareChar (c : Char) : Bool := c.isAlphanum || c == '_' || c == '-'

/-- The characters that may stand in a comment or between quotes. -/
def isPrintable (c : Char) : Bool := c == '\t' || (decide (0x20 ≤ c.toNat) && c != '\x7f')

/-- The value of a hexadecimal digit. -/
def hexValue? (c : Char) : Option Nat :=
  if c.isDigit then some (c.toNat - '0'.toNat)
  else if 'a' ≤ c ∧ c ≤ 'f' then some (c.toNat - 'a'.toNat + 10)
  else if 'A' ≤ c ∧ c ≤ 'F' then some (c.toNat - 'A'.toNat + 10)
  else none

/-- The character with a code point written as hexadecimal digits. -/
def codePoint? (digits : List Char) : Option Char := do
  let n ← digits.foldlM (fun n c => (hexValue? c).map (16 * n + ·)) 0
  if h : n.isValidChar then some (Char.ofNatAux n h) else none

/-- A name between double quotes, with escapes, and what follows the closing quote. -/
def quotedName? : List Char → Option (List Char × List Char)
  | [] => none
  | '"' :: cs => some ([], cs)
  | '\\' :: 'u' :: a :: b :: c :: d :: cs => do
    let x ← codePoint? [a, b, c, d]
    let (name, rest) ← quotedName? cs
    return (x :: name, rest)
  | '\\' :: 'U' :: a :: b :: c :: d :: e :: f :: g :: h :: cs => do
    let x ← codePoint? [a, b, c, d, e, f, g, h]
    let (name, rest) ← quotedName? cs
    return (x :: name, rest)
  | '\\' :: c :: cs => do
    let x ← [('b', '\x08'), ('t', '\t'), ('n', '\n'), ('f', '\x0c'), ('r', '\r'), ('"', '"'),
      ('\\', '\\')].lookup c
    let (name, rest) ← quotedName? cs
    return (x :: name, rest)
  | c :: cs => do
    guard (isPrintable c && c != '\\')
    let (name, rest) ← quotedName? cs
    return (c :: name, rest)

/-- The name at the start of a setting, and what follows it. -/
def name? : List Char → Option (List Char × List Char)
  | '"' :: cs => quotedName? cs
  | '\'' :: cs =>
    match cs.dropWhile fun c => isPrintable c && c != '\'' with
    | '\'' :: rest => some (cs.takeWhile fun c => isPrintable c && c != '\'', rest)
    | _ => none
  | cs =>
    let name := cs.takeWhile isBareChar
    if name = [] then none else some (name, cs.dropWhile isBareChar)

/-- Whether the rest of a line is empty or a comment. -/
def endsLine (cs : List Char) : Bool :=
  match cs.dropWhile isSpace with
  | [] => true
  | '#' :: comment => comment.all isPrintable
  | _ => false

/-- The setting on a line; `some none` for a line without one, `none` for a malformed line. -/
def setting? (cs : List Char) : Option (Option (String × Bool)) :=
  if endsLine cs then some none
  else do
    let (name, rest) ← name? (cs.dropWhile isSpace)
    let assigned ← match rest.dropWhile isSpace with
      | '=' :: cs => some (cs.dropWhile isSpace)
      | _ => none
    let value := assigned.takeWhile Char.isAlpha
    guard (endsLine (assigned.dropWhile Char.isAlpha))
    match String.ofList value with
    | "true" => some (some (String.ofList name, true))
    | "false" => some (some (String.ofList name, false))
    | _ => none

/-- The lines of a text. A line ends with a line feed, a carriage return before it not counted. -/
def lines (cs : List Char) : List (List Char) :=
  match Text.splitWhere (· == '\n') cs with
  | [] => []
  | pieces =>
    (pieces.dropLast.map fun p => if p.getLast? = some '\r' then p.dropLast else p) ++
      pieces.getLast?.toList

/-- The settings of a file, in order. -/
def settings? (source : String) : Option (Fields Bool) := do
  let cs := match source.toList with
    | '\ufeff' :: cs => cs
    | cs => cs
  let found ← (lines cs).mapM setting?
  return found.filterMap id

/-- The configuration that a settings file describes; a switch that it does not set keeps its
default. -/
def ofSettings (source : String) : Except ConfigFault Config :=
  match settings? source with
  | none => .error .malformed
  | some found =>
    if found.keys.Nodup ∧ ∀ name ∈ found.keys, name ∈ ["equality_gating", "proxy_data"] then
      .ok
        { equalityGating := (found.get? "equality_gating").getD false
          proxyData := (found.get? "proxy_data").getD true }
    else .error .malformed

end Config

end LiveBinding
