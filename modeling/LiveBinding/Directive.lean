import LiveBinding.Fault

/-!
# Directives

An attribute whose name starts with `v-`, `:` or `@` is a directive. `:name` is short for
`v-bind:name` and `@event` for `v-on:event`. The directives `bind` and `on` need an argument, the
others ignore theirs.

`Directive.parse?` reads the name of an attribute, and `Directive.written` writes the long form of
a directive.
-/

namespace LiveBinding

/-- What a directive does with its element. -/
inductive Directive where
  /-- Show a value as text. -/
  | text
  /-- Show a value as markup. -/
  | html
  /-- Keep an input value and a place of the model equal. -/
  | model
  /-- Show a value in an attribute. -/
  | bind (name : String)
  /-- Call a method when an event happens. -/
  | on (event : String)
  deriving DecidableEq, Repr

namespace Directive

/-- The name of a directive. -/
def name : Directive → String
  | .text => "text"
  | .html => "html"
  | .model => "model"
  | .bind _ => "bind"
  | .on _ => "on"

/-- The attribute or event that a directive is about. -/
def argument? : Directive → Option String
  | .bind name => some name
  | .on event => some event
  | _ => none

/-- Whether a directive follows a value of the model. -/
def isReactive : Directive → Bool
  | .on _ => false
  | _ => true

/-- The long form of a directive. -/
def written (d : Directive) : String :=
  match d.argument? with
  | some argument => "v-" ++ d.name ++ ":" ++ argument
  | none => "v-" ++ d.name

/-- A directive with an argument, which must not be empty. -/
def withArgument (attr : String) (make : String → Directive) (argument : List Char) :
    Except Fault Directive :=
  if argument = [] then .error (.missingArgument attr) else .ok (make (String.ofList argument))

/-- The directive named between `v-` and the first colon; the argument is what follows it. -/
def named (attr : String) (written : List Char) : Except Fault Directive :=
  let argument := (written.dropWhile (· != ':')).tail
  match String.ofList (written.takeWhile (· != ':')) with
  | "text" => .ok .text
  | "html" => .ok .html
  | "model" => .ok .model
  | "bind" => withArgument attr .bind argument
  | "on" => withArgument attr .on argument
  | other => .error (.unknownDirective other)

/-- The directive that an attribute name stands for; `none` for a plain attribute. -/
def parse? (attr : String) : Except Fault (Option Directive) :=
  match attr.toList with
  | '@' :: event => (withArgument attr .on event).map some
  | ':' :: target => (withArgument attr .bind target).map some
  | 'v' :: '-' :: rest => (named attr rest).map some
  | _ => .ok none

end Directive

end LiveBinding
