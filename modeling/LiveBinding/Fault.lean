/-!
# Faults

Why an operation did not finish. A fault keeps what was changed before it arose. `Fault.message`
is the only place where the wording of a fault is written.
-/

namespace LiveBinding

/-- The six kinds of values that a model holds. -/
inductive Kind where
  | null
  | boolean
  | number
  | text
  | mapping
  | sequence
  deriving DecidableEq, Repr

/-- The name of a kind, as messages write it. -/
def Kind.name : Kind → String
  | .null => "null"
  | .boolean => "boolean"
  | .number => "number"
  | .text => "string"
  | .mapping => "mapping"
  | .sequence => "sequence"

/-- Why an operation did not finish. -/
inductive Fault where
  /-- A segment was applied to a value that is no container. -/
  | pathResolution (path segment : String) (found : Kind)
  /-- An assignment addressed an index behind the end of a sequence. -/
  | indexOutOfBounds (path : String) (index length : Nat)
  /-- An assignment addressed a sequence by a segment that is no index. -/
  | invalidIndex (path segment : String)
  /-- The root of a model was no object. -/
  | invalidModel (found : Kind)
  /-- No directive has this name. -/
  | unknownDirective (name : String)
  /-- A directive that needs an argument was written without one. -/
  | missingArgument (name : String)
  /-- An event directive named a method that is not registered. -/
  | missingMethod (name : String)
  /-- No node matches the selector of a mount point. -/
  | mountNotFound (selector : String)
  /-- A key is not among the proxied keys of a view model. -/
  | unknownProperty (key : String)
  /-- User code reported a failure. -/
  | handler (message : String)
  /-- A step named something that does not exist. -/
  | badRequest
  /-- User code called itself more deeply than the run allows. -/
  | exhausted
  deriving DecidableEq, Repr

/-- The wording of a fault. -/
def Fault.message : Fault → String
  | .pathResolution path segment found =>
    "cannot resolve `" ++ segment ++ "` in `" ++ path ++ "`: value is " ++ found.name
  | .indexOutOfBounds path index length =>
    "index " ++ toString index ++ " out of bounds for `" ++ path ++ "` (len " ++ toString length ++
      ")"
  | .invalidIndex path segment => "`" ++ segment ++ "` is not a valid index in `" ++ path ++ "`"
  | .invalidModel found => "model root must be a mapping, got " ++ found.name
  | .unknownDirective name => "unknown directive `" ++ name ++ "`"
  | .missingArgument name => "directive `" ++ name ++ "` requires an argument"
  | .missingMethod name => "no method named `" ++ name ++ "` is registered"
  | .mountNotFound selector => "mount point `" ++ selector ++ "` not found"
  | .unknownProperty key => "`" ++ key ++ "` is not a top-level model property"
  | .handler message => "handler failed: " ++ message
  | .badRequest => "driver"
  | .exhausted => "too many nested calls"

end LiveBinding
