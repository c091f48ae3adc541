import LiveBinding.KeyPath
import LiveBinding.Store.Basic

/-!
# Paths through a store

A key path is resolved from a root mapping, one segment after the other. A segment applied to a
mapping is a key, and a key that is not defined reads as `null`. Applied to a sequence it is an
index, or `length`; any other segment reads as `null`. To a leaf no segment can be applied.

`walk` gives, beside the value or the fault, the cells that are read on the way. `place` says what
an assignment through a path would change.
-/

namespace LiveBinding

/-- What an assignment changes. -/
inductive Place where
  /-- The value of a cell. -/
  | cell (c : CellId)
  /-- A mapping gets a new key. -/
  | newKey (m : MappingId) (key : String)
  /-- A sequence gets a new item. -/
  | newItem (q : SequenceId)
  deriving DecidableEq, Repr

namespace Store

/-- The value behind one segment and the cell that is read to find it, if one is; `none` for a
leaf. -/
def step? (s : Store) (v : Value) (segment : String) : Option (Option CellId × Value) :=
  match v with
  | .mapping m =>
    match s.cellOf? m segment with
    | some c => some (some c, s.value c)
    | none => some (none, .null)
  | .sequence q =>
    match index? segment with
    | some i =>
      match s.cellAt? q i with
      | some c => some (some c, s.value c)
      | none => some (none, .null)
    | none =>
      if segment = "length" then some (none, .number (Number.ofInt (s.items q).length))
      else some (none, .null)
  | _ => none

/-- The fault that no segment can be applied to a value. -/
def notContainer (path : KeyPath) (segment : String) (v : Value) : Fault :=
  .pathResolution path.raw segment v.kind

/-- Follow segments from a value: the cells read, in order, and the value found. -/
def walk (s : Store) (path : KeyPath) : Value → List String → List CellId × Except Fault Value
  | v, [] => ([], .ok v)
  | v, segment :: segments =>
    match s.step? v segment with
    | none => ([], .error (notContainer path segment v))
    | some (c, w) =>
      let rest := s.walk path w segments
      (c.toList ++ rest.1, rest.2)

/-- The cells that resolving a path reads, in order. -/
def reads (s : Store) (path : KeyPath) (root : MappingId) : List CellId :=
  (s.walk path (.mapping root) path.segments).1

/-- The value at a path. -/
def get (s : Store) (path : KeyPath) (root : MappingId) : Except Fault Value :=
  (s.walk path (.mapping root) path.segments).2

/-- What an assignment to the last segment changes in a container. -/
def place (s : Store) (path : KeyPath) (v : Value) (segment : String) : Except Fault Place :=
  match v with
  | .mapping m =>
    match s.cellOf? m segment with
    | some c => .ok (.cell c)
    | none => .ok (.newKey m segment)
  | .sequence q =>
    match index? segment with
    | none => .error (.invalidIndex path.raw segment)
    | some i =>
      match s.cellAt? q i with
      | some c => .ok (.cell c)
      | none =>
        if i = (s.items q).length then .ok (.newItem q)
        else .error (.indexOutOfBounds path.raw i (s.items q).length)
  | _ => .error (notContainer path segment v)

end Store

end LiveBinding
