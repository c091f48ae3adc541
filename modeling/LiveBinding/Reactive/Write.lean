import LiveBinding.Reactive.Notify

/-!
# Writing the model

All writes end in a `Place`: a cell is set, and its watchers are notified if the value changed; a
new key or a new item is added without notifying anyone.
-/

namespace LiveBinding.Act

variable {σ : Type} (call : Call σ)

/-- Put a value in a place. -/
def put (place : Place) (v : Value) : Act σ Unit := do
  match place with
  | .cell c => discard (setCell call c v)
  | .newKey m key => modify fun w => w.turn (w.store.define m key v)
  | .newItem q => modify fun w => w.turn (w.store.append q v)

/-- Assign a value to a path. The segments before the last are read; the last one is assigned. -/
def write (path : KeyPath) (root : MappingId) (v : Value) : Act σ Unit := do
  let container ← readAlong path root path.parents
  let place ← ofExcept ((← get).store.place path container path.last)
  put call place v

/-- Write a key of a mapping. -/
def writeKey (m : MappingId) (key : String) (v : Value) : Act σ Unit := do
  match (← get).store.cellOf? m key with
  | some c => discard (setCell call c v)
  | none => put call (.newKey m key) v

/-- Write an existing item of a sequence. Returns whether there is one at the index. -/
def writeItem (q : SequenceId) (index : Nat) (v : Value) : Act σ Bool := do
  match (← get).store.cellAt? q index with
  | some c =>
    discard (setCell call c v)
    return true
  | none => return false

end LiveBinding.Act
