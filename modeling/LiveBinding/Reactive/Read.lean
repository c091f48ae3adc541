import LiveBinding.Act

/-!
# Tracked reads

Reading the model registers the collecting effect, if there is one, with every cell that is read:
once for each read, also when the read ends in a fault later on the path.
-/

namespace LiveBinding.Act

variable {σ : Type}

/-- Read a cell. -/
def readCell (c : CellId) : Act σ Value := do
  modify fun w => w.registerReads [c]
  return (← get).store.value c

/-- Follow segments of a path from a root. -/
def readAlong (path : KeyPath) (root : MappingId) (segments : List String) : Act σ Value := do
  let found := (← get).store.walk path (.mapping root) segments
  modify fun w => w.registerReads found.1
  ofExcept found.2

/-- Read the value at a path. -/
def read (path : KeyPath) (root : MappingId) : Act σ Value := readAlong path root path.segments

/-- Read a key of a mapping; `none` if it is not defined. -/
def readKey (m : MappingId) (key : String) : Act σ (Option Value) := do
  match (← get).store.cellOf? m key with
  | some c => some <$> readCell c
  | none => return none

/-- Read an item of a sequence; `none` if the index is out of range. -/
def readItem (q : SequenceId) (index : Nat) : Act σ (Option Value) := do
  match (← get).store.cellAt? q index with
  | some c => some <$> readCell c
  | none => return none

end LiveBinding.Act
