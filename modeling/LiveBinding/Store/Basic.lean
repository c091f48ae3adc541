import LiveBinding.Plain
import LiveBinding.Store.Value

/-!
# Stores

A store holds the state of models: cells, and containers that arrange cells. A cell has a value
and the effects that watch it, in the order in which they registered. A mapping has a cell for
each key, in the order in which the keys were defined; a sequence has a cell for each index.

Containers only grow: `define` adds a key at the end of a mapping, if it does not have the key, and
`append` an item at the end of a sequence. `assign` replaces the value of one cell, `watch` adds a
watcher to one cell.

`intercept` builds containers from plain data, and `toPlain` takes a snapshot back to plain data.
-/

namespace LiveBinding

/-- An effect, by its place in the order of all constructions. -/
abbrev EffectId := Nat

/-- The value of one key or item, and the effects that watch it. -/
structure Cell where
  value : Value
  watchers : List EffectId
  deriving DecidableEq

/-- The cells and containers of all models. -/
structure Store where
  cells : Array Cell
  mappings : Array (Fields CellId)
  sequences : Array (List CellId)

namespace Store

/-- The store without models. -/
def empty : Store := ⟨#[], #[], #[]⟩

/-! ### Looking -/

/-- The value of a cell. -/
def value (s : Store) (c : CellId) : Value := (s.cells[c]?.map Cell.value).getD .null

/-- The effects that watch a cell, in order of registration. -/
def watchers (s : Store) (c : CellId) : List EffectId := (s.cells[c]?.map Cell.watchers).getD []

/-- The keys of a mapping with their cells. -/
def entries (s : Store) (m : MappingId) : Fields CellId := s.mappings[m]?.getD []

/-- The cells of a sequence. -/
def items (s : Store) (q : SequenceId) : List CellId := s.sequences[q]?.getD []

/-- The keys of a mapping, in order. -/
def keys (s : Store) (m : MappingId) : List String := (s.entries m).keys

/-- The cell of a key. -/
def cellOf? (s : Store) (m : MappingId) (key : String) : Option CellId := (s.entries m).get? key

/-- The cell of an index. -/
def cellAt? (s : Store) (q : SequenceId) (index : Nat) : Option CellId := (s.items q)[index]?

/-! ### Changing -/

/-- Give a cell a value. -/
def assign (s : Store) (c : CellId) (v : Value) : Store :=
  { s with cells := s.cells.modify c fun cell => { cell with value := v } }

/-- Register a watcher of a cell, behind those that it has. -/
def watch (s : Store) (c : CellId) (e : EffectId) : Store :=
  { s with cells := s.cells.modify c fun cell => { cell with watchers := cell.watchers ++ [e] } }

/-- Keep only the watchers that satisfy `p`. -/
def prune (s : Store) (c : CellId) (p : EffectId → Bool) : Store :=
  { s with cells := s.cells.modify c fun cell => { cell with watchers := cell.watchers.filter p } }

/-- New cells, one for each value, that nobody watches. -/
def addCells (s : Store) (vs : List Value) : Store × List CellId :=
  ({ s with cells := s.cells ++ (vs.map fun v => Cell.mk v []).toArray },
    List.range' s.cells.size vs.length)

/-- Put a new cell under a key of a mapping: in place of the one that the key has, or behind all
keys. -/
def define (s : Store) (m : MappingId) (key : String) (v : Value) : Store :=
  { (s.addCells [v]).1 with mappings := s.mappings.modify m fun fs => fs.put key s.cells.size }

/-- Append an item to a sequence. -/
def append (s : Store) (q : SequenceId) (v : Value) : Store :=
  let added := s.addCells [v]
  { added.1 with sequences := s.sequences.modify q fun cs => cs ++ added.2 }

/-- A new mapping; of several values under one key the last counts. -/
def addMapping (s : Store) (fields : Fields Value) : Store × MappingId :=
  let distinct := fields.foldl (fun fs f => Fields.put fs f.1 f.2) []
  let added := s.addCells (distinct.map Prod.snd)
  ({ added.1 with mappings := s.mappings.push (distinct.keys.zip added.2) }, s.mappings.size)

/-- A new sequence. -/
def addSequence (s : Store) (vs : List Value) : Store × SequenceId :=
  let added := s.addCells vs
  ({ added.1 with sequences := s.sequences.push added.2 }, s.sequences.size)

/-! ### Plain data -/

mutual

/-- Build containers for plain data, the inner ones first. -/
def intercept (s : Store) : Plain → Store × Value
  | .null => (s, .null)
  | .boolean b => (s, .boolean b)
  | .number n => (s, .number n.toNumber)
  | .text t => (s, .text t)
  | .array items =>
    let inner := s.interceptItems items
    let added := inner.1.addSequence inner.2
    (added.1, .sequence added.2)
  | .object fields =>
    let inner := s.interceptFields fields
    let added := inner.1.addMapping inner.2
    (added.1, .mapping added.2)

/-- Build containers for the items of an array. -/
def interceptItems (s : Store) : List Plain → Store × List Value
  | [] => (s, [])
  | p :: ps =>
    let first := s.intercept p
    let rest := first.1.interceptItems ps
    (rest.1, first.2 :: rest.2)

/-- Build containers for the fields of an object. -/
def interceptFields (s : Store) : List (String × Plain) → Store × Fields Value
  | [] => (s, [])
  | (key, p) :: ps =>
    let first := s.intercept p
    let rest := first.1.interceptFields ps
    (rest.1, (key, first.2) :: rest.2)

end

/-- Build a model from plain data, which must be an object. -/
def interceptRoot (s : Store) (p : Plain) : Except Fault (Store × MappingId) :=
  match s.intercept p with
  | (s, .mapping m) => .ok (s, m)
  | (_, v) => .error (.invalidModel v.kind)

/-- A snapshot of a value as plain data, containers nested up to a depth. -/
def snapshot (s : Store) : Nat → Value → Plain
  | _, .null => .null
  | _, .boolean b => .boolean b
  | _, .number x => Plain.ofNumber x
  | _, .text t => .text t
  | 0, .mapping _ => .null
  | 0, .sequence _ => .null
  | depth + 1, .mapping m =>
    .object ((s.entries m).map fun f => (f.1, s.snapshot depth (s.value f.2)))
  | depth + 1, .sequence q => .array ((s.items q).map fun c => s.snapshot depth (s.value c))

/-- A snapshot of a value as plain data. Containers that do not contain themselves nest at most as
deeply as there are containers. -/
def toPlain (s : Store) (v : Value) : Plain :=
  s.snapshot (s.mappings.size + s.sequences.size) v

end Store

/-! ### Texts of values -/

/-- The number format of rendered text. -/
def Value.numberLayout : Layout where
  lowest := -6
  highest := 20
  pointZero := false
  plus := true
  signedZero := false
  tie := .up
  nan := "NaN"
  infinity := "Infinity"

/-- The text that a value is rendered as: nothing for `null`, leaves as they are, and containers
as JSON. -/
def Store.display (s : Store) : Value → String
  | .null => ""
  | .boolean b => if b then "true" else "false"
  | .number x => x.text Value.numberLayout
  | .text t => t
  | v => (s.toPlain v).json

end LiveBinding
