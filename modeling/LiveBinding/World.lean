import LiveBinding.Config
import LiveBinding.Document.Edit
import LiveBinding.Document.Query
import LiveBinding.Interpolation.Basic
import LiveBinding.Store.Path

/-!
# Worlds

A world is everything that a run can look at or change: the store of the models, the effects that
were constructed, the documents, the view models, the tables of names under which things are kept,
and the parts of the state that only a running operation sees (collectors, passes, receivers).

Nothing is ever removed from the lists of effects, documents and view models. What is still in use
is a function of the rest of the world: `World.isAlive` says it of an effect and
`World.isViewModelAlive` of a view model.

User code is a type parameter `σ`. The engine only keeps it and hands it back to the caller that
runs it.
-/

namespace LiveBinding

/-- A document, by its place in the order of creation. -/
abbrev DocumentId := Nat

/-- A view model, by its place in the order of creation. -/
abbrev ViewModelId := Nat

/-- A node of one of the documents. -/
structure NodeRef where
  document : DocumentId
  node : NodeId
  deriving DecidableEq, Repr

/-- Where on its node a value is shown. -/
inductive Sink where
  | text
  | markup
  | input
  | attr (name : String)
  deriving DecidableEq, Repr

/-- What an effect does with a fresh value. -/
inductive Reaction (σ : Type) where
  /-- Run user code. -/
  | run (code : σ)
  /-- Show the value on a node. -/
  | display (sink : Sink) (node : NodeRef)
  /-- Render a template with all its placeholders as the text of a node. -/
  | render (template : Interpolation) (node : NodeRef)

/-- What an effect remembers. -/
structure Memory where
  /-- The value that it read or reacted to last. -/
  last : Value
  /-- How often it reacted. -/
  updates : Nat
  /-- The value that its construction read and those that it reacted to since, newest first. It has
  none if the construction failed. -/
  values : List Value
  deriving DecidableEq

namespace Memory

/-- Nothing has been read. -/
def empty : Memory := ⟨.null, 0, []⟩

/-- The construction reads a value. -/
def start (m : Memory) (v : Value) : Memory := { m with last := v, values := v :: m.values }

/-- A reaction to a value begins. -/
def receive (m : Memory) (v : Value) : Memory := ⟨v, m.updates + 1, v :: m.values⟩

end Memory

/-- An effect: the path that it reads from a root, whether it is silent for equal values, and what
it does. -/
structure Effect (σ : Type) where
  path : KeyPath
  root : MappingId
  gated : Bool
  reaction : Reaction σ
  /-- The cells that its construction read, in order. -/
  watched : List CellId
  memory : Memory

namespace Effect

variable {σ : Type}

/-- The value that an effect read or reacted to last. -/
def last (e : Effect σ) : Value := e.memory.last

/-- How often an effect reacted. -/
def updates (e : Effect σ) : Nat := e.memory.updates

/-- The values that an effect read and reacted to, newest first. -/
def values (e : Effect σ) : List Value := e.memory.values

/-- The effect with the value that its construction read. -/
def start (e : Effect σ) (v : Value) : Effect σ := { e with memory := e.memory.start v }

/-- The effect with one more value, to which it reacts. -/
def receive (e : Effect σ) (v : Value) : Effect σ := { e with memory := e.memory.receive v }

end Effect

/-- What an event listener does. -/
inductive Listener (σ : Type) where
  /-- Run user code. -/
  | run (code : σ)
  /-- Write the input value back to a place of a model. -/
  | writeBack (path : KeyPath) (root : MappingId)
  /-- Run user code as a method of a view model, if that is still alive. -/
  | method (receiver : ViewModelId) (code : σ)

/-- The effects that a compiled template keeps alive, in order of creation, and the number of
listeners that it attached. -/
structure Scope where
  effects : List EffectId
  listeners : Nat
  deriving DecidableEq, Repr

/-- The scope of an empty template. -/
def Scope.empty : Scope := ⟨[], 0⟩

/-- A view model: the document and the node on which its template was compiled, its model, the keys
that can be reached through it, its switches and its bindings. -/
structure ViewModel where
  document : DocumentId
  root : Option NodeId
  model : MappingId
  proxied : List String
  config : Config
  bindings : Scope
  deriving DecidableEq, Repr

/-- The names under which a scene keeps things. -/
structure Names where
  models : Fields MappingId
  effects : Fields EffectId
  scopes : Fields Scope
  viewModels : Fields ViewModelId
  nodes : Fields NodeId
  deriving DecidableEq, Repr

/-- A change of the models: the store before it and after it, and the effects and documents at that
moment. -/
structure Turn (σ : Type) where
  store : Store
  next : Store
  effects : Array (Effect σ)
  documents : Array (Document (Listener σ))

/-- A moment of a run: how many effects there were and which of them were in use, which nodes had
been changed by hand, how many passes and dispatches a fault had ended, and how often the models had
changed. -/
structure Moment where
  size : Nat
  alive : List EffectId
  touched : List NodeRef
  abortedPasses : Nat
  abortedDispatches : Nat
  changes : Nat
  deriving DecidableEq, Repr

/-- The moment before everything. -/
def Moment.start : Moment := ⟨0, [], [], 0, 0, 0⟩

/-- Everything that a run can look at or change. -/
structure World (σ : Type) where
  store : Store
  effects : Array (Effect σ)
  documents : Array (Document (Listener σ))
  /-- The document that a scene works on. -/
  current : DocumentId
  viewModels : Array ViewModel
  names : Names
  /-- Who collects the reads of cells, innermost first; `none` suspends collection. -/
  collectors : List (Option EffectId)
  /-- The effects that the running notification passes visit and that the running updates are about,
  innermost first. -/
  passes : List (List EffectId)
  /-- The view models on which methods and assignments are running, innermost first. -/
  receivers : List ViewModelId
  /-- What user code noted. -/
  log : List String
  /-- The number of passes that a fault has ended. -/
  abortedPasses : Nat
  /-- The number of dispatches that a fault has ended. -/
  abortedDispatches : Nat
  /-- The effects that a request registered with a cell by hand, newest first. -/
  enlisted : List EffectId
  /-- The nodes whose content, attributes or input value a request changed by hand, newest first. -/
  touched : List NodeRef
  /-- The changes of the models, newest first. -/
  changes : List (Turn σ)
  /-- The moments at which templates began to be compiled, newest first, and the start. -/
  moments : List Moment

namespace World

variable {σ : Type}

/-- The world with one document and nothing else. -/
def ofDocument (d : Document (Listener σ)) : World σ where
  store := .empty
  effects := #[]
  documents := #[d]
  current := 0
  viewModels := #[]
  names := ⟨[], [], [], [], []⟩
  collectors := []
  passes := []
  receivers := []
  log := []
  abortedPasses := 0
  abortedDispatches := 0
  enlisted := []
  touched := []
  changes := []
  moments := [.start]

/-! ### Lifetimes -/

/-- Whether a view model is in use: it has a name, or something is running on it. -/
def isViewModelAlive (w : World σ) (vm : ViewModelId) : Bool :=
  w.names.viewModels.any (·.2 == vm) || w.receivers.contains vm

/-- Whether an effect is held by the bindings of a view model in use. -/
def isBound (w : World σ) (e : EffectId) : Bool :=
  (List.range w.viewModels.size).any fun vm =>
    w.isViewModelAlive vm && (w.viewModels[vm]?).any (·.bindings.effects.contains e)

/-- Whether an effect is in use: it has a name, a scope or a view model holds it, a running pass
visits it, or it is being updated. -/
def isAlive (w : World σ) (e : EffectId) : Bool :=
  w.names.effects.any (·.2 == e) || w.names.scopes.any (·.2.effects.contains e) ||
    w.isBound e || w.passes.any (·.contains e)

/-! ### Moments -/

/-- The moment that a run has reached. -/
def moment (w : World σ) : Moment where
  size := w.effects.size
  alive := (List.range w.effects.size).filter w.isAlive
  touched := w.touched
  abortedPasses := w.abortedPasses
  abortedDispatches := w.abortedDispatches
  changes := w.changes.length

/-- Note the moment. -/
def begin (w : World σ) : World σ := { w with moments := w.moment :: w.moments }

/-! ### Models -/

/-- Change the models. -/
def turn (w : World σ) (s : Store) : World σ :=
  { w with store := s, changes := ⟨w.store, s, w.effects, w.documents⟩ :: w.changes }

@[simp] theorem store_turn (w : World σ) (s : Store) : (w.turn s).store = s := rfl

@[simp] theorem isAlive_turn (w : World σ) (s : Store) : (w.turn s).isAlive = w.isAlive := rfl

/-! ### Documents -/

/-- A document of the world. -/
def document (w : World σ) (d : DocumentId) : Document (Listener σ) := w.documents[d]?.getD .empty

/-- Change a document of the world. -/
def modifyDocument (w : World σ) (d : DocumentId)
    (f : Document (Listener σ) → Document (Listener σ)) : World σ :=
  { w with documents := w.documents.modify d f }

/-- Show a text on a node. -/
def writeSink (w : World σ) (sink : Sink) (node : NodeRef) (s : String) : World σ :=
  w.modifyDocument node.document fun d =>
    match sink with
    | .text => d.setText node.node s
    | .markup => d.setMarkup node.node s
    | .input => d.setInputValue node.node s
    | .attr name => d.setAttribute node.node name s

/-! ### Effects -/

/-- Change an effect of the world. -/
def modifyEffect (w : World σ) (e : EffectId) (f : Effect σ → Effect σ) : World σ :=
  { w with effects := w.effects.modify e f }

/-- The effects that a cell notifies, in order and with repeats. -/
def liveWatchers (w : World σ) (c : CellId) : List EffectId :=
  (w.store.watchers c).filter w.isAlive

/-- Register the innermost collector, if there is one, with cells that are read. -/
def registerReads (w : World σ) (cells : List CellId) : World σ :=
  match w.collectors with
  | some e :: _ => { w with store := cells.foldl (fun s c => s.watch c e) w.store }
  | _ => w

/-- Whether reads are being collected. -/
def isCollecting (w : World σ) : Bool :=
  match w.collectors with
  | some _ :: _ => true
  | _ => false

end World

end LiveBinding
