import LiveBinding.Scene.Step

/-!
# References of steps

What the names in a step refer to. A name that nothing is kept under is a bad request.
-/

namespace LiveBinding

/-- The world of scenes: its user code is scripts. -/
abbrev SceneWorld := World Script

/-- An act of a scene. -/
abbrev SceneAct (α : Type) := Act Script α

namespace SceneAct

/-- What is found, or the fault of a bad request. -/
def require {α : Type} : Option α → SceneAct α
  | some a => return a
  | none => throw .badRequest

/-- The root of a model. -/
def modelNamed (name : String) : SceneAct MappingId := do
  require ((← get).names.models.get? name)

/-- An effect. -/
def effectNamed (name : String) : SceneAct EffectId := do
  require ((← get).names.effects.get? name)

/-- A scope. -/
def scopeNamed (name : String) : SceneAct Scope := do
  require ((← get).names.scopes.get? name)

/-- A view model by its name, or the one on which the running method was called. -/
def viewModelNamed (env : Received) (name : Option String) : SceneAct ViewModelId := do
  match name with
  | some name => require ((← get).names.viewModels.get? name)
  | none => require env.receiver

/-- The record of a view model. -/
def viewModelRecord (id : ViewModelId) : SceneAct ViewModel := do
  require ((← get).viewModels[id]?)

/-- The document that the scene works on. -/
def currentDocument : SceneAct (Document (Listener Script)) := do
  let w ← get
  return w.document w.current

/-- The children of a node that follow positions. -/
def descend (d : Document (Listener Script)) : NodeId → List Nat → Option NodeId
  | n, [] => some n
  | n, i :: path => (d.children n)[i]?.bind fun c => descend d c path

/-- A node of the current document. -/
def nodeAt (e : NodeExpr) : SceneAct NodeId := do
  let d ← currentDocument
  let start ←
    if e.saved then require ((← get).names.nodes.get? e.name)
    else require (d.find? Document.body e.name)
  require (descend d start e.path)

/-- The value of a container, read untracked. -/
def containerAt (c : ContainerRef) : SceneAct Value := do
  let root ← modelNamed c.model
  match c.path with
  | none => return .mapping root
  | some path => Act.ofExcept ((← get).store.get path root)

/-- A mapping and a key, or a sequence and an index. -/
inductive Location where
  | key (m : MappingId) (key : String)
  | item (q : SequenceId) (index : Nat)

/-- The place in a container that a cell reference is about. -/
def locate (r : CellRef) : SceneAct Location := do
  match ← containerAt r.container, r.slot with
  | .mapping m, .key key => return .key m key
  | .sequence q, .index i => return .item q i
  | _, _ => throw .badRequest

/-- The cell at a location. -/
def cellAt? (s : Store) : Location → Option CellId
  | .key m key => s.cellOf? m key
  | .item q i => s.cellAt? q i

/-- The cell that a reference is about, which must exist. -/
def cellAt (r : CellRef) : SceneAct CellId := do
  let location ← locate r
  require (cellAt? (← get).store location)

/-- Build the containers of plain data. -/
def build (p : Plain) : SceneAct Value := do
  let built := (← get).store.intercept p
  modify fun w => w.turn built.1
  return built.2

/-- The value that an expression stands for. -/
def eval (env : Received) : Expr → SceneAct Value
  | .plain p => build p
  | .number x => return .number x
  | .model name none => return .mapping (← modelNamed name)
  | .model name (some path) => do
    let root ← modelNamed name
    Act.ofExcept ((← get).store.get path root)
  | .emptyMapping => build (.object [])
  | .emptySequence => build (.array [])
  | .received => return env.value

/-- A value as it looks now. -/
def view (v : Value) : SceneAct Answer := return .view ⟨v, (← get).store.display v⟩

/-- A value as it looks now, or nothing. -/
def viewOption : Option Value → SceneAct Answer
  | some v => view v
  | none => return .nothing

/-- What there is to say about an effect. -/
def effectInfo (e : EffectId) : SceneAct EffectInfo := do
  let w ← get
  let effect ← require w.effects[e]?
  return ⟨e, effect.path, effect.gated, ⟨effect.last, w.store.display effect.last⟩, effect.updates⟩

/-- What there is to say about a scope. -/
def scopeInfo (s : Scope) : SceneAct Answer := do
  return .scope s.listeners (← s.effects.mapM effectInfo)

/-- What there is to say about a view model. -/
def viewModelInfo (vm : ViewModel) : SceneAct ViewModelInfo :=
  return ⟨vm.root, vm.proxied, vm.bindings.effects.length, vm.bindings.listeners, vm.config,
    ((← get).document vm.document).size⟩

/-- Change the tables of names. -/
def modifyNames (f : Names → Names) : SceneAct Unit := modify fun w => { w with names := f w.names }

/-- Change the current document. -/
def edit (f : Document (Listener Script) → Document (Listener Script)) : SceneAct Unit :=
  modify fun w => w.modifyDocument w.current f

/-- Change a node of the current document by hand. -/
def touch (n : NodeId) (f : Document (Listener Script) → Document (Listener Script)) :
    SceneAct Unit :=
  modify fun w => { w.modifyDocument w.current f with touched := ⟨w.current, n⟩ :: w.touched }

/-- Keep a node under a name, if there is one. -/
def keepNode (keep : Option String) (n : NodeId) : SceneAct Unit := do
  match keep with
  | none => return
  | some name => modifyNames fun names => { names with nodes := names.nodes.put name n }

end SceneAct

end LiveBinding
