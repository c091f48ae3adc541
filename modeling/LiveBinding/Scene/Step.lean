import LiveBinding.Reactive.Dispatch
import LiveBinding.ViewModel

/-!
# Steps and scripts

A scene is a list of steps, and a step is one request: to build a model, to read or write it, to
construct an effect, to compile a template, to fire an event, to look at the document, and so on.
Things are kept under names, and a step refers to them by name.

A script is user code: effects, listeners and methods run scripts. It makes steps, one after the
other, and can choose how to go on from the answer that a step got.
-/

namespace LiveBinding

/-! ### References -/

/-- A value that a step works with. -/
inductive Expr where
  /-- Plain data, for which containers are built. -/
  | plain (p : Plain)
  /-- A number, which need not be one that plain data can hold. -/
  | number (x : Number)
  /-- The value at a path of a model, or the root of the model. -/
  | model (name : String) (path : Option KeyPath)
  /-- A new mapping without keys. -/
  | emptyMapping
  /-- A new sequence without items. -/
  | emptySequence
  /-- The value that the script received. -/
  | received

/-- A container: the root of a model, or the value at a path of it. -/
structure ContainerRef where
  model : String
  path : Option KeyPath
  deriving DecidableEq, Repr

/-- A place in a container: a key of a mapping or an index of a sequence. -/
inductive Slot where
  | key (key : String)
  | index (index : Nat)
  deriving DecidableEq, Repr

/-- A cell of a container. -/
structure CellRef where
  container : ContainerRef
  slot : Slot
  deriving DecidableEq, Repr

/-- A node: a saved one or the first that a selector finds, and from there the positions of children
to follow. -/
structure NodeExpr where
  saved : Bool
  name : String
  path : List Nat
  deriving DecidableEq, Repr

/-- Read a node reference: `$` and the name of a saved node, or a selector, followed by positions
after slashes. -/
def NodeExpr.parse? (s : String) : Option NodeExpr := do
  let pieces := Text.splitWhere (· == '/') s.toList
  let path ← (pieces.tail.map String.ofList).mapM index?
  match pieces.headD [] with
  | '$' :: name => some ⟨true, String.ofList name, path⟩
  | name => some ⟨false, String.ofList name, path⟩

/-! ### Answers -/

/-- A value as it looks at the moment of an answer. -/
structure View where
  value : Value
  shown : String

/-- What can be asked about a container. -/
inductive Shape where
  | mapping (keys : List String) (has : Option Bool)
  | sequence (length : Nat)
  | leaf (kind : Kind)

/-- What can be asked about an effect. -/
structure EffectInfo where
  id : EffectId
  path : KeyPath
  gated : Bool
  last : View
  updates : Nat

/-- What can be asked about a view model. -/
structure ViewModelInfo where
  root : Option NodeId
  proxied : List String
  effects : Nat
  listeners : Nat
  config : Config
  nodes : Nat

/-- The answer to a step that did not fault. -/
inductive Answer where
  | nothing
  | truth (b : Bool)
  | count (n : Nat)
  | number (e : EffectId)
  | text (s : String)
  | texts (ss : List String)
  | node (n : NodeId)
  | nodes (ns : List NodeId)
  | sort (s : NodeSort)
  | kind (k : Kind)
  | view (v : View)
  | shape (s : Shape)
  | fields (fs : List (String × String))
  | watchers (registered : Nat) (live : List EffectId)
  | effect (info : EffectInfo)
  | scope (listeners : Nat) (effects : List EffectInfo)
  | tracking (depth : Nat) (collecting : Bool)
  | fired (event : String) (listeners : Nat)
  | viewModel (info : ViewModelInfo)
  | made (info : ViewModelInfo) (mounted : Bool) (debug : Option (String × String))
  | many (answers : List (Except Fault Answer))

/-! ### Steps -/

/-- Requests about models. -/
inductive ModelStep where
  | create (name : String) (data : Plain)
  | get (name : String) (path : KeyPath)
  | kind (name : String) (path : KeyPath)
  | set (name : String) (path : KeyPath) (v : Expr)
  | read (cell : CellRef)
  | peek (cell : CellRef)
  | write (cell : CellRef) (v : Expr)
  | push (container : ContainerRef) (v : Expr)
  | shape (container : ContainerRef) (key : Option String)
  | same (a b : Expr)

/-- Requests about cells. -/
inductive CellStep where
  | watchers (cell : CellRef)
  | get (cell : CellRef)
  | set (cell : CellRef) (v : Expr)
  | notify (cell : CellRef)
  | register (cell : CellRef) (effect : String)

/-- Requests about effects and scopes. -/
inductive EffectStep (σ : Type) where
  | create (name model : String) (path : KeyPath) (gated : Bool) (code : σ)
  | update (name : String)
  | info (name : String)
  | drop (name : String)
  | createScope (scope : String)
  | hold (scope name : String)
  | recordListener (scope : String)
  | dropScope (scope : String)
  | scopeInfo (scope : String)
  | tracking

/-- A mount point as a step names it. -/
inductive MountRef where
  | node (n : NodeExpr)
  | selector (s : String)
  deriving DecidableEq, Repr

/-- Requests about templates and view models. A request whose name is missing is about the view
model on which the running method was called. -/
inductive TemplateStep (σ : Type) where
  | compile (scope : String) (node : NodeExpr) (model : String) (methods : List (String × σ))
      (gated : Bool)
  | create (name : String) (mount : Option MountRef) (data : Plain) (methods : List (String × σ))
      (config : Config) (debug : Bool)
  | info (name : String)
  | get (name : Option String) (key : String)
  | set (name : Option String) (key : String) (v : Expr)
  | read (name : Option String) (path : KeyPath)
  | write (name : Option String) (path : KeyPath) (v : Expr)
  | same (name : Option String) (other : String)
  | nameAgain (name : Option String) (other : String)
  | drop (name : String)

/-- Requests about the current document. -/
inductive DocumentStep (σ : Type) where
  | replace (source : String)
  | nodeCount
  | createElement (tag : String) (keep : Option String)
  | createText (s : String) (keep : Option String)
  | save (node : NodeExpr) (keep : String)
  | find (selector : String) (within : Option NodeExpr) (keep : Option String)
  | resolve (selector : String) (keep : Option String)
  | append (node : NodeExpr) (children : List NodeExpr)
  | take (node : NodeExpr) (keep : Option String)
  | children (node : NodeExpr)
  | parent (node : NodeExpr)
  | tag (node : NodeExpr)
  | sort (node : NodeExpr)
  | attributes (node : NodeExpr)
  | getAttribute (node : NodeExpr) (name : String)
  | setAttribute (node : NodeExpr) (name value : String)
  | removeAttribute (node : NodeExpr) (name : String)
  | text (node : NodeExpr)
  | setText (node : NodeExpr) (s : String)
  | setMarkup (node : NodeExpr) (source : String)
  | outerHtml (node : NodeExpr)
  | innerHtml (node : NodeExpr)
  | inputValue (node : NodeExpr)
  | setInputValue (node : NodeExpr) (value : String)
  | listen (node : NodeExpr) (event : String) (code : σ)
  | listeners (node : NodeExpr) (event : String)
  | dispatch (node : NodeExpr) (event : Event)
  | click (node : NodeExpr)
  | typeInto (node : NodeExpr) (s : String)

/-- Requests for the debug text of something. -/
inductive DebugStep where
  | value (v : Expr)
  | cell (cell : CellRef)
  | watchers (cell : CellRef)
  | effect (name : String)
  | scope (name : String)
  | document
  | viewModel (name : String)
  | mountNode (node : NodeExpr)
  | mountSelector (s : String)

mutual

/-- A request. -/
inductive Step where
  | model (s : ModelStep)
  | cell (s : CellStep)
  | effect (s : EffectStep Script)
  | template (s : TemplateStep Script)
  | document (s : DocumentStep Script)
  | debug (s : DebugStep)
  /-- Steps that are made with collection suspended. -/
  | untracked (steps : List Step)
  /-- A request that cannot be understood. -/
  | malformed

/-- User code. -/
inductive Script where
  | done
  | fail (f : Fault)
  /-- Note a tag and the value received. -/
  | log (tag : String) (next : Script)
  /-- Note a line. -/
  | note (line : String) (next : Script)
  /-- Make a step, and go on as its answer suggests. -/
  | step (s : Step) (next : Except Fault Answer → Script)

end

instance : Inhabited Step := ⟨.malformed⟩

instance : Inhabited Script := ⟨.done⟩

namespace Script

/-- A fault as user code reports it. -/
def reported : Fault → Fault
  | .badRequest => .handler Fault.badRequest.message
  | f => f

/-- Make a step; its fault is the fault of the script. -/
def run (s : Step) (next : Script) : Script :=
  .step s fun
    | .ok _ => next
    | .error f => .fail (reported f)

/-- Make a step, and note how it ended. -/
def attempt (s : Step) (next : Script) : Script :=
  .step s fun
    | .ok _ => .note "try ok" next
    | .error f => .note ("try " ++ f.message) next

/-- Add one to the number at a path, if it is below a limit. What is no number counts as zero. -/
def increment (model : String) (path : KeyPath) (limit : Number) (next : Script) : Script :=
  .step (.model (.get model path)) fun
    | .error f => .fail (reported f)
    | .ok (.view ⟨.number x, _⟩) => raise x
    | .ok _ => raise Number.zero
where
  /-- The second half: write the next number. -/
  raise (x : Number) : Script :=
    if x.less limit then run (.model (.set model path (.number x.increment))) next else next

end Script

end LiveBinding
