import LiveBinding.Directive
import LiveBinding.Methods
import LiveBinding.Reactive.Effect

/-!
# Compiling templates

Compiling a template walks the nodes below a root in document order, elements before their
children. The directives of an element are taken in the order of its attributes; each one installs
its binding and is removed. A text with placeholders gets one effect for each distinct placeholder.
The children of the root are detached during the walk and attached again at its end, also when it
faults. A faulting walk keeps nothing alive.

Markup that a binding puts below an element is compiled in the same walk, one round deeper. What is
put there is the text of a value of the model, and the model does not change during the walk: an
element that shows a text inside the nodes of the same text is met again and again, and such a walk
has no end. In every other walk the texts of the rounds around a node belong to different cells, so
`rounds` many rounds are enough, and a walk that needs more is cut off.

No user code runs during the walk.
-/

namespace LiveBinding

/-- What a template is compiled against. -/
structure Setting (σ : Type) where
  document : DocumentId
  model : MappingId
  methods : Methods (Listener σ)
  gated : Bool

namespace Scope

/-- Keep one more effect alive. -/
def hold (s : Scope) (e : EffectId) : Scope := { s with effects := s.effects ++ [e] }

/-- Count one more listener. -/
def recordListener (s : Scope) : Scope := { s with listeners := s.listeners + 1 }

end Scope

namespace Setting

variable {σ : Type} (t : Setting σ)

/-- The document as it is now. -/
def currentDocument : Act σ (Document (Listener σ)) := return (← get).document t.document

/-- Change the document. -/
def edit (f : Document (Listener σ) → Document (Listener σ)) : Act σ Unit :=
  modify fun w => w.modifyDocument t.document f

/-- Show the value of a path on a node, now and whenever it changes. -/
def bindValue (scope : Scope) (n : NodeId) (expression : String) (sink : Sink) : Act σ Scope := do
  let node : NodeRef := ⟨t.document, n⟩
  let e ← Act.newEffect ⟨expression⟩ t.model t.gated (.display sink node)
  let v ← Act.lastValue e
  modify fun w => w.writeSink sink node (w.store.display v)
  return scope.hold e

/-- One effect for each placeholder of a template; the values that they read are collected. -/
def bindPlaceholders (scope : Scope) (n : NodeId) (template : Interpolation) :
    List KeyPath → Act σ (Scope × List (KeyPath × Value))
  | [] => return (scope, [])
  | path :: paths => do
    let e ← Act.newEffect path t.model t.gated (.render template ⟨t.document, n⟩)
    let v ← Act.lastValue e
    let rest ← bindPlaceholders (scope.hold e) n template paths
    return (rest.1, (path, v) :: rest.2)

/-- The value collected for a placeholder. -/
def collected (values : List (KeyPath × Value)) (path : KeyPath) : Value :=
  ((values.find? (·.1.segments == path.segments)).map Prod.snd).getD .null

/-- Show a text on a node: with its placeholders filled in, or, if it has none, as the path of a
value. -/
def bindText (scope : Scope) (n : NodeId) (content : String) : Act σ Scope := do
  let template := Interpolation.parse content
  if template.hasPlaceholders then
    let bound ← t.bindPlaceholders scope n template template.placeholders
    let store := (← get).store
    let s ← Act.ofExcept
      (Interpolation.render (fun p => .ok (store.display (collected bound.2 p))) template.segments)
    modify fun w => w.writeSink .text ⟨t.document, n⟩ s
    return bound.1
  else t.bindValue scope n content .text

/-- Install the binding of a directive. -/
def install (scope : Scope) (n : NodeId) (expression : String) : Directive → Act σ Scope
  | .text => t.bindText scope n expression
  | .html => t.bindValue scope n expression .markup
  | .model => do
    let scope ← t.bindValue scope n expression .input
    t.edit fun d => d.addListener n "input" (.writeBack ⟨expression⟩ t.model)
    return scope.recordListener
  | .bind name => t.bindValue scope n expression (.attr name)
  | .on event => do
    let listener ← Act.ofExcept (t.methods.resolve expression)
    t.edit fun d => d.addListener n event listener
    return scope.recordListener

/-- Install the binding that an attribute stands for, if it is a directive, and remove it. -/
def compileAttribute (n : NodeId) (scope : Scope) (a : String × String) : Act σ Scope := do
  match ← Act.ofExcept (Directive.parse? a.1) with
  | none => return scope
  | some directive =>
    let scope ← t.install scope n a.2 directive
    t.edit fun d => d.removeAttribute n a.1
    return scope

/-- Compile a node without those below it. -/
def compileNode (scope : Scope) (n : NodeId) : Act σ Scope := do
  let d ← t.currentDocument
  match d.sort n with
  | .element => (d.attributes n).foldlM (t.compileAttribute n) scope
  | .text =>
    let content := d.text n
    if containsPlaceholder content.toList then t.bindText scope n content else return scope
  | .other => return scope

/-- Compile a node and those below it, down to a depth. The nodes below one whose bindings made new
nodes are left to `inner`. -/
def visit (inner : Scope → NodeId → Act σ Scope) : Nat → Scope → NodeId → Act σ Scope
  | 0, _, _ => throw .exhausted
  | depth + 1, scope, n => do
    let size := (← t.currentDocument).size
    let scope ← t.compileNode scope n
    let d ← t.currentDocument
    if d.size = size then (d.children n).foldlM (visit inner depth) scope
    else (d.children n).foldlM inner scope

/-- Compile a node and those below it, with a number of rounds. In each round the nodes lie at most
as deep as there are nodes. -/
def walk : Nat → Scope → NodeId → Act σ Scope
  | 0, _, _ => throw .exhausted
  | rounds + 1, scope, n => do
    let size := (← t.currentDocument).size
    t.visit (walk rounds) size scope n

/-- The number of rounds of a walk that has an end: the nodes that are there, the texts of different
cells, and a last text that shows nothing further. -/
def rounds (s : Store) : Nat := s.cells.size + 2

/-- Compile the nodes below a root. -/
def compile (root : NodeId) : Act σ Scope := do
  let w ← get
  let staged := (w.document t.document).children root
  (staged.foldlM (t.walk (rounds w.store)) .empty).within
    (fun w => w.modifyDocument t.document fun d => d.detachChildren root)
    (fun w => w.modifyDocument t.document fun d => d.appendChildren root staged)

/-- Compile the nodes below a root, from a moment that is noted. -/
def instantiate (root : NodeId) : Act σ Scope := do
  modify World.begin
  t.compile root

theorem runOn_instantiate (root : NodeId) (w : World σ) :
    (t.instantiate root).runOn w = (t.compile root).runOn w.begin := rfl

end Setting

end LiveBinding
