import LiveBinding.Reactive.Write

/-!
# Events

An event runs the listeners that its node has for it at the moment of the dispatch, in the order
of their registration, up to the first fault.
-/

namespace LiveBinding

/-- An event: what happened, and the input value that it carries. -/
structure Event where
  kind : String
  value : Option String
  deriving DecidableEq, Repr

namespace Event

/-- An event that carries a new input value. -/
def input (value : String) : Event := ⟨"input", some value⟩

/-- The value that user code receives for an event. -/
def received (event : Event) : Value :=
  match event.value with
  | some s => .text s
  | none => .null

end Event

namespace Act

variable {σ : Type} (call : Call σ)

/-- Run user code as a method of a view model. -/
def callMethod (receiver : ViewModelId) (code : σ) (v : Value) : Act σ Unit :=
  serving receiver (call code ⟨v, some receiver⟩)

/-- Let a listener of a node react to an event. -/
def fire (node : NodeRef) (event : Event) (listener : Listener σ) : Act σ Unit := do
  match listener with
  | .run code => call code ⟨event.received, none⟩
  | .writeBack path root =>
    let shown := ((← get).document node.document).inputValue node.node
    write call path root (.text (event.value.getD shown))
  | .method receiver code =>
    if (← get).isViewModelAlive receiver then callMethod call receiver code event.received

/-- Run the listeners of a node for an event. Returns their number. -/
def dispatch (node : NodeRef) (event : Event) : Act σ Nat := do
  let listeners := ((← get).document node.document).listenersFor node.node event.kind
  (listeners.forM (fire call node event)).onFault fun w =>
    { w with abortedDispatches := w.abortedDispatches + 1 }
  return listeners.length

/-- Set the value of an input, and dispatch the event that tells of it. -/
def typeInto (node : NodeRef) (s : String) : Act σ Nat := do
  modify fun w => w.writeSink .input node s
  dispatch call node (.input s)

end Act

end LiveBinding
