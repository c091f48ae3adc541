import LiveBinding.Reactive.Effect

/-!
# Notification

Writing a cell a value that is not the same as its own notifies the cell's watchers, before the
write returns. A pass first drops the watchers that are no longer alive and takes the list of the
others; it then updates the effects of this list one after the other and ends with the first
fault. An effect that registers while the pass runs is not in the list, and one that loses its
last owner stays alive until the pass has ended.

User code is run by the parameter `call`.
-/

namespace LiveBinding

/-- What user code receives: a value, and the view model on which it is called as a method. -/
structure Received where
  value : Value
  receiver : Option ViewModelId
  deriving DecidableEq

/-- How user code is run. -/
abbrev Call (σ : Type) := σ → Received → Act σ Unit

namespace Act

variable {σ : Type} (call : Call σ)

/-- Let an effect react to a value. -/
def react (effect : Effect σ) (v : Value) : Act σ Unit := do
  match effect.reaction with
  | .run code => call code ⟨v, none⟩
  | .display sink node => modify fun w => w.writeSink sink node (w.store.display v)
  | .render template node =>
    let store := (← get).store
    let s ← ofExcept
      (Interpolation.render (fun p => (store.get p effect.root).map store.display)
        template.segments)
    modify fun w => w.writeSink .text node s

/-- Read the path of an effect again, with collection suspended, and let the effect react. A gated
effect does nothing when the value is the same as the last one. -/
def update (e : EffectId) : Act σ Unit := do
  match (← get).effects[e]? with
  | none => return
  | some effect =>
    let v ← collecting none (read effect.path effect.root)
    if effect.gated && v.same effect.last then return
    modify fun w => w.modifyEffect e fun effect => effect.receive v
    react call effect v

/-- Run an act as a pass that visits some effects. -/
def passing (visited : List EffectId) (act : Act σ Unit) : Act σ Unit :=
  holding visited (act.onFault fun w => { w with abortedPasses := w.abortedPasses + 1 })

/-- Update the effects that watch a cell. -/
def notify (c : CellId) : Act σ Unit := do
  let live := (← get).liveWatchers c
  modify fun w => { w with store := w.store.prune c w.isAlive }
  passing live (live.forM (update call))

/-- Give a cell a value, and notify its watchers unless the value is the same as the old one.
Returns whether it was different. -/
def setCell (c : CellId) (v : Value) : Act σ Bool := do
  if ((← get).store.value c).same v then return false
  modify fun w => w.turn (w.store.assign c v)
  notify call c
  return true

end Act

end LiveBinding
