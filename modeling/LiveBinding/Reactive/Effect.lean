import LiveBinding.Reactive.Read

/-!
# Effects

An effect is constructed by reading its path once with itself as the collector. The reads register
it, and the value becomes its last value. If the path faults, the construction fails: the effect
counts as constructed, but nobody keeps it, so it is not alive, and its registrations vanish from
a cell with the next pass over the cell.
-/

namespace LiveBinding.Act

variable {σ : Type}

/-- Construct an effect. Nobody keeps it yet. -/
def newEffect (path : KeyPath) (root : MappingId) (gated : Bool) (reaction : Reaction σ) :
    Act σ EffectId := do
  let w ← get
  let e := w.effects.size
  let effect : Effect σ := ⟨path, root, gated, reaction, w.store.reads path root, .empty⟩
  modify fun w => { w with effects := w.effects.push effect }
  let v ← collecting (some e) (read path root)
  modify fun w => w.modifyEffect e fun effect => effect.start v
  return e

/-- The value that an effect read last. -/
def lastValue (e : EffectId) : Act σ Value :=
  return (((← get).effects[e]?).map Effect.last).getD .null

end LiveBinding.Act
