import LiveBinding.Act

/-!
# Rendering with lookups

A template can be rendered with lookups that act on the world: each placeholder is looked up when
its turn comes, and the first fault ends the rendering. Collection is suspended meanwhile, so that
what a lookup reads registers nobody.
-/

namespace LiveBinding.Act

variable {σ : Type}

/-- Put segments together, each placeholder as the value that is looked up for its path. -/
def assemble (lookup : KeyPath → Act σ Value) : List Segment → Act σ String
  | [] => return ""
  | .literal s :: segments => do
    let rest ← assemble lookup segments
    return s ++ rest
  | .placeholder path :: segments => do
    let v ← lookup path
    let s := (← get).store.display v
    let rest ← assemble lookup segments
    return s ++ rest

/-- Render a template. -/
def render (lookup : KeyPath → Act σ Value) (template : Interpolation) : Act σ String :=
  collecting none (assemble lookup template.segments)

/-- Lookups that leave the world as it is give a pure rendering. -/
theorem runOn_assemble {lookup : KeyPath → Act σ Value} {f : KeyPath → Except Fault Value}
    {segments : List Segment} {w : World σ}
    (h : ∀ p, .placeholder p ∈ segments → (lookup p).runOn w = (f p, w)) :
    (assemble lookup segments).runOn w =
      (Interpolation.render (fun p => (f p).map w.store.display) segments, w) := by
  induction segments with
  | nil => rfl
  | cons segment segments ih =>
    have hrest := ih fun p hp => h p (List.mem_cons_of_mem _ hp)
    cases segment with
    | literal s =>
      rw [assemble, runOn_bind, hrest, Interpolation.render]
      cases Interpolation.render _ segments <;> rfl
    | placeholder path =>
      rw [assemble, runOn_bind, h path (List.mem_cons_self ..), Interpolation.render]
      cases f path with
      | error f => rfl
      | ok v =>
        dsimp only
        rw [runOn_bind, runOn_get]
        dsimp only
        rw [runOn_bind, hrest]
        cases Interpolation.render _ segments <;> rfl

/-- Lookups run while collection is suspended. -/
theorem runOn_render {lookup : KeyPath → Act σ Value} {f : KeyPath → Except Fault Value}
    {template : Interpolation} {w : World σ}
    (h : ∀ p, .placeholder p ∈ template.segments →
      (lookup p).runOn { w with collectors := none :: w.collectors } =
        (f p, { w with collectors := none :: w.collectors })) :
    (render lookup template).runOn w =
      (Interpolation.render (fun p => (f p).map w.store.display) template.segments, w) := by
  rw [render, runOn_collecting, runOn_assemble h]
  rfl

end LiveBinding.Act
