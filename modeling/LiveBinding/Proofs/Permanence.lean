import LiveBinding.Proofs.Advance.Scene

/-!
# Cells last

Subscriptions hang on cells, so a cell must never be replaced. Once a key of a mapping is defined,
it keeps its cell and its place among the keys for the rest of the run, and so does every item of a
sequence. New keys and items come behind those that are there.

## Key results

- `Scene.containers_last`: between the steps of a run, within them, and in whatever scripts do
-/

namespace LiveBinding

/-- Keys stay, each with its cell, as long as the keys that there are stay distinct. -/
theorem stable_lasts (s : Store) :
    Stable fun u : SceneWorld => s.Lasts u.store ∧ ∀ m, (u.store.keys m).Nodup where
  of_advances h hu := ⟨hu.1.trans h.lasts, h.lasts.nodup_keys hu.2⟩
  suspend hu := hu

namespace Scene

/-- The keys of a mapping are distinct at every time of a run. From then on each of them keeps its
cell and its place, each item of a sequence keeps its cell, and containers only grow: after all
later steps, wherever a script starts within a step, and after each step that a script makes in
whatever world it finds. Whether a step faults makes no difference. -/
theorem containers_last (depth : Nat) (source : String) (steps : List Step) :
    let w := after depth (start source) steps
    (∀ m, (w.store.keys m).Nodup) ∧
    (∀ later, let w' := after depth w later
      (∀ m key c, w.store.cellOf? m key = some c → w'.store.cellOf? m key = some c) ∧
      (∀ m, w.store.keys m <+: w'.store.keys m) ∧
      (∀ q i c, w.store.cellAt? q i = some c → w'.store.cellAt? q i = some c) ∧
      ∀ q, (w.store.items q).length ≤ (w'.store.items q).length) ∧
    (∀ (other : Call Script) (limit : Nat) (env : Received) (s : Step),
      (s.perform (Script.runWhere
        (fun u => w.store.Lasts u.store ∧ ∀ m, (u.store.keys m).Nodup) other limit) env).runOn w =
        (s.perform (Script.invoke limit) env).runOn w) ∧
    ∀ (limit : Nat) (env : Received) (s : Step) (u : SceneWorld),
      u.store.Lasts ((s.perform (Script.invoke limit) env).runOn u).2.store := by
  intro w
  have hnodup : ∀ m, (w.store.keys m).Nodup :=
    (advances_after depth (start source) steps).lasts.nodup_keys fun _ => List.nodup_nil
  refine ⟨hnodup, fun later => ?_, fun other limit env s => ?_, fun limit env s u => ?_⟩
  · have hlasts := (advances_after depth w later).lasts
    exact ⟨fun _ _ _ => hlasts.cellOf?_eq, hlasts.keys_prefix, fun _ _ _ => hlasts.cellAt?_eq,
      hlasts.length_items_le⟩
  · exact Step.perform_runWhere (stable_lasts w.store) other limit env s ⟨.refl _, hnodup⟩
  · exact (Step.advances_perform limit env s u).lasts

end Scene

end LiveBinding
