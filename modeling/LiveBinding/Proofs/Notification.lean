import LiveBinding.Proofs.Act.InTurn
import LiveBinding.Proofs.Evolution.Scene

/-!
# What a write does to the watchers of a cell

A write of a different value stores the value first and then updates the watchers that are alive
at that moment, in order of registration and with repeats. Each update finishes, with everything
that user code does in it, before the next one starts. The first fault ends the pass and is the
fault of the write; what was stored stays stored.

The list of a pass is fixed when the pass begins. An effect that registers meanwhile is not in it,
and one that loses its last owner is kept alive by the pass itself.

## Key results

- `updates_iff`, `updates_error_iff`: the loop over the watchers, as a chain of updates
- `Updates.evolves`: what such a chain does to the world
- `setCell_exact`: the law of a write
- `update_exact`: what an update does with its effect
-/

namespace LiveBinding.Act

variable {σ : Type} {call : Call σ}

/-- Updates that succeed, one after the other: each starts in the world that the one before it
left. -/
inductive Updates (call : Call σ) : List EffectId → World σ → World σ → Prop
  | nil (w : World σ) : Updates call [] w w
  | cons {e : EffectId} {es : List EffectId} {w w₁ w₂ : World σ}
      (first : (update call e).runOn w = (.ok (), w₁)) (rest : Updates call es w₁ w₂) :
      Updates call (e :: es) w w₂

/-- Updates are acts in turn. -/
theorem updates_iff_inTurn {es : List EffectId} {w w' : World σ} :
    Updates call es w w' ↔ InTurn (update call) es w w' := by
  constructor
  · intro h
    induction h with
    | nil w => exact .nil w
    | cons first _ ih => exact .cons first ih
  · intro h
    induction h with
    | nil w => exact .nil w
    | cons first _ ih => exact .cons first ih

/-- The loop succeeds exactly if all updates do. -/
theorem updates_iff {es : List EffectId} {w w' : World σ} :
    (es.forM (update call)).runOn w = (.ok (), w') ↔ Updates call es w w' :=
  inTurn_iff.trans updates_iff_inTurn.symm

/-- The loop faults exactly if the updates succeed up to one that faults; what comes after it is
not run. -/
theorem updates_error_iff {es : List EffectId} {w w' : World σ} {f : Fault} :
    (es.forM (update call)).runOn w = (.error f, w') ↔
      ∃ done e rest w₁, es = done ++ e :: rest ∧ Updates call done w w₁ ∧
        (update call e).runOn w₁ = (.error f, w') := by
  simp only [updates_iff_inTurn]
  exact inTurn_error_iff

/-- An update keeps the records and the frames, whether its effect is alive or not. -/
theorem evolved_update (hcall : call.Evolves) (e : EffectId) (w : World σ) :
    w.Evolved ((update call e).runOn w).2 := by
  rw [runOn_update]
  split
  · exact .refl w
  · rename_i effect he
    split
    · exact .refl w
    · rename_i v hv
      split
      · exact .refl w
      · have hdeliver : w.Evolved (w.deliver e v) := ⟨World.later_deliver w e v, ⟨rfl, rfl, rfl⟩⟩
        cases hp : effect.place? with
        | none =>
          obtain ⟨code, -, hreact⟩ := runOn_react_of_place?_eq_none call hp v (w.deliver e v)
          rw [hreact]
          exact hdeliver.trans (hcall code _ _ fun _ h => by cases h).evolved
        | some place =>
          obtain ⟨sink, node⟩ := place
          rw [runOn_react_of_place?_eq_some hp (w := w.deliver e v) hv]
          cases effect.shown (w.deliver e v).store with
          | error f => exact hdeliver
          | ok s => exact hdeliver.trans ⟨World.later_writeSink _ _ _ _, ⟨rfl, rfl, rfl⟩⟩

/-- A chain of updates keeps the records and the frames. -/
theorem Updates.evolves (hcall : call.Evolves) {es : List EffectId} {w w' : World σ}
    (h : Updates call es w w') : w.Evolved w' := by
  induction h with
  | nil w => exact .refl w
  | @cons e _ w _ _ first _ ih =>
    have hfirst := evolved_update hcall e w
    rw [first] at hfirst
    exact hfirst.trans ih

/-- What a pass visits is alive as long as the pass runs, with the record that it had. -/
theorem Updates.keeps_alive (hcall : call.Evolves) {es : List EffectId} {w w' : World σ}
    (h : Updates call es w w') {visited : List EffectId} {outer : List (List EffectId)}
    (hw : w.passes = visited :: outer) :
    w'.passes = visited :: outer ∧ ∀ e ∈ visited, w'.isAlive e = true := by
  have hpasses : w'.passes = visited :: outer :=
    (h.evolves hcall).sameFrames.passes_eq.trans hw
  refine ⟨hpasses, fun e he => ?_⟩
  rw [World.isAlive_iff, hpasses]
  exact .inr (.inr (.inr ⟨visited, List.mem_cons_self .., he⟩))

/-- What an update does with an effect. It faults if the path does, and does nothing if the gate is
shut. Otherwise the value of the path is delivered first, and then the code of the effect runs with
it, or its place gets what the effect shows. -/
theorem update_exact (call : Call σ) {w : World σ} {e : EffectId} {effect : Effect σ}
    (he : w.effects[e]? = some effect) :
    (∀ f, w.store.get effect.path effect.root = .error f →
      (update call e).runOn w = (.error f, w)) ∧
    ∀ v, w.store.get effect.path effect.root = .ok v →
      (effect.gated = true → v.same effect.last = true →
        (update call e).runOn w = (.ok (), w)) ∧
      ((effect.gated && v.same effect.last) = false →
        (∀ code, effect.reaction = .run code →
          (update call e).runOn w = (call code ⟨v, none⟩).runOn (w.deliver e v)) ∧
        ∀ sink node, effect.place? = some (sink, node) →
          (update call e).runOn w = match effect.shown w.store with
            | .ok s => (.ok (), (w.deliver e v).writeSink sink node s)
            | .error f => (.error f, w.deliver e v)) := by
  rw [runOn_update, he]
  dsimp only
  refine ⟨fun f hf => ?_, fun v hv => ⟨fun hg hl => ?_, fun hopen => ⟨fun code hcode => ?_,
    fun sink node hp => ?_⟩⟩⟩
  · rw [hf]
  · simp [hv, hg, hl]
  · rw [hv]
    simp only [hopen, Bool.false_eq_true, if_false]
    rw [react, hcode]
  · rw [hv]
    simp only [hopen, Bool.false_eq_true, if_false]
    exact runOn_react_of_place?_eq_some hp (w := w.deliver e v) hv

end LiveBinding.Act

namespace LiveBinding

open Act

/-- The law of a write. The same value changes nothing. Another one is stored, and then the
watchers that are alive are updated in a chain, which either ends or is cut off by the fault of
one update. Wherever the chain stands, its effects are alive and keep their records. -/
theorem setCell_exact (depth : Nat) (w : SceneWorld) {c : CellId} (hc : c < w.store.cells.size)
    (v : Value) :
    let call := Script.invoke depth
    let live := (w.store.watchers c).filter w.isAlive
    let begun := (w.assign c v).startPass c
    ((w.store.value c).same v = true → (setCell call c v).runOn w = (.ok false, w)) ∧
    ((w.store.value c).same v = false →
      begun.store.value c = v ∧ (∀ d, d ≠ c → begun.store.value d = w.store.value d) ∧
      (∀ w', (setCell call c v).runOn w ≠ (.ok false, w')) ∧
      (∀ w', (setCell call c v).runOn w = (.ok true, w') ↔
        ∃ w₁, Updates call live begun w₁ ∧ w' = w₁.endPass) ∧
      (∀ f w', (setCell call c v).runOn w = (.error f, w') ↔
        ∃ done e rest w₁ w₂, live = done ++ e :: rest ∧ Updates call done begun w₁ ∧
          (update call e).runOn w₁ = (.error f, w₂) ∧ w' = w₂.abortPass) ∧
      ∀ done rest w₁, live = done ++ rest → Updates call done begun w₁ →
        w₁.passes = live :: w.passes ∧ ∀ e ∈ live, w₁.isAlive e = true ∧
          ∀ effect, w.effects[e]? = some effect →
            ∃ m, w₁.effects[e]? = some { effect with memory := m }) := by
  intro call live begun
  have hcall : call.Evolves := invoke_evolves depth
  have hlive : w.liveWatchers c = live := rfl
  constructor
  · intro hsame
    rw [runOn_setCell, if_pos hsame]
  intro hsame
  -- What the write does is what its pass does.
  have hset : (setCell call c v).runOn w =
      match (live.forM (update call)).runOn begun with
      | (.ok _, w') => (.ok true, w'.endPass)
      | (.error f, w') => (.error f, w'.abortPass) := by
    rw [runOn_setCell, if_neg (by simp [hsame]), runOn_notify, liveWatchers_assign, hlive]
    rcases (live.forM (update call)).runOn begun with ⟨_ | _, _⟩ <;> rfl
  refine ⟨?_, fun d hd => ?_, fun w' => ?_, fun w' => ?_, fun f w' => ?_,
    fun done rest w₁ _ h => ?_⟩
  · exact (Store.value_prune _ _ _ _).trans (Store.value_assign_self hc v)
  · exact (Store.value_prune _ _ _ _).trans (Store.value_assign_of_ne w.store hd v)
  -- No outcome of a pass is the outcome of a write that changes nothing.
  · rw [hset]
    rcases (live.forM (update call)).runOn begun with ⟨_ | _, _⟩ <;> simp
  · rw [hset]
    constructor
    · intro h
      rcases hloop : (live.forM (update call)).runOn begun with ⟨_ | ⟨⟨⟩⟩, w₁⟩
      · rw [hloop] at h
        cases h
      · rw [hloop] at h
        exact ⟨w₁, updates_iff.1 hloop, (Prod.mk.inj h).2.symm⟩
    · rintro ⟨w₁, hloop, rfl⟩
      rw [updates_iff.2 hloop]
  · rw [hset]
    constructor
    · intro h
      rcases hloop : (live.forM (update call)).runOn begun with ⟨g | _, w₂⟩
      · rw [hloop] at h
        obtain ⟨⟨⟩, rfl⟩ := Prod.mk.inj h
        obtain ⟨done, e, rest, w₁, hlist, hdone, hfault⟩ := updates_error_iff.1 hloop
        exact ⟨done, e, rest, w₁, w₂, hlist, hdone, hfault, rfl⟩
      · rw [hloop] at h
        cases h
    · rintro ⟨done, e, rest, w₁, w₂, hlist, hdone, hfault, rfl⟩
      rw [updates_error_iff.2 ⟨done, e, rest, w₁, hlist, hdone, hfault⟩]
  · -- What the updates did so far is an evolution, which leaves the pass and the records in place.
    have hbegun : begun.passes = live :: w.passes := by
      change (w.assign c v).liveWatchers c :: w.passes = _
      rw [liveWatchers_assign, hlive]
    obtain ⟨hpasses, halive⟩ := h.keeps_alive hcall hbegun
    exact ⟨hpasses, fun e he => ⟨halive e he, fun effect heffect =>
      (h.evolves hcall).later.effects_eq e effect heffect⟩⟩

/-- Writing a text with a watcher that writes the cell again: the same text changes nothing. Another
one updates the watcher, and within this update once more for the text that it wrote itself. -/
theorem setCell_watched_text :
    let call := Script.invoke callDepth
    let writes : Script := .step (.model (.set "m" ⟨"a"⟩ (.plain (.text "z")))) fun _ => .done
    let w := Scene.after callDepth (Scene.start "") [
      .model (.create "m" (.object [("a", .text "x")])),
      .effect (.create "e" "m" ⟨"a"⟩ false writes)]
    w.store.watchers 0 = [0] ∧ (setCell call 0 (.text "x")).runOn w = (.ok false, w) ∧
      ∃ w₁, Updates call [0] ((w.assign 0 (.text "y")).startPass 0) w₁ ∧
        (setCell call 0 (.text "y")).runOn w = (.ok true, w₁.endPass) ∧
        w₁.endPass.store.value 0 = .text "z" ∧
        w₁.endPass.effects[0]?.map Effect.values = some [.text "z", .text "y", .text "x"] := by
  intro call writes w
  have hc : 0 < w.store.cells.size := by decide +kernel
  have hwatchers : w.store.watchers 0 = [0] := by decide +kernel
  have hlive : (w.store.watchers 0).filter w.isAlive = [0] := by decide +kernel
  have hvalue : w.store.value 0 = .text "x" := by decide +kernel
  obtain ⟨-, -, -, hends, -⟩ :=
    (setCell_exact callDepth w hc (.text "y")).2 (by rw [hvalue]; decide)
  -- The write ends well, so its pass is a chain of updates: the outer one of the only watcher.
  have hok : ((setCell call 0 (.text "y")).runOn w).1.toOption = some true := by decide +kernel
  have hstore : ((setCell call 0 (.text "y")).runOn w).2.store.value 0 = .text "z" := by
    decide +kernel
  have hvalues : ((setCell call 0 (.text "y")).runOn w).2.effects[0]?.map Effect.values =
      some [.text "z", .text "y", .text "x"] := by decide +kernel
  rcases hset : (setCell call 0 (.text "y")).runOn w with ⟨f | b, w'⟩
  · rw [hset] at hok
    cases hok
  · rw [hset] at hok hstore hvalues
    obtain rfl : b = true := Option.some.inj hok
    obtain ⟨w₁, hupdates, rfl⟩ := (hends w').1 hset
    rw [hlive] at hupdates
    exact ⟨hwatchers, (setCell_exact callDepth w hc (.text "x")).1 (by rw [hvalue]; decide), w₁,
      hupdates, rfl, hstore, hvalues⟩

end LiveBinding
