import LiveBinding.Proofs.Evolution.Scene
import LiveBinding.Proofs.Evolution.Sound
import Mathlib.Data.List.Chain

/-!
# Effects with a gate react to changes only

An effect remembers its last value, the number of its reactions, and the list of the value that its
construction read and the values to which it began to react since, newest first. A value is
remembered before the reaction to it begins, and nothing that happens afterwards takes it away:
neither reactions that begin inside this one nor a fault.

An effect with a gate never begins to react to a value that is the same as the one before. The gate
compares with the last value, and that is the value before, whatever the reactions do to the cells
that the effect reads.

## Key definitions

- `Memory.Agrees`: the last value and the number of reactions are those of the list
- `Reacts`: the values to which an effect begins to react during a part of a run

## Key results

- `Scene.memory_agrees`: the parts of what an effect remembers agree in every run
- `Move.receives`: the memory of an effect changes only when it begins to react
- `Reacts.effects_eq`: the memory tells all reactions
- `exists_constructs`: how an effect got into a run, and that the run went on from there
- `Reacts.isChain`: the gate keeps equal values from following each other
- `gated_values_alternate`: the law of effects with a gate
-/

namespace LiveBinding

open World Relation

variable {σ : Type}

/-! ### What an effect remembers -/

namespace Memory

@[simp] theorem last_receive (m : Memory) (v : Value) : (m.receive v).last = v := rfl

@[simp] theorem updates_receive (m : Memory) (v : Value) :
    (m.receive v).updates = m.updates + 1 := rfl

@[simp] theorem values_receive (m : Memory) (v : Value) : (m.receive v).values = v :: m.values :=
  rfl

/-- The values of some reactions come before the older ones. -/
theorem values_foldl_receive (vs : List Value) (m : Memory) :
    (vs.foldl receive m).values = vs.reverse ++ m.values := by
  induction vs generalizing m with
  | nil => rfl
  | cons v vs ih => simp [ih]

/-- Each reaction counts. -/
theorem updates_foldl_receive (vs : List Value) (m : Memory) :
    (vs.foldl receive m).updates = m.updates + vs.length := by
  induction vs generalizing m with
  | nil => rfl
  | cons v vs ih =>
    rw [List.foldl_cons, ih, updates_receive, List.length_cons]
    omega

/-- The last value is that of the last reaction. -/
theorem last_foldl_receive (vs : List Value) (m : Memory) :
    (m.last :: vs).getLast? = some (vs.foldl receive m).last := by
  induction vs generalizing m with
  | nil => rfl
  | cons v vs ih =>
    rw [List.getLast?_cons_cons, List.foldl_cons]
    exact ih (m.receive v)

/-- The last value heads the list of the values, and all values but the first one are reactions. -/
def Agrees (m : Memory) : Prop :=
  m.last = m.values.headD .null ∧ m.updates = m.values.length - 1

/-- The first value does not count as a reaction, so there has to be one. -/
theorem Agrees.receive {m : Memory} (h : m.Agrees) (hne : m.values ≠ []) (v : Value) :
    (m.receive v).Agrees := by
  refine ⟨rfl, ?_⟩
  have hpos := List.length_pos_of_ne_nil hne
  rw [updates_receive, values_receive, List.length_cons, h.2]
  omega

end Memory

/-- What every effect remembers agrees. -/
def World.Agrees (w : World σ) : Prop :=
  ∀ (e : EffectId) (effect : Effect σ), w.effects[e]? = some effect → effect.memory.Agrees

/-- An effect that is alive has got a value by its construction, so that the count goes on from
there. -/
theorem World.Agrees.deliver {w : World σ} (h : w.Agrees) (hw : w.Sound) {e : EffectId}
    {effect : Effect σ} {v : Value} (he : w.effects[e]? = some effect)
    (hv : w.Receives e effect v) : (w.deliver e v).Agrees := by
  intro e' effect' he'
  rw [effects_deliver] at he'
  split at he'
  · rename_i heq
    rw [← heq, he] at he'
    obtain rfl := Option.some.inj he'
    obtain ⟨effect₀, he₀, hne⟩ := hw.exists_effect e hv.isAlive
    obtain rfl := Option.some.inj (he.symm.trans he₀)
    exact (h e effect he).receive hne v
  · exact h e' effect' he'

theorem Change.agrees {w w' : World σ} (h : Change w w') (hw : w.Sound) (ha : w.Agrees) :
    w'.Agrees := by
  cases h with
  | read cells =>
    obtain ⟨s, hs, -⟩ := w.registerReads_eq cells
    rwa [hs]
  | deliver he _ hv => exact ha.deliver hw he hv
  | display he _ hv _ => exact ha.deliver hw he hv
  | construct h =>
    intro e effect he
    rcases Nat.lt_or_ge e w.effects.size with hlt | hle
    · exact ha e effect (h.grows.effects_eq e hlt ▸ he)
    -- A construction reads a value or fails.
    · rw [h.grows.memory_eq e effect hle he]
      cases w.store.get effect.path effect.root <;> exact ⟨rfl, rfl⟩
  | _ => exact ha

theorem Move.agrees {w w' : World σ} (h : Move w w') (hw : w.Sound) (ha : w.Agrees) :
    w'.Agrees := by
  cases h with
  | change h => exact h.agrees hw ha
  | deliver he hv => exact ha.deliver hw he hv
  | _ => exact ha

/-- Wherever a run gets, the last value of each effect heads the list of its values, and its number
of updates is the number of the values after the first. -/
theorem Scene.memory_agrees (depth : Nat) (source : String) (steps : List Step) :
    (Scene.after depth (Scene.start source) steps).Agrees :=
  ((Scene.evolves_after depth _ steps).preserves
    (fun _ _ hmove (hP : World.Sound _ ∧ World.Agrees _) =>
      ⟨hmove.sound hP.1, hmove.agrees hP.1 hP.2⟩)
    ⟨World.sound_ofDocument _, fun _ _ he => by simp [World.ofDocument] at he⟩).2

/-! ### Reactions -/

/-- From one moment of a run to a later one an effect begins to react to values, in this order. -/
inductive Reacts (e : EffectId) (w : World σ) : List Value → World σ → Prop
  | start : Reacts e w [] w
  | other {vs : List Value} {u u' : World σ} (h : Reacts e w vs u) (hmove : Move u u')
      (heq : u'.effects[e]? = u.effects[e]?) : Reacts e w vs u'
  | react {vs : List Value} {u u' : World σ} {effect : Effect σ} {v : Value}
      (h : Reacts e w vs u) (hmove : Move u u') (he : u.effects[e]? = some effect)
      (hv : u.Receives e effect v) (heq : u'.effects[e]? = some (effect.receive v)) :
      Reacts e w (vs ++ [v]) u'

/-- Of a value that some effect gets, an effect gets to know if it is the one. -/
theorem receives_deliver {w : World σ} {e e' : EffectId} {effect effect' : Effect σ} {v : Value}
    (he' : w.effects[e']? = some effect') (hv : w.Receives e' effect' v)
    (he : w.effects[e]? = some effect) :
    (w.deliver e' v).effects[e]? = w.effects[e]? ∨
      w.Receives e effect v ∧ (w.deliver e' v).effects[e]? = some (effect.receive v) := by
  rw [effects_deliver]
  split
  · rename_i hee
    subst hee
    obtain rfl := Option.some.inj (he.symm.trans he')
    exact .inr ⟨hv, by rw [he]; rfl⟩
  · exact .inl rfl

theorem Change.receives {w w' : World σ} (h : Change w w') {e : EffectId} {effect : Effect σ}
    (he : w.effects[e]? = some effect) :
    w'.effects[e]? = w.effects[e]? ∨
      ∃ v, w.Receives e effect v ∧ w'.effects[e]? = some (effect.receive v) := by
  cases h with
  | read cells =>
    obtain ⟨s, hs, -⟩ := w.registerReads_eq cells
    exact .inl (by rw [hs])
  | deliver he' _ hv => exact (receives_deliver he' hv he).imp id fun h => ⟨_, h⟩
  | display he' _ hv _ => exact (receives_deliver he' hv he).imp id fun h => ⟨_, h⟩
  | construct h => exact .inl (h.grows.effects_eq e (lt_size_of_effect he))
  | _ => exact .inl rfl

/-- What an effect remembers changes only when the effect begins to react to a value. -/
theorem Move.receives {w w' : World σ} (h : Move w w') {e : EffectId} {effect : Effect σ}
    (he : w.effects[e]? = some effect) :
    w'.effects[e]? = w.effects[e]? ∨
      ∃ v, w.Receives e effect v ∧ w'.effects[e]? = some (effect.receive v) := by
  cases h with
  | change h => exact h.receives he
  | deliver he' hv => exact (receives_deliver he' hv he).imp id fun h => ⟨_, h⟩
  | _ => exact .inl rfl

/-- An effect remembers the values to which it began to react, in their order, and whatever happens
it does not forget them. -/
theorem Reacts.effects_eq {e : EffectId} {w u : World σ} {vs : List Value} {effect : Effect σ}
    (he : w.effects[e]? = some effect) (h : Reacts e w vs u) :
    u.effects[e]? = some { effect with memory := vs.foldl Memory.receive effect.memory } := by
  induction h with
  | start => exact he
  | other _ _ heq ih => rw [heq, ih]
  | react _ _ he' _ heq ih =>
    obtain rfl := Option.some.inj (he'.symm.trans ih)
    rw [heq, List.foldl_concat]
    rfl

/-- Wherever a run gets, an effect has reacted to some values on the way. -/
theorem exists_reacts {e : EffectId} {w u : World σ} {effect : Effect σ}
    (he : w.effects[e]? = some effect) (h : ReflTransGen Move w u) : ∃ vs, Reacts e w vs u := by
  induction h with
  | refl => exact ⟨[], .start⟩
  | tail _ hmove ih =>
    obtain ⟨vs, hvs⟩ := ih
    have hrecord := hvs.effects_eq he
    rcases hmove.receives hrecord with heq | ⟨v, hv, heq⟩
    · exact ⟨vs, .other hvs hmove heq⟩
    · exact ⟨vs ++ [v], .react hvs hmove hrecord hv heq⟩

/-- An effect that has not reacted yet: the last value to which it begins to react is its last
value, and the number of times is its number of updates. -/
theorem Reacts.exists_effect {e : EffectId} {w u : World σ} {vs : List Value} {effect : Effect σ}
    {first : Value} (he : w.effects[e]? = some effect)
    (hfirst : effect.memory = Memory.empty.start first) (h : Reacts e w vs u) :
    ∃ effect', u.effects[e]? = some effect' ∧ effect'.gated = effect.gated ∧
      (first :: vs).getLast? = some effect'.last ∧ effect'.updates = vs.length := by
  refine ⟨_, h.effects_eq he, rfl, ?_, ?_⟩
  · rw [Effect.last, hfirst]
    exact Memory.last_foldl_receive vs (Memory.empty.start first)
  · rw [Effect.updates, Memory.updates_foldl_receive, hfirst]
    exact Nat.zero_add _

/-! ### The gate -/

/-- Of the values to which an effect with a gate reacts, each differs from the one before it. -/
theorem Reacts.isChain {e : EffectId} {w u : World σ} {vs : List Value} {effect : Effect σ}
    {first : Value} (he : w.effects[e]? = some effect) (hg : effect.gated = true)
    (hfirst : effect.memory = Memory.empty.start first) (h : Reacts e w vs u) :
    (first :: vs).IsChain fun older v => v.same older = false := by
  induction h with
  | start => exact .singleton first
  | other _ _ _ ih => exact ih
  | @react vs u u' effect' v h _ he' hv _ ih =>
    obtain ⟨effect'', he'', hgated, hlast, -⟩ := h.exists_effect he hfirst
    obtain rfl := Option.some.inj (he'.symm.trans he'')
    have hgate := hv.gate_eq
    rw [hgated, hg, Bool.true_and] at hgate
    rw [← List.cons_append]
    -- The gate compares with the last value, whatever happened since it was recorded.
    refine List.isChain_append.2 ⟨ih, .singleton v, fun older holder y hy => ?_⟩
    obtain rfl : effect'.last = older := Option.some.inj (hlast.symm.trans holder)
    obtain rfl : v = y := Option.some.inj hy
    exact hgate

/-! ### Constructions -/

/-- Nothing but a construction brings new effects. -/
theorem Move.constructs_of_lt {w w' : World σ} (h : Move w w')
    (hlt : w.effects.size < w'.effects.size) : w.Constructs w' := by
  cases h with
  | change h =>
    cases h with
    | construct h => exact h
    | read cells =>
      obtain ⟨s, hs, -⟩ := w.registerReads_eq cells
      rw [hs] at hlt
      exact absurd hlt (Nat.lt_irrefl _)
    | deliver => simp [World.deliver, modifyEffect] at hlt
    | display => simp [World.deliver, modifyEffect, writeSink, modifyDocument] at hlt
    | _ => exact absurd hlt (Nat.lt_irrefl _)
  | deliver => simp [World.deliver, modifyEffect] at hlt
  | _ => exact absurd hlt (Nat.lt_irrefl _)

/-- An effect that a run has and did not have at first was constructed on the way: at a moment from
which the run went on, it remembers the value that its path had right before, or nothing if its path
faulted. -/
theorem exists_constructs {w u : World σ} (h : ReflTransGen Move w u) {e : EffectId}
    (hle : w.effects.size ≤ e) (hlt : e < u.effects.size) :
    ∃ w₀ w₁ made, ReflTransGen Move w w₀ ∧ w₀.Constructs w₁ ∧ ReflTransGen Move w₁ u ∧
      w₀.effects.size ≤ e ∧ w₁.effects[e]? = some made ∧
        made.memory = match w₀.store.get made.path made.root with
          | .ok v => Memory.empty.start v
          | .error _ => .empty := by
  -- The effect was constructed by the last move or before it.
  induction h with
  | refl => exact absurd hlt (Nat.not_lt.2 hle)
  | @tail u u' hmoves hmove ih =>
    rcases Nat.lt_or_ge e u.effects.size with hlt' | hle'
    · obtain ⟨w₀, w₁, made, hbefore, hmade, hafter, hrest⟩ := ih hlt'
      exact ⟨w₀, w₁, made, hbefore, hmade, hafter.tail hmove, hrest⟩
    · have hconstructs : u.Constructs u' := hmove.constructs_of_lt (Nat.lt_of_le_of_lt hle' hlt)
      have hmade := Array.getElem?_eq_getElem hlt
      exact ⟨u, u', _, hmoves, hconstructs, .refl, hle', hmade,
        hconstructs.grows.memory_eq e _ hle' hmade⟩

/-- The law of effects with a gate, in any world, so also in the middle of a pass or of a reaction.
Requests and scripts lead to later moments of the run, whether they fault or not.

* An effect that is constructed starts with the value that its path has. If a request or a script
  constructs it, by itself or with a template, this is a moment of the run.
* An update that finds the last value again does nothing. Another value is recorded first, which is
  a later moment, and then the reaction begins, with this value.
* From the moment of its construction on, no value is the same as the one before it in the list of
  the first value and those to which the effect began to react. The last of the list is always its
  last value, and the others are its updates, also those that failed or have not ended yet. -/
theorem gated_values_alternate (w : SceneWorld) :
    (∀ depth env, (∀ vm, env.receiver = some vm → vm ∈ w.receivers) →
      (∀ s : Step, ReflTransGen Move w ((s.perform (Script.invoke depth) env).runOn w).2) ∧
      ∀ code, ReflTransGen Move w ((Script.invoke depth code env).runOn w).2) ∧
    (∀ path root reaction v, w.store.get path root = .ok v →
      let made := (Act.newEffect path root true reaction).runOn w
      made.1 = .ok w.effects.size ∧ ∃ effect, made.2.effects[w.effects.size]? = some effect ∧
        effect.gated = true ∧ effect.memory = Memory.empty.start v) ∧
    (∀ u, ReflTransGen Move w u → ∀ e, w.effects.size ≤ e → e < u.effects.size →
      ∃ w₀ w₁ made, ReflTransGen Move w w₀ ∧ w₀.Constructs w₁ ∧ ReflTransGen Move w₁ u ∧
        w₀.effects.size ≤ e ∧ w₁.effects[e]? = some made ∧
          made.memory = match w₀.store.get made.path made.root with
            | .ok v => Memory.empty.start v
            | .error _ => .empty) ∧
    ∀ (e : EffectId) effect, w.effects[e]? = some effect → effect.gated = true →
      (∀ call, (Act.update call e).runOn w =
        match w.store.get effect.path effect.root with
        | .error f => (.error f, w)
        | .ok v => if v.same effect.last then (.ok (), w)
            else (Act.react call effect v).runOn (w.deliver e v)) ∧
      (∀ v, w.Receives e effect v → Reacts e w [v] (w.deliver e v)) ∧
      ∀ first, effect.memory = Memory.empty.start first →
        (∀ u, ReflTransGen Move w u → ∃ vs, Reacts e w vs u) ∧
        ∀ vs u, Reacts e w vs u →
          ((first :: vs).IsChain fun older v => v.same older = false) ∧
          ∃ effect', u.effects[e]? = some effect' ∧
            (first :: vs).getLast? = some effect'.last ∧ effect'.updates = vs.length := by
  refine ⟨fun depth env henv => ⟨fun s => ?_, fun code => ?_⟩,
    fun path root reaction v hv => ?_, fun u hu e hle hlt => exists_constructs hu hle hlt,
    fun e effect he hg => ⟨fun call => ?_, fun v hv => ?_,
    fun first hfirst => ⟨fun u hu => exists_reacts he hu, fun vs u h => ?_⟩⟩⟩
  · exact (follows_perform (invoke_evolves depth) env s w henv).moves
  · exact (invoke_evolves depth code env w henv).moves
  · rw [Act.runOn_newEffect, hv]
    refine ⟨rfl, w.record path root true reaction, ?_, rfl, ?_⟩
    · rw [effects_construct, if_pos rfl]
    · exact memory_record hv
  · rw [Act.runOn_update, he]
    dsimp only
    cases w.store.get effect.path effect.root with
    | error f => rfl
    | ok v => simp only [hg, Bool.true_and]
  · exact .react .start (.deliver w he hv) he hv (effects_deliver_self he v)
  · obtain ⟨effect', he', -, hlast, hupdates⟩ := h.exists_effect he hfirst
    exact ⟨h.isChain he hg hfirst, effect', he', hlast, hupdates⟩

/-- An effect that raises the number that it reads: each of its reactions but the last one contains
the next, and the last one fails. -/
theorem gated_values_alternate_nested :
    let w := Scene.after callDepth (Scene.start "") [
      .model (.create "m" (.object [("n", .number (.integer 0))])),
      .effect (.create "e" "m" ⟨"n"⟩ true
        (Script.increment "m" ⟨"n"⟩ (.ofInt 3) (.fail (.handler "no"))))]
    let u := Scene.after callDepth w [.model (.set "m" ⟨"n"⟩ (.plain (.number (.integer 1))))]
    let values := [1, 2, 3].map fun n : Int => Value.number (.ofInt n)
    Reacts 0 w values u ∧ (Value.number (.ofInt 0) :: values).IsChain
      fun older v => v.same older = false := by
  intro w u values
  have hgated : w.effects[0]?.map Effect.gated = some true := by decide +kernel
  have hfirst : w.effects[0]?.map Effect.memory =
      some (Memory.empty.start (.number (.ofInt 0))) := by decide +kernel
  have hlast : u.effects[0]?.map Effect.values =
      some (values.reverse ++ [.number (.ofInt 0)]) := by decide +kernel
  cases he : w.effects[0]? with
  | none =>
    rw [he] at hgated
    cases hgated
  | some effect =>
    rw [he] at hgated hfirst
    have hmemory := Option.some.inj hfirst
    obtain ⟨-, -, -, hlaw⟩ := gated_values_alternate w
    obtain ⟨hexists, halternate⟩ := (hlaw 0 effect he (Option.some.inj hgated)).2.2 _ hmemory
    obtain ⟨vs, hvs⟩ := hexists u (Scene.evolves_after callDepth w _).moves
    -- The effect remembers which reactions these were.
    rw [hvs.effects_eq he, Option.map_some, Effect.values, Memory.values_foldl_receive,
      hmemory] at hlast
    obtain rfl : vs = values :=
      List.reverse_injective (List.append_cancel_right (Option.some.inj hlast))
    exact ⟨hvs, (halternate values u hvs).1⟩

end LiveBinding
