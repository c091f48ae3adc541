import LiveBinding.Proofs.Evolution.Engine

/-!
# What a pass keeps

A pass changes a world in five ways. It begins and ends, an effect gets a value, a value is shown in
the place of an effect, and user code runs. A property of worlds that all five keep is a property of
the world that the pass leaves, also if a fault ends it.

User code may keep the property only where the pass runs it: `Runs` says with which value and in
which world that is.

## Key definitions

- `Act.Runs`: the user code that a pass runs
- `Act.PassKeeps`: what a pass does apart from user code keeps a property

## Key results

- `Act.keeps_update`: one update
- `Act.keeps_notify`: a pass
-/

namespace LiveBinding.Act

open World

variable {σ : Type} {call : Call σ} {P : World σ → Prop} {es : List EffectId} {w : World σ}

/-- A pass over effects that starts in a world runs user code, with a value, in a world. -/
inductive Runs (call : Call σ) : List EffectId → World σ → σ → Value → World σ → Prop
  | here {e : EffectId} {es : List EffectId} {w : World σ} {effect : Effect σ} {code : σ}
      {v : Value} (he : w.effects[e]? = some effect) (hcode : effect.reaction = .run code)
      (hv : w.store.get effect.path effect.root = .ok v)
      (hfresh : (effect.gated && v.same effect.last) = false) :
      Runs call (e :: es) w code v (w.deliver e v)
  | later {e : EffectId} {es : List EffectId} {w w₁ w' : World σ} {code : σ} {v : Value}
      (he : (update call e).runOn w = (.ok ⟨⟩, w₁)) (h : Runs call es w₁ code v w') :
      Runs call (e :: es) w code v w'

/-- What a pass over effects does apart from user code keeps a property of worlds. -/
structure PassKeeps (P : World σ → Prop) (es : List EffectId) : Prop where
  startPass : ∀ (w : World σ) (c : CellId), P w → P (w.startPass c)
  endPass : ∀ w : World σ, P w → P w.endPass
  abortPass : ∀ w : World σ, P w → P w.abortPass
  deliver : ∀ (w : World σ) (e : EffectId) (v : Value), P w → P (w.deliver e v)
  display : ∀ (w : World σ), ∀ e ∈ es, ∀ (effect : Effect σ) (sink : Sink) (node : NodeRef)
    (s : String), w.effects[e]? = some effect → effect.place? = some (sink, node) →
    effect.shown w.store = .ok s → P w → P (w.writeSink sink node s)

theorem PassKeeps.of_subset {es' : List EffectId} (hP : PassKeeps P es) (hsub : es' ⊆ es) :
    PassKeeps P es' :=
  { hP with display := fun w e he => hP.display w e (hsub he) }

/-- An update keeps a property, if the code of the effect does. -/
theorem keeps_update {e : EffectId} (hP : PassKeeps P (e :: es))
    (hruns : ∀ code v u, Runs call (e :: es) w code v u → P u →
      P ((call code ⟨v, none⟩).runOn u).2)
    (h : P w) : P ((update call e).runOn w).2 := by
  rw [runOn_update]
  split
  · exact h
  · rename_i effect he
    split
    · exact h
    · rename_i v hv
      split
      · exact h
      · rename_i hfresh
        rw [Bool.not_eq_true] at hfresh
        have hdeliver : P (w.deliver e v) := hP.deliver w e v h
        cases hp : effect.place? with
        | none =>
          obtain ⟨code, hcode, hreact⟩ := runOn_react_of_place?_eq_none call hp v (w.deliver e v)
          rw [hreact]
          exact hruns code v _ (.here he hcode hv hfresh) hdeliver
        | some place =>
          obtain ⟨sink, node⟩ := place
          rw [runOn_react_of_place?_eq_some hp (w := w.deliver e v) hv]
          cases hs : effect.shown (w.deliver e v).store with
          | error f => exact hdeliver
          | ok s =>
            exact hP.display _ e (List.mem_cons_self ..) (effect.receive v) sink node s
              (effects_deliver_self he v) hp hs hdeliver

/-- A pass forgets nothing. -/
theorem passKeeps_later (w : World σ) (es : List EffectId) : PassKeeps w.Later es where
  startPass u c h := h.trans (later_startPass u c)
  endPass u h := h.trans (later_endPass u)
  abortPass u h := h.trans (later_abortPass u)
  deliver u e v h := h.trans (later_deliver u e v)
  display u _ _ _ sink node s _ _ _ h := h.trans (later_writeSink u sink node s)

theorem later_update (hcall : call.Evolves) (e : EffectId) (w : World σ) :
    w.Later ((update call e).runOn w).2 :=
  keeps_update (passKeeps_later w [e])
    (fun code v u _ hu => hu.trans (hcall code ⟨v, none⟩ u (by simp)).later) (.refl w)

/-- The code that a pass runs is that of effects that it visits. -/
theorem Runs.exists_effect (hcall : call.Evolves) {code : σ} {v : Value} {w' : World σ}
    (h : Runs call es w code v w') (hlt : ∀ e ∈ es, e < w.effects.size) :
    ∃ e ∈ es, ∃ effect, w.effects[e]? = some effect ∧ effect.reaction = .run code := by
  induction h with
  | @here e _ _ effect _ _ he hcode => exact ⟨e, List.mem_cons_self .., effect, he, hcode⟩
  | @later e es w w₁ _ _ _ hu _ ih =>
    have hlater : w.Later w₁ := by
      have := later_update hcall e w
      rwa [hu] at this
    obtain ⟨e', he', effect', heffect', hreaction⟩ := ih fun e' he' =>
      Nat.lt_of_lt_of_le (hlt e' (List.mem_cons_of_mem _ he')) hlater.size_le
    -- The earlier updates leave the code of the effect as it is.
    have heffect := Array.getElem?_eq_getElem (hlt e' (List.mem_cons_of_mem _ he'))
    obtain ⟨vs, hvs⟩ := hlater.effects_eq e' _ heffect
    obtain rfl := Option.some.inj (heffect'.symm.trans hvs)
    exact ⟨e', List.mem_cons_of_mem _ he', _, heffect, hreaction⟩

/-- The updates of a pass keep a property, up to the first fault. -/
theorem keeps_visits (hP : PassKeeps P es)
    (hruns : ∀ code v u, Runs call es w code v u → P u → P ((call code ⟨v, none⟩).runOn u).2)
    (h : P w) : P ((es.forM (update call)).runOn w).2 := by
  induction es generalizing w with
  | nil => exact h
  | cons e es ih =>
    have hfirst := keeps_update hP hruns h
    rw [runOn_forM_cons]
    rcases hu : (update call e).runOn w with ⟨_ | ⟨⟨⟩⟩, w₁⟩
    · rwa [hu] at hfirst
    · rw [hu] at hfirst
      exact ih (hP.of_subset (List.subset_cons_self e es))
        (fun code v u hr => hruns code v u (.later hu hr)) hfirst

/-- Notifying the watchers of a cell keeps a property, if the code that the pass runs does. -/
theorem keeps_notify {c : CellId} (hP : PassKeeps P (w.liveWatchers c))
    (hruns : ∀ code v u, Runs call (w.liveWatchers c) (w.startPass c) code v u → P u →
      P ((call code ⟨v, none⟩).runOn u).2)
    (h : P w) : P ((notify call c).runOn w).2 := by
  have hvisits := keeps_visits hP hruns (hP.startPass w c h)
  rw [runOn_notify]
  rcases hpass : ((w.liveWatchers c).forM (update call)).runOn (w.startPass c) with ⟨_ | _, w'⟩
  · rw [hpass] at hvisits
    exact hP.abortPass w' hvisits
  · rw [hpass] at hvisits
    exact hP.endPass w' hvisits

end LiveBinding.Act
