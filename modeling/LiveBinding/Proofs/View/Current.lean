import LiveBinding.Proofs.View.Place

/-!
# Bindings without a gate

A binding without a gate is current: its place displays what it should, or one of its effects is
still to be updated by a running pass, or a text was typed that is still to be written back. Only
the last two can be the case in the middle of an operation.

An update of any effect of the binding makes the place display the whole binding, so it does not
matter which of the effects comes last, nor what else was written in between. A change of a needed
value makes the effects pending that watch the cell; if none does, the paths of the binding do not
go through the cell, and the change plays no part.

## Key definitions

- `Binding.Current`: the invariant

## Key results

- `Current.of_leaves`: what leaves the place alone
- `Current.display`, `Current.assign`, `Current.type`: updates, changes of values, typed texts
- `carried_current`: the invariant, for every execution
- `Scene.displays_of_ungated`: after every run, the place displays what it should
-/

namespace LiveBinding

variable {σ : Type}

open World

namespace Binding

/-- The effects in the place have no gate. -/
def Ungated (b : Binding) (s : Moment) (w : World σ) : Prop :=
  ∀ e effect, b.IsIn s w.effects e effect → effect.gated = false

/-- The place of the binding displays what it should, or an effect of the binding is pending, or a
typed text that is displayed is still to be written back. -/
def Current (b : Binding) (s : Moment) (P : EffectId → Prop) (D : String → Prop) (w : World σ) :
    Prop :=
  b.Holds s w → b.Ungated s w → ∀ e effect, b.IsIn s w.effects e effect →
    ∃ x, b.Stands w x ∧ (b.Ready s w → b.shows w.store = .ok x ∨
      (∃ f record, P f ∧ b.IsIn s w.effects f record) ∨ D x)

variable {b : Binding} {s : Moment} {P P' : EffectId → Prop} {D D' : String → Prop}
  {w w' : World σ} {e : EffectId} {effect : Effect σ}

theorem Ungated.of_later (h : b.Ungated s w') (hl : Later w w') : b.Ungated s w := by
  intro e effect hin
  obtain ⟨m, hin'⟩ := hin.later hl
  have hgated := h e _ hin'
  exact hgated

/-! ### Bindings that are ready -/

/-- A binding that is ready later was ready before. -/
theorem Ready.of_returns (h : b.Ready s w') (hs : b.Spares s w w') (hr : b.Returns s w w') :
    b.Ready s w := by
  intro p hp
  obtain ⟨e, effect, v, hin, hpath, hwatch, hleaf⟩ := h p hp
  exact ⟨e, effect, v, hs.isIn_of e effect hin, hpath, hr e effect v hin hwatch, hleaf⟩

/-- A binding that is ready later should show the same before. -/
theorem Ready.shows_eq (h : b.Ready s w') (hh : b.Holds s w') (hr : b.Returns s w w') :
    b.shows w'.store = b.shows w.store := by
  refine b.shows_congr fun p hp => ?_
  obtain ⟨e, effect, v, hin, rfl, hwatch, hleaf⟩ := h p hp
  rw [← (hh.owns e effect hin).root_eq]
  exact ⟨v, hleaf, (hr e effect v hin hwatch).get_eq, hwatch.get_eq⟩

/-- If an input is ready, an assignment to its path changes a cell that an effect in the place
watches, and which holds the value of the path. -/
theorem Ready.exists_cell (h : b.Ready s w) (hh : b.Holds s w) {p : KeyPath × MappingId}
    (hp : p ∈ b.target) : ∃ e effect c, b.IsIn s w.effects e effect ∧ e ∈ w.store.watchers c ∧
      w.store.placeOf p.1 p.2 = .ok (.cell c) ∧ w.store.get p.1 p.2 = .ok (w.store.value c) := by
  have hneed : p.1 ∈ b.needs := by
    rw [eq_of_mem_target hp]
    exact List.mem_singleton_self _
  obtain ⟨e, effect, v, hin, -, hwatch, -⟩ := h p.1 hneed
  obtain ⟨hpath, hroot⟩ := (hh.owns e effect hin).eq_of_mem_target hp
  obtain ⟨c, hc, hplace, rfl⟩ := hwatch.placeOf_eq
  have hget := hwatch.get_eq
  rw [hpath, hroot] at hplace hget
  exact ⟨e, effect, c, hin, hc, hplace, hget⟩

/-! ### What keeps a binding current -/

/-- Fewer effects are pending, or fewer texts are to be written back. -/
theorem Current.weaken (h : b.Current s P D w)
    (hP : ∀ e effect, b.Ungated s w → b.IsIn s w.effects e effect → P e → P' e)
    (hD : ∀ x, b.Holds s w → b.Ready s w → D x → b.shows w.store = .ok x ∨ D' x) :
    b.Current s P' D' w := by
  intro hh hungated e effect hin
  obtain ⟨x, hstands, hcurrent⟩ := h hh hungated e effect hin
  refine ⟨x, hstands, fun hready => ?_⟩
  rcases hcurrent hready with hx | ⟨f, record, hf, hinf⟩ | hx
  · exact .inl hx
  · exact .inr (.inl ⟨f, record, hP f record hungated hinf hf, hinf⟩)
  · exact (hD x hh hready hx).imp_right .inr

/-- An effect that is not in the place need not be visited. -/
theorem Current.skip (h : b.Current s (fun e' => e' = e ∨ P e') D w)
    (hnot : ∀ effect, b.Ungated s w → ¬ b.IsIn s w.effects e effect) : b.Current s P D w := by
  refine h.weaken (fun e' effect hungated hin hpending => hpending.resolve_left ?_)
    fun _ _ _ => .inr
  rintro rfl
  exact hnot effect hungated hin

/-- The invariant survives what leaves the place alone. -/
theorem Current.of_leaves (h : b.Current s P D w) (hl : b.Leaves s w w') :
    b.Current s P D w' := by
  intro hh hungated e effect hin
  have hs := hl.spares
  -- The place was left to the binding before, so the invariant can be used.
  obtain ⟨x, hstands, hcurrent⟩ :=
    h (hs.holds_of e effect hin hh) (hungated.of_later hs.later) e effect (hs.isIn_of e effect hin)
  refine ⟨x, hstands.of_spares hs, fun hready => ?_⟩
  -- If the binding is ready now, it was ready before, with the same values.
  rw [hready.shows_eq hh hl.returns]
  refine (hcurrent (hready.of_returns hs hl.returns)).imp_right (Or.imp_left ?_)
  rintro ⟨f, record, hf, hinf⟩
  obtain ⟨m, hinf'⟩ := hinf.later hs.later
  exact ⟨f, _, hf, hinf'⟩

/-- An effect in the place that is updated shows the whole binding. -/
theorem Current.display {v : Value} {x : String} (h : b.Current s P' D w) (hw : w.Steady)
    (he : w.effects[e]? = some effect) (hp : effect.place? = some (b.sink, b.node))
    (hv : w.Receives e effect v) (hx : effect.shown w.store = .ok x) :
    b.Current s P D ((w.deliver e v).writeSink b.sink b.node x) := by
  have hmove : Move w ((w.deliver e v).writeSink b.sink b.node x) :=
    .change (.display w he hp hv hx)
  intro hh hungated f record hinf
  have hh' := hh.of_move hw hmove hinf
  have hin := hh'.isIn hw he hp hv.isAlive
  obtain ⟨_, hstands, -⟩ := h hh' (hungated.of_later hmove.later) e effect hin
  refine ⟨x, hstands.display e v x, fun _ => .inl ?_⟩
  exact ((hh'.owns e effect hin).shown_eq w.store).symm.trans hx

/-- Effects that are constructed for the place show what they should, or are not kept. -/
theorem current_of_constructs (hw : w.Steady) (hplain : b.sink.IsPlain) (h : w.Constructs w')
    (hin : b.IsIn s w'.effects e effect) (hle : w.effects.size ≤ e) : b.Current s P D w' := by
  intro hh _ _ _ _
  obtain ⟨_, _, x, -, -, hx, hstands⟩ := hh.exists_stands hw hplain h hin hle
  exact ⟨x, hstands, fun _ => .inl hx⟩

/-- A change keeps a binding current. -/
theorem Current.change (h : b.Current s P D w) (hw : w.Steady) (hplain : b.sink.IsPlain)
    (hchange : Change w w') : b.Current s P D w' := by
  intro hh hungated f record hin
  rcases hchange.leaves_or hw hplain hh hin with
    hleaves | ⟨e, effect, v, x, he, hp, hv, hx, rfl⟩ | ⟨hconstructs, e, effect, hnew, hle⟩
  · exact h.of_leaves hleaves hh hungated f record hin
  · exact h.display hw he hp hv hx hh hungated f record hin
  · exact current_of_constructs hw hplain hconstructs hnew hle hh hungated f record hin

/-! ### Typed texts -/

/-- A text that is typed is displayed, and will be written back. -/
theorem Current.type (h : b.Current s P D w) (hw : w.Steady) (node : NodeRef) (x : String) :
    b.Current s P
      (fun t => (Activity.hearing node x (((w.writeSink .input node x).document
        node.document).listenersFor node.node "input")).Typed b.target
          (w.writeSink .input node x) t ∨ D t) (w.writeSink .input node x) := by
  -- The text is typed into the place of the binding, or somewhere else.
  by_cases hplace : b.sink = .input ∧ b.node = node
  · obtain ⟨hsink, rfl⟩ := hplace
    intro hh hungated e effect hin
    have hh' := hh.of_move hw (.type w b.node x) hin
    obtain ⟨_, hstands, -⟩ := h hh' hungated e effect hin
    obtain ⟨hstands', htyped⟩ := hstands.type hsink x
    exact ⟨x, hstands', fun _ => .inr (.inr (.inl htyped))⟩
  · exact (h.of_leaves (leaves_type hw hplace)).weaken (fun _ _ _ _ => id) fun _ _ _ hD =>
      .inr (.inr hD)

/-- A text that the cell holds already need not be stored. -/
theorem Current.of_same_value {c : CellId} {v : Value} (hv : (w.store.value c).same v = true)
    (h : b.Current s P (fun t => (Activity.setting c v).Typed b.target w t ∨ D t) w) :
    b.Current s P D w := by
  refine h.weaken (fun _ _ _ _ => id) fun x hh hready hx => ?_
  rcases hx with ⟨rfl, p, hp, hplace⟩ | hx
  · obtain ⟨-, -, d, -, -, hplace', hget⟩ := hready.exists_cell hh hp
    have hsame : Place.cell c = .cell d := Except.ok.inj (hplace.symm.trans hplace')
    cases hsame
    rw [Value.eq_text_of_same hv] at hget
    exact .inl (shows_text hp hget)
  · exact .inr hx

/-- A text that would be stored under a new key or as a new item belongs to no input that is
ready. -/
theorem Current.of_no_cell {path : KeyPath} {root : MappingId} {v : Value} {place : Place}
    (hplace : w.store.placeOf path root = .ok place) (hne : ∀ c, place ≠ .cell c)
    (h : b.Current s P
      (fun t => (Activity.assigning path root v).Typed b.target w t ∨ D t) w) :
    b.Current s P D w := by
  refine h.weaken (fun _ _ _ _ => id) fun x hh hready hx => ?_
  rcases hx with ⟨-, hp⟩ | hx
  · obtain ⟨-, -, c, -, -, hplace', -⟩ := hready.exists_cell hh hp
    exact absurd (Except.ok.inj (hplace.symm.trans hplace')) (hne c)
  · exact .inr hx

/-- A new value leaves behind only effects that watch the cell. -/
theorem Current.assign {c : CellId} {v : Value} (hw : w.Steady)
    (h : b.Current s P (fun t => (Activity.setting c v).Typed b.target w t ∨ D t) w) :
    b.Current s (fun e => e ∈ w.liveWatchers c ∨ P e) D ((w.assign c v).startPass c) := by
  have hw₁ := (Move.assign w c v).steady hw
  have hs : b.Spares s w ((w.assign c v).startPass c) :=
    (spares_of_eq hw (.assign w c v) rfl rfl).trans (reframes_startPass _ c |>.leaves hw₁).spares
  intro hh hungated e effect hin
  have hbefore := hs.holds_of e effect hin hh
  obtain ⟨x, hstands, hcurrent⟩ := h hbefore hungated e effect hin
  refine ⟨x, ⟨hstands.displays, hstands.writesBack⟩, fun hready => ?_⟩
  -- The write is noticed by an effect of the binding, or it does not concern the binding.
  by_cases hpending : ∃ e effect, e ∈ w.store.watchers c ∧ b.IsIn s w.effects e effect
  · obtain ⟨f, record, hf, hinf⟩ := hpending
    have hlive : f ∈ w.liveWatchers c :=
      List.mem_filter.2 ⟨hf, hbefore.isAlive f record hinf⟩
    exact .inr (.inl ⟨f, record, .inl hlive, hinf⟩)
  · -- No needed path goes through the cell, so the binding was ready before, with these values.
    have hreturns : b.Returns s w ((w.assign c v).startPass c) := by
      rintro f record u hinf ⟨cells, hleads, hwatch⟩
      have hwatch' (d : CellId) (hd : d ∈ cells) : f ∈ w.store.watchers d := by
        have hmem := Store.mem_watchers_of_prune (hwatch d hd)
        rwa [World.assign, store_turn, Store.watchers_assign] at hmem
      have hc : c ∉ cells := fun hc => hpending ⟨f, record, hwatch' c hc, hinf⟩
      exact ⟨cells,
        (hleads.of_sameData (Store.sameData_prune (w.store.assign c v) c _)).of_assign hc, hwatch'⟩
    have hready' := hready.of_returns hs hreturns
    rcases hcurrent hready' with hx | ⟨f, record, hf, hinf⟩ | ⟨-, p, hp, hplace⟩ | hx
    · exact .inl ((hready.shows_eq hh hreturns).trans hx)
    · exact .inr (.inl ⟨f, record, .inr hf, hinf⟩)
    · -- A text that is written back goes to a cell which an effect of the binding watches.
      obtain ⟨f, record, d, hinf, hwatch, hplace', -⟩ := hready'.exists_cell hbefore hp
      have hsame : Place.cell c = .cell d := Except.ok.inj (hplace.symm.trans hplace')
      cases hsame
      exact absurd ⟨f, record, hwatch, hinf⟩ hpending
    · exact .inr (.inr hx)

end Binding

open Binding

/-! ### Runs -/

/-- Whatever goes on, a binding without a gate is current. -/
theorem carried_current {b : Binding} (hplain : b.sink.IsPlain) (s : Moment) :
    Carried (σ := σ) b.target (b.Current s) where
  mono h hP hD := h.weaken (fun e _ _ _ => hP e) fun x _ _ hx => .inr (hD x hx)
  change hw hchange h := h.change hw hplain hchange
  reframe hw hframe h := h.of_leaves (hframe.leaves hw)
  abortPass hw hh := (not_holds_abortPass hw hh).elim
  abortDispatch hw _ hh := (not_holds_abortDispatch hw hh).elim
  type node x hw h := h.type hw node x
  setSame _ hv h := h.of_same_value hv
  setNew hw _ h := h.assign hw
  add hw hplace hne h :=
    (h.of_no_cell hplace hne).of_leaves (leaves_extend hw (Store.extends_putAt hplace hne _))
  visitNone _ he h := h.skip fun _ _ hin => nomatch he.symm.trans hin.effect_eq
  visitSame _ he hg _ _ h := h.skip fun _ hungated hin => by
    -- Effects of the binding react to every value.
    have hungated' := hungated _ _ hin
    rw [hin.eq_of_effect he, hg] at hungated'
    cases hungated'
  deliver hw he hp hv h :=
    (h.skip fun _ _ => notIsIn_of_placeless he hp _).of_leaves
      (leaves_deliver hw he hv (notIsIn_of_placeless he hp _))
  display {_ _ _ _ _ _ sink node _} hw he hp hv hx h := by
    by_cases hplace : b.sink = sink ∧ b.node = node
    · obtain ⟨rfl, rfl⟩ := hplace
      exact h.display hw he hp hv hx
    · exact (h.skip fun _ _ hin => hplace (hin.eq_of_place he hp)).of_leaves
        (leaves_display hw he hp hv hx hplace)

/-- After every run, the place of a binding without a gate displays what it should, if the binding
is ready. -/
theorem Scene.displays_of_ungated {b : Binding} {s : Moment} (hplain : b.sink.IsPlain)
    (hneeds : b.needs ≠ []) {depth : Nat} {source : String} {steps : List Step} {w : SceneWorld}
    (hw : w = Scene.after depth (Scene.start source) steps) (hh : b.Holds s w)
    (hungated : b.Ungated s w) (hready : b.Ready s w) :
    ∃ x, b.shows w.store = .ok x ∧ w.Displays b.sink b.node x := by
  -- At the beginning there is no effect in the place, and at the end nothing is pending.
  have hend : b.Current s (fun _ => False) (fun _ => False) w := hw ▸
    Scene.carried_after (carried_current hplain s) depth source steps
      fun _ _ _ _ hin => (Scene.notIsIn_start hin).elim
  obtain ⟨p, hp⟩ := List.exists_mem_of_ne_nil _ hneeds
  obtain ⟨e, effect, _, hin, -⟩ := hready p hp
  obtain ⟨x, hstands, hcurrent⟩ := hend hh hungated e effect hin
  rcases hcurrent hready with hx | ⟨_, _, hP, -⟩ | hD
  · exact ⟨x, hx, hstands.displays⟩
  · exact hP.elim
  · exact hD.elim

end LiveBinding
