import LiveBinding.Proofs.Act.Follows
import LiveBinding.Proofs.Act.InTurn
import LiveBinding.Proofs.Evolution.Construct
import LiveBinding.Reactive.Dispatch
import LiveBinding.ViewModel

/-!
# The engine evolves worlds

Reading, writing, notifying and dispatching evolve the world, provided that user code does. For
each operation there is an equation that says what it does to a world, and a theorem that says
how this is an evolution.

## Key results

- `runOn_update`, `runOn_notify`, `runOn_setCell`: the equations
- `evolves_visiting`: the updates of a pass that succeed
- `follows_setCell`, `follows_write`, `follows_dispatch`, `follows_typeInto`: the operations
-/

namespace LiveBinding

variable {σ : Type}

instance : IsPreorder (World σ) (Evolves .free) where
  refl := .refl
  trans _ _ _ := .trans

/-- User code evolves the world, if the view model on which it runs as a method is in use. -/
def Call.Evolves (call : Call σ) : Prop :=
  ∀ code env w, (∀ vm, env.receiver = some vm → vm ∈ w.receivers) →
    LiveBinding.Evolves .free w ((call code env).runOn w).2

namespace Act

open World

/-! ### Reading -/

/-- Reading with collection suspended is looking up the value. -/
theorem runOn_read_suspended (path : KeyPath) (root : MappingId) (w : World σ) :
    (collecting none (read path root)).runOn w = (w.store.get path root, w) := by
  rw [runOn_collecting, read, runOn_readAlong]
  rfl

theorem follows_readAlong (path : KeyPath) (root : MappingId) (segments : List String) :
    Follows (Evolves (σ := σ) .free) (readAlong path root segments) := by
  intro w
  rw [runOn_readAlong]
  exact .change (.read w _)

theorem follows_readCell (c : CellId) : Follows (Evolves (σ := σ) .free) (readCell c) :=
  follows_bind (follows_modify fun w => .change (.read w [c])) fun _ =>
    follows_bind_get fun _ => .refl _

theorem follows_readKey (m : MappingId) (key : String) :
    Follows (Evolves (σ := σ) .free) (readKey m key) := by
  refine follows_bind follows_get fun w => ?_
  split
  · exact follows_map (follows_readCell _) _
  · exact follows_pure _

theorem follows_readItem (q : SequenceId) (index : Nat) :
    Follows (Evolves (σ := σ) .free) (readItem q index) := by
  refine follows_bind follows_get fun w => ?_
  split
  · exact follows_map (follows_readCell _) _
  · exact follows_pure _

/-! ### Updating -/

variable {call : Call σ}

/-- An effect that runs user code reacts by running it. -/
theorem runOn_react_of_place?_eq_none (call : Call σ) {effect : Effect σ}
    (h : effect.place? = none) (v : Value) (w : World σ) :
    ∃ code, effect.reaction = .run code ∧
      (react call effect v).runOn w = (call code ⟨v, none⟩).runOn w := by
  cases hr : effect.reaction with
  | run code => exact ⟨code, rfl, by rw [react, hr]⟩
  | display sink node => simp [Effect.place?, hr] at h
  | render template node => simp [Effect.place?, hr] at h

/-- An effect with a place reacts by showing there what it should. -/
theorem runOn_react_of_place?_eq_some {effect : Effect σ} {sink : Sink} {node : NodeRef}
    (h : effect.place? = some (sink, node)) {v : Value} {w : World σ}
    (hv : w.store.get effect.path effect.root = .ok v) :
    (react call effect v).runOn w =
      match effect.shown w.store with
      | .ok s => (.ok ⟨⟩, w.writeSink sink node s)
      | .error f => (.error f, w) := by
  cases hr : effect.reaction with
  | run code => simp [Effect.place?, hr] at h
  | display sink' node' =>
    obtain ⟨rfl, rfl⟩ : sink' = sink ∧ node' = node := by simpa [Effect.place?, hr] using h
    -- The value that was read is the one that the effect shows.
    have hshown : effect.shown w.store = .ok (w.store.display v) := by
      simp [Effect.shown, hr, hv, Except.map]
    rw [hshown, react, hr]
    rfl
  | render template node' =>
    obtain ⟨rfl, rfl⟩ : Sink.text = sink ∧ node' = node := by simpa [Effect.place?, hr] using h
    have hshown : effect.shown w.store =
        Interpolation.render (fun p => (w.store.get p effect.root).map w.store.display)
          template.segments := by
      simp [Effect.shown, hr]
    rw [hshown, react, hr]
    simp only [runOn_bind, runOn_get, runOn_ofExcept]
    cases Interpolation.render (fun p => (w.store.get p effect.root).map w.store.display)
      template.segments <;> rfl

theorem runOn_update (e : EffectId) (w : World σ) :
    (update call e).runOn w =
      match w.effects[e]? with
      | none => (.ok ⟨⟩, w)
      | some effect =>
        match w.store.get effect.path effect.root with
        | .error f => (.error f, w)
        | .ok v =>
          if effect.gated && v.same effect.last then (.ok ⟨⟩, w)
          else (react call effect v).runOn (w.deliver e v) := by
  rw [update, runOn_bind, runOn_get]
  dsimp only
  cases w.effects[e]? with
  | none => rfl
  | some effect =>
    dsimp only
    rw [runOn_bind, runOn_read_suspended]
    cases w.store.get effect.path effect.root with
    | error f => rfl
    | ok v =>
      dsimp only
      split <;> rfl

/-- The update of an effect that is alive is an evolution, unless it ends with a value that cannot
be shown. -/
theorem evolves_update (hcall : call.Evolves) {e : EffectId} {w : World σ}
    (halive : w.isAlive e = true) :
    Evolves .free w ((update call e).runOn w).2 ∨
      (∃ f, ((update call e).runOn w).1 = .error f) ∧ ∃ effect v,
        w.effects[e]? = some effect ∧ w.Receives e effect v ∧
          ((update call e).runOn w).2 = w.deliver e v := by
  rw [runOn_update]
  split
  · exact .inl (.refl w)
  · rename_i effect he
    split
    · exact .inl (.refl w)
    · rename_i v hget
      split
      · exact .inl (.refl w)
      · rename_i hgate
        have hv : w.Receives e effect v := ⟨halive, hget, by simpa using hgate⟩
        cases hp : effect.place? with
        | none =>
          obtain ⟨code, -, hreact⟩ := runOn_react_of_place?_eq_none call hp v (w.deliver e v)
          rw [hreact]
          exact .inl ((Evolves.change (.deliver w he (.inl hp) hv)).trans
            (hcall code _ _ fun _ h => by cases h))
        | some place =>
          obtain ⟨sink, node⟩ := place
          rw [runOn_react_of_place?_eq_some hp (w := w.deliver e v) hget]
          -- The value is delivered first, so that it counts even if it cannot be shown.
          cases hs : effect.shown (w.deliver e v).store with
          | error f => exact .inr ⟨⟨f, rfl⟩, effect, v, he, hv, rfl⟩
          | ok s => exact .inl (.change (.display w he hp hv hs))

/-- An update of an effect that has a name is an evolution, in which the effect stays alive. -/
theorem evolves_holding_update (hcall : call.Evolves) {w : World σ} {f : String × EffectId}
    (hf : f ∈ w.names.effects) :
    Evolves .free w ((holding [f.2] (update call f.2)).runOn w).2 := by
  have hupdate : Evolves .free (w.hold f.2) ((update call f.2).runOn (w.hold f.2)).2 := by
    rcases evolves_update (w := w.hold f.2) hcall (isAlive_iff.2 (.inl ⟨f, hf, rfl⟩)) with
      h | ⟨-, effect, v, he, hv, hend⟩
    · exact h
    · rw [hend]
      exact .change (.deliver _ he (.inr ⟨f, hf, rfl⟩) hv)
  exact .held (isAlive_iff.2 (.inl ⟨f, hf, rfl⟩)) hupdate

/-- Updates up to a fault, of effects that a running pass visits. -/
theorem evolves_updates (hcall : call.Evolves) {es visited : List EffectId} {w w' : World σ}
    {f : Fault} (hvisited : visited ∈ w.passes) (hes : es ⊆ visited)
    (h : (es.forM (update call)).runOn w = (.error f, w')) :
    ∃ w₁, Evolves .free w w₁ ∧ w₁.Falters w' := by
  induction es generalizing w with
  | nil => cases h
  | cons e es ih =>
    rw [runOn_forM_cons] at h
    obtain ⟨he, hes⟩ := List.cons_subset.1 hes
    have hfirst := evolves_update hcall (isAlive_of_mem_passes hvisited he)
    rcases hu : (update call e).runOn w with ⟨_ | ⟨⟨⟩⟩, w₁⟩
    · rw [hu] at h hfirst
      obtain ⟨-, rfl⟩ := Prod.mk.inj h
      rcases hfirst with hfirst | ⟨-, effect, v, he, hv, rfl⟩
      · exact ⟨w₁, hfirst, .still w₁⟩
      · exact ⟨w, .refl w, .deliver w he hv⟩
    · rw [hu] at h hfirst
      rcases hfirst with hfirst | ⟨⟨f, hf⟩, -⟩
      · obtain ⟨w₂, hrest, hend⟩ := ih (hfirst.sameFrames.passes_eq ▸ hvisited) hes h
        exact ⟨w₂, hfirst.trans hrest, hend⟩
      · cases hf

/-- An update that succeeds is a visit of a pass. -/
theorem evolves_visiting_cons (hcall : call.Evolves) {e : EffectId} {es : List EffectId}
    {w w₁ w' : World σ} (halive : w.isAlive e = true)
    (hu : (update call e).runOn w = (.ok ⟨⟩, w₁)) (h : Evolves (.visiting es) w₁ w') :
    Evolves (.visiting (e :: es)) w w' := by
  rw [runOn_update] at hu
  split at hu
  · rename_i he
    obtain ⟨-, rfl⟩ := Prod.mk.inj hu
    exact .visitNone he h
  · rename_i effect he
    split at hu
    · cases hu
    · rename_i v hget
      -- The three kinds of visits: a gate that stays shut, user code, and a place.
      split at hu
      · rename_i hsame
        obtain ⟨-, rfl⟩ := Prod.mk.inj hu
        obtain ⟨hg, hl⟩ := Bool.and_eq_true_iff.1 hsame
        exact .visitSame he hg hget hl h
      · rename_i hgate
        have hv : w.Receives e effect v := ⟨halive, hget, by simpa using hgate⟩
        cases hp : effect.place? with
        | none =>
          obtain ⟨code, -, hreact⟩ :=
            runOn_react_of_place?_eq_none call hp v (w.deliver e v)
          rw [hreact] at hu
          have h₁ := hcall code ⟨v, none⟩ (w.deliver e v) fun _ h => by cases h
          rw [hu] at h₁
          exact .visitRun he hp hv h₁ h
        | some place =>
          obtain ⟨sink, node⟩ := place
          rw [runOn_react_of_place?_eq_some hp (w := w.deliver e v) hget] at hu
          cases hs : effect.shown (w.deliver e v).store with
          | error f =>
            rw [hs] at hu
            cases hu
          | ok s =>
            rw [hs] at hu
            obtain ⟨-, rfl⟩ := Prod.mk.inj hu
            exact .visitShow he hp hv hs h

/-- Updates of a running pass that all succeed are its visits. -/
theorem evolves_visiting (hcall : call.Evolves) {es visited : List EffectId} {w w' : World σ}
    (hvisited : visited ∈ w.passes) (hes : es ⊆ visited)
    (h : (es.forM (update call)).runOn w = (.ok ⟨⟩, w')) : Evolves (.visiting es) w w' := by
  have hturn := inTurn_iff.1 h
  clear h
  induction hturn with
  | nil w => exact .visited w
  | cons hu _ ih =>
    obtain ⟨he, hes⟩ := List.cons_subset.1 hes
    have halive := isAlive_of_mem_passes hvisited he
    have hfirst := evolves_update hcall halive
    rw [hu] at hfirst
    -- An update that has succeeded does not falter.
    rcases hfirst with hfirst | ⟨⟨f, hf⟩, -⟩
    · exact evolves_visiting_cons hcall halive hu
        (ih (hfirst.sameFrames.passes_eq ▸ hvisited) hes)
    · cases hf

/-! ### Notifying -/

/-- A pass ends with the act that it brackets; a fault of the act is recorded. -/
theorem runOn_passing (visited : List EffectId) (act : Act σ Unit) (w : World σ) :
    (passing visited act).runOn w =
      match act.runOn { w with passes := visited :: w.passes } with
      | (.ok a, w') => (.ok a, w'.endPass)
      | (.error f, w') => (.error f, w'.abortPass) := by
  rw [passing, holding, runOn_within, runOn_onFault]
  rcases act.runOn { w with passes := visited :: w.passes } with ⟨_ | _, _⟩ <;> rfl

theorem runOn_notify (c : CellId) (w : World σ) :
    (notify call c).runOn w =
      match ((w.liveWatchers c).forM (update call)).runOn (w.startPass c) with
      | (.ok a, w') => (.ok a, w'.endPass)
      | (.error f, w') => (.error f, w'.abortPass) := by
  rw [notify, runOn_bind, runOn_get]
  dsimp only
  rw [runOn_bind, runOn_modify]
  exact runOn_passing _ _ _

theorem follows_notify (hcall : call.Evolves) (c : CellId) :
    Follows (Evolves .free) (notify call c) := by
  intro w
  rw [runOn_notify]
  split
  · rename_i a w' h
    exact .pass (evolves_visiting hcall (List.mem_cons_self ..) (List.Subset.refl _) h)
  · rename_i f w' h
    obtain ⟨w₁, hfree, hend⟩ :=
      evolves_updates hcall (List.mem_cons_self ..) (List.Subset.refl _) h
    exact .abortedPass hfree hend

theorem runOn_setCell (c : CellId) (v : Value) (w : World σ) :
    (setCell call c v).runOn w =
      if (w.store.value c).same v then (.ok false, w)
      else
        match (notify call c).runOn (w.assign c v) with
        | (.ok _, w') => (.ok true, w')
        | (.error f, w') => (.error f, w') := by
  rw [setCell, runOn_bind, runOn_get]
  dsimp only
  split
  · rfl
  · rw [runOn_bind, runOn_modify]
    dsimp only
    -- The value is stored before anybody is notified.
    have hassign : w.turn (w.store.assign c v) = w.assign c v := rfl
    rw [runOn_bind, hassign]
    rcases (notify call c).runOn (w.assign c v) with ⟨_ | _, _⟩ <;> rfl

/-- What a cell leaves does not depend on whether its pass faults. -/
theorem runOn_setCell_snd (c : CellId) (v : Value) (w : World σ) :
    ((setCell call c v).runOn w).2 =
      if (w.store.value c).same v then w else ((notify call c).runOn (w.assign c v)).2 := by
  rw [runOn_setCell]
  split
  · rfl
  · rcases (notify call c).runOn (w.assign c v) with ⟨_ | _, _⟩ <;> rfl

theorem runOn_put_cell (c : CellId) (v : Value) (w : World σ) :
    (put call (.cell c) v).runOn w =
      (((setCell call c v).runOn w).1.map (Function.const Bool ()),
        ((setCell call c v).runOn w).2) :=
  runOn_map ..

/-- Assigning a value does not change who is alive. -/
theorem liveWatchers_assign (w : World σ) (c c' : CellId) (v : Value) :
    (w.assign c v).liveWatchers c' = w.liveWatchers c' := by
  rw [liveWatchers, assign, store_turn, Store.watchers_assign]
  rfl

/-- A pass that begins after an assignment visits those that watched before it. -/
theorem mem_passes_of_assign (w : World σ) (c : CellId) (v : Value) :
    w.liveWatchers c ∈ ((w.assign c v).startPass c).passes := by
  rw [startPass, liveWatchers_assign]
  exact List.mem_cons_self ..

/-- Setting a cell without a fault: its watchers are updated unless nothing changes. -/
theorem evolves_setting (hcall : call.Evolves) {c : CellId} {v : Value} {b : Bool}
    {w w' : World σ} (h : (setCell call c v).runOn w = (.ok b, w')) :
    Evolves (.setting c v) w w' := by
  rw [runOn_setCell] at h
  split at h
  · rename_i hv
    obtain ⟨-, rfl⟩ := Prod.mk.inj h
    exact .setSame hv
  · rename_i hv
    rw [Bool.not_eq_true] at hv
    rw [runOn_notify, liveWatchers_assign] at h
    -- The pass has come to its end, because the write has.
    rcases hpass : ((w.liveWatchers c).forM (update call)).runOn
      ((w.assign c v).startPass c) with ⟨_ | ⟨⟨⟩⟩, w₁⟩
    · rw [hpass] at h
      cases h
    · rw [hpass] at h
      obtain ⟨-, rfl⟩ := Prod.mk.inj h
      exact .setNew hv (evolves_visiting hcall (mem_passes_of_assign w c v) (List.Subset.refl _)
        hpass)

theorem follows_setCell (hcall : call.Evolves) (c : CellId) (v : Value) :
    Follows (Evolves .free) (setCell call c v) := by
  intro w
  rcases h : (setCell call c v).runOn w with ⟨f | b, w'⟩
  · rw [runOn_setCell] at h
    split at h
    · cases h
    -- A write can only fault by its pass.
    · rename_i hv
      rw [Bool.not_eq_true] at hv
      rw [runOn_notify, liveWatchers_assign] at h
      rcases hpass : ((w.liveWatchers c).forM (update call)).runOn
        ((w.assign c v).startPass c) with ⟨_ | ⟨⟨⟩⟩, w₁⟩
      · rw [hpass] at h
        obtain ⟨-, rfl⟩ := Prod.mk.inj h
        obtain ⟨w₂, hfree, hend⟩ :=
          evolves_updates hcall (mem_passes_of_assign w c v) (List.Subset.refl _) hpass
        exact .abortedSet hv hfree hend
      · rw [hpass] at h
        cases h
  · exact .set (evolves_setting hcall h)

/-! ### Writing -/

theorem evolves_put (hcall : call.Evolves) (place : Place) {w : World σ}
    (hvacant : w.store.Vacant place) (v : Value) :
    Evolves .free w ((put call place v).runOn w).2 := by
  cases place with
  | cell c => exact follows_map (follows_setCell hcall c v) _ w
  | newKey m key => exact .change (.extend w (Store.extends_define hvacant v))
  | newItem q => exact .change (.extend w (Store.extends_append w.store q v))

theorem follows_push (hcall : call.Evolves) (q : SequenceId) (v : Value) :
    Follows (Evolves .free) (put call (.newItem q) v) :=
  fun w => evolves_put (w := w) hcall (.newItem q) trivial v

/-- Assigning to a path: its parents are read, and what the last segment names is written. -/
theorem runOn_write (path : KeyPath) (root : MappingId) (v : Value) (w : World σ) :
    (write call path root v).runOn w =
      match (w.store.walk path (.mapping root) path.parents).2 with
      | .error f => (.error f, w.registerReads (w.store.walk path (.mapping root) path.parents).1)
      | .ok container =>
        match w.store.place path container path.last with
        | .error f => (.error f, w.registerReads (w.store.walk path (.mapping root) path.parents).1)
        | .ok place =>
          (put call place v).runOn
            (w.registerReads (w.store.walk path (.mapping root) path.parents).1) := by
  -- Registering the reads of the parents leaves the place of the assignment as it is.
  obtain ⟨s, hs, hd⟩ := w.registerReads_eq (w.store.walk path (.mapping root) path.parents).1
  rw [write, runOn_bind, runOn_readAlong]
  cases (w.store.walk path (.mapping root) path.parents).2 with
  | error f => rfl
  | ok container =>
    dsimp only
    rw [runOn_bind, runOn_get]
    dsimp only
    rw [runOn_bind, runOn_ofExcept, hs, hd.place_eq]
    cases w.store.place path container path.last <;> rfl

/-- Assigning to a path without a fault. -/
theorem evolves_assigning (hcall : call.Evolves) {path : KeyPath} {root : MappingId} {v : Value}
    {w w' : World σ} (h : (write call path root v).runOn w = (.ok ⟨⟩, w')) :
    Evolves (.assigning path root v) w w' := by
  rw [runOn_write] at h
  rcases hwalk : w.store.walk path (.mapping root) path.parents with ⟨cells, f | container⟩
  · rw [hwalk] at h
    cases h
  · rw [hwalk] at h
    dsimp only at h
    cases hplace : w.store.place path container path.last with
    | error f =>
      rw [hplace] at h
      cases h
    | ok place =>
      rw [hplace] at h
      dsimp only at h
      -- Only an assignment to a cell that exists notifies anybody.
      cases place with
      | cell c =>
        rw [runOn_put_cell] at h
        rcases hset : (setCell call c v).runOn (w.registerReads cells) with ⟨f | b, w₁⟩
        · rw [hset] at h
          cases h
        · rw [hset] at h
          obtain ⟨-, rfl⟩ := Prod.mk.inj h
          exact .assign hwalk hplace (evolves_setting hcall hset)
      | newKey m key =>
        obtain ⟨-, rfl⟩ := Prod.mk.inj h
        exact .assignKey hwalk hplace
      | newItem q =>
        obtain ⟨-, rfl⟩ := Prod.mk.inj h
        exact .assignItem hwalk hplace

theorem follows_write (hcall : call.Evolves) (path : KeyPath) (root : MappingId) (v : Value) :
    Follows (Evolves .free) (write call path root v) :=
  follows_bind (follows_readAlong path root _) fun _ => follows_bind_get fun w =>
    rel_bind (follows_ofExcept _ w) fun _ _ h => by
      obtain ⟨hplace, rfl⟩ := Prod.mk.inj h
      exact evolves_put hcall _ (Store.vacant_of_place hplace) v

theorem follows_writeKey (hcall : call.Evolves) (m : MappingId) (key : String) (v : Value) :
    Follows (Evolves .free) (writeKey call m key v) := by
  refine follows_bind_get fun w => ?_
  cases hc : w.store.cellOf? m key with
  | some c => exact follows_map (follows_setCell hcall c v) _ w
  | none => exact evolves_put hcall (.newKey m key) hc v

theorem follows_writeItem (hcall : call.Evolves) (q : SequenceId) (index : Nat) (v : Value) :
    Follows (Evolves .free) (writeItem call q index v) := by
  refine follows_bind follows_get fun w => ?_
  split
  · exact follows_bind (follows_map (follows_setCell hcall _ v) _) fun _ => follows_pure _
  · exact follows_pure _

theorem looks_checkProxied (vm : ViewModel) (key : String) :
    Looks (σ := σ) (checkProxied vm key) := by
  intro w
  unfold checkProxied
  split <;> rfl

theorem follows_getProxied (vm : ViewModel) (key : String) :
    Follows (Evolves (σ := σ) .free) (getProxied vm key) :=
  follows_bind (looks_checkProxied vm key).follows fun _ =>
    follows_bind (follows_readKey _ _) fun _ => follows_pure _

theorem follows_setProxied (hcall : call.Evolves) (vm : ViewModel) (key : String) (v : Value) :
    Follows (Evolves .free) (setProxied call vm key v) := by
  refine follows_bind (looks_checkProxied vm key).follows fun _ => ?_
  refine follows_bind follows_get fun w => ?_
  dsimp only
  split
  · exact follows_pure _
  · exact follows_writeKey hcall _ _ _

/-! ### Dispatching -/

/-- Something runs on a view model in use. -/
theorem evolves_serving {act : Act σ α} {vm : ViewModelId} {w : World σ}
    (hvm : w.isViewModelAlive vm = true)
    (h : Evolves .free (w.enterMethod vm) (act.runOn (w.enterMethod vm)).2) :
    Evolves .free w ((serving vm act).runOn w).2 :=
  .method hvm h

/-- User code runs as a method of a view model in use. -/
theorem evolves_callMethod (hcall : call.Evolves) {receiver : ViewModelId} {w : World σ}
    (hvm : w.isViewModelAlive receiver = true) (code : σ) (v : Value) :
    Evolves .free w ((callMethod call receiver code v).runOn w).2 := by
  refine evolves_serving hvm (hcall code ⟨v, some receiver⟩ (w.enterMethod receiver) ?_)
  rintro vm ⟨⟩
  exact List.mem_cons_self ..

theorem follows_fire (hcall : call.Evolves) (node : NodeRef) (event : Event)
    (l : Listener σ) : Follows (Evolves .free) (fire call node event l) := by
  cases l with
  | run code => exact fun w => hcall code _ w fun _ h => by cases h
  | writeBack path root =>
    exact follows_bind follows_get fun w => follows_write hcall path root _
  | method receiver code =>
    refine follows_bind_get fun w => ?_
    split
    · rename_i hvm
      exact evolves_callMethod hcall hvm code _
    · exact .refl w

theorem runOn_dispatch (node : NodeRef) (event : Event) (w : World σ) :
    (dispatch call node event).runOn w =
      match (((w.document node.document).listenersFor node.node event.kind).forM
        (fire call node event)).runOn w with
      | (.ok _, w') =>
        (.ok ((w.document node.document).listenersFor node.node event.kind).length, w')
      | (.error f, w') => (.error f, w'.abortDispatch) := by
  rw [dispatch, runOn_bind, runOn_get]
  dsimp only
  rw [runOn_bind, runOn_onFault]
  rcases (((w.document node.document).listenersFor node.node event.kind).forM
    (fire call node event)).runOn w with ⟨_ | _, _⟩ <;> rfl

theorem follows_dispatch (hcall : call.Evolves) (node : NodeRef) (event : Event) :
    Follows (Evolves .free) (dispatch call node event) := by
  intro w
  rw [runOn_dispatch]
  have hfree := follows_forM (follows_fire hcall node event)
    ((w.document node.document).listenersFor node.node event.kind) w
  rcases hfired : (((w.document node.document).listenersFor node.node event.kind).forM
    (fire call node event)).runOn w with ⟨_ | _, w'⟩
  · rw [hfired] at hfree
    exact hfree.trans (.change (.abortDispatch w'))
  · rwa [hfired] at hfree

/-- Listeners that all hear of a typed text without a fault. -/
theorem evolves_hearing (hcall : call.Evolves) {node : NodeRef} {s : String}
    {ls : List (Listener σ)} {w w' : World σ}
    (h : (ls.forM (fire call node (.input s))).runOn w = (.ok ⟨⟩, w')) :
    Evolves (.hearing node s ls) w w' := by
  have hturn := inTurn_iff.1 h
  clear h
  induction hturn with
  | nil w => exact .heard w node s
  | @cons l ls w w₁ _ hfired _ ih =>
    have hfree := follows_fire hcall node (.input s) l w
    rw [hfired] at hfree
    cases l with
    | writeBack path root =>
      -- The listener writes the text that the event carries.
      have hwrite : (write call path root (.text s)).runOn w = (.ok ⟨⟩, w₁) := hfired
      exact .writeBack (evolves_assigning hcall hwrite) ih
    | run code => exact .hear (fun _ _ h => by cases h) hfree ih
    | method receiver code => exact .hear (fun _ _ h => by cases h) hfree ih

theorem follows_typeInto (hcall : call.Evolves) (node : NodeRef) (s : String) :
    Follows (Evolves .free) (typeInto call node s) := by
  intro w
  rw [typeInto, runOn_bind, runOn_modify]
  dsimp only
  rw [runOn_dispatch]
  have hfree := follows_forM (follows_fire hcall node (.input s))
    (((w.writeSink .input node s).document node.document).listenersFor node.node
      (Event.input s).kind) (w.writeSink .input node s)
  rcases hfired : ((((w.writeSink .input node s).document node.document).listenersFor node.node
    (Event.input s).kind).forM (fire call node (.input s))).runOn (w.writeSink .input node s)
    with ⟨_ | ⟨⟨⟩⟩, w'⟩
  · rw [hfired] at hfree
    exact .abortedTyped hfree
  · exact .typed (evolves_hearing hcall hfired)

end Act

end LiveBinding
