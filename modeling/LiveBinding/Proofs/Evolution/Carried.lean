import LiveBinding.Proofs.Evolution.Moments
import LiveBinding.Proofs.Refinement.Assign

/-!
# What an execution carries to its end

While a pass runs, some effects are still to be updated, and while the listeners of an input hear of
a typed text, the text is still to be written back. A property of such worlds is stated with the set
of the pending effects and the set of the texts that are still to be written back to one path, the
target. Whatever goes on, it takes from the two sets what it deals with.

`Carried` says what has to be shown of such a property: one field for each kind of step. Then every
evolution carries it to its end.

## Key definitions

- `Activity.Pending`, `Activity.Typed`: what an activity still has to do
- `World.Reframes`: moves that leave effects, documents and values alone
- `Carried`: the steps that a property has to survive

## Key results

- `Evolves.carried`: the property holds at the end of every evolution
-/

namespace LiveBinding

variable {σ : Type}

open World

/-- What an assignment to a path changes. -/
def Store.placeOf (s : Store) (path : KeyPath) (root : MappingId) : Except Fault Place :=
  s.placeBehind path path.last (.mapping root) path.parents

theorem Store.placeOf_eq {s : Store} {path : KeyPath} {root : MappingId} {cells : List CellId}
    {container : Value} {place : Place}
    (hwalk : s.walk path (.mapping root) path.parents = (cells, .ok container))
    (hplace : s.place path container path.last = .ok place) : s.placeOf path root = .ok place := by
  rw [placeOf, placeBehind, hwalk]
  exact hplace

/-- An assignment to a path that leads through cells changes the last of them. -/
theorem Store.Leads.placeOf_eq {s : Store} {path : KeyPath} {root : MappingId} {cells : List CellId}
    {v : Value} (h : s.Leads (.mapping root) path.segments cells v) :
    ∃ c ∈ cells, s.placeOf path root = .ok (.cell c) ∧ v = s.value c := by
  rw [path.segments_eq] at h
  exact h.placeBehind_eq

/-- A new key or a new item only adds to the store. -/
theorem Store.extends_putAt {s : Store} {path : KeyPath} {root : MappingId} {place : Place}
    (hplace : s.placeOf path root = .ok place) (hne : ∀ c, place ≠ .cell c) (v : Value) :
    s.Extends (s.putAt place v) := by
  cases place with
  | cell c => exact absurd rfl (hne c)
  | newKey m key => exact extends_define (vacant_of_placeBehind hplace) v
  | newItem q => exact extends_append s q v

/-! ### What is still to be done -/

/-- The effects that are still to be updated. -/
def Activity.Pending : Activity σ → EffectId → Prop
  | .visiting es, e => e ∈ es
  | _, _ => False

/-- The texts that are still to be written back to the target. -/
def Activity.Typed (target : Option (KeyPath × MappingId)) (w : World σ) :
    Activity σ → String → Prop
  | .hearing _ s ls, t => t = s ∧ ∃ p ∈ target, .writeBack p.1 p.2 ∈ ls
  | .assigning path root v, t => v = .text t ∧ (path, root) ∈ target
  | .setting c v, t => v = .text t ∧ ∃ p ∈ target, w.store.placeOf p.1 p.2 = .ok (.cell c)
  | _, _ => False

/-! ### Moves that begin or end something -/

/-- A move that leaves effects, documents and values alone, and registers nobody. -/
structure World.Reframes (w w' : World σ) : Prop where
  move : Move w w'
  effects_eq : w'.effects = w.effects
  documents_eq : w'.documents = w.documents
  sameData : w.store.SameData w'.store
  mem_watchers : ∀ c e, e ∈ w'.store.watchers c → e ∈ w.store.watchers c
  moments_eq : w'.moments = w.moments
  changes_eq : w'.changes = w.changes

namespace World

theorem reframes_suspend (w : World σ) : w.Reframes w.suspend :=
  ⟨.suspend w, rfl, rfl, .refl _, fun _ _ h => h, rfl, rfl⟩

theorem reframes_resume (w : World σ) : w.Reframes w.resume :=
  ⟨.resume w, rfl, rfl, .refl _, fun _ _ h => h, rfl, rfl⟩

theorem reframes_enterMethod {w : World σ} {vm : ViewModelId}
    (hvm : w.isViewModelAlive vm = true) : w.Reframes (w.enterMethod vm) :=
  ⟨.enterMethod hvm, rfl, rfl, .refl _, fun _ _ h => h, rfl, rfl⟩

theorem reframes_leaveMethod (w : World σ) : w.Reframes w.leaveMethod :=
  ⟨.leaveMethod w, rfl, rfl, .refl _, fun _ _ h => h, rfl, rfl⟩

theorem reframes_hold {w : World σ} {e : EffectId} (he : w.isAlive e = true) :
    w.Reframes (w.hold e) :=
  ⟨.hold he, rfl, rfl, .refl _, fun _ _ h => h, rfl, rfl⟩

theorem reframes_startPass (w : World σ) (c : CellId) : w.Reframes (w.startPass c) :=
  ⟨.startPass w c, rfl, rfl, Store.sameData_prune _ _ _, fun _ _ => Store.mem_watchers_of_prune,
    rfl, rfl⟩

theorem reframes_endPass (w : World σ) : w.Reframes w.endPass :=
  ⟨.endPass w, rfl, rfl, .refl _, fun _ _ h => h, rfl, rfl⟩

end World

/-! ### The steps of a property -/

/-- A property of worlds, of the effects that are pending and of the texts that are still to be
written back to a target survives every step. -/
structure Carried (target : Option (KeyPath × MappingId))
    (I : (EffectId → Prop) → (String → Prop) → World σ → Prop) : Prop where
  mono : ∀ {P P' : EffectId → Prop} {D D' : String → Prop} {w : World σ}, I P D w →
    (∀ e, P e → P' e) → (∀ t, D t → D' t) → I P' D' w
  change : ∀ {P : EffectId → Prop} {D : String → Prop} {w w' : World σ}, w.Steady →
    Change w w' → I P D w → I P D w'
  reframe : ∀ {P : EffectId → Prop} {D : String → Prop} {w w' : World σ}, w.Steady →
    w.Reframes w' → I P D w → I P D w'
  /-- A pass that a fault has ended is counted. -/
  abortPass : ∀ {P : EffectId → Prop} {D : String → Prop} {w : World σ}, w.Steady →
    I P D w.abortPass
  /-- A fault has ended a dispatch, and it is left open what was written back. -/
  abortDispatch : ∀ {P : EffectId → Prop} {D D' : String → Prop} {w : World σ}, w.Steady →
    I P D w → I P D' w.abortDispatch
  type : ∀ {P : EffectId → Prop} {D : String → Prop} {w : World σ} (node : NodeRef) (s : String),
    w.Steady → I P D w →
      I P (fun t => (Activity.hearing node s (((w.writeSink .input node s).document
        node.document).listenersFor node.node "input")).Typed target (w.writeSink .input node s) t ∨
          D t) (w.writeSink .input node s)
  setSame : ∀ {P : EffectId → Prop} {D : String → Prop} {w : World σ} {c : CellId} {v : Value},
    w.Steady → (w.store.value c).same v = true →
      I P (fun t => (Activity.setting c v).Typed target w t ∨ D t) w → I P D w
  setNew : ∀ {P : EffectId → Prop} {D : String → Prop} {w : World σ} {c : CellId} {v : Value},
    w.Steady → (w.store.value c).same v = false →
      I P (fun t => (Activity.setting c v).Typed target w t ∨ D t) w →
        I (fun e => e ∈ w.liveWatchers c ∨ P e) D ((w.assign c v).startPass c)
  /-- A new key or a new item notifies nobody. -/
  add : ∀ {P : EffectId → Prop} {D : String → Prop} {w : World σ} {path : KeyPath}
    {root : MappingId} {v : Value} {place : Place}, w.Steady →
      w.store.placeOf path root = .ok place → (∀ c, place ≠ .cell c) →
        I P (fun t => (Activity.assigning path root v).Typed target w t ∨ D t) w →
          I P D (w.turn (w.store.putAt place v))
  visitNone : ∀ {P : EffectId → Prop} {D : String → Prop} {w : World σ} {e : EffectId},
    w.Steady → w.effects[e]? = none → I (fun e' => e' = e ∨ P e') D w → I P D w
  visitSame : ∀ {P : EffectId → Prop} {D : String → Prop} {w : World σ} {e : EffectId}
    {effect : Effect σ} {v : Value}, w.Steady → w.effects[e]? = some effect →
      effect.gated = true → w.store.get effect.path effect.root = .ok v →
        v.same effect.last = true → I (fun e' => e' = e ∨ P e') D w → I P D w
  deliver : ∀ {P : EffectId → Prop} {D : String → Prop} {w : World σ} {e : EffectId}
    {effect : Effect σ} {v : Value}, w.Steady → w.effects[e]? = some effect →
      effect.place? = none → w.Receives e effect v → I (fun e' => e' = e ∨ P e') D w →
        I P D (w.deliver e v)
  display : ∀ {P : EffectId → Prop} {D : String → Prop} {w : World σ} {e : EffectId}
    {effect : Effect σ} {v : Value} {sink : Sink} {node : NodeRef} {s : String}, w.Steady →
      w.effects[e]? = some effect → effect.place? = some (sink, node) → w.Receives e effect v →
        effect.shown w.store = .ok s → I (fun e' => e' = e ∨ P e') D w →
          I P D ((w.deliver e v).writeSink sink node s)

namespace Carried

variable {target : Option (KeyPath × MappingId)}
  {I : (EffectId → Prop) → (String → Prop) → World σ → Prop} {P : EffectId → Prop}
  {D : String → Prop} {w : World σ}

theorem none (hI : Carried target I) (h : I P D w) :
    I (fun e => False ∨ P e) (fun t => False ∨ D t) w :=
  hI.mono h (fun _ => .inr) fun _ => .inr

theorem of_none (hI : Carried target I) (h : I (fun e => False ∨ P e) (fun t => False ∨ D t) w) :
    I P D w :=
  hI.mono h (fun _ he => he.resolve_left id) fun _ ht => ht.resolve_left id

/-- The first of the effects that a pass visits. -/
theorem of_visiting (hI : Carried target I) {e : EffectId} {es : List EffectId}
    (h : I (fun e' => e' ∈ e :: es ∨ P e') (fun t => False ∨ D t) w) :
    I (fun e' => e' = e ∨ e' ∈ es ∨ P e') D w :=
  hI.mono h (fun e' he => by rwa [List.mem_cons, or_assoc] at he) fun _ ht => ht.resolve_left id

/-- The effects that a pass has still to visit. -/
theorem visiting (hI : Carried target I) {es : List EffectId}
    (h : I (fun e' => e' ∈ es ∨ P e') D w) :
    I (fun e' => (Activity.visiting es : Activity σ).Pending e' ∨ P e')
      (fun t => (Activity.visiting es).Typed target w t ∨ D t) w :=
  hI.mono h (fun _ => id) fun _ => .inr

/-- A listener that does not write back leaves everything to the others. -/
theorem of_hearing (hI : Carried target I) {node : NodeRef} {s : String} {l : Listener σ}
    {ls : List (Listener σ)} (hl : ∀ path root, l ≠ .writeBack path root)
    (h : I (fun e => False ∨ P e)
      (fun t => (Activity.hearing node s (l :: ls)).Typed target w t ∨ D t) w) :
    I P (fun t => (Activity.hearing node s ls).Typed target w t ∨ D t) w := by
  refine hI.mono h (fun _ he => he.resolve_left id) fun t ht => ht.imp_left ?_
  rintro ⟨rfl, p, hp, hmem⟩
  exact ⟨rfl, p, hp, (List.mem_cons.1 hmem).resolve_left fun h => hl p.1 p.2 h.symm⟩

/-- A listener that writes back deals with the text, or leaves it to the others. -/
theorem of_writeBack (hI : Carried target I) {node : NodeRef} {s : String} {path : KeyPath}
    {root : MappingId} {ls : List (Listener σ)}
    (h : I (fun e => False ∨ P e)
      (fun t => (Activity.hearing node s (.writeBack path root :: ls)).Typed target w t ∨ D t) w) :
    I (fun e => False ∨ P e)
      (fun t => (Activity.assigning path root (.text s)).Typed target w t ∨
        (Activity.hearing node s ls).Typed target w t ∨ D t) w := by
  refine hI.mono h (fun _ => id) fun t ht => ?_
  rcases ht with ⟨rfl, p, hp, hmem⟩ | ht
  · rcases List.mem_cons.1 hmem with heq | hmem
    · obtain ⟨rfl, rfl⟩ := Listener.writeBack.inj heq
      exact .inl ⟨rfl, hp⟩
    · exact .inr (.inl ⟨rfl, p, hp, hmem⟩)
  · exact .inr (.inr ht)

/-- A text that is assigned to a path is given to the cell at its end. -/
theorem of_assigning (hI : Carried target I) {path : KeyPath} {root : MappingId} {v : Value}
    {c : CellId} (hplace : w.store.placeOf path root = .ok (.cell c))
    (h : I (fun e => False ∨ P e)
      (fun t => (Activity.assigning path root v : Activity σ).Typed target w t ∨ D t) w) :
    I (fun e => False ∨ P e)
      (fun t => (Activity.setting c v : Activity σ).Typed target w t ∨ D t) w := by
  refine hI.mono h (fun _ => id) fun t ht => ht.imp_left ?_
  rintro ⟨hv, hp⟩
  exact ⟨hv, _, hp, hplace⟩

end Carried

/-! ### The whole execution -/

theorem World.Falters.steady {w w' : World σ} (h : w.Falters w') (hw : w.Steady) : w'.Steady := by
  cases h with
  | still => exact hw
  | deliver he hv => exact (Move.deliver w he hv).steady hw

/-- What survives every step holds at the end of an evolution, and what the evolution deals with is
done. -/
theorem Evolves.carried {target : Option (KeyPath × MappingId)}
    {I : (EffectId → Prop) → (String → Prop) → World σ → Prop} (hI : Carried target I)
    {activity : Activity σ} {w w' : World σ} (h : Evolves activity w w') (hw : w.Steady)
    {P : EffectId → Prop} {D : String → Prop}
    (hstart : I (fun e => activity.Pending e ∨ P e) (fun t => activity.Typed target w t ∨ D t) w) :
    I P D w' := by
  -- By induction on the execution. Parts that come to a good end take what they deal with from the
  -- pending effects and the texts, and user code leaves both sets as they are.
  induction h generalizing P D with
  | refl w => exact hI.of_none hstart
  | trans h h' ih ih' => exact ih' (h.steady hw) (hI.none (ih hw hstart))
  | change h => exact hI.change hw h (hI.of_none hstart)
  | @suspended w w' h ih =>
    have hbegin := w.reframes_suspend
    have hw₁ := hbegin.move.steady hw
    have hend := ih hw₁ (hI.none (hI.reframe hw hbegin (hI.of_none hstart)))
    exact hI.reframe (h.steady hw₁) w'.reframes_resume hend
  | @method w w' vm hvm h ih =>
    have hbegin := reframes_enterMethod hvm
    have hw₁ := hbegin.move.steady hw
    have hend := ih hw₁ (hI.none (hI.reframe hw hbegin (hI.of_none hstart)))
    exact hI.reframe (h.steady hw₁) w'.reframes_leaveMethod hend
  | @held w w' e he h ih =>
    have hbegin := reframes_hold he
    have hw₁ := hbegin.move.steady hw
    have hend := ih hw₁ (hI.none (hI.reframe hw hbegin (hI.of_none hstart)))
    exact hI.reframe (h.steady hw₁) w'.reframes_endPass hend
  | set _ ih => exact ih hw (hI.mono (hI.of_none hstart) (fun _ => .inr) fun _ => .inr)
  | assigned _ ih => exact ih hw (hI.mono (hI.of_none hstart) (fun _ => .inr) fun _ => .inr)
  | @pass w w' c h ih =>
    have hbegin := w.reframes_startPass c
    have hw₁ := hbegin.move.steady hw
    have hbegun : I (fun e => e ∈ w.liveWatchers c ∨ P e) D (w.startPass c) :=
      hI.mono (hI.reframe hw hbegin (hI.of_none hstart)) (fun _ => .inr) fun _ => id
    exact hI.reframe (h.steady hw₁) w'.reframes_endPass (ih hw₁ (hI.visiting hbegun))
  | @abortedPass w w₁ w' c h hend =>
    exact hI.abortPass (hend.steady (h.steady ((Move.startPass w c).steady hw)))
  | @abortedSet w w₁ w' c v hv h hend =>
    have hw₁ := (Move.startPass _ c).steady ((Move.assign w c v).steady hw)
    exact hI.abortPass (hend.steady (h.steady hw₁))
  | @typed w w' node s h ih =>
    have hw₁ := (Move.type w node s).steady hw
    exact ih hw₁ (hI.mono (hI.type node s hw (hI.of_none hstart)) (fun _ => .inr) fun _ => id)
  | @abortedTyped w w' node s h ih =>
    have hw₁ := (Move.type w node s).steady hw
    have hend := ih hw₁ (hI.none (hI.type node s hw (hI.of_none hstart)))
    exact hI.abortDispatch (h.steady hw₁) hend
  | setSame hv =>
    exact hI.setSame hw hv (hI.mono hstart (fun _ he => he.resolve_left id) fun _ => id)
  | @setNew w w' c v hv h ih =>
    have hw₁ := (Move.startPass _ c).steady ((Move.assign w c v).steady hw)
    have hchanged := hI.setNew hw hv (hI.mono hstart (fun _ he => he.resolve_left id) fun _ => id)
    exact hI.reframe (h.steady hw₁) w'.reframes_endPass (ih hw₁ (hI.visiting hchanged))
  | assign hwalk hplace h ih =>
    rw [hw.sound.registerReads_eq] at ih
    exact ih hw (hI.of_assigning (Store.placeOf_eq hwalk hplace) hstart)
  | assignKey hwalk hplace =>
    rw [hw.sound.registerReads_eq]
    exact hI.add hw (Store.placeOf_eq hwalk hplace) nofun
      (hI.mono hstart (fun _ he => he.resolve_left id) fun _ => id)
  | assignItem hwalk hplace =>
    rw [hw.sound.registerReads_eq]
    exact hI.add hw (Store.placeOf_eq hwalk hplace) nofun
      (hI.mono hstart (fun _ he => he.resolve_left id) fun _ => id)
  | visited w =>
    exact hI.mono hstart (fun _ he => he.resolve_left List.not_mem_nil) fun _ ht =>
      ht.resolve_left id
  | visitNone he h ih =>
    exact ih hw (hI.visiting (hI.visitNone hw he (hI.of_visiting hstart)))
  | visitSame he hg hv hl h ih =>
    exact ih hw (hI.visiting (hI.visitSame hw he hg hv hl (hI.of_visiting hstart)))
  | @visitRun w w₁ w' e es effect v he hp hv h₁ h ih₁ ih =>
    have hw₁ := (Move.deliver w he hv).steady hw
    have hran := ih₁ hw₁ (hI.none (hI.deliver hw he hp hv (hI.of_visiting hstart)))
    exact ih (h₁.steady hw₁) (hI.visiting hran)
  | visitShow he hp hv hs h ih =>
    have hw₁ := (Move.change (.display _ he hp hv hs)).steady hw
    exact ih hw₁ (hI.visiting (hI.display hw he hp hv hs (hI.of_visiting hstart)))
  | heard w node s =>
    refine hI.mono hstart (fun _ he => he.resolve_left id) fun t ht => ht.resolve_left ?_
    rintro ⟨-, p, -, hmem⟩
    cases hmem
  | hear hl h₁ h ih₁ ih =>
    have hran := ih₁ hw (hI.none (hI.of_hearing hl hstart))
    exact ih (h₁.steady hw) (hI.mono hran (fun _ => .inr) fun _ => id)
  | writeBack h₁ h ih₁ ih =>
    have hran := ih₁ hw (hI.of_writeBack hstart)
    exact ih (h₁.steady hw) (hI.mono hran (fun _ => .inr) fun _ => id)

end LiveBinding
