import LiveBinding.Proofs.Advance.Scene
import LiveBinding.Proofs.Subscription
import LiveBinding.Reactive.Render

/-!
# Collection is balanced and covers no user code

Reads are collected in one place only: while an effect that is constructed reads its path. Whatever
is asked for, whether it faults or not, the stack of collectors is as before when it is done. When
user code starts, nothing collects, so that what it reads registers nobody.

## Key definitions

- `World.Accounted`: every registration is a read of a construction, or was made by hand

## Key results

- `Act.balanced_render`, `Act.render_congr`: rendering with lookups
- `Act.react_render`: an effect renders its template with reads as lookups
- `Scene.accounted_after`: where the registrations of a run come from
- `Scene.collection_balanced`: the stack of collectors in a run
-/

namespace LiveBinding

open Relation World

variable {σ : Type}

/-- The stack of collectors is as it was. -/
def World.Balanced (w w' : World σ) : Prop := w'.collectors = w.collectors

instance : IsPreorder (World σ) Balanced where
  refl _ := rfl
  trans _ _ _ h h' := Eq.trans h' h

namespace Act

/-! ### Reading -/

/-- Where nothing collects, reading registers nobody. -/
theorem registerReads_of_isCollecting {w : World σ} (h : w.isCollecting = false)
    (cells : List CellId) : w.registerReads cells = w := by
  unfold World.isCollecting at h
  unfold registerReads
  split
  · rename_i e _ hc
    rw [hc] at h
    cases h
  · rfl

/-- What is read where nothing collects. -/
theorem reads_of_isCollecting {w : World σ} (h : w.isCollecting = false) :
    (∀ path root segments, ((readAlong path root segments).runOn w).2 = w) ∧
      (∀ c, ((readCell c).runOn w).2 = w) ∧ (∀ m key, ((readKey m key).runOn w).2 = w) ∧
      ∀ q i, ((readItem q i).runOn w).2 = w := by
  have hcell (c : CellId) : (readCell c).runOn w = (.ok (w.store.value c), w) := by
    rw [readCell, runOn_bind, runOn_modify, registerReads_of_isCollecting h]
    rfl
  refine ⟨fun path root segments => ?_, fun c => by rw [hcell], fun m key => ?_, fun q i => ?_⟩
  · rw [runOn_readAlong]
    exact registerReads_of_isCollecting h _
  · rw [readKey, runOn_bind, runOn_get]
    dsimp only
    split
    · rw [runOn_map, hcell]
    · rfl
  · rw [readItem, runOn_bind, runOn_get]
    dsimp only
    split
    · rw [runOn_map, hcell]
    · rfl

/-- A construction registers the new effect with the cells that it reads, and nobody else. -/
theorem watchers_newEffect (path : KeyPath) (root : MappingId) (gated : Bool)
    (reaction : Reaction σ) (w : World σ) {c : CellId} (hc : c < w.store.cells.size) :
    ((newEffect path root gated reaction).runOn w).2.store.watchers c =
      w.store.watchers c ++ List.replicate ((w.store.reads path root).count c) w.effects.size := by
  rw [runOn_newEffect]
  exact Store.watchers_foldl_watch hc _ _

/-! ### Rendering -/

theorem balanced_collecting (collector : Option EffectId) {α : Type} {act : Act σ α}
    (h : Follows World.Balanced act) : Follows World.Balanced (collecting collector act) := by
  intro w
  have hact := h { w with collectors := collector :: w.collectors }
  rw [runOn_collecting, World.Balanced]
  dsimp only
  rw [hact, List.tail_cons]

theorem balanced_assemble {lookup : KeyPath → Act σ Value}
    (hlookup : ∀ p, Follows World.Balanced (lookup p)) (segments : List Segment) :
    Follows World.Balanced (assemble lookup segments) := by
  induction segments with
  | nil => exact follows_pure _
  | cons segment segments ih =>
    cases segment with
    | literal s => exact follows_bind ih fun _ => follows_pure _
    | placeholder path =>
      exact follows_bind (hlookup path) fun _ => follows_bind follows_get fun _ =>
        follows_bind ih fun _ => follows_pure _

/-- Rendering leaves the stack of collectors as it was, if every lookup does. -/
theorem balanced_render {lookup : KeyPath → Act σ Value}
    (hlookup : ∀ p, Follows World.Balanced (lookup p)) (template : Interpolation) :
    Follows World.Balanced (render lookup template) :=
  balanced_collecting none (balanced_assemble hlookup _)

theorem assemble_congr {lookup lookup' : KeyPath → Act σ Value}
    (hlookup : ∀ p, Follows World.Balanced (lookup p))
    (heq : ∀ p w, w.isCollecting = false → (lookup' p).runOn w = (lookup p).runOn w)
    (segments : List Segment) {w : World σ} (hw : w.isCollecting = false) :
    (assemble lookup' segments).runOn w = (assemble lookup segments).runOn w := by
  induction segments generalizing w with
  | nil => rfl
  | cons segment segments ih =>
    cases segment with
    | literal s => rw [assemble, assemble, runOn_bind, runOn_bind, ih hw]
    | placeholder path =>
      rw [assemble, assemble, runOn_bind, runOn_bind, heq path w hw]
      have hbalanced : ((lookup path).runOn w).2.collectors = w.collectors := hlookup path w
      rcases hr : (lookup path).runOn w with ⟨_ | v, w'⟩
      · rfl
      · -- The next lookup finds the stack that this one found.
        rw [hr] at hbalanced
        have hw' : w'.isCollecting = false := by rwa [isCollecting, hbalanced]
        dsimp only
        rw [runOn_bind, runOn_bind, runOn_get]
        dsimp only
        rw [runOn_bind, runOn_bind, ih hw']

/-- A lookup starts where nothing collects: elsewhere it could do anything else. -/
theorem render_congr {lookup lookup' : KeyPath → Act σ Value}
    (hlookup : ∀ p, Follows World.Balanced (lookup p))
    (heq : ∀ p w, w.isCollecting = false → (lookup' p).runOn w = (lookup p).runOn w)
    (template : Interpolation) (w : World σ) :
    (render lookup' template).runOn w = (render lookup template).runOn w := by
  rw [render, render, runOn_collecting, runOn_collecting, assemble_congr hlookup heq _ rfl]

/-- Reads as lookups give what the store has. -/
theorem runOn_assemble_read (root : MappingId) (segments : List Segment) {w : World σ}
    (hw : w.isCollecting = false) :
    (assemble (fun p => read p root) segments).runOn w =
      (Interpolation.render (fun p => (w.store.get p root).map w.store.display) segments, w) := by
  have hread (path : KeyPath) : (read path root).runOn w = (w.store.get path root, w) := by
    rw [read, runOn_readAlong, registerReads_of_isCollecting hw]
    rfl
  exact runOn_assemble fun path _ => hread path

/-- An effect that shows a template renders it, with reads as lookups. -/
theorem react_render (call : Call σ) {effect : Effect σ} {template : Interpolation} {node : NodeRef}
    (h : effect.reaction = .render template node) (v : Value) (w : World σ) :
    (react call effect v).runOn w = (do
      let s ← render (fun p => read p effect.root) template
      modify fun w => w.writeSink .text node s : Act σ Unit).runOn w := by
  rw [react, h, runOn_bind, runOn_bind, runOn_get, render, runOn_collecting,
    runOn_assemble_read _ _ rfl]
  dsimp only
  rw [runOn_bind, runOn_ofExcept]
  rfl

end Act

/-! ### Where registrations come from -/

/-- An effect is registered with a cell at most as often as its construction read the cell and it
was registered by hand. -/
def World.Accounted (w : World σ) : Prop :=
  ∀ c e, (w.store.watchers c).count e ≤ w.readsOf e c + w.enlisted.count e

/-- What a construction registers are its own reads. -/
theorem count_registrationsFrom (w : World σ) (n : Nat) (c : CellId) (e : EffectId) :
    (w.registrationsFrom n c).count e ≤ if n ≤ e then w.readsOf e c else 0 := by
  have hcount : ∀ l : List EffectId, l.Nodup →
      (l.flatMap fun e => List.replicate (w.readsOf e c) e).count e =
        if e ∈ l then w.readsOf e c else 0 := by
    intro l hl
    induction l with
    | nil => rfl
    | cons a l ih =>
      obtain ⟨hnot, hl⟩ := List.nodup_cons.1 hl
      rw [List.flatMap_cons, List.count_append, ih hl, List.count_replicate]
      by_cases ha : a = e
      · subst ha
        simp [hnot]
      · simp [ha, Ne.symm ha]
  rw [registrationsFrom, hcount _ List.nodup_range']
  split
  · rename_i hmem
    rw [if_pos (List.mem_range'_1.1 hmem).1]
  · exact Nat.zero_le _

/-- Registrations that stay, or go, are still accounted for. -/
theorem World.Accounted.of_le {w w' : World σ} (h : w.Accounted)
    (hwatchers : ∀ c e, (w'.store.watchers c).count e ≤ (w.store.watchers c).count e)
    (hreads : ∀ e c, w'.readsOf e c = w.readsOf e c) (henlisted : w'.enlisted = w.enlisted) :
    w'.Accounted := fun c e => by
  rw [hreads, henlisted]
  exact Nat.le_trans (hwatchers c e) (h c e)

theorem World.Constructs.accounted {w w' : World σ} (h : w.Constructs w') (hw : w.Sound)
    (ha : w.Accounted) : w'.Accounted := by
  intro c e
  by_cases hc : c < w.store.cells.size
  · rw [h.grows.watchers_eq c hc, List.count_append, h.grows.enlisted_eq]
    have hnew := count_registrationsFrom w' w.effects.size c e
    by_cases he : w.effects.size ≤ e
    · -- A new effect was not registered before.
      have hnone : (w.store.watchers c).count e = 0 :=
        List.count_eq_zero.2 fun hmem => Nat.not_lt.2 he (hw.watchers_lt c e hmem)
      rw [if_pos he] at hnew
      omega
    · have hold := ha c e
      rw [if_neg he] at hnew
      rw [readsOf_eq (h.grows.effects_eq e (Nat.lt_of_not_le he))]
      omega
  · have hnil : w'.store.watchers c = [] := by
      refine Store.watchers_eq_nil_of_le ?_
      rw [h.grows.sameData.size_eq]
      exact Nat.le_of_not_lt hc
    rw [hnil]
    exact Nat.zero_le _

theorem readsOf_deliver (w : World σ) (e : EffectId) (v : Value) (e' : EffectId) (c : CellId) :
    (w.deliver e v).readsOf e' c = w.readsOf e' c := by
  rw [readsOf, readsOf, effects_deliver]
  split
  · cases w.effects[e']? <;> rfl
  · rfl

theorem Change.accounted {w w' : World σ} (h : Change w w') (hw : w.Sound) (ha : w.Accounted) :
    w'.Accounted := by
  cases h with
  | read cells =>
    rw [hw.registerReads_eq]
    exact ha
  | note => exact ha
  | extend hext =>
    exact ha.of_le (fun c e => by rw [store_turn, hext.watchers_eq]) (fun _ _ => rfl) rfl
  | deliver => exact ha.of_le (fun _ _ => Nat.le_refl _) (readsOf_deliver w _ _) rfl
  | display => exact ha.of_le (fun _ _ => Nat.le_refl _) (readsOf_deliver w _ _) rfl
  | redraw => exact ha
  | rename => exact ha
  | construct h => exact h.accounted hw ha
  | @enlist c f hf =>
    intro d e
    have hold := ha d e
    -- The registration by hand is recorded.
    change ((w.store.watch c f.2).watchers d).count e ≤
      w.readsOf e d + (f.2 :: w.enlisted).count e
    rw [List.count_cons]
    rcases w.store.watchers_watch_cases c d f.2 with heq | heq
    · rw [heq]
      omega
    · rw [heq, List.count_append, List.count_singleton]
      omega
  | abortDispatch => exact ha
  | begin => exact ha

theorem Move.accounted {w w' : World σ} (h : Move w w') (hw : w.Sound) (ha : w.Accounted) :
    w'.Accounted := by
  cases h with
  | change h => exact h.accounted hw ha
  | assign c v =>
    refine ha.of_le (fun d e => ?_) (fun _ _ => rfl) rfl
    rw [World.assign, store_turn, Store.watchers_assign]
  | startPass c =>
    refine ha.of_le (fun d e => ?_) (fun _ _ => rfl) rfl
    rw [World.startPass, Store.watchers_prune]
    split
    · exact List.Sublist.count_le e List.filter_sublist
    · exact Nat.le_refl _
  | deliver => exact ha.of_le (fun _ _ => Nat.le_refl _) (readsOf_deliver w _ _) rfl
  | _ => exact ha

namespace Scene

/-- Only constructions, and requests by hand, register an effect. -/
theorem accounted_after (depth : Nat) (source : String) (steps : List Step) :
    (after depth (start source) steps).Accounted := by
  refine (Evolves.preserves (P := fun w => w.Sound ∧ w.Accounted) (fun _ _ h hw =>
    ⟨h.sound hw.1, h.accounted hw.1 hw.2⟩) (evolves_after depth (start source) steps) ⟨?_, ?_⟩).2
  · exact sound_ofDocument _
  · exact fun _ _ => Nat.zero_le _

/-- Collection is balanced and covers no user code. In every run:

* the stack of collectors is empty between the steps, and every registration of an effect with a
  cell is a read of the effect's construction or was made by hand;
* no script starts, at any depth, while something collects;
* whatever step is made in whatever world, and whether it faults or not, it leaves the stack as it
  was;
* where nothing collects, reading changes nothing, and the construction of an effect registers
  nobody but this effect;
* rendering a template leaves the stack as it was, if the lookups do, and no lookup starts while
  something collects. -/
theorem collection_balanced (depth : Nat) (source : String) (steps : List Step) :
    let w := after depth (start source) steps
    (w.collectors = [] ∧
      ∀ c e, (w.store.watchers c).count e ≤ w.readsOf e c + w.enlisted.count e) ∧
    (∀ (other : Call Script) (limit : Nat) (env : Received) (s : Step),
      (s.perform (Script.runWhere (fun u => u.isCollecting = false) other limit) env).runOn w =
        (s.perform (Script.invoke limit) env).runOn w) ∧
    (∀ (limit : Nat) (env : Received) (s : Step) (u : SceneWorld),
      ((s.perform (Script.invoke limit) env).runOn u).2.collectors = u.collectors) ∧
    (∀ u : SceneWorld, u.isCollecting = false →
      (∀ path root segments, ((Act.readAlong path root segments).runOn u).2 = u) ∧
      (∀ c, ((Act.readCell c).runOn u).2 = u) ∧
      (∀ m key, ((Act.readKey m key).runOn u).2 = u) ∧
      ∀ q i, ((Act.readItem q i).runOn u).2 = u) ∧
    (∀ (path : KeyPath) (root : MappingId) (gated : Bool) (reaction : Reaction Script)
      (u : SceneWorld), ∀ c < u.store.cells.size,
      ((Act.newEffect path root gated reaction).runOn u).2.store.watchers c =
        u.store.watchers c ++ List.replicate ((u.store.reads path root).count c) u.effects.size) ∧
    ∀ (template : Interpolation) (lookup : KeyPath → SceneAct Value),
      (∀ p u, ((lookup p).runOn u).2.collectors = u.collectors) → ∀ u,
        ((Act.render lookup template).runOn u).2.collectors = u.collectors ∧
        ∀ lookup' : KeyPath → SceneAct Value,
          (∀ p v, v.isCollecting = false → (lookup' p).runOn v = (lookup p).runOn v) →
            (Act.render lookup' template).runOn u = (Act.render lookup template).runOn u := by
  intro w
  have hempty : w.collectors = [] := (advances_after depth (start source) steps).collectors_eq
  refine ⟨⟨hempty, accounted_after depth source steps⟩, fun other limit env s => ?_,
    fun limit env s u => (Step.advances_perform limit env s u).collectors_eq,
    fun u hu => Act.reads_of_isCollecting hu,
    fun path root gated reaction u c hc => Act.watchers_newEffect path root gated reaction u hc,
    fun template lookup hlookup u => ⟨Act.balanced_render hlookup template u,
      fun lookup' heq => Act.render_congr hlookup heq template u⟩⟩
  have hquiet : w.isCollecting = false := by rw [World.isCollecting, hempty]
  exact Step.perform_runWhere stable_isCollecting other limit env s hquiet

/-- A lookup that would give `null` while something collects, and faults otherwise: it faults, also
when a template is rendered while an effect collects. -/
theorem collection_balanced_lookup :
    let u : SceneWorld := { start "" with collectors := [some 0] }
    let lookup : KeyPath → SceneAct Value := fun _ => .ofFun fun v =>
      if v.isCollecting then (.ok .null, v) else (.error .badRequest, v)
    u.isCollecting = true ∧
      (Act.render lookup ⟨[.placeholder ⟨"a"⟩]⟩).runOn u = (.error .badRequest, u) := by
  intro u lookup
  obtain ⟨-, -, -, -, -, hrender⟩ := collection_balanced callDepth "" []
  have hfaulty := hrender ⟨[.placeholder ⟨"a"⟩]⟩ (fun _ => throw .badRequest) (fun _ _ => rfl) u
  refine ⟨rfl, ?_⟩
  rw [hfaulty.2 lookup fun p v hv => by
    change (if v.isCollecting then _ else _) = _
    rw [hv]
    rfl]
  rfl

end Scene

end LiveBinding
