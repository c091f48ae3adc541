import LiveBinding.Proofs.Intact.Basic
import LiveBinding.Proofs.Refinement.Course

/-!
# The engine keeps worlds intact

Every operation of the engine leads an intact world onward, if user code does, whether it faults or
not. What is written has to be good; what a pass hands to user code is good, because it was read.

A view model is made in several steps. Nothing is in use before the last one, and what refers to a
model in between refers to the new model.

## Key results

- `onward_notify`, `onward_setCell`, `onward_typeInto`, …: operations that run user code
- `onward_nameScope`, `onward_nameViewModel`: new owners
-/

namespace LiveBinding

open World

variable {σ : Type} {w : World σ}

/-- User code can run in a world: what it received is good, and the view model on which it runs as a
method is in use. -/
structure World.Admits (w : World σ) (env : Received) : Prop where
  knows : w.store.Knows env.value
  receives : ∀ vm, env.receiver = some vm → vm ∈ w.receivers

/-- User code can still run. -/
theorem World.Onward.admits {w' : World σ} (h : w.Onward w') {env : Received}
    (hw : w.Admits env) : w'.Admits env where
  knows := h.widens.knows _ hw.knows
  receives vm hvm := h.receivers_eq ▸ hw.receives vm hvm

/-- User code leads intact worlds onward. -/
def Call.Onward (call : Call σ) : Prop :=
  ∀ (code : σ) (env : Received) (w : World σ), w.Intact → w.Admits env →
    w.Onward ((call code env).runOn w).2

theorem Event.knows_received (s : Store) (event : Event) : s.Knows event.received := by
  rw [received]
  cases event.value <;> trivial

namespace Act

variable {α β : Type} {call : Call σ}

/-- An act and then another one: the second starts onward of the first. -/
theorem onward_bind {x : Act σ α} {f : α → Act σ β} (hx : w.Onward (x.runOn w).2)
    (hf : ∀ a w', x.runOn w = (.ok a, w') → w.Onward w' → w'.Onward ((f a).runOn w').2) :
    w.Onward ((x >>= f).runOn w).2 := by
  rw [runOn_bind]
  rcases h : x.runOn w with ⟨_ | a, w'⟩
  · rwa [h] at hx
  · rw [h] at hx
    exact hx.trans (hf a w' h hx)

theorem onward_map {x : Act σ α} (hx : w.Onward (x.runOn w).2) (f : α → β) :
    w.Onward ((f <$> x).runOn w).2 := by
  rw [runOn_map]
  exact hx

theorem onward_forM {f : β → Act σ PUnit}
    (hf : ∀ b (w : World σ), w.Intact → w.Onward ((f b).runOn w).2) (bs : List β) (hw : w.Intact) :
    w.Onward ((bs.forM f).runOn w).2 := by
  induction bs generalizing w with
  | nil => exact hw.onward_self
  | cons b bs ih => exact onward_bind (hf b w hw) fun _ _ _ h => ih h.intact

/-! ### Reading -/

theorem onward_readAlong (hw : w.Intact) (path : KeyPath) (root : MappingId)
    (segments : List String) : w.Onward ((readAlong path root segments).runOn w).2 := by
  rw [runOn_readAlong, hw.sound.registerReads_eq]
  exact hw.onward_self

theorem onward_readCell (hw : w.Intact) (c : CellId) : w.Onward ((readCell c).runOn w).2 := by
  change w.Onward (w.registerReads [c])
  rw [hw.sound.registerReads_eq]
  exact hw.onward_self

theorem onward_readKey (hw : w.Intact) (m : MappingId) (key : String) :
    w.Onward ((readKey m key).runOn w).2 := by
  rw [readKey, runOn_bind, runOn_get]
  dsimp only
  cases w.store.cellOf? m key with
  | some c => exact onward_map (onward_readCell hw c) _
  | none => exact hw.onward_self

theorem onward_readItem (hw : w.Intact) (q : SequenceId) (index : Nat) :
    w.Onward ((readItem q index).runOn w).2 := by
  rw [readItem, runOn_bind, runOn_get]
  dsimp only
  cases w.store.cellAt? q index with
  | some c => exact onward_map (onward_readCell hw c) _
  | none => exact hw.onward_self

/-! ### Notifying -/

/-- What a pass hands to user code was read from the heap. -/
theorem Runs.exists_get {es : List EffectId} {code : σ} {v : Value} {u : World σ}
    (h : Runs call es w code v u) : ∃ path root, u.store.get path root = .ok v := by
  induction h with
  | here _ _ hv => exact ⟨_, _, hv⟩
  | later _ _ ih => exact ih

theorem passKeeps_onward (w : World σ) (es : List EffectId) : PassKeeps w.Onward es where
  startPass _ c h := h.trans (h.intact.onward_startPass c)
  endPass _ h := h.trans h.intact.onward_endPass
  abortPass _ h := h.trans h.intact.onward_abortPass
  deliver _ e v h := h.trans (h.intact.onward_deliver e v)
  display _ _ _ _ sink node s _ _ _ h := h.trans (h.intact.onward_writeSink sink node s)

/-- The user code that a pass runs leads onward. -/
theorem Runs.onward (hcall : call.Onward) {es : List EffectId} {u v : World σ} {code : σ}
    {x : Value} (hr : Runs call es u code x v) (h : w.Onward v) :
    w.Onward ((call code ⟨x, none⟩).runOn v).2 := by
  obtain ⟨path, root, hget⟩ := hr.exists_get
  exact h.trans (hcall code ⟨x, none⟩ v h.intact
    ⟨h.intact.closed.knows_of_get hget, fun _ hvm => by cases hvm⟩)

theorem onward_update (hcall : call.Onward) (hw : w.Intact) (e : EffectId) :
    w.Onward ((update call e).runOn w).2 :=
  keeps_update (passKeeps_onward w [e]) (fun _ _ _ hr h => hr.onward hcall h) hw.onward_self

theorem onward_notify (hcall : call.Onward) (hw : w.Intact) (c : CellId) :
    w.Onward ((notify call c).runOn w).2 :=
  keeps_notify (passKeeps_onward w _) (fun _ _ _ hr h => hr.onward hcall h) hw.onward_self

/-! ### Writing -/

theorem onward_setCell (hcall : call.Onward) (hw : w.Intact) (c : CellId) {v : Value}
    (hv : w.store.Knows v) : w.Onward ((setCell call c v).runOn w).2 := by
  rw [runOn_setCell_snd]
  split
  · exact hw.onward_self
  · have hassign := hw.onward_assign c hv
    exact hassign.trans (onward_notify hcall hassign.intact c)

theorem onward_put (hcall : call.Onward) (hw : w.Intact) (place : Place)
    (hvacant : w.store.Vacant place) {v : Value} (hv : w.store.Knows v) :
    w.Onward ((put call place v).runOn w).2 := by
  cases place with
  | cell c => exact onward_map (onward_setCell hcall hw c hv) _
  | newKey m key =>
    exact hw.onward_extend (Store.extends_define hvacant v) (hw.closed.widens_define hvacant hv)
  | newItem q =>
    exact hw.onward_extend (Store.extends_append w.store q v) (hw.closed.widens_append q hv)

theorem onward_write (hcall : call.Onward) (hw : w.Intact) (path : KeyPath) (root : MappingId)
    {v : Value} (hv : w.store.Knows v) : w.Onward ((write call path root v).runOn w).2 := by
  rw [runOn_write_eq, hw.sound.registerReads_eq]
  cases hplace : w.store.placeBehind path path.last (.mapping root) path.parents with
  | error f => exact hw.onward_self
  | ok place => exact onward_put hcall hw place (Store.vacant_of_placeBehind hplace) hv

theorem onward_writeKey (hcall : call.Onward) (hw : w.Intact) (m : MappingId) (key : String)
    {v : Value} (hv : w.store.Knows v) : w.Onward ((writeKey call m key v).runOn w).2 := by
  rw [writeKey, runOn_bind, runOn_get]
  dsimp only
  cases hc : w.store.cellOf? m key with
  | some c => exact onward_map (onward_setCell hcall hw c hv) _
  | none => exact onward_put hcall hw (.newKey m key) hc hv

theorem onward_writeItem (hcall : call.Onward) (hw : w.Intact) (q : SequenceId) (index : Nat)
    {v : Value} (hv : w.store.Knows v) : w.Onward ((writeItem call q index v).runOn w).2 := by
  rw [writeItem, runOn_bind, runOn_get]
  dsimp only
  cases w.store.cellAt? q index with
  | some c =>
    exact onward_bind (onward_map (onward_setCell hcall hw c hv) _) fun _ _ _ h =>
      h.intact.onward_self
  | none => exact hw.onward_self

theorem onward_checkProxied (hw : w.Intact) (vm : ViewModel) (key : String) :
    w.Onward ((checkProxied vm key).runOn w).2 := by
  rw [(looks_checkProxied vm key).runOn_snd w]
  exact hw.onward_self

theorem onward_getProxied (hw : w.Intact) (vm : ViewModel) (key : String) :
    w.Onward ((getProxied vm key).runOn w).2 :=
  onward_bind (onward_checkProxied hw vm key) fun _ _ _ h =>
    onward_bind (onward_readKey h.intact _ _) fun _ _ _ h => h.intact.onward_self

theorem onward_setProxied (hcall : call.Onward) (hw : w.Intact) (vm : ViewModel) (key : String)
    {v : Value} (hv : w.store.Knows v) : w.Onward ((setProxied call vm key v).runOn w).2 := by
  refine onward_bind (onward_checkProxied hw vm key) fun _ w' _ h => ?_
  rw [runOn_bind, runOn_get]
  dsimp only
  split
  · exact h.intact.onward_self
  · exact onward_writeKey hcall h.intact _ _ (h.widens.knows _ hv)

/-! ### Dispatching -/

theorem onward_fire (hcall : call.Onward) (hw : w.Intact) (node : NodeRef) (event : Event)
    (l : Listener σ) : w.Onward ((fire call node event l).runOn w).2 := by
  cases l with
  | run code =>
    exact hcall code _ w hw ⟨event.knows_received w.store, fun _ hvm => by cases hvm⟩
  | writeBack path root =>
    rw [fire, runOn_bind, runOn_get]
    exact onward_write hcall hw path root trivial
  | method receiver code =>
    rw [fire, runOn_bind, runOn_get]
    dsimp only
    split
    · rename_i hvm
      refine (hcall code ⟨event.received, some receiver⟩ (w.enterMethod receiver)
        (hw.enterMethod hvm) ⟨event.knows_received w.store, ?_⟩).leaveMethod
      rintro vm ⟨⟩
      exact List.mem_cons_self ..
    · exact hw.onward_self

theorem onward_dispatch (hcall : call.Onward) (hw : w.Intact) (node : NodeRef) (event : Event) :
    w.Onward ((dispatch call node event).runOn w).2 := by
  rw [runOn_dispatch]
  have hfired := onward_forM (fun l w hw => onward_fire hcall hw node event l)
    ((w.document node.document).listenersFor node.node event.kind) hw
  rcases hr : (((w.document node.document).listenersFor node.node event.kind).forM
    (fire call node event)).runOn w with ⟨_ | _, w'⟩
  · rw [hr] at hfired
    exact hfired.trans hfired.intact.onward_abortDispatch
  · rwa [hr] at hfired

theorem onward_typeInto (hcall : call.Onward) (hw : w.Intact) (node : NodeRef) (s : String) :
    w.Onward ((typeInto call node s).runOn w).2 := by
  have htyped := hw.onward_writeSink .input node s
  rw [typeInto, runOn_bind, runOn_modify]
  exact htyped.trans (onward_dispatch hcall htyped.intact node _)

/-! ### New owners -/

/-- An effect is constructed that runs user code, and it gets a name if it could be. -/
theorem onward_nameEffect (hw : w.Intact) (name : String) {path : KeyPath} {root : MappingId}
    {gated : Bool} {code : σ} {v : Value} (hv : w.store.get path root = .ok v) :
    w.Onward
      { w.construct path root gated (.run code) with
        names := { w.names with effects := w.names.effects.put name w.effects.size } } := by
  have hconstructs : w.Constructs { w.construct path root gated (.run code) with
      names := { w.names with effects := w.names.effects.put name w.effects.size } } :=
    constructs_nameEffect w name hv
  refine hw.onward_constructs hconstructs (fun e he => ?_) (refersOnly_of_eq rfl rfl rfl)
  refine (hconstructs.isAlive_of e he).imp_right fun ⟨hle, effect, heffect, _⟩ => ?_
  -- The only new effect has no place.
  have hlt := lt_size_of_effect heffect
  change e < (w.construct path root gated (.run code)).effects.size at hlt
  rw [size_effects_construct] at hlt
  obtain rfl : e = w.effects.size := Nat.le_antisymm (Nat.le_of_lt_succ hlt) hle
  have hnew : (w.construct path root gated (.run code)).effects[w.effects.size]? =
      some (w.record path root gated (.run code)) := by
    rw [effects_construct, if_pos rfl]
  intro effect' node heffect' hp
  obtain rfl := Option.some.inj (hnew.symm.trans heffect')
  cases hp

/-- An effect is constructed that nobody keeps. -/
theorem onward_construct (hw : w.Intact) (path : KeyPath) (root : MappingId) (gated : Bool)
    (reaction : Reaction σ) : w.Onward (w.construct path root gated reaction) :=
  hw.onward_constructs
    (constructs_of_fault (grows_construct _ w) rfl (fun _ h => h) (entrusts_of_eq rfl rfl))
    (fun _ he => .inl he) (refersOnly_of_eq rfl rfl rfl)

end Act

open Act

/-- A model that exists gets a name. -/
theorem World.Intact.onward_nameModel (hw : w.Intact) (name : String) {root : MappingId}
    (hroot : w.store.Has (.mapping root)) :
    w.Onward { w with names := { w.names with models := w.names.models.put name root } } := by
  refine hw.onward ⟨hw.sound.1, hw.sound.2, hw.sound.3, hw.sound.4, hw.sound.5, hw.sound.6⟩
    (later_of_eq (Nat.le_refl _) rfl (Nat.le_refl _) (Nat.le_refl _) (fun _ h => h) ⟨[], rfl⟩
      List.suffix_rfl List.suffix_rfl)
    (documentsKeep_of_eq rfl) hw.closed.widens_self (fun _ he => he) ?_ rfl
  rintro model (⟨f, hf, rfl⟩ | h)
  · rcases Fields.eq_or_mem_of_mem_put hf with rfl | hf
    · exact .inr hroot
    · exact .inl (.inl ⟨f, hf, rfl⟩)
  · exact .inl (.inr h)

/-! ### Templates -/

/-- No method of a template writes back. -/
def Setting.CallsOnly (t : Setting σ) : Prop :=
  ∀ f ∈ t.methods.entries, ∀ path root, f.2 ≠ .writeBack path root

/-- Methods that are user code do not write back. -/
theorem Setting.callsOnly_ofList {f : σ → Listener σ}
    (hf : ∀ code path root, f code ≠ .writeBack path root) (document : DocumentId)
    (model : MappingId) (methods : Fields σ) (gated : Bool) :
    (Setting.mk document model (.ofList (methods.map fun m => (m.1, f m.2))) gated).CallsOnly := by
  intro g hg path root
  obtain ⟨m, -, rfl⟩ := List.mem_map.1 (Methods.mem_ofList hg)
  exact hf m.2 path root

/-- A template refers to its model and to no other one. -/
theorem Setting.CallsOnly.refersOnly_compile {t : Setting σ} (ht : t.CallsOnly) (root : NodeId)
    (w : World σ) : RefersOnly (· = t.model) w ((t.compile root).runOn w).2 := by
  have hbuilds := Setting.builds_compile (t := t) 0 root (Nat.zero_le w.effects.size)
  have hprovides : t.Provides fun l => ∀ path model, l.2 = .writeBack path model →
      model = t.model :=
    { method := fun f hf _ path model heq => absurd heq (ht f hf path model)
      writeBack := fun _ _ _ heq => (Listener.writeBack.inj heq).2.symm }
  exact refersOnly_of_attaches (Setting.follows_compile_attaches hprovides root w)
    (fun path model h => h path model rfl) (congrArg Names.models hbuilds.names_eq)
    hbuilds.viewModels_eq

/-- A template that could not be compiled. -/
theorem Setting.CallsOnly.onward_of_fault {t : Setting σ} (ht : t.CallsOnly) (hw : w.Intact)
    (hmodel : w.store.Has (.mapping t.model)) {root : NodeId} {f : Fault} {w' : World σ}
    (h : (t.compile root).runOn w = (.error f, w')) : w.Onward w' := by
  have hbuilds := Setting.builds_compile (t := t) w.effects.size root (Nat.le_refl _)
  have hrefers := ht.refersOnly_compile root w
  rw [h] at hbuilds hrefers
  refine hw.onward_constructs hbuilds.constructs_of_fault (fun e he => .inl ?_) fun model hm => ?_
  · rwa [isAlive_of_eq hbuilds.names_eq hbuilds.viewModels_eq hbuilds.grows.passes_eq
      hbuilds.grows.receivers_eq] at he
  · refine (hrefers model hm).imp_right ?_
    rintro rfl
    exact (hw.closed.widens_of_sameData hbuilds.grows.sameData).knows (.mapping t.model) hmodel

/-- The scope of a template gets a name. -/
theorem Setting.CallsOnly.onward_nameScope {t : Setting σ} (ht : t.CallsOnly) (hw : w.Intact)
    (hmodel : w.store.Has (.mapping t.model)) {root : NodeId} {made : Scope} {w' : World σ}
    (h : (t.compile root).runOn w = (.ok made, w')) (name : String) :
    w.Onward { w' with names := { w'.names with scopes := w'.names.scopes.put name made } } := by
  have hbuilds := Setting.builds_compile (t := t) w.effects.size root (Nat.le_refl _)
  have hrefers := ht.refersOnly_compile root w
  rw [h] at hbuilds hrefers
  refine hw.onward_constructs (hbuilds.constructs_nameScope name) (fun e he => ?_)
    fun model hm => ?_
  · exact (hbuilds.isAlive_of_nameScope he).imp_right fun hm =>
      (hbuilds.backs made rfl e hm).resolve_left List.not_mem_nil
  · refine (hrefers model hm).imp_right ?_
    rintro rfl
    exact (hw.closed.widens_of_sameData hbuilds.grows.sameData).knows (.mapping t.model) hmodel

/-! ### View models -/

theorem World.refersOnly_viewModels {P : MappingId → Prop} (w : World σ)
    {viewModels : Array ViewModel}
    (h : ∀ vm ∈ viewModels, (∃ vm₀ ∈ w.viewModels, vm₀.model = vm.model) ∨ P vm.model) :
    RefersOnly P w { w with viewModels := viewModels } := by
  rintro root (hname | ⟨vm, hvm, rfl⟩ | hl)
  · exact .inl (.inl hname)
  · exact (h vm hvm).imp_left fun hold => .inr (.inl hold)
  · exact .inl (.inr (.inr hl))

/-- A view model is added. -/
theorem World.refersOnly_push {P : MappingId → Prop} (w : World σ) (vm : ViewModel)
    (h : P vm.model) : RefersOnly P w { w with viewModels := w.viewModels.push vm } := by
  refine w.refersOnly_viewModels fun vm' hvm' => ?_
  rcases Array.mem_push.1 hvm' with hold | rfl
  · exact .inl ⟨vm', hold, rfl⟩
  · exact .inr h

/-- A view model gets its bindings. -/
theorem World.refersOnly_bind {P : MappingId → Prop} (w : World σ) (id : ViewModelId)
    (scope : Scope) :
    RefersOnly P w { w with
      viewModels := w.viewModels.modify id fun vm => { vm with bindings := scope } } := by
  refine w.refersOnly_viewModels fun vm hvm => .inl ?_
  obtain ⟨i, hi⟩ := Array.mem_iff_getElem?.1 hvm
  rw [Array.getElem?_modify] at hi
  split at hi
  · obtain ⟨vm₀, hvm₀, rfl⟩ := Option.map_eq_some_iff.1 hi
    exact ⟨vm₀, Array.mem_of_getElem? hvm₀, rfl⟩
  · exact ⟨vm, Array.mem_of_getElem? hi, rfl⟩

/-- A view model is made in an intact world: first its model, and what is made then refers to no
other one. -/
theorem Act.exists_prepares (hw : w.Intact) (document : DocumentId) (b : Blueprint σ) :
    ∃ w₀, w.Onward w₀ ∧ Prepares w₀ ((newViewModel document b).runOn w) ∧
      RefersOnly (fun root => w₀.store.Has (.mapping root)) w₀
        ((newViewModel document b).runOn w).2 := by
  rw [newViewModel, runOn_bind, runOn_intercept]
  cases hbuilt : w.store.interceptRoot b.data with
  | error f => exact ⟨w, hw.onward_self, prepares_fault w f, refl w⟩
  | ok built =>
    obtain ⟨hwidens, hroot⟩ := hw.closed.widens_interceptRoot hbuilt
    have honward : w.Onward (w.turn built.1) :=
      hw.onward_extend (extends_interceptRoot hbuilt) hwidens
    dsimp only
    obtain ⟨w₀, hw₀⟩ : ∃ w₀ : World σ, w₀ = w.turn built.1 := ⟨_, rfl⟩
    rw [← hw₀] at honward ⊢
    have hroot : w₀.store.Has (.mapping built.2) := hw₀ ▸ hroot
    cases b.mount with
    | none => exact ⟨w₀, honward, prepares_addViewModel w₀ _ rfl, w₀.refersOnly_push _ hroot⟩
    | some mount =>
      dsimp only
      rw [runOn_bind, runOn_get]
      dsimp only
      rw [runOn_bind, runOn_ofExcept]
      cases mount.resolve (w₀.document document) with
      | error f => exact ⟨w₀, honward, prepares_fault w₀ f, refl w₀⟩
      | ok root =>
        dsimp only
        rw [runOn_bind, runOn_get]
        dsimp only
        rw [runOn_bind, runOn_addViewModel]
        refine ⟨w₀.begin, honward.trans honward.intact.onward_begin,
          prepares_instantiate w₀ _ rfl _ root, ?_⟩
        -- The record comes first, then the listeners of the template, then the bindings.
        let vm : ViewModel := ⟨document, some root, built.2,
          if b.config.proxyData then w₀.store.keys built.2 else [], b.config, .empty⟩
        have hpush : RefersOnly (fun root => w₀.store.Has (.mapping root)) w₀.begin
            { w₀ with viewModels := w₀.viewModels.push vm } := w₀.refersOnly_push vm hroot
        refine IsTrans.trans _ _ _ hpush ?_
        have hcalls := Setting.callsOnly_ofList (f := .method w₀.viewModels.size) (by simp) document
          built.2 b.methods b.config.equalityGating
        refine rel_bind (R := RefersOnly fun root => w₀.store.Has (.mapping root)) ?_
          fun scope w' _ => w'.refersOnly_bind w₀.viewModels.size scope
        intro model hm
        refine (hcalls.refersOnly_compile root _ model hm).imp_right ?_
        rintro rfl
        exact hroot

/-- A view model that was made gets a name, and its model another one. -/
theorem World.Prepares.onward_nameViewModel (hw : w.Intact) {w' : World σ} {id : ViewModelId}
    (h : Prepares w (.ok id, w'))
    (hrefers : RefersOnly (fun root => w.store.Has (.mapping root)) w w') {vm : ViewModel}
    (hvm : w'.viewModels[id]? = some vm) (name : String) :
    w.Onward { w' with names := { w'.names with
      viewModels := w'.names.viewModels.put name id
      models := w'.names.models.put name vm.model } } := by
  have hwidens := hw.closed.widens_of_sameData h.grows.sameData
  -- All models to which something refers are there.
  have hroots (root : MappingId) (hroot : w'.RefersTo root) : w'.store.Has (.mapping root) :=
    hwidens.knows (.mapping root) ((hrefers root hroot).elim (hw.has_root root) fun h => h)
  refine hw.onward_constructs (h.constructs_nameViewModel name _) (fun e he => ?_)
    fun root hroot => .inr (hroots root ?_)
  · exact h.isAlive_of he rfl rfl (fun _ => mem_or_eq_of_nameViewModel) fun vm record hrecord hm =>
      (h.backs vm record hrecord).imp_right fun hbacks => hbacks e hm
  · rcases hroot with ⟨f, hf, rfl⟩ | hroot
    · rcases Fields.eq_or_mem_of_mem_put hf with rfl | hf
      · exact .inr (.inl ⟨vm, Array.mem_of_getElem? hvm, rfl⟩)
      · exact .inl ⟨f, hf, rfl⟩
    · exact .inr hroot

/-- A view model that could not be made. -/
theorem World.Prepares.onward_of_fault (hw : w.Intact) {w' : World σ} {f : Fault}
    (h : Prepares w (.error f, w'))
    (hrefers : RefersOnly (fun root => w.store.Has (.mapping root)) w w') : w.Onward w' := by
  have hwidens := hw.closed.widens_of_sameData h.grows.sameData
  refine hw.onward_constructs h.constructs_of_fault (fun e he => ?_) fun root hroot =>
    (hrefers root hroot).imp_right (hwidens.knows (.mapping root))
  exact h.isAlive_of he rfl rfl (fun _ => .inl) fun vm record hrecord hm =>
    (h.backs vm record hrecord).imp_right fun hbacks => hbacks e hm

end LiveBinding
