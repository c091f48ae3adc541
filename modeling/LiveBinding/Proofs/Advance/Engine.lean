import LiveBinding.Proofs.Act.Compile
import LiveBinding.Proofs.Advance.Basic
import LiveBinding.Proofs.Evolution.Construct
import LiveBinding.Reactive.Dispatch
import LiveBinding.ViewModel

/-!
# The engine advances worlds

Every operation of the engine advances every world, if user code does. Operations that differ only
in where user code would do something else, and agree where a property holds, agree there.

## Key results

- `agree_update`, `agree_notify`, `agree_setCell`, `agree_write`, `agree_dispatch`: operations that
  run user code
- `advances_newEffect`, `Setting.advances_compile`, `advances_newViewModel`: operations that do not
-/

namespace LiveBinding

variable {σ : Type} {P : World σ → Prop}

/-- Two ways to run user code agree where a property holds. -/
def Call.Agrees (P : World σ → Prop) (call call' : Call σ) : Prop :=
  ∀ code env, Act.Agree P (call code env) (call' code env)

namespace Act

/-! ### Reading and constructing -/

theorem advances_readAlong (path : KeyPath) (root : MappingId) (segments : List String) :
    Follows (Advances (σ := σ)) (readAlong path root segments) := fun w => by
  rw [runOn_readAlong]
  exact advances_registerReads w _

theorem advances_readCell (c : CellId) : Follows (Advances (σ := σ)) (readCell c) :=
  follows_bind (follows_modify fun w => advances_registerReads w [c]) fun _ =>
    follows_bind follows_get fun _ => follows_pure _

theorem advances_readKey (m : MappingId) (key : String) :
    Follows (Advances (σ := σ)) (readKey m key) := by
  refine follows_bind follows_get fun w => ?_
  split
  · exact follows_map (advances_readCell _) _
  · exact follows_pure _

theorem advances_readItem (q : SequenceId) (index : Nat) :
    Follows (Advances (σ := σ)) (readItem q index) := by
  refine follows_bind follows_get fun w => ?_
  split
  · exact follows_map (advances_readCell _) _
  · exact follows_pure _

/-- A path is read for an effect. -/
theorem advances_collecting_read (e : EffectId) (path : KeyPath) (root : MappingId) :
    Follows (Advances (σ := σ)) (collecting (some e) (read path root)) := fun w => by
  rw [runOn_collecting, read, runOn_readAlong]
  exact advances_foldl_watch w _ e

theorem advances_newEffect (path : KeyPath) (root : MappingId) (gated : Bool)
    (reaction : Reaction σ) : Follows Advances (newEffect path root gated reaction) :=
  follows_bind follows_get fun _ =>
    follows_bind (follows_modify fun _ => .other rfl rfl rfl rfl) fun _ =>
      follows_bind (advances_collecting_read _ path root) fun _ =>
        follows_bind (follows_modify fun _ => .other rfl rfl rfl rfl) fun _ => follows_pure _

/-! ### Notifying -/

variable {call call' : Call σ}

theorem agree_react (hcall : call.Agrees P call') (effect : Effect σ) (v : Value) :
    Agree P (react call effect v) (react call' effect v) := by
  unfold react
  cases effect.reaction with
  | run code => exact hcall code _
  | display sink node => exact (follows_modify fun w => advances_writeSink w sink node _).agree
  | render template node =>
    exact (follows_bind follows_get fun _ => follows_bind (follows_ofExcept _) fun _ =>
      follows_modify fun w => advances_writeSink w .text node _).agree

theorem agree_update (hP : Stable P) (hcall : call.Agrees P call') (e : EffectId) :
    Agree P (update call e) (update call' e) := by
  refine agree_bind hP follows_get.agree fun w => ?_
  cases w.effects[e]? with
  | none => exact (follows_pure _).agree
  | some effect =>
    refine agree_bind hP (agree_suspended hP (advances_readAlong _ _ _).agree) fun v => ?_
    split
    · exact (follows_pure _).agree
    · exact agree_bind hP (follows_modify fun _ => .other rfl rfl rfl rfl).agree fun _ =>
        agree_react hcall effect v

theorem agree_holding (hP : Stable P) (es : List EffectId) {act act' : Act σ Unit}
    (h : Agree P act act') : Agree P (holding es act) (holding es act') := by
  refine agree_within hP (fun w => ?_) (fun w => ?_) h
  all_goals exact .other rfl rfl rfl rfl

theorem agree_serving (hP : Stable P) (vm : ViewModelId) {act act' : Act σ Unit}
    (h : Agree P act act') : Agree P (serving vm act) (serving vm act') := by
  refine agree_within hP (fun w => ?_) (fun w => ?_) h
  all_goals exact .other rfl rfl rfl rfl

theorem agree_passing (hP : Stable P) (visited : List EffectId) {act act' : Act σ Unit}
    (h : Agree P act act') : Agree P (passing visited act) (passing visited act') := by
  refine agree_holding hP visited (agree_onFault (fun w => ?_) h)
  exact .other rfl rfl rfl rfl

theorem agree_notify (hP : Stable P) (hcall : call.Agrees P call') (c : CellId) :
    Agree P (notify call c) (notify call' c) :=
  agree_bind hP follows_get.agree fun _ =>
    agree_bind hP (follows_modify fun w => .store w (.prune c w.isAlive)).agree fun _ =>
      agree_passing hP _ (agree_forM hP (agree_update hP hcall) _)

theorem agree_setCell (hP : Stable P) (hcall : call.Agrees P call') (c : CellId) (v : Value) :
    Agree P (setCell call c v) (setCell call' c v) := by
  refine agree_bind hP follows_get.agree fun w => ?_
  split
  · exact (follows_pure _).agree
  · exact agree_bind hP (follows_modify fun w => .turn w (.assign c v)).agree fun _ =>
      agree_bind hP (agree_notify hP hcall c) fun _ => (follows_pure _).agree

/-! ### Writing -/

/-- A new key is put into a mapping that does not have it. -/
theorem agreeAt_put (hP : Stable P) (hcall : call.Agrees P call') {place : Place} (v : Value)
    {w : World σ} (hplace : w.store.Vacant place) :
    AgreeAt P w (put call place v) (put call' place v) := by
  cases place with
  | cell c => exact agree_map (agree_setCell hP hcall c v) _ w
  | newKey m key => exact ⟨.turn w (.define m hplace v), fun _ => rfl⟩
  | newItem q => exact (follows_modify fun w => .turn w (.append q v)).agree w

theorem agree_push (hP : Stable P) (hcall : call.Agrees P call') (q : SequenceId) (v : Value) :
    Agree P (put call (.newItem q) v) (put call' (.newItem q) v) :=
  fun _ => agreeAt_put hP hcall v trivial

theorem agree_write (hP : Stable P) (hcall : call.Agrees P call') (path : KeyPath)
    (root : MappingId) (v : Value) :
    Agree P (write call path root v) (write call' path root v) := by
  refine agree_bind hP (advances_readAlong path root _).agree fun container => ?_
  refine agree_bind_get fun w => ?_
  refine agreeAt_bind hP ((follows_ofExcept _).agree w) fun place w' h => ?_
  obtain ⟨hplace, rfl⟩ := Prod.mk.inj h
  exact agreeAt_put hP hcall v (Store.vacant_of_place hplace)

theorem agree_writeKey (hP : Stable P) (hcall : call.Agrees P call') (m : MappingId)
    (key : String) (v : Value) : Agree P (writeKey call m key v) (writeKey call' m key v) := by
  refine agree_bind_get fun w => ?_
  cases hc : w.store.cellOf? m key with
  | some c => exact agree_map (agree_setCell hP hcall c v) _ w
  | none =>
    exact agreeAt_put hP hcall v hc

theorem agree_writeItem (hP : Stable P) (hcall : call.Agrees P call') (q : SequenceId)
    (index : Nat) (v : Value) : Agree P (writeItem call q index v) (writeItem call' q index v) := by
  refine agree_bind hP follows_get.agree fun w => ?_
  cases w.store.cellAt? q index with
  | some c =>
    exact agree_bind hP (agree_map (agree_setCell hP hcall c v) _) fun _ => (follows_pure _).agree
  | none => exact (follows_pure _).agree

theorem advances_checkProxied (vm : ViewModel) (key : String) :
    Follows (Advances (σ := σ)) (checkProxied vm key) := by
  unfold checkProxied
  split
  · exact follows_pure _
  · exact follows_throw _

theorem advances_getProxied (vm : ViewModel) (key : String) :
    Follows (Advances (σ := σ)) (getProxied vm key) :=
  follows_bind (advances_checkProxied vm key) fun _ =>
    follows_bind (advances_readKey _ _) fun _ => follows_pure _

theorem agree_setProxied (hP : Stable P) (hcall : call.Agrees P call') (vm : ViewModel)
    (key : String) (v : Value) :
    Agree P (setProxied call vm key v) (setProxied call' vm key v) := by
  refine agree_bind hP (advances_checkProxied vm key).agree fun _ => ?_
  refine agree_bind hP follows_get.agree fun w => ?_
  dsimp only
  split
  · exact (follows_pure _).agree
  · exact agree_writeKey hP hcall _ _ _

/-! ### Dispatching -/

theorem agree_callMethod (hP : Stable P) (hcall : call.Agrees P call') (receiver : ViewModelId)
    (code : σ) (v : Value) :
    Agree P (callMethod call receiver code v) (callMethod call' receiver code v) :=
  agree_serving hP receiver (hcall code _)

theorem agree_fire (hP : Stable P) (hcall : call.Agrees P call') (node : NodeRef) (event : Event)
    (l : Listener σ) : Agree P (fire call node event l) (fire call' node event l) := by
  cases l with
  | run code => exact hcall code _
  | writeBack path root =>
    exact agree_bind hP follows_get.agree fun w => agree_write hP hcall path root _
  | method receiver code =>
    refine agree_bind hP follows_get.agree fun w => ?_
    split
    · exact agree_callMethod hP hcall receiver code _
    · exact (follows_pure _).agree

theorem agree_dispatch (hP : Stable P) (hcall : call.Agrees P call') (node : NodeRef)
    (event : Event) : Agree P (dispatch call node event) (dispatch call' node event) := by
  refine agree_bind hP follows_get.agree fun w => ?_
  refine agree_bind hP (agree_onFault (fun _ => ?_)
    (agree_forM hP (agree_fire hP hcall node event) _)) fun _ => (follows_pure _).agree
  exact .other rfl rfl rfl rfl

theorem agree_typeInto (hP : Stable P) (hcall : call.Agrees P call') (node : NodeRef)
    (s : String) : Agree P (typeInto call node s) (typeInto call' node s) :=
  agree_bind hP (follows_modify fun w => advances_writeSink w .input node s).agree fun _ =>
    agree_dispatch hP hcall node _

end Act

/-! ### Compiling -/

namespace Setting

open Act

variable (t : Setting σ)

/-- What a compilation does at a node advances worlds. -/
theorem writes_advances (n : NodeId) : t.Writes Advances n where
  display _ _ := advances_newEffect _ _ _ _
  render _ _ := advances_newEffect _ _ _ _
  shows w sink s := advances_writeSink w sink _ s
  method f _ _ event := advances_modifyDocument (.listen n event f.2) fun _ _ => rfl
  writeBack _ expression :=
    advances_modifyDocument (.listen n "input" (.writeBack ⟨expression⟩ t.model)) fun _ _ => rfl
  remove _ name := advances_modifyDocument (.removeAttribute n name) fun _ _ => rfl

/-- Compiling a template, to its end or up to a fault. -/
theorem advances_compile (root : NodeId) : Follows Advances (t.compile root) :=
  follows_compile t.writes_advances
    (fun _ => advances_modifyDocument (.take root) fun _ _ => rfl)
    fun _ _ => advances_modifyDocument (.append root _) fun _ _ => rfl

theorem advances_instantiate (root : NodeId) : Follows Advances (t.instantiate root) :=
  follows_bind (follows_modify fun _ => .other rfl rfl rfl rfl) fun _ => advances_compile t root

end Setting

namespace Act

/-! ### View models -/

theorem advances_intercept (data : Plain) : Follows (Advances (σ := σ)) (intercept data) := by
  refine follows_bind_get fun w => ?_
  rw [Store.interceptRoot]
  split
  · rename_i s m h
    have hs : s = (w.store.intercept data).1 := by rw [h]
    exact hs ▸ .turn w (.intercept data)
  · exact .refl w

/-- A view model is added that proxies keys of its model. -/
theorem advances_addViewModel (vm : ViewModel) {w : World σ}
    (h : ∀ key ∈ vm.proxied, key ∈ w.store.keys vm.model) :
    Advances w ((addViewModel vm).runOn w).2 := .enroll w h

theorem advances_newViewModel (document : DocumentId) (b : Blueprint σ) :
    Follows Advances (newViewModel document b) := by
  refine follows_bind (advances_intercept _) fun model => ?_
  dsimp only
  split
  · exact fun w => advances_addViewModel _ fun key hkey => absurd hkey List.not_mem_nil
  · refine follows_bind_get fun w => ?_
    refine rel_bind (follows_ofExcept _ w) fun root w₁ hroot => ?_
    obtain ⟨-, rfl⟩ := Prod.mk.inj hroot
    -- The keys are looked up in the world in which the view model is added.
    refine rel_bind (follows_get w) fun w₁ w₂ hget => ?_
    obtain ⟨⟨⟩, rfl⟩ := Prod.mk.inj hget
    refine rel_bind (advances_addViewModel _ fun key hkey => ?_) fun id w₁ _ => ?_
    · split at hkey
      · exact hkey
      · exact absurd hkey List.not_mem_nil
    · exact follows_bind (Setting.advances_instantiate _ root) (fun scope =>
        follows_bind (follows_modify fun u => .bind u id scope) fun _ => follows_pure _) w₁

end Act

end LiveBinding
