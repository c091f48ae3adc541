import LiveBinding.Proofs.Evolution.Owners
import LiveBinding.Scene.Run

/-!
# Every step of a scene evolves the world

Requests look things up, read and write models, construct effects, compile templates, edit
documents, fire events and give names. Each of them evolves the world, provided that user code
does. User code is scripts, which make requests; by induction on the depth to which user code
calls itself, it does.

## Key results

- `follows_perform`: a step, with whatever it contains
- `invoke_evolves`: user code, to every depth
- `evolves_step`, `evolves_after`: the steps of a scene
-/

namespace LiveBinding

open World Act

/-- A world can become another one while the method of a view model may be running. -/
def Serves (receiver : Option ViewModelId) (w w' : SceneWorld) : Prop :=
  (∀ vm, receiver = some vm → vm ∈ w.receivers) → Evolves .free w w'

instance (receiver : Option ViewModelId) : IsPreorder SceneWorld (Serves receiver) where
  refl w _ := .refl w
  trans w₁ w₂ w₃ h h' hw := by
    have h₁ := h hw
    refine h₁.trans (h' ?_)
    rwa [h₁.sameFrames.receivers_eq]

instance : IsPreorder SceneWorld Eq where
  refl _ := rfl
  trans _ _ _ := Eq.trans

theorem follows_serves {α : Type} {act : SceneAct α} (h : Follows (Evolves .free) act)
    (receiver : Option ViewModelId) : Follows (Serves receiver) act :=
  h.mono fun _ _ he _ => he

namespace SceneAct

/-! ### Looking things up -/

theorem looks_require {α : Type} (a : Option α) : Looks (require a) := by
  intro w
  cases a <;> rfl

/-- What was found was there. -/
theorem found_of_runOn {α : Type} {f : SceneWorld → Option α} {w w' : SceneWorld} {a : α}
    (h : (do require (f (← get)) : SceneAct α).runOn w = (.ok a, w')) : w' = w ∧ f w = some a := by
  rw [runOn_bind, runOn_get] at h
  dsimp only at h
  cases hf : f w with
  | none =>
    rw [hf] at h
    cases h
  | some b =>
    rw [hf] at h
    obtain ⟨⟨⟩, rfl⟩ := Prod.mk.inj h
    exact ⟨rfl, rfl⟩

theorem looks_found {α : Type} (f : SceneWorld → Option α) :
    Looks (do require (f (← get)) : SceneAct α) :=
  follows_bind_get fun w => looks_require (f w) w

theorem looks_modelNamed (name : String) : Looks (modelNamed name) := looks_found _

theorem looks_effectNamed (name : String) : Looks (effectNamed name) := looks_found _

theorem looks_scopeNamed (name : String) : Looks (scopeNamed name) := looks_found _

theorem looks_viewModelRecord (id : ViewModelId) : Looks (viewModelRecord id) := looks_found _

theorem looks_viewModelNamed (env : Received) (name : Option String) :
    Looks (viewModelNamed env name) := by
  cases name with
  | none => exact looks_require _
  | some name => exact looks_found _

theorem looks_currentDocument : Looks currentDocument := fun _ => rfl

theorem looks_nodeAt (e : NodeExpr) : Looks (nodeAt e) := by
  refine follows_bind looks_currentDocument fun d => ?_
  dsimp only
  split
  · exact follows_bind follows_get fun w =>
      follows_bind (looks_require _) fun _ => looks_require _
  · exact follows_bind (looks_require _) fun _ => looks_require _

/-- A request that looks at the current document and at one of its nodes. -/
theorem looks_lookAt {f : NodeId → Document (Listener Script) → Answer} (node : NodeExpr) :
    Looks (do
      let n ← nodeAt node
      return f n (← currentDocument) : SceneAct Answer) :=
  follows_bind (looks_nodeAt node) fun _ => follows_bind looks_currentDocument fun _ =>
    follows_pure _

theorem looks_containerAt (c : ContainerRef) : Looks (containerAt c) := by
  refine follows_bind (looks_modelNamed _) fun root => ?_
  split
  · exact follows_pure _
  · exact follows_bind_get fun _ => rfl

theorem looks_locate (r : CellRef) : Looks (locate r) := by
  refine follows_bind (looks_containerAt _) fun v => ?_
  split
  · exact follows_pure _
  · exact follows_pure _
  · exact follows_throw _

theorem looks_cellAt (r : CellRef) : Looks (cellAt r) :=
  follows_bind (looks_locate r) fun _ => looks_found _

theorem looks_view (v : Value) : Looks (view v) := fun _ => rfl

theorem looks_viewOption (v : Option Value) : Looks (viewOption v) := by
  cases v with
  | none => exact follows_pure _
  | some v => exact looks_view v

theorem looks_effectInfo (e : EffectId) : Looks (effectInfo e) :=
  follows_bind follows_get fun _ => follows_bind (looks_require _) fun _ => follows_pure _

theorem looks_scopeInfo (s : Scope) : Looks (scopeInfo s) :=
  follows_bind (follows_mapM looks_effectInfo _) fun _ => follows_pure _

theorem looks_viewModelInfo (vm : ViewModel) : Looks (viewModelInfo vm) := fun _ => rfl

theorem looks_refer (n : NodeId) : Looks (refer n) := fun _ => rfl

/-! ### Changing names and documents -/

variable {receiver : Option ViewModelId}

theorem follows_modifyNames {f : Names → Names}
    (h : ∀ w : SceneWorld, Change w { w with names := f w.names }) :
    Follows (Serves receiver) (modifyNames f) :=
  follows_serves (follows_modify fun w => .change (h w)) receiver

/-- Models and nodes own no effect. -/
theorem follows_modifyNames_of_eq {f : Names → Names}
    (he : ∀ names, (f names).effects = names.effects)
    (hs : ∀ names, (f names).scopes = names.scopes)
    (hv : ∀ names, (f names).viewModels = names.viewModels) :
    Follows (Serves receiver) (modifyNames f) :=
  follows_modifyNames fun w => change_rename w (fun _ hf => he w.names ▸ hf)
    (fun _ hf _ hm => isHeld_of_mem_scope (hs w.names ▸ hf) hm)
    (fun _ hf => isViewModelAlive_of_mem (hv w.names ▸ hf))

theorem follows_keepNode (keep : Option String) (n : NodeId) :
    Follows (Serves receiver) (keepNode keep n) := by
  cases keep with
  | none => exact follows_pure _
  | some name => exact follows_modifyNames_of_eq (fun _ => rfl) (fun _ => rfl) fun _ => rfl

theorem follows_edit {f : Document (Listener Script) → Document (Listener Script)}
    (h : ∀ d, Document.Keeps Document.nothing d (f d)) : Follows (Serves receiver) (edit f) := by
  refine follows_serves (follows_modify fun w => ?_) receiver
  have hkeep : w.DocumentsKeep (fun _ node => node ∈ []) (w.modifyDocument w.current f) :=
    documentsKeep_modifyDocument w w.current fun d => (h d).mono fun _ _ => False.elim
  exact .change (.redraw w w.current hkeep)

theorem follows_touch (n : NodeId) {f : Document (Listener Script) → Document (Listener Script)}
    (h : ∀ d, Document.Keeps (fun _ m => m = n) d (f d)) :
    Follows (Serves receiver) (touch n f) := by
  refine follows_serves (follows_modify fun w => ?_) receiver
  have hkeep : w.DocumentsKeep (fun _ node => node ∈ [(⟨w.current, n⟩ : NodeRef)])
      (w.modifyDocument w.current f) :=
    documentsKeep_modifyDocument w w.current fun d => (h d).mono fun _ m hm => by simp [hm]
  exact .change (.redraw w w.current hkeep)

/-! ### Building values -/

theorem follows_build (p : Plain) : Follows (Serves receiver) (build p) := by
  refine follows_serves (fun w => ?_) receiver
  exact .change (.extend w (w.store.extends_intercept p))

theorem follows_eval (env : Received) (e : Expr) : Follows (Serves receiver) (eval env e) := by
  cases e with
  | plain p => exact follows_build p
  | number x => exact follows_pure _
  | model name path =>
    cases path with
    | none => exact follows_bind (looks_modelNamed name).follows fun _ => follows_pure _
    | some path =>
      exact follows_bind (looks_modelNamed name).follows fun _ =>
        follows_bind follows_get fun _ => follows_ofExcept _
  | emptyMapping => exact follows_build _
  | emptySequence => exact follows_build _
  | received => exact follows_pure _

theorem follows_intercept (data : Plain) : Follows (Serves receiver) (Act.intercept data) := by
  refine follows_serves (fun w => ?_) receiver
  rw [runOn_intercept]
  cases hbuilt : w.store.interceptRoot data with
  | error f => exact .refl w
  | ok built => exact .change (.extend w (extends_interceptRoot hbuilt))

/-! ### Requests -/

variable {call : Call Script}

theorem follows_performModel (hcall : call.Evolves) (env : Received) (s : ModelStep) :
    Follows (Serves env.receiver) (performModel call env s) := by
  cases s with
  | create name data =>
    exact follows_bind (follows_intercept data) fun _ =>
      follows_bind (follows_modifyNames_of_eq (fun _ => rfl) (fun _ => rfl) fun _ => rfl) fun _ =>
        follows_bind follows_get fun _ => follows_pure _
  | get name path =>
    exact follows_bind (looks_modelNamed name).follows fun _ =>
      follows_bind (follows_serves (follows_readAlong _ _ _) _) fun v => (looks_view v).follows
  | kind name path =>
    exact follows_bind (looks_modelNamed name).follows fun _ =>
      follows_bind (follows_serves (follows_readAlong _ _ _) _) fun _ => follows_pure _
  | set name path e =>
    exact follows_bind (follows_eval env e) fun v =>
      follows_bind (looks_modelNamed name).follows fun _ =>
        follows_bind (follows_serves (follows_write hcall _ _ v) _) fun _ => follows_pure _
  | read cell =>
    refine follows_bind (looks_locate cell).follows fun location => ?_
    cases location with
    | key m key =>
      exact follows_bind (follows_serves (follows_readKey m key) _) fun v =>
        (looks_viewOption v).follows
    | item q i =>
      exact follows_bind (follows_serves (follows_readItem q i) _) fun v =>
        (looks_viewOption v).follows
  | peek cell =>
    exact follows_bind (looks_locate cell).follows fun _ =>
      follows_bind follows_get fun _ => (looks_viewOption _).follows
  | write cell e =>
    refine follows_bind (follows_eval env e) fun v => ?_
    refine follows_bind (looks_locate cell).follows fun location => ?_
    cases location with
    | key m key =>
      exact follows_bind (follows_serves (follows_writeKey hcall m key v) _) fun _ =>
        follows_pure _
    | item q i =>
      exact follows_bind (follows_serves (follows_writeItem hcall q i v) _) fun _ =>
        follows_pure _
  | push container e =>
    refine follows_bind (follows_eval env e) fun v => ?_
    refine follows_bind (looks_containerAt container).follows fun c => ?_
    cases c with
    | sequence q =>
      exact follows_bind (follows_serves (follows_push hcall q v) _) fun _ =>
        follows_bind follows_get fun _ => follows_pure _
    | _ => exact follows_throw _
  | shape container key =>
    refine follows_bind follows_get fun w => ?_
    refine follows_bind (looks_containerAt container).follows fun c => ?_
    cases c <;> exact follows_pure _
  | same a b =>
    exact follows_bind (follows_eval env a) fun _ => follows_bind (follows_eval env b) fun _ =>
      follows_pure _

/-- Registering an effect by hand is recorded. -/
theorem follows_register (env : Received) (cell : CellRef) (name : String) :
    Follows (Serves env.receiver) (performCell call env (.register cell name)) := by
  refine follows_bind (looks_cellAt cell).follows fun c w => ?_
  refine rel_bind ((looks_effectNamed name).follows w) fun e w' hr _ => ?_
  obtain ⟨rfl, he⟩ := found_of_runOn hr
  obtain ⟨f, hf, rfl⟩ := Fields.exists_mem_of_get? he
  exact .change (.enlist w' c hf)

theorem follows_performCell (hcall : call.Evolves) (env : Received) (s : CellStep) :
    Follows (Serves env.receiver) (performCell call env s) := by
  cases s with
  | watchers cell =>
    exact follows_bind (looks_cellAt cell).follows fun _ => follows_bind follows_get fun _ =>
      follows_pure _
  | get cell =>
    exact follows_bind (looks_cellAt cell).follows fun c =>
      follows_bind (follows_serves (follows_readCell c) _) fun v => (looks_view v).follows
  | set cell e =>
    exact follows_bind (follows_eval env e) fun v =>
      follows_bind (looks_cellAt cell).follows fun c =>
        follows_bind (follows_serves (follows_setCell hcall c v) _) fun _ => follows_pure _
  | notify cell =>
    exact follows_bind (looks_cellAt cell).follows fun c =>
      follows_bind (follows_serves (follows_notify hcall c) _) fun _ => follows_pure _
  | register cell name => exact follows_register env cell name

theorem follows_createEffect (env : Received) (name model : String) (path : KeyPath) (gated : Bool)
    (code : Script) :
    Follows (Serves env.receiver) (performEffect call (.create name model path gated code)) := by
  refine follows_bind (looks_modelNamed model).follows fun root w _ => ?_
  rw [runOn_bind, runOn_newEffect]
  cases hv : w.store.get path root with
  | error f =>
    exact .change (.construct (constructs_of_fault (grows_construct _ w) rfl (fun _ h => h)
      (entrusts_of_eq rfl rfl)))
  | ok v => exact .change (.construct (constructs_nameEffect w name hv))

theorem follows_hold (env : Received) (scope name : String) :
    Follows (Serves env.receiver) (performEffect call (.hold scope name)) := by
  intro w
  refine rel_bind ((looks_scopeNamed scope).follows w) fun s w' hs => ?_
  obtain ⟨rfl, hs⟩ := found_of_runOn hs
  obtain ⟨f, hf, rfl⟩ := Fields.exists_mem_of_get? hs
  refine rel_bind ((looks_effectNamed name).follows w') fun e w hr _ => ?_
  obtain ⟨rfl, he⟩ := found_of_runOn hr
  obtain ⟨g, hg, rfl⟩ := Fields.exists_mem_of_get? he
  refine .change (change_rename w (fun _ hf => Fields.mem_of_mem_erase hf) (fun h hh e hm => ?_)
    fun _ hf => isViewModelAlive_of_mem hf)
  rcases Fields.eq_or_mem_of_mem_put hh with rfl | hh
  · rcases List.mem_append.1 hm with hm | hm
    · exact isHeld_of_mem_scope hf hm
    · rw [List.mem_singleton.1 hm]
      exact isHeld_of_mem_effects hg
  · exact isHeld_of_mem_scope hh hm

/-- A scope that has a name counts one more listener. -/
theorem follows_recordListener (env : Received) (scope : String) :
    Follows (Serves env.receiver) (performEffect call (.recordListener scope)) := by
  intro w
  refine rel_bind ((looks_scopeNamed scope).follows w) fun s w' hs _ => ?_
  obtain ⟨rfl, hs⟩ := found_of_runOn hs
  obtain ⟨f, hf, rfl⟩ := Fields.exists_mem_of_get? hs
  refine .change (change_rename w' (fun _ hf => hf) (fun h hh e hm => ?_)
    fun _ hf => isViewModelAlive_of_mem hf)
  rcases Fields.eq_or_mem_of_mem_put hh with rfl | hh
  · exact isHeld_of_mem_scope hf hm
  · exact isHeld_of_mem_scope hh hm

theorem follows_performEffect (hcall : call.Evolves) (env : Received) (s : EffectStep Script) :
    Follows (Serves env.receiver) (performEffect call s) := by
  cases s with
  | create name model path gated code => exact follows_createEffect env name model path gated code
  | update name =>
    intro w
    refine rel_bind ((looks_effectNamed name).follows w) fun e w' he => ?_
    obtain ⟨rfl, he⟩ := found_of_runOn he
    obtain ⟨f, hf, rfl⟩ := Fields.exists_mem_of_get? he
    exact rel_bind (fun _ => evolves_holding_update hcall hf) fun _ _ _ _ => .refl _
  | info name =>
    exact follows_bind (looks_effectNamed name).follows fun e =>
      follows_bind (looks_effectInfo e).follows fun _ => follows_pure _
  | drop name =>
    refine follows_bind follows_get fun w => follows_bind ?_ fun _ => follows_pure _
    exact follows_modifyNames fun w => change_rename w (fun _ hf => Fields.mem_of_mem_erase hf)
      (fun _ hf _ hm => isHeld_of_mem_scope hf hm) fun _ hf => isViewModelAlive_of_mem hf
  | createScope scope =>
    refine follows_bind ?_ fun _ => follows_pure _
    refine follows_modifyNames fun w => change_rename w (fun _ hf => hf) (fun f hf e hm => ?_)
      fun _ hf => isViewModelAlive_of_mem hf
    rcases Fields.eq_or_mem_of_mem_put hf with rfl | hf
    · cases hm
    · exact isHeld_of_mem_scope hf hm
  | hold scope name => exact follows_hold env scope name
  | recordListener scope => exact follows_recordListener env scope
  | dropScope scope =>
    refine follows_bind follows_get fun w => follows_bind ?_ fun _ => follows_pure _
    exact follows_modifyNames fun w => change_rename w (fun _ hf => hf)
      (fun _ hf _ hm => isHeld_of_mem_scope (Fields.mem_of_mem_erase hf) hm)
      fun _ hf => isViewModelAlive_of_mem hf
  | scopeInfo scope =>
    exact follows_bind (looks_scopeNamed scope).follows fun s => (looks_scopeInfo s).follows
  | tracking => exact follows_bind follows_get fun _ => follows_pure _

theorem follows_compile (env : Received) (scope : String) (node : NodeExpr) (model : String)
    (methods : List (String × Script)) (gated : Bool) :
    Follows (Serves env.receiver)
      (performTemplate call env (.compile scope node model methods gated)) := by
  refine follows_bind (looks_nodeAt node).follows fun n => ?_
  refine follows_bind (looks_modelNamed model).follows fun root => ?_
  refine follows_bind_get fun w => ?_
  let t : Setting Script :=
    ⟨w.current, root, .ofList (methods.map fun m => (m.1, Listener.run m.2)), gated⟩
  have hbegin : Evolves .free w w.begin := .change (.begin w)
  have hbuilds : Builds w.begin.effects.size .empty w.begin ((t.compile n).runOn w.begin) :=
    Setting.builds_compile _ n (Nat.le_refl _)
  change Serves env.receiver w (((t.instantiate n >>= fun made => modifyNames (fun names =>
    { names with scopes := names.scopes.put scope made }) >>= fun _ => scopeInfo made).runOn w).2)
  rw [runOn_bind, t.runOn_instantiate]
  rcases hr : (t.compile n).runOn w.begin with ⟨f | made, w'⟩
  · rw [hr] at hbuilds
    exact fun _ => hbegin.trans (.change (.construct hbuilds.constructs_of_fault))
  · rw [hr] at hbuilds
    intro _
    change Evolves .free w ((scopeInfo made).runOn
      { w' with names := { w'.names with scopes := w'.names.scopes.put scope made } }).2
    rw [(looks_scopeInfo made).runOn_snd]
    exact hbegin.trans (.change (.construct (hbuilds.constructs_nameScope scope)))

theorem looks_mountOf (m : MountRef) : Looks (mountOf m) := by
  cases m with
  | node e => exact follows_bind (looks_nodeAt e) fun _ => follows_pure _
  | selector s => exact follows_pure _

theorem looks_mounts (mount : Option MountRef) : Looks (mount.mapM mountOf) := by
  cases mount with
  | none => exact follows_pure _
  | some m => exact follows_map (looks_mountOf m) _

theorem follows_createViewModel (env : Received) (name : String) (mount : Option MountRef)
    (data : Plain) (methods : List (String × Script)) (config : Config) (debug : Bool) :
    Follows (Serves env.receiver)
      (performTemplate call env (.create name mount data methods config debug)) := by
  refine follows_bind (looks_mounts mount).follows fun mount => ?_
  refine follows_bind_get fun w _ => ?_
  obtain ⟨u, hfree, hprepares⟩ := prepares_newViewModel w.current ⟨mount, data, methods, config⟩ w
  refine .trans hfree (.change (.construct ?_))
  rw [runOn_bind]
  rcases hr : (newViewModel w.current ⟨mount, data, methods, config⟩).runOn w with ⟨f | id, w'⟩
  · rw [hr] at hprepares
    exact hprepares.constructs_of_fault
  · rw [hr] at hprepares
    obtain ⟨vm, hvm⟩ := hprepares.exists_record id rfl
    have hrecord : (viewModelRecord id).runOn w' = (.ok vm, w') := by
      change (require w'.viewModels[id]?).runOn w' = _
      rw [hvm]
      rfl
    dsimp only
    rw [runOn_bind, hrecord]
    exact hprepares.constructs_nameViewModel name (w'.names.models.put name vm.model)

/-- The view model that a request is about is in use: it has a name, or its method is running. -/
theorem isViewModelAlive_of_named {env : Received} {name : Option String} {w w' : SceneWorld}
    {id : ViewModelId} (hw : ∀ vm, env.receiver = some vm → vm ∈ w.receivers)
    (h : (viewModelNamed env name).runOn w = (.ok id, w')) :
    w' = w ∧ w.isViewModelAlive id = true := by
  refine ⟨(looks_viewModelNamed env name).eq_of_runOn h, ?_⟩
  cases name with
  | none =>
    rw [viewModelNamed] at h
    cases hreceiver : env.receiver with
    | none =>
      rw [hreceiver] at h
      cases h
    | some vm =>
      rw [hreceiver] at h
      obtain ⟨⟨⟩, -⟩ := Prod.mk.inj h
      exact isViewModelAlive_iff.2 (.inr (hw id hreceiver))
  | some name =>
    obtain ⟨-, hfound⟩ := found_of_runOn h
    obtain ⟨f, hf, rfl⟩ := Fields.exists_mem_of_get? hfound
    exact isViewModelAlive_of_mem hf

/-- An assignment through a view model. -/
theorem follows_assignThrough (env : Received) (name : Option String)
    {assign : ViewModel → SceneAct Unit} (h : ∀ vm, Follows (Evolves .free) (assign vm)) :
    Follows (Serves env.receiver) (assignThrough env name assign) := by
  intro w
  refine rel_bind ((looks_viewModelNamed env name).follows w) fun id w' hid hw => ?_
  obtain rfl := (looks_viewModelNamed env name).eq_of_runOn hid
  have hvm := (isViewModelAlive_of_named hw hid).2
  refine rel_bind (R := Evolves .free) ((looks_viewModelRecord id).follows w') fun vm w hr => ?_
  obtain rfl := (looks_viewModelRecord id).eq_of_runOn hr
  exact rel_bind (evolves_serving hvm (h vm _)) fun _ _ _ => .refl _

/-- A view model that has a name, or whose method is running, gets another name. -/
theorem follows_nameAgain (env : Received) (name : Option String) (other : String) :
    Follows (Serves env.receiver) (performTemplate call env (.nameAgain name other)) := by
  intro w hw
  change Evolves .free w ((viewModelNamed env name >>= fun id => modifyNames (fun names =>
    { names with viewModels := names.viewModels.put other id }) >>= fun _ =>
      pure Answer.nothing).runOn w).2
  rw [runOn_bind]
  rcases hr : (viewModelNamed env name).runOn w with ⟨f | id, w'⟩
  · rw [(looks_viewModelNamed env name).eq_of_runOn hr]
    exact .refl w
  · obtain ⟨rfl, halive⟩ := isViewModelAlive_of_named hw hr
    refine .change (change_rename w' (fun _ hf => hf) (fun _ hf _ hm => isHeld_of_mem_scope hf hm)
      fun f hf => ?_)
    rcases Fields.eq_or_mem_of_mem_put hf with rfl | hf
    · exact halive
    · exact isViewModelAlive_of_mem hf

theorem follows_performTemplate (hcall : call.Evolves) (env : Received) (s : TemplateStep Script) :
    Follows (Serves env.receiver) (performTemplate call env s) := by
  cases s with
  | compile scope node model methods gated =>
    exact follows_compile env scope node model methods gated
  | create name mount data methods config debug =>
    exact follows_createViewModel env name mount data methods config debug
  | info name =>
    exact follows_bind (looks_viewModelNamed env _).follows fun id =>
      follows_bind (looks_viewModelRecord id).follows fun vm =>
        follows_bind (looks_viewModelInfo vm).follows fun _ => follows_pure _
  | get name key =>
    exact follows_bind (looks_viewModelNamed env name).follows fun id =>
      follows_bind (looks_viewModelRecord id).follows fun vm =>
        follows_bind (follows_serves (follows_getProxied vm key) _) fun v => (looks_view v).follows
  | set name key e =>
    exact follows_bind (follows_eval env e) fun v =>
      follows_assignThrough env name fun vm => follows_setProxied hcall vm key v
  | read name path =>
    exact follows_bind (looks_viewModelNamed env name).follows fun id =>
      follows_bind (looks_viewModelRecord id).follows fun vm =>
        follows_bind (follows_serves (follows_readAlong _ _ _) _) fun v => (looks_view v).follows
  | write name path e =>
    exact follows_bind (follows_eval env e) fun v =>
      follows_assignThrough env name fun vm => follows_write hcall path vm.model v
  | same name other =>
    exact follows_bind (looks_viewModelNamed env name).follows fun _ =>
      follows_bind (looks_viewModelNamed env _).follows fun _ => follows_pure _
  | nameAgain name other => exact follows_nameAgain env name other
  | drop name =>
    refine follows_bind follows_get fun w => follows_bind ?_ fun _ => follows_pure _
    exact follows_modifyNames fun w => change_rename w (fun _ hf => hf)
      (fun _ hf _ hm => isHeld_of_mem_scope hf hm)
      fun _ hf => isViewModelAlive_of_mem (Fields.mem_of_mem_erase hf)

/-- A new document becomes the current one. -/
theorem follows_replace (receiver : Option ViewModelId) (source : String) :
    Follows (Serves receiver) (performDocument call (.replace source)) := by
  refine follows_bind (follows_serves (follows_modify fun w => ?_) _) fun _ => follows_pure _
  have hkeep : w.DocumentsKeep (fun _ node => node ∈ [])
      { w with documents := w.documents.push (.ofMarkup source) } := by
    intro i d hd
    refine ⟨d, ?_, .refl _ d⟩
    rw [Array.getElem?_push, if_neg (Nat.ne_of_lt (Array.getElem?_eq_some_iff.1 hd).1), hd]
  exact .change (.redraw w w.documents.size hkeep)

/-- A new node is made, which leaves the others alone. -/
theorem follows_make (receiver : Option ViewModelId)
    {make : Document (Listener Script) → Document (Listener Script) × NodeId}
    (hmake : ∀ d, Document.Keeps Document.nothing d (make d).1) (keep : Option String) :
    Follows (Serves receiver) (do
      let made := make (← currentDocument)
      edit fun _ => made.1
      keepNode keep made.2
      return .node made.2 : SceneAct Answer) := by
  refine follows_bind_get fun w => ?_
  refine rel_bind ?_ fun _ w' _ =>
    follows_bind (follows_keepNode keep _) (fun _ => follows_pure _) w'
  have hkeep : w.DocumentsKeep (fun _ node => node ∈ [])
      (w.modifyDocument w.current fun _ => (make (w.document w.current)).1) := by
    refine documentsKeep_modifyDocument_of_some w w.current fun d hd => ?_
    rw [World.document, hd]
    exact (hmake d).mono fun _ _ => False.elim
  exact fun _ => .change (.redraw w w.current hkeep)

theorem follows_performDocument (hcall : call.Evolves) (receiver : Option ViewModelId)
    (s : DocumentStep Script) : Follows (Serves receiver) (performDocument call s) := by
  cases s with
  | replace source => exact follows_replace receiver source
  | nodeCount => exact follows_bind looks_currentDocument.follows fun _ => follows_pure _
  | createElement tag keep =>
    exact follows_make receiver (fun d => Document.keeps_add d _ _) keep
  | createText s keep => exact follows_make receiver (fun d => Document.keeps_add d _ _) keep
  | save node keep =>
    exact follows_bind (looks_nodeAt node).follows fun n =>
      follows_bind (follows_keepNode _ n) fun _ => follows_pure _
  | find selector start keep =>
    have hfound (n : NodeId) : Follows (Serves receiver)
        (do keepNode keep n; return .node n : SceneAct Answer) :=
      follows_bind (follows_keepNode keep n) fun _ => follows_pure _
    cases start with
    | none =>
      refine follows_bind (follows_pure _) fun start => ?_
      refine follows_bind looks_currentDocument.follows fun d => ?_
      cases d.find? start selector with
      | none => exact follows_pure _
      | some n => exact hfound n
    | some e =>
      refine follows_bind (looks_nodeAt e).follows fun start => ?_
      refine follows_bind looks_currentDocument.follows fun d => ?_
      cases d.find? start selector with
      | none => exact follows_pure _
      | some n => exact hfound n
  | resolve selector keep =>
    exact follows_bind looks_currentDocument.follows fun _ =>
      follows_bind (follows_ofExcept _) fun n =>
        follows_bind (follows_keepNode keep n) fun _ => follows_pure _
  | append node children =>
    exact follows_bind (looks_nodeAt node).follows fun n =>
      follows_bind (follows_mapM (fun e => (looks_nodeAt e).follows) children) fun cs =>
        follows_bind (follows_edit fun d => Document.keeps_appendChildren d n cs) fun _ =>
          follows_pure _
  | take node keep =>
    refine follows_bind (looks_nodeAt node).follows fun n => ?_
    refine follows_bind looks_currentDocument.follows fun d => ?_
    refine follows_bind (follows_edit fun d => Document.keeps_detachChildren d n) fun _ => ?_
    cases keep with
    | none => exact follows_pure _
    | some name =>
      exact follows_bind (follows_modifyNames_of_eq (fun _ => rfl) (fun _ => rfl) fun _ => rfl)
        fun _ => follows_pure _
  | children node => exact (looks_lookAt node).follows
  | parent node => exact (looks_lookAt node).follows
  | tag node => exact (looks_lookAt node).follows
  | sort node => exact (looks_lookAt node).follows
  | attributes node => exact (looks_lookAt node).follows
  | getAttribute node name => exact (looks_lookAt node).follows
  | setAttribute node name value =>
    exact follows_bind (looks_nodeAt node).follows fun n =>
      follows_bind (follows_touch n fun d => Document.keeps_setAttribute d n name value rfl)
        fun _ => follows_pure _
  | removeAttribute node name =>
    exact follows_bind (looks_nodeAt node).follows fun n =>
      follows_bind (follows_touch n fun d => Document.keeps_removeAttribute d n name rfl)
        fun _ => follows_pure _
  | text node => exact (looks_lookAt node).follows
  | setText node s =>
    exact follows_bind (looks_nodeAt node).follows fun n =>
      follows_bind (follows_touch n fun d => Document.keeps_setText d n s rfl) fun _ =>
        follows_pure _
  | setMarkup node source =>
    exact follows_bind (looks_nodeAt node).follows fun n =>
      follows_bind (follows_touch n fun d => Document.keeps_setMarkup d n source) fun _ =>
        follows_pure _
  | outerHtml node => exact (looks_lookAt node).follows
  | innerHtml node => exact (looks_lookAt node).follows
  | inputValue node => exact (looks_lookAt node).follows
  | setInputValue node value =>
    exact follows_bind (looks_nodeAt node).follows fun n =>
      follows_bind (follows_touch n fun d => Document.keeps_setInputValue d n value rfl) fun _ =>
        follows_pure _
  | listen node event code =>
    exact follows_bind (looks_nodeAt node).follows fun n =>
      follows_bind (follows_edit fun d => Document.keeps_addListener d n event (.run code)) fun _ =>
        follows_pure _
  | listeners node event => exact (looks_lookAt node).follows
  | dispatch node event =>
    exact follows_bind (looks_nodeAt node).follows fun n =>
      follows_bind (looks_refer n).follows fun ref =>
        follows_bind (follows_serves (follows_dispatch hcall ref event) _) fun _ => follows_pure _
  | click node =>
    exact follows_bind (looks_nodeAt node).follows fun n =>
      follows_bind (looks_refer n).follows fun ref =>
        follows_bind (follows_serves (follows_dispatch hcall ref _) _) fun _ => follows_pure _
  | typeInto node s =>
    exact follows_bind (looks_nodeAt node).follows fun n =>
      follows_bind (looks_refer n).follows fun ref =>
        follows_bind (follows_serves (follows_typeInto hcall ref s) _) fun _ => follows_pure _

/-- A debug text changes only what its expression does. -/
theorem follows_performDebug {R : SceneWorld → SceneWorld → Prop} [IsPreorder SceneWorld R]
    {env : Received} (heval : ∀ e, Follows R (eval env e)) (s : DebugStep) :
    Follows R (performDebug env s) := by
  cases s with
  | value e =>
    exact follows_bind (heval e) fun _ => follows_bind follows_get fun _ => follows_pure _
  | cell cell =>
    exact follows_bind (looks_cellAt cell).follows fun _ => follows_bind follows_get fun _ =>
      follows_pure _
  | watchers cell =>
    exact follows_bind (looks_cellAt cell).follows fun _ => follows_bind follows_get fun _ =>
      follows_pure _
  | effect name =>
    exact follows_bind (looks_effectNamed name).follows fun _ => follows_bind follows_get fun _ =>
      follows_bind (looks_require _).follows fun _ => follows_pure _
  | scope name => exact follows_bind (looks_scopeNamed name).follows fun _ => follows_pure _
  | document => exact follows_bind looks_currentDocument.follows fun _ => follows_pure _
  | viewModel name =>
    exact follows_bind (looks_viewModelNamed env _).follows fun id =>
      follows_bind (looks_viewModelRecord id).follows fun _ => follows_bind follows_get fun _ =>
        follows_pure _
  | mountNode node => exact follows_bind (looks_nodeAt node).follows fun _ => follows_pure _
  | mountSelector s => exact follows_pure _

end SceneAct

open SceneAct

/-! ### Steps and scripts -/

variable {call : Call Script}

mutual

/-- A step evolves the world. -/
theorem follows_perform (hcall : call.Evolves) (env : Received) :
    (s : Step) → Follows (Serves env.receiver) (s.perform call env)
  | .model s => follows_performModel hcall env s
  | .cell s => follows_performCell hcall env s
  | .effect s => follows_performEffect hcall env s
  | .template s => follows_performTemplate hcall env s
  | .document s => follows_performDocument hcall env.receiver s
  | .debug s => follows_performDebug (follows_eval env) s
  | .untracked steps => by
    intro w hw
    -- The steps start in the world in which collection is suspended.
    have hsteps : Follows (Serves env.receiver) (do
        let w ← get
        let answers ← Step.performAll call env steps
        return Answer.many (.ok (.tracking w.collectors.length w.isCollecting) :: answers)) :=
      follows_bind follows_get fun _ =>
        follows_bind (follows_performAll hcall env steps) fun _ => follows_pure _
    exact .suspended (hsteps w.suspend hw)
  | .malformed => follows_throw _

theorem follows_performAll (hcall : call.Evolves) (env : Received) :
    (steps : List Step) → Follows (Serves env.receiver) (Step.performAll call env steps)
  | [] => follows_pure _
  | s :: steps =>
    follows_bind (follows_attempt (follows_perform hcall env s)) fun _ =>
      follows_bind (follows_performAll hcall env steps) fun _ => follows_pure _

end

/-- A script evolves the world. -/
theorem follows_exec (hcall : call.Evolves) (env : Received) :
    (code : Script) → Follows (Serves env.receiver) (code.exec call env)
  | .done => follows_pure _
  | .fail f => follows_throw f
  | .log _ next =>
    follows_bind (follows_serves (follows_modify fun w => .change (.note w _)) _) fun _ =>
      follows_exec hcall env next
  | .note _ next =>
    follows_bind (follows_serves (follows_modify fun w => .change (.note w _)) _) fun _ =>
      follows_exec hcall env next
  | .step s next =>
    follows_bind (follows_attempt (follows_perform hcall env s)) fun answer =>
      follows_exec hcall env (next answer)

/-- User code that may run user code evolves the world, to every depth. -/
theorem invoke_evolves (depth : Nat) : Call.Evolves (Script.invoke depth) := by
  -- At depth zero user code does nothing.
  induction depth with
  | zero => exact fun _ _ w _ => .refl w
  | succ depth ih => exact fun code env w hw => follows_exec ih env code w hw

namespace Scene

/-- A step of a scene evolves the world. -/
theorem evolves_step (depth : Nat) (w : SceneWorld) (s : Step) :
    Evolves .free w (step depth w s).2 :=
  (follows_perform (invoke_evolves depth) ⟨.null, none⟩ s w fun _ h => by cases h).trans
    (.change (.note _ _))

/-- The world after several steps. -/
def after (depth : Nat) (w : SceneWorld) (steps : List Step) : SceneWorld :=
  steps.foldl (fun w s => (step depth w s).2) w

theorem after_append (depth : Nat) (w : SceneWorld) (steps later : List Step) :
    after depth w (steps ++ later) = after depth (after depth w steps) later :=
  List.foldl_append

/-- A run of steps evolves the world. -/
theorem evolves_after (depth : Nat) (w : SceneWorld) (steps : List Step) :
    Evolves .free w (after depth w steps) := by
  induction steps generalizing w with
  | nil => exact .refl w
  | cons s steps ih => exact (evolves_step depth w s).trans (ih _)

end Scene

end LiveBinding
