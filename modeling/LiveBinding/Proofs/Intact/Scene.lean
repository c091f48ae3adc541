import LiveBinding.Proofs.Evolution.Scene
import LiveBinding.Proofs.Intact.Engine

/-!
# Every step of a scene keeps the world intact

Requests make values in three ways: they build them from data, they look them up under a name or
along a path, or they pass on what their script has received. All of these are good in an intact
world, so that a request that stores a value leads the world onward. By induction on the depth to
which user code calls itself, scripts do, and every world that a run reaches is intact.

## Key definitions

- `Upholds`: a world goes onward, if it is intact and admits user code

## Key results

- `knows_of_eval`: the value that an expression stands for
- `upholds_perform`: a step, with whatever it contains
- `invoke_onward`: user code, to every depth
- `intact_after`: the worlds of a run
-/

namespace LiveBinding

open World Act

/-- A world goes onward, if it is intact and user code can run in it. -/
def Upholds (env : Received) (w w' : SceneWorld) : Prop := w.Intact → w.Admits env → w.Onward w'

instance (env : Received) : IsPreorder SceneWorld (Upholds env) where
  refl _ hw _ := hw.onward_self
  trans _ _ _ h h' hw henv := (h hw henv).trans (h' (h hw henv).intact ((h hw henv).admits henv))

/-- Nothing changes but the names of effects, scopes, view models and nodes. -/
structure Renames (w w' : SceneWorld) : Prop where
  store_eq : w'.store = w.store
  effects_eq : w'.effects = w.effects
  documents_eq : w'.documents = w.documents
  viewModels_eq : w'.viewModels = w.viewModels
  models_eq : w'.names.models = w.names.models

instance : IsPreorder SceneWorld Renames where
  refl _ := ⟨rfl, rfl, rfl, rfl, rfl⟩
  trans _ _ _ h h' := ⟨h'.1.trans h.1, h'.2.trans h.2, h'.3.trans h.3, h'.4.trans h.4,
    h'.5.trans h.5⟩

namespace SceneAct

variable {α : Type} {env : Received}

/-- What leads every intact world onward. -/
theorem upholds_of_intact {act : SceneAct α}
    (h : ∀ w : SceneWorld, w.Intact → w.Onward (act.runOn w).2) : Follows (Upholds env) act :=
  fun w hw _ => h w hw

/-- What gives names only to what is in use. -/
theorem upholds_of_renames {act : SceneAct α} (hserves : Follows (Serves env.receiver) act)
    (h : Follows Renames act) : Follows (Upholds env) act := by
  intro w hw henv
  obtain ⟨hstore, heffects, hdocuments, hviewModels, hmodels⟩ := h w
  exact hw.onward_of_evolves (hserves w henv.receives) (congrArg Array.size heffects)
    (hstore.symm ▸ hw.closed.widens_self) hmodels hviewModels hdocuments

theorem renames_modifyNames {f : Names → Names} (h : ∀ names, (f names).models = names.models) :
    Follows Renames (modifyNames f) :=
  follows_modify fun w => ⟨rfl, rfl, rfl, rfl, h w.names⟩

theorem upholds_keepNode (keep : Option String) (n : NodeId) :
    Follows (Upholds env) (keepNode keep n) := by
  refine upholds_of_renames (follows_keepNode keep n) ?_
  cases keep with
  | none => exact follows_pure _
  | some name => exact renames_modifyNames fun _ => rfl

/-! ### Values -/

/-- The root of a model that has a name. -/
theorem has_of_modelNamed {w w' : SceneWorld} (hw : w.Intact) {name : String} {root : MappingId}
    (h : (modelNamed name).runOn w = (.ok root, w')) : w' = w ∧ w.store.Has (.mapping root) := by
  obtain ⟨rfl, hfound⟩ := found_of_runOn h
  obtain ⟨f, hf, rfl⟩ := Fields.exists_mem_of_get? hfound
  exact ⟨rfl, hw.has_root f.2 (.inl ⟨f, hf, rfl⟩)⟩

theorem upholds_build (p : Plain) : Follows (Upholds env) (build p) :=
  upholds_of_intact fun w hw =>
    hw.onward_extend (w.store.extends_intercept p) (hw.closed.widens_intercept p).1

theorem upholds_eval (env : Received) (e : Expr) : Follows (Upholds env) (eval env e) := by
  cases e with
  | plain p => exact upholds_build p
  | number x => exact follows_pure _
  | model name path =>
    cases path with
    | none => exact follows_bind (looks_modelNamed name).follows fun _ => follows_pure _
    | some path =>
      exact follows_bind (looks_modelNamed name).follows fun _ =>
        follows_bind follows_get fun _ => follows_ofExcept _
  | emptyMapping => exact upholds_build _
  | emptySequence => exact upholds_build _
  | received => exact follows_pure _

/-- The value that an expression stands for is good. -/
theorem knows_of_eval {w w' : SceneWorld} (hw : w.Intact) (henv : w.Admits env) {e : Expr}
    {v : Value} (h : (eval env e).runOn w = (.ok v, w')) : w'.store.Knows v := by
  have hbuild (p : Plain) (h : (build p).runOn w = (.ok v, w')) : w'.store.Knows v := by
    cases h
    exact (hw.closed.widens_intercept p).2
  cases e with
  | plain p => exact hbuild p h
  | number x =>
    cases h
    trivial
  | model name path =>
    have hread (root : MappingId) (u : SceneWorld) (path : KeyPath)
        (h : (ofExcept (w.store.get path root)).runOn w = (.ok v, u)) : u.store.Knows v := by
      obtain ⟨hget, rfl⟩ := Prod.mk.inj h
      exact hw.closed.knows_of_get hget
    cases path with
    | none =>
      rw [eval, runOn_bind] at h
      rcases hr : (modelNamed name).runOn w with ⟨_ | root, u⟩
      · rw [hr] at h
        cases h
      · rw [hr] at h
        obtain ⟨rfl, hroot⟩ := has_of_modelNamed hw hr
        cases h
        exact hroot
    | some path =>
      rw [eval, runOn_bind] at h
      rcases hr : (modelNamed name).runOn w with ⟨_ | root, u⟩
      · rw [hr] at h
        cases h
      · rw [hr] at h
        obtain ⟨rfl, -⟩ := has_of_modelNamed hw hr
        exact hread root w' path h
  | emptyMapping => exact hbuild _ h
  | emptySequence => exact hbuild _ h
  | received =>
    cases h
    exact henv.knows

/-- A value that is good, and then an act that uses it: the value takes the place of what was
received. -/
theorem upholds_eval_bind (env : Received) (e : Expr) {f : Value → SceneAct α}
    (hf : ∀ v, Follows (Upholds ⟨v, env.receiver⟩) (f v)) :
    Follows (Upholds env) (eval env e >>= f) := fun w hw henv =>
  onward_bind (upholds_eval env e w hw henv) fun v w' hr h =>
    hf v w' h.intact ⟨knows_of_eval hw henv hr, (h.admits henv).receives⟩

/-! ### Requests -/

variable {call : Call Script}

theorem upholds_createModel (name : String) (data : Plain) :
    Follows (Upholds env) (performModel call env (.create name data)) := by
  refine upholds_of_intact fun w hw => ?_
  rw [performModel, runOn_bind, runOn_intercept]
  cases hbuilt : w.store.interceptRoot data with
  | error f => exact hw.onward_self
  | ok built =>
    obtain ⟨hwidens, hroot⟩ := hw.closed.widens_interceptRoot hbuilt
    have hextend := hw.onward_extend (extends_interceptRoot hbuilt) hwidens
    exact hextend.trans (hextend.intact.onward_nameModel name hroot)

theorem upholds_performModel (hcall : call.Onward) (env : Received) (s : ModelStep) :
    Follows (Upholds env) (performModel call env s) := by
  cases s with
  | create name data => exact upholds_createModel name data
  | get name path =>
    exact follows_bind (looks_modelNamed name).follows fun root =>
      follows_bind (upholds_of_intact fun _ hw => onward_readAlong hw path root _) fun v =>
        (looks_view v).follows
  | kind name path =>
    exact follows_bind (looks_modelNamed name).follows fun root =>
      follows_bind (upholds_of_intact fun _ hw => onward_readAlong hw path root _) fun _ =>
        follows_pure _
  | set name path e =>
    exact upholds_eval_bind env e fun v =>
      follows_bind (looks_modelNamed name).follows fun root =>
        follows_bind (fun _ hw henv => onward_write hcall hw path root henv.knows) fun _ =>
          follows_pure _
  | read cell =>
    refine follows_bind (looks_locate cell).follows fun location => ?_
    cases location with
    | key m key =>
      exact follows_bind (upholds_of_intact fun _ hw => onward_readKey hw m key) fun v =>
        (looks_viewOption v).follows
    | item q i =>
      exact follows_bind (upholds_of_intact fun _ hw => onward_readItem hw q i) fun v =>
        (looks_viewOption v).follows
  | peek cell =>
    exact follows_bind (looks_locate cell).follows fun _ =>
      follows_bind follows_get fun _ => (looks_viewOption _).follows
  | write cell e =>
    refine upholds_eval_bind env e fun v => ?_
    refine follows_bind (looks_locate cell).follows fun location => ?_
    cases location with
    | key m key =>
      exact follows_bind (fun _ hw henv => onward_writeKey hcall hw m key henv.knows) fun _ =>
        follows_pure _
    | item q i =>
      exact follows_bind (fun _ hw henv => onward_writeItem hcall hw q i henv.knows) fun _ =>
        follows_pure _
  | push container e =>
    refine upholds_eval_bind env e fun v => ?_
    refine follows_bind (looks_containerAt container).follows fun c => ?_
    cases c with
    | sequence q =>
      exact follows_bind
        (fun _ hw henv => onward_put hcall hw (.newItem q) trivial henv.knows) fun _ =>
          follows_bind follows_get fun _ => follows_pure _
    | _ => exact follows_throw _
  | shape container key =>
    refine follows_bind follows_get fun w => ?_
    refine follows_bind (looks_containerAt container).follows fun c => ?_
    cases c <;> exact follows_pure _
  | same a b =>
    exact follows_bind (upholds_eval env a) fun _ => follows_bind (upholds_eval env b) fun _ =>
      follows_pure _

theorem upholds_performCell (hcall : call.Onward) (env : Received) (s : CellStep) :
    Follows (Upholds env) (performCell call env s) := by
  cases s with
  | watchers cell =>
    exact follows_bind (looks_cellAt cell).follows fun _ => follows_bind follows_get fun _ =>
      follows_pure _
  | get cell =>
    exact follows_bind (looks_cellAt cell).follows fun c =>
      follows_bind (upholds_of_intact fun _ hw => onward_readCell hw c) fun v =>
        (looks_view v).follows
  | set cell e =>
    exact upholds_eval_bind env e fun v =>
      follows_bind (looks_cellAt cell).follows fun c =>
        follows_bind (fun _ hw henv => onward_setCell hcall hw c henv.knows) fun _ =>
          follows_pure _
  | notify cell =>
    exact follows_bind (looks_cellAt cell).follows fun c =>
      follows_bind (upholds_of_intact fun _ hw => onward_notify hcall hw c) fun _ =>
        follows_pure _
  | register cell name =>
    refine follows_bind (looks_cellAt cell).follows fun c w => ?_
    refine rel_bind ((looks_effectNamed name).follows w) fun e w' hr hw _ => ?_
    obtain ⟨rfl, he⟩ := found_of_runOn hr
    obtain ⟨f, hf, rfl⟩ := Fields.exists_mem_of_get? he
    exact hw.onward_enlist c hf

theorem upholds_performEffect (hcall : call.Onward) (hevolves : call.Evolves) (env : Received)
    (s : EffectStep Script) : Follows (Upholds env) (performEffect call s) := by
  -- Most requests only give names, or take them away.
  have hnames := follows_performEffect hevolves env s
  cases s with
  | create name model path gated code =>
    refine follows_bind (looks_modelNamed model).follows fun root => ?_
    refine upholds_of_intact fun w hw => ?_
    rw [runOn_bind, runOn_newEffect]
    cases hv : w.store.get path root with
    | error f => exact onward_construct hw path root gated _
    | ok v => exact onward_nameEffect hw name hv
  | update name =>
    intro w
    refine rel_bind ((looks_effectNamed name).follows w) fun e w' he hw henv => ?_
    obtain ⟨rfl, he⟩ := found_of_runOn he
    obtain ⟨f, hf, rfl⟩ := Fields.exists_mem_of_get? he
    have halive : w'.isAlive f.2 = true := isAlive_iff.2 (.inl ⟨f, hf, rfl⟩)
    exact onward_bind (onward_update hcall (hw.hold halive) f.2).release
      fun _ _ _ h => h.intact.onward_self
  | info name =>
    exact follows_bind (looks_effectNamed name).follows fun e =>
      follows_bind (looks_effectInfo e).follows fun _ => follows_pure _
  | drop name =>
    exact upholds_of_renames hnames (follows_bind follows_get fun _ =>
      follows_bind (renames_modifyNames fun _ => rfl) fun _ => follows_pure _)
  | createScope scope =>
    exact upholds_of_renames hnames
      (follows_bind (renames_modifyNames fun _ => rfl) fun _ => follows_pure _)
  | hold scope name =>
    exact upholds_of_renames hnames (follows_bind (looks_scopeNamed scope).follows fun _ =>
      follows_bind (looks_effectNamed name).follows fun _ =>
        follows_bind (renames_modifyNames fun _ => rfl) fun _ => follows_pure _)
  | recordListener scope =>
    exact upholds_of_renames hnames (follows_bind (looks_scopeNamed scope).follows fun _ =>
      follows_bind (renames_modifyNames fun _ => rfl) fun _ => follows_pure _)
  | dropScope scope =>
    exact upholds_of_renames hnames (follows_bind follows_get fun _ =>
      follows_bind (renames_modifyNames fun _ => rfl) fun _ => follows_pure _)
  | scopeInfo scope =>
    exact follows_bind (looks_scopeNamed scope).follows fun s => (looks_scopeInfo s).follows
  | tracking => exact follows_bind follows_get fun _ => follows_pure _

theorem upholds_compile (scope : String) (node : NodeExpr) (model : String)
    (methods : List (String × Script)) (gated : Bool) :
    Follows (Upholds env) (performTemplate call env (.compile scope node model methods gated)) := by
  refine follows_bind (looks_nodeAt node).follows fun n w => ?_
  refine rel_bind ((looks_modelNamed model).follows w) fun root w' hr hw _ => ?_
  obtain rfl := (looks_modelNamed model).eq_of_runOn hr
  obtain ⟨-, hroot⟩ := has_of_modelNamed hw hr
  let t : Setting Script :=
    ⟨w'.current, root, .ofList (methods.map fun m => (m.1, Listener.run m.2)), gated⟩
  have hcalls : t.CallsOnly := Setting.callsOnly_ofList (f := .run) (by simp) _ root methods gated
  have hbegin : w'.Onward w'.begin := hw.onward_begin
  change w'.Onward ((t.instantiate n >>= fun made => modifyNames (fun names =>
    { names with scopes := names.scopes.put scope made }) >>= fun _ => scopeInfo made).runOn w').2
  rw [runOn_bind, t.runOn_instantiate]
  rcases hc : (t.compile n).runOn w'.begin with ⟨f | made, u⟩
  · exact hbegin.trans (hcalls.onward_of_fault hbegin.intact hroot hc)
  · change w'.Onward ((scopeInfo made).runOn
      { u with names := { u.names with scopes := u.names.scopes.put scope made } }).2
    rw [(looks_scopeInfo made).runOn_snd]
    exact hbegin.trans (hcalls.onward_nameScope hbegin.intact hroot hc scope)

theorem upholds_createViewModel (name : String) (mount : Option MountRef) (data : Plain)
    (methods : List (String × Script)) (config : Config) (debug : Bool) :
    Follows (Upholds env)
      (performTemplate call env (.create name mount data methods config debug)) := by
  refine follows_bind (looks_mounts mount).follows fun mount => ?_
  refine upholds_of_intact fun w hw => ?_
  obtain ⟨w₀, honward, hprepares, hrefers⟩ :=
    exists_prepares hw w.current ⟨mount, data, methods, config⟩
  refine honward.trans ?_
  rw [runOn_bind, runOn_get]
  dsimp only
  rw [runOn_bind]
  rcases hr : (newViewModel w.current ⟨mount, data, methods, config⟩).runOn w with ⟨f | id, w'⟩
  · rw [hr] at hprepares hrefers
    exact hprepares.onward_of_fault honward.intact hrefers
  · rw [hr] at hprepares hrefers
    obtain ⟨vm, hvm⟩ := hprepares.exists_record id rfl
    have hrecord : (viewModelRecord id).runOn w' = (.ok vm, w') := by
      change (require w'.viewModels[id]?).runOn w' = _
      rw [hvm]
      rfl
    dsimp only
    rw [runOn_bind, hrecord]
    exact hprepares.onward_nameViewModel honward.intact hrefers hvm name

/-- An assignment through a view model. -/
theorem upholds_assignThrough (name : Option String) {v : Value}
    {assign : ViewModel → SceneAct Unit}
    (h : ∀ vm (w : SceneWorld), w.Intact → w.store.Knows v → w.Onward ((assign vm).runOn w).2) :
    Follows (Upholds ⟨v, env.receiver⟩) (assignThrough env name assign) := by
  intro w
  refine rel_bind ((looks_viewModelNamed env name).follows w) fun id w' hid hw henv => ?_
  obtain rfl := (looks_viewModelNamed env name).eq_of_runOn hid
  have hvm := (isViewModelAlive_of_named henv.receives hid).2
  refine onward_bind ?_ fun vm u hr _ => ?_
  · rw [(looks_viewModelRecord id).runOn_snd]
    exact hw.onward_self
  obtain rfl := (looks_viewModelRecord id).eq_of_runOn hr
  exact onward_bind (h vm _ (hw.enterMethod hvm) henv.knows).leaveMethod
    fun _ _ _ h => h.intact.onward_self

theorem upholds_performTemplate (hcall : call.Onward) (hevolves : call.Evolves) (env : Received)
    (s : TemplateStep Script) : Follows (Upholds env) (performTemplate call env s) := by
  have hnames := follows_performTemplate hevolves env s
  cases s with
  | compile scope node model methods gated => exact upholds_compile scope node model methods gated
  | create name mount data methods config debug =>
    exact upholds_createViewModel name mount data methods config debug
  | info name =>
    exact follows_bind (looks_viewModelNamed env _).follows fun id =>
      follows_bind (looks_viewModelRecord id).follows fun vm =>
        follows_bind (looks_viewModelInfo vm).follows fun _ => follows_pure _
  | get name key =>
    exact follows_bind (looks_viewModelNamed env name).follows fun id =>
      follows_bind (looks_viewModelRecord id).follows fun vm =>
        follows_bind (upholds_of_intact fun _ hw => onward_getProxied hw vm key) fun v =>
          (looks_view v).follows
  | set name key e =>
    exact upholds_eval_bind env e fun v =>
      upholds_assignThrough name fun vm _ hw hv => onward_setProxied hcall hw vm key hv
  | read name path =>
    exact follows_bind (looks_viewModelNamed env name).follows fun id =>
      follows_bind (looks_viewModelRecord id).follows fun vm =>
        follows_bind (upholds_of_intact fun _ hw => onward_readAlong hw path vm.model _) fun v =>
          (looks_view v).follows
  | write name path e =>
    exact upholds_eval_bind env e fun v =>
      upholds_assignThrough name fun vm _ hw hv => onward_write hcall hw path vm.model hv
  | same name other =>
    exact follows_bind (looks_viewModelNamed env name).follows fun _ =>
      follows_bind (looks_viewModelNamed env _).follows fun _ => follows_pure _
  | nameAgain name other =>
    exact upholds_of_renames hnames (follows_bind (looks_viewModelNamed env name).follows fun _ =>
      follows_bind (renames_modifyNames fun _ => rfl) fun _ => follows_pure _)
  | drop name =>
    exact upholds_of_renames hnames (follows_bind follows_get fun _ =>
      follows_bind (renames_modifyNames fun _ => rfl) fun _ => follows_pure _)

/-! ### Documents -/

theorem upholds_edit (op : Document.Operation (Listener Script))
    (hop : ∀ n event path root, op ≠ .listen n event (.writeBack path root)) :
    Follows (Upholds env) (edit fun d => op.apply d) :=
  upholds_of_intact fun w hw => hw.onward_operate w.current hop []

/-- A request that changes a node of the current document by hand. -/
theorem upholds_touchAt (op : NodeId → Document.Operation (Listener Script))
    (hop : ∀ m n event path root, op m ≠ .listen n event (.writeBack path root))
    (node : NodeExpr) :
    Follows (Upholds env) (do
      let n ← nodeAt node
      touch n fun d => (op n).apply d
      return .nothing : SceneAct Answer) :=
  follows_bind (looks_nodeAt node).follows fun n =>
    follows_bind (upholds_of_intact fun w hw =>
      hw.onward_operate w.current (hop n) [⟨w.current, n⟩]) fun _ => follows_pure _

/-- A new node is made and may get a name. -/
theorem upholds_make (op : Document.Operation (Listener Script))
    (hop : ∀ n event path root, op ≠ .listen n event (.writeBack path root))
    {make : Document (Listener Script) → Document (Listener Script) × NodeId}
    (hmake : ∀ d, (make d).1 = op.apply d) (keep : Option String) :
    Follows (Upholds env) (do
      let made := make (← currentDocument)
      edit fun _ => made.1
      keepNode keep made.2
      return .node made.2 : SceneAct Answer) := by
  refine follows_bind_get fun w => ?_
  refine rel_bind ?_ fun _ w' _ =>
    follows_bind (upholds_keepNode keep _) (fun _ => follows_pure _) w'
  intro hw _
  change w.Onward (w.modifyDocument w.current fun _ => (make (w.document w.current)).1)
  have hsame : w.modifyDocument w.current (fun _ => (make (w.document w.current)).1) =
      w.modifyDocument w.current op.apply :=
    modifyDocument_congr fun d hd => by rw [document_eq hd, hmake]
  rw [hsame]
  exact hw.onward_operate w.current hop []

theorem upholds_performDocument (hcall : call.Onward) (s : DocumentStep Script) :
    Follows (Upholds env) (performDocument call s) := by
  cases s with
  | replace source =>
    exact follows_bind (upholds_of_intact fun _ hw => hw.onward_load source) fun _ =>
      follows_pure _
  | nodeCount => exact follows_bind looks_currentDocument.follows fun _ => follows_pure _
  | createElement tag keep =>
    exact upholds_make (.createElement tag) (by simp) (fun _ => rfl) keep
  | createText s keep => exact upholds_make (.createText s) (by simp) (fun _ => rfl) keep
  | save node keep =>
    exact follows_bind (looks_nodeAt node).follows fun n =>
      follows_bind (upholds_keepNode _ n) fun _ => follows_pure _
  | find selector start keep =>
    have hfound (n : NodeId) : Follows (Upholds env)
        (do keepNode keep n; return .node n : SceneAct Answer) :=
      follows_bind (upholds_keepNode keep n) fun _ => follows_pure _
    cases start with
    | none =>
      refine follows_bind (follows_pure _) fun start => ?_
      refine follows_bind looks_currentDocument.follows fun d => ?_
      cases d.find? start selector with
      | none => exact follows_pure _
      | some n => exact hfound n
    | some e =>
      refine follows_bind (looks_nodeAt e).follows fun start => ?_
      refine follows_bind looks_currentDocument.follows fun d => ?_
      cases d.find? start selector with
      | none => exact follows_pure _
      | some n => exact hfound n
  | resolve selector keep =>
    exact follows_bind looks_currentDocument.follows fun _ =>
      follows_bind (follows_ofExcept _) fun n =>
        follows_bind (upholds_keepNode keep n) fun _ => follows_pure _
  | append node children =>
    exact follows_bind (looks_nodeAt node).follows fun n =>
      follows_bind (follows_mapM (fun e => (looks_nodeAt e).follows) children) fun cs =>
        follows_bind (upholds_edit (.append n cs) (by simp)) fun _ => follows_pure _
  | take node keep =>
    refine follows_bind (looks_nodeAt node).follows fun n =>
      follows_bind looks_currentDocument.follows fun d =>
        follows_bind (upholds_edit (.take n) (by simp)) fun _ => ?_
    cases keep with
    | none => exact follows_pure _
    | some name =>
      refine follows_bind (upholds_of_renames ?_ (renames_modifyNames fun _ => rfl)) fun _ =>
        follows_pure _
      exact follows_modifyNames_of_eq (fun _ => rfl) (fun _ => rfl) fun _ => rfl
  | children node => exact (looks_lookAt node).follows
  | parent node => exact (looks_lookAt node).follows
  | tag node => exact (looks_lookAt node).follows
  | sort node => exact (looks_lookAt node).follows
  | attributes node => exact (looks_lookAt node).follows
  | getAttribute node name => exact (looks_lookAt node).follows
  | setAttribute node name value =>
    exact upholds_touchAt (fun n => .setAttribute n name value) (by simp) node
  | removeAttribute node name =>
    exact upholds_touchAt (fun n => .removeAttribute n name) (by simp) node
  | text node => exact (looks_lookAt node).follows
  | setText node s => exact upholds_touchAt (fun n => .setText n s) (by simp) node
  | setMarkup node source =>
    exact upholds_touchAt (fun n => .setMarkup n source) (by simp) node
  | outerHtml node => exact (looks_lookAt node).follows
  | innerHtml node => exact (looks_lookAt node).follows
  | inputValue node => exact (looks_lookAt node).follows
  | setInputValue node value =>
    exact upholds_touchAt (fun n => .setInputValue n value) (by simp) node
  | listen node event code =>
    exact follows_bind (looks_nodeAt node).follows fun n =>
      follows_bind (upholds_edit (.listen n event (.run code)) (by simp)) fun _ =>
        follows_pure _
  | listeners node event => exact (looks_lookAt node).follows
  | dispatch node event =>
    exact follows_bind (looks_nodeAt node).follows fun n =>
      follows_bind (looks_refer n).follows fun ref =>
        follows_bind (upholds_of_intact fun _ hw => onward_dispatch hcall hw ref event) fun _ =>
          follows_pure _
  | click node =>
    exact follows_bind (looks_nodeAt node).follows fun n =>
      follows_bind (looks_refer n).follows fun ref =>
        follows_bind (upholds_of_intact fun _ hw => onward_dispatch hcall hw ref _) fun _ =>
          follows_pure _
  | typeInto node s =>
    exact follows_bind (looks_nodeAt node).follows fun n =>
      follows_bind (looks_refer n).follows fun ref =>
        follows_bind (upholds_of_intact fun _ hw => onward_typeInto hcall hw ref s) fun _ =>
          follows_pure _

end SceneAct

open SceneAct

/-! ### Steps and scripts -/

variable {call : Call Script}

mutual

/-- A step leads the world onward. -/
theorem upholds_perform (hcall : call.Onward) (hevolves : call.Evolves) (env : Received) :
    (s : Step) → Follows (Upholds env) (s.perform call env)
  | .model s => upholds_performModel hcall env s
  | .cell s => upholds_performCell hcall env s
  | .effect s => upholds_performEffect hcall hevolves env s
  | .template s => upholds_performTemplate hcall hevolves env s
  | .document s => upholds_performDocument hcall s
  | .debug s => follows_performDebug (upholds_eval env) s
  | .untracked steps => by
    intro w hw henv
    have hsteps : Follows (Upholds env) (do
        let w ← get
        let answers ← Step.performAll call env steps
        return Answer.many (.ok (.tracking w.collectors.length w.isCollecting) :: answers)) :=
      follows_bind follows_get fun _ =>
        follows_bind (upholds_performAll hcall hevolves env steps) fun _ => follows_pure _
    exact (hsteps w.suspend hw.suspend ⟨henv.knows, henv.receives⟩).resume
  | .malformed => follows_throw _

theorem upholds_performAll (hcall : call.Onward) (hevolves : call.Evolves) (env : Received) :
    (steps : List Step) → Follows (Upholds env) (Step.performAll call env steps)
  | [] => follows_pure _
  | s :: steps =>
    follows_bind (follows_attempt (upholds_perform hcall hevolves env s)) fun _ =>
      follows_bind (upholds_performAll hcall hevolves env steps) fun _ => follows_pure _

end

/-- A script leads the world onward. -/
theorem upholds_exec (hcall : call.Onward) (hevolves : call.Evolves) (env : Received) :
    (code : Script) → Follows (Upholds env) (code.exec call env)
  | .done => follows_pure _
  | .fail f => follows_throw f
  | .log _ next =>
    follows_bind (upholds_of_intact fun _ hw => hw.onward_note _) fun _ =>
      upholds_exec hcall hevolves env next
  | .note _ next =>
    follows_bind (upholds_of_intact fun _ hw => hw.onward_note _) fun _ =>
      upholds_exec hcall hevolves env next
  | .step s next =>
    follows_bind (follows_attempt (upholds_perform hcall hevolves env s)) fun answer =>
      upholds_exec hcall hevolves env (next answer)

/-- User code that may run user code leads intact worlds onward, to every depth. -/
theorem invoke_onward (depth : Nat) : Call.Onward (Script.invoke depth) := by
  induction depth with
  | zero => exact fun _ _ _ hw _ => hw.onward_self
  | succ depth ih =>
    exact fun code env w hw henv => upholds_exec ih (invoke_evolves depth) env code w hw henv

namespace Scene

/-- A step of a scene leads the world onward. -/
theorem onward_step (depth : Nat) {w : SceneWorld} (hw : w.Intact) (s : Step) :
    w.Onward (step depth w s).2 := by
  have hperform := upholds_perform (invoke_onward depth) (invoke_evolves depth)
    ⟨.null, none⟩ s w hw ⟨trivial, fun _ h => by cases h⟩
  exact hperform.trans (hperform.intact.onward_note [])

/-- A run of steps leads the world onward. -/
theorem onward_after (depth : Nat) {w : SceneWorld} (hw : w.Intact) (steps : List Step) :
    w.Onward (after depth w steps) := by
  induction steps generalizing w with
  | nil => exact hw.onward_self
  | cons s steps ih => exact (onward_step depth hw s).trans (ih (onward_step depth hw s).intact)

/-- Every world that a run reaches is intact. -/
theorem intact_after (depth : Nat) (source : String) (steps : List Step) :
    (after depth (start source) steps).Intact :=
  (onward_after depth (intact_ofDocument (Document.listenersFor_ofMarkup source)) steps).intact

end Scene

end LiveBinding
