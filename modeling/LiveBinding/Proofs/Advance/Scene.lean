import LiveBinding.Proofs.Advance.Engine
import LiveBinding.Proofs.Evolution.Scene

/-!
# Every step of a scene advances the world

Requests, scripts and the steps of a scene advance every world, whatever is going on in it.

Scripts start scripts, through the model and the document. `Script.runWhere P other` runs them where
`P` holds; elsewhere `other` happens, which may be anything. `Step.perform_runWhere` says that this
makes no difference if `P` lasts, so that no script, at any depth, ever starts where `P` fails.

## Key results

- `Step.agree_perform`: a step, with whatever it contains
- `Script.advances_invoke`, `Step.advances_perform`, `Scene.advances_after`: runs
- `Step.perform_runWhere`: scripts start where a stable property holds
- `Scene.reached_after`: the documents of a run
-/

namespace LiveBinding

open Act

variable {P : SceneWorld → Prop}

theorem Act.Looks.agree {α : Type} {x : SceneAct α} (h : Looks x) : Agree P x x := h.follows.agree

namespace SceneAct

/-! ### Requests that run no script -/

theorem advances_modifyNames (f : Names → Names) : Follows Advances (modifyNames f) :=
  follows_modify fun _ => .other rfl rfl rfl rfl

theorem advances_keepNode (keep : Option String) (n : NodeId) :
    Follows Advances (keepNode keep n) := by
  cases keep with
  | none => exact follows_pure _
  | some name => exact advances_modifyNames _

theorem advances_edit (op : Document.Operation (Listener Script)) :
    Follows Advances (edit fun d => op.apply d) :=
  follows_modify fun w => .edit w w.current op

theorem advances_touch (n : NodeId) (op : Document.Operation (Listener Script)) :
    Follows Advances (touch n fun d => op.apply d) :=
  follows_modify fun w => (Advances.edit w w.current op).trans (.other rfl rfl rfl rfl)

/-- A new node is made and may get a name. -/
theorem advances_make (op : Document.Operation (Listener Script))
    {make : Document (Listener Script) → Document (Listener Script) × NodeId}
    (hmake : ∀ d, (make d).1 = op.apply d) (keep : Option String) :
    Follows Advances (do
      let made := make (← currentDocument)
      edit fun _ => made.1
      keepNode keep made.2
      return .node made.2 : SceneAct Answer) := by
  refine follows_bind_get fun w => ?_
  refine rel_bind (R := Advances) ?_ fun _ w' _ =>
    follows_bind (advances_keepNode keep _) (fun _ => follows_pure _) w'
  refine advances_modifyDocument op fun d hd => ?_
  rw [World.document, hd]
  exact hmake d

theorem advances_build (p : Plain) : Follows Advances (build p) :=
  follows_bind_get fun w => .turn w (.intercept p)

theorem advances_eval (env : Received) (e : Expr) : Follows Advances (eval env e) := by
  cases e with
  | plain p => exact advances_build p
  | number x => exact follows_pure _
  | model name path =>
    cases path with
    | none => exact follows_bind (looks_modelNamed name).follows fun _ => follows_pure _
    | some path =>
      exact follows_bind (looks_modelNamed name).follows fun _ =>
        follows_bind follows_get fun _ => follows_ofExcept _
  | emptyMapping => exact advances_build _
  | emptySequence => exact advances_build _
  | received => exact follows_pure _

/-! ### Requests -/

variable {call call' : Call Script}

theorem agree_performModel (hP : Stable P) (hcall : call.Agrees P call') (env : Received)
    (s : ModelStep) : Agree P (performModel call env s) (performModel call' env s) := by
  cases s with
  | create name data =>
    exact (follows_bind (advances_intercept data) fun _ =>
      follows_bind (advances_modifyNames _) fun _ =>
        follows_bind follows_get fun _ => follows_pure _).agree
  | get name path =>
    exact (follows_bind (looks_modelNamed name).follows fun _ =>
      follows_bind (advances_readAlong _ _ _) fun v => (looks_view v).follows).agree
  | kind name path =>
    exact (follows_bind (looks_modelNamed name).follows fun _ =>
      follows_bind (advances_readAlong _ _ _) fun _ => follows_pure _).agree
  | set name path e =>
    exact agree_bind hP (advances_eval env e).agree fun v =>
      agree_bind hP (looks_modelNamed name).agree fun _ =>
        agree_bind hP (agree_write hP hcall _ _ v) fun _ => (follows_pure _).agree
  | read cell =>
    refine (follows_bind (looks_locate cell).follows fun location => ?_).agree
    cases location with
    | key m key =>
      exact follows_bind (advances_readKey m key) fun v => (looks_viewOption v).follows
    | item q i =>
      exact follows_bind (advances_readItem q i) fun v => (looks_viewOption v).follows
  | peek cell =>
    exact (follows_bind (looks_locate cell).follows fun _ =>
      follows_bind follows_get fun _ => (looks_viewOption _).follows).agree
  | write cell e =>
    refine agree_bind hP (advances_eval env e).agree fun v => ?_
    refine agree_bind hP (looks_locate cell).agree fun location => ?_
    cases location with
    | key m key =>
      exact agree_bind hP (agree_writeKey hP hcall m key v) fun _ => (follows_pure _).agree
    | item q i =>
      exact agree_bind hP (agree_writeItem hP hcall q i v) fun _ => (follows_pure _).agree
  | push container e =>
    refine agree_bind hP (advances_eval env e).agree fun v => ?_
    refine agree_bind hP (looks_containerAt container).agree fun c => ?_
    cases c with
    | sequence q =>
      exact agree_bind hP (agree_push hP hcall q v) fun _ =>
        (follows_bind follows_get fun _ => follows_pure _).agree
    | _ => exact (follows_throw _).agree
  | shape container key =>
    refine (follows_bind follows_get fun w => ?_).agree
    refine follows_bind (looks_containerAt container).follows fun c => ?_
    cases c <;> exact follows_pure _
  | same a b =>
    exact (follows_bind (advances_eval env a) fun _ => follows_bind (advances_eval env b) fun _ =>
      follows_pure _).agree

theorem agree_performCell (hP : Stable P) (hcall : call.Agrees P call') (env : Received)
    (s : CellStep) : Agree P (performCell call env s) (performCell call' env s) := by
  cases s with
  | watchers cell =>
    exact (follows_bind (looks_cellAt cell).follows fun _ => follows_bind follows_get fun _ =>
      follows_pure _).agree
  | get cell =>
    exact (follows_bind (looks_cellAt cell).follows fun c =>
      follows_bind (advances_readCell c) fun v => (looks_view v).follows).agree
  | set cell e =>
    exact agree_bind hP (advances_eval env e).agree fun v =>
      agree_bind hP (looks_cellAt cell).agree fun c =>
        agree_bind hP (agree_setCell hP hcall c v) fun _ => (follows_pure _).agree
  | notify cell =>
    exact agree_bind hP (looks_cellAt cell).agree fun c =>
      agree_bind hP (agree_notify hP hcall c) fun _ => (follows_pure _).agree
  | register cell name =>
    refine (follows_bind (looks_cellAt cell).follows fun c =>
      follows_bind (looks_effectNamed name).follows fun e =>
        follows_bind (follows_modify fun w => ?_) fun _ => follows_pure _).agree
    exact (Advances.store w (.watch c e)).trans (.other rfl rfl rfl rfl)

theorem agree_performEffect (hP : Stable P) (hcall : call.Agrees P call')
    (s : EffectStep Script) : Agree P (performEffect call s) (performEffect call' s) := by
  cases s with
  | create name model path gated code =>
    exact (follows_bind (looks_modelNamed model).follows fun _ =>
      follows_bind (advances_newEffect _ _ _ _) fun _ =>
        follows_bind (advances_modifyNames _) fun _ => follows_pure _).agree
  | update name =>
    exact agree_bind hP (looks_effectNamed name).agree fun e =>
      agree_bind hP (agree_holding hP [e] (agree_update hP hcall e)) fun _ =>
        (follows_pure _).agree
  | info name =>
    exact (follows_bind (looks_effectNamed name).follows fun e =>
      follows_bind (looks_effectInfo e).follows fun _ => follows_pure _).agree
  | drop name =>
    exact (follows_bind follows_get fun _ =>
      follows_bind (advances_modifyNames _) fun _ => follows_pure _).agree
  | createScope scope =>
    exact (follows_bind (advances_modifyNames _) fun _ => follows_pure _).agree
  | hold scope name =>
    exact (follows_bind (looks_scopeNamed scope).follows fun _ =>
      follows_bind (looks_effectNamed name).follows fun _ =>
        follows_bind (advances_modifyNames _) fun _ => follows_pure _).agree
  | recordListener scope =>
    exact (follows_bind (looks_scopeNamed scope).follows fun _ =>
      follows_bind (advances_modifyNames _) fun _ => follows_pure _).agree
  | dropScope scope =>
    exact (follows_bind follows_get fun _ =>
      follows_bind (advances_modifyNames _) fun _ => follows_pure _).agree
  | scopeInfo scope =>
    exact (follows_bind (looks_scopeNamed scope).follows fun s =>
      (looks_scopeInfo s).follows).agree
  | tracking => exact (follows_bind follows_get fun _ => follows_pure _).agree

theorem agree_assignThrough (hP : Stable P) (env : Received) (name : Option String)
    {assign assign' : ViewModel → SceneAct Unit} (h : ∀ vm, Agree P (assign vm) (assign' vm)) :
    Agree P (assignThrough env name assign) (assignThrough env name assign') :=
  agree_bind hP (looks_viewModelNamed env name).agree fun id =>
    agree_bind hP (looks_viewModelRecord id).agree fun vm =>
      agree_bind hP (agree_serving hP id (h vm)) fun _ => (follows_pure _).agree

theorem agree_performTemplate (hP : Stable P) (hcall : call.Agrees P call') (env : Received)
    (s : TemplateStep Script) :
    Agree P (performTemplate call env s) (performTemplate call' env s) := by
  cases s with
  | compile scope node model methods gated =>
    exact (follows_bind (looks_nodeAt node).follows fun n =>
      follows_bind (looks_modelNamed model).follows fun _ => follows_bind follows_get fun _ =>
        follows_bind (Setting.advances_instantiate _ n) fun made =>
          follows_bind (advances_modifyNames _) fun _ => (looks_scopeInfo made).follows).agree
  | create name mount data methods config debug =>
    refine (follows_bind (looks_mounts mount).follows fun mount => follows_bind follows_get fun w =>
      follows_bind (advances_newViewModel _ _) fun id =>
        follows_bind (looks_viewModelRecord id).follows fun vm =>
          follows_bind (advances_modifyNames _) fun _ => follows_bind follows_get fun _ =>
            follows_bind (looks_viewModelInfo vm).follows fun _ => follows_pure _).agree
  | info name =>
    exact (follows_bind (looks_viewModelNamed env _).follows fun id =>
      follows_bind (looks_viewModelRecord id).follows fun vm =>
        follows_bind (looks_viewModelInfo vm).follows fun _ => follows_pure _).agree
  | get name key =>
    exact (follows_bind (looks_viewModelNamed env name).follows fun id =>
      follows_bind (looks_viewModelRecord id).follows fun vm =>
        follows_bind (advances_getProxied vm key) fun v => (looks_view v).follows).agree
  | set name key e =>
    exact agree_bind hP (advances_eval env e).agree fun v =>
      agree_assignThrough hP env name fun vm => agree_setProxied hP hcall vm key v
  | read name path =>
    exact (follows_bind (looks_viewModelNamed env name).follows fun id =>
      follows_bind (looks_viewModelRecord id).follows fun vm =>
        follows_bind (advances_readAlong _ _ _) fun v => (looks_view v).follows).agree
  | write name path e =>
    exact agree_bind hP (advances_eval env e).agree fun v =>
      agree_assignThrough hP env name fun vm => agree_write hP hcall path vm.model v
  | same name other =>
    exact (follows_bind (looks_viewModelNamed env name).follows fun _ =>
      follows_bind (looks_viewModelNamed env _).follows fun _ => follows_pure _).agree
  | nameAgain name other =>
    exact (follows_bind (looks_viewModelNamed env name).follows fun _ =>
      follows_bind (advances_modifyNames _) fun _ => follows_pure _).agree
  | drop name =>
    exact (follows_bind follows_get fun _ =>
      follows_bind (advances_modifyNames _) fun _ => follows_pure _).agree

/-- A request that changes a node of the current document by hand. -/
theorem advances_touchAt (op : NodeId → Document.Operation (Listener Script)) (node : NodeExpr) :
    Follows Advances (do
      let n ← nodeAt node
      touch n fun d => (op n).apply d
      return .nothing : SceneAct Answer) :=
  follows_bind (looks_nodeAt node).follows fun n =>
    follows_bind (advances_touch n (op n)) fun _ => follows_pure _

theorem agree_performDocument (hP : Stable P) (hcall : call.Agrees P call')
    (s : DocumentStep Script) : Agree P (performDocument call s) (performDocument call' s) := by
  cases s with
  | replace source =>
    refine (follows_bind (follows_modify fun w => ?_) fun _ => follows_pure _).agree
    exact (Advances.load w source).trans (.other rfl rfl rfl rfl)
  | nodeCount =>
    exact (follows_bind looks_currentDocument.follows fun _ => follows_pure _).agree
  | createElement tag keep =>
    exact (advances_make (.createElement tag) (fun _ => rfl) keep).agree
  | createText s keep => exact (advances_make (.createText s) (fun _ => rfl) keep).agree
  | save node keep =>
    exact (follows_bind (looks_nodeAt node).follows fun n =>
      follows_bind (advances_keepNode _ n) fun _ => follows_pure _).agree
  | find selector start keep =>
    have hfound (n : NodeId) : Follows Advances
        (do keepNode keep n; return .node n : SceneAct Answer) :=
      follows_bind (advances_keepNode keep n) fun _ => follows_pure _
    cases start with
    | none =>
      refine (follows_bind (follows_pure _) fun start => ?_).agree
      refine follows_bind looks_currentDocument.follows fun d => ?_
      cases d.find? start selector with
      | none => exact follows_pure _
      | some n => exact hfound n
    | some e =>
      refine (follows_bind (looks_nodeAt e).follows fun start => ?_).agree
      refine follows_bind looks_currentDocument.follows fun d => ?_
      cases d.find? start selector with
      | none => exact follows_pure _
      | some n => exact hfound n
  | resolve selector keep =>
    exact (follows_bind looks_currentDocument.follows fun _ =>
      follows_bind (follows_ofExcept _) fun n =>
        follows_bind (advances_keepNode keep n) fun _ => follows_pure _).agree
  | append node children =>
    exact (follows_bind (looks_nodeAt node).follows fun n =>
      follows_bind (follows_mapM (fun e => (looks_nodeAt e).follows) children) fun cs =>
        follows_bind (advances_edit (.append n cs)) fun _ => follows_pure _).agree
  | take node keep =>
    refine (follows_bind (looks_nodeAt node).follows fun n =>
      follows_bind looks_currentDocument.follows fun d =>
        follows_bind (advances_edit (.take n)) fun _ => ?_).agree
    cases keep with
    | none => exact follows_pure _
    | some name => exact follows_bind (advances_modifyNames _) fun _ => follows_pure _
  | children node => exact (looks_lookAt node).agree
  | parent node => exact (looks_lookAt node).agree
  | tag node => exact (looks_lookAt node).agree
  | sort node => exact (looks_lookAt node).agree
  | attributes node => exact (looks_lookAt node).agree
  | getAttribute node name => exact (looks_lookAt node).agree
  | setAttribute node name value =>
    exact (advances_touchAt (fun n => .setAttribute n name value) node).agree
  | removeAttribute node name =>
    exact (advances_touchAt (fun n => .removeAttribute n name) node).agree
  | text node => exact (looks_lookAt node).agree
  | setText node s => exact (advances_touchAt (fun n => .setText n s) node).agree
  | setMarkup node source => exact (advances_touchAt (fun n => .setMarkup n source) node).agree
  | outerHtml node => exact (looks_lookAt node).agree
  | innerHtml node => exact (looks_lookAt node).agree
  | inputValue node => exact (looks_lookAt node).agree
  | setInputValue node value =>
    exact (advances_touchAt (fun n => .setInputValue n value) node).agree
  | listen node event code =>
    exact (follows_bind (looks_nodeAt node).follows fun n =>
      follows_bind (advances_edit (.listen n event (.run code))) fun _ => follows_pure _).agree
  | listeners node event => exact (looks_lookAt node).agree
  | dispatch node event =>
    exact agree_bind hP (looks_nodeAt node).agree fun n =>
      agree_bind hP (looks_refer n).agree fun ref =>
        agree_bind hP (agree_dispatch hP hcall ref event) fun _ => (follows_pure _).agree
  | click node =>
    exact agree_bind hP (looks_nodeAt node).agree fun n =>
      agree_bind hP (looks_refer n).agree fun ref =>
        agree_bind hP (agree_dispatch hP hcall ref _) fun _ => (follows_pure _).agree
  | typeInto node s =>
    exact agree_bind hP (looks_nodeAt node).agree fun n =>
      agree_bind hP (looks_refer n).agree fun ref =>
        agree_bind hP (agree_typeInto hP hcall ref s) fun _ => (follows_pure _).agree

end SceneAct

open SceneAct

/-! ### Steps and scripts -/

variable {call call' : Call Script}

mutual

/-- Steps that run scripts in two ways agree if the scripts do. -/
theorem Step.agree_perform (hP : Stable P) (hcall : call.Agrees P call') (env : Received) :
    (s : Step) → Agree P (s.perform call env) (s.perform call' env)
  | .model s => agree_performModel hP hcall env s
  | .cell s => agree_performCell hP hcall env s
  | .effect s => agree_performEffect hP hcall s
  | .template s => agree_performTemplate hP hcall env s
  | .document s => agree_performDocument hP hcall s
  | .debug s => (follows_performDebug (advances_eval env) s).agree
  | .untracked steps =>
    agree_suspended hP (agree_bind hP follows_get.agree fun _ =>
      agree_bind hP (Step.agree_performAll hP hcall env steps) fun _ => (follows_pure _).agree)
  | .malformed => (follows_throw _).agree

theorem Step.agree_performAll (hP : Stable P) (hcall : call.Agrees P call') (env : Received) :
    (steps : List Step) →
      Agree P (Step.performAll call env steps) (Step.performAll call' env steps)
  | [] => (follows_pure _).agree
  | s :: steps =>
    agree_bind hP (agree_attempt (Step.agree_perform hP hcall env s)) fun _ =>
      agree_bind hP (Step.agree_performAll hP hcall env steps) fun _ => (follows_pure _).agree

end

namespace Script

theorem agree_exec (hP : Stable P) (hcall : call.Agrees P call') (env : Received) :
    (code : Script) → Agree P (code.exec call env) (code.exec call' env)
  | .done => (follows_pure _).agree
  | .fail f => (follows_throw f).agree
  | .log _ next =>
    agree_bind hP (follows_modify fun _ => .other rfl rfl rfl rfl).agree fun _ =>
      agree_exec hP hcall env next
  | .note _ next =>
    agree_bind hP (follows_modify fun _ => .other rfl rfl rfl rfl).agree fun _ =>
      agree_exec hP hcall env next
  | .step s next =>
    agree_bind hP (agree_attempt (Step.agree_perform hP hcall env s)) fun answer =>
      agree_exec hP hcall env (next answer)

/-- A script, to every depth. -/
theorem advances_invoke (depth : Nat) (code : Script) (env : Received) :
    Follows Advances (invoke depth code env) := by
  induction depth generalizing code env with
  | zero => exact follows_throw _
  | succ depth ih =>
    exact (agree_exec stable_isCollecting (fun code env => (ih code env).agree) env code).follows

open Classical in
/-- Run scripts, to every depth, where a property holds. Elsewhere something else happens. -/
noncomputable def runWhere (P : SceneWorld → Prop) (other : Call Script) : Nat → Call Script
  | 0 => fun code env => ofFun fun w =>
    if P w then (.error .exhausted, w) else (other code env).runOn w
  | depth + 1 => fun code env => ofFun fun w =>
    if P w then (code.exec (runWhere P other depth) env).runOn w else (other code env).runOn w

/-- Scripts do the same if something else happens where a stable property fails. -/
theorem agrees_runWhere (hP : Stable P) (other : Call Script) (depth : Nat) :
    Call.Agrees P (invoke depth) (runWhere P other depth) := by
  -- A script that starts where the property holds starts others only there.
  induction depth with
  | zero => exact fun code env w => ⟨.refl w, fun hw => if_pos hw⟩
  | succ depth ih =>
    intro code env w
    obtain ⟨hadvances, heq⟩ := agree_exec hP ih env code w
    exact ⟨hadvances, fun hw => (if_pos hw).trans (heq hw)⟩

end Script

/-- A step advances every world. -/
theorem Step.advances_perform (depth : Nat) (env : Received) (s : Step) :
    Follows Advances (s.perform (Script.invoke depth) env) :=
  (Step.agree_perform stable_isCollecting
    (fun code env => (Script.advances_invoke depth code env).agree) env s).follows

/-- No script starts where a stable property fails: it makes no difference what would happen to
it. -/
theorem Step.perform_runWhere (hP : Stable P) (other : Call Script) (depth : Nat) (env : Received)
    (s : Step) {w : SceneWorld} (hw : P w) :
    (s.perform (Script.runWhere P other depth) env).runOn w =
      (s.perform (Script.invoke depth) env).runOn w :=
  (Step.agree_perform hP (Script.agrees_runWhere hP other depth) env s w).2 hw

namespace Scene

theorem advances_step (depth : Nat) (w : SceneWorld) (s : Step) :
    Advances w (step depth w s).2 :=
  (Step.advances_perform depth ⟨.null, none⟩ s w).trans (.other rfl rfl rfl rfl)

/-- A run of steps advances the world. -/
theorem advances_after (depth : Nat) (w : SceneWorld) (steps : List Step) :
    Advances w (after depth w steps) := by
  induction steps generalizing w with
  | nil => exact .refl w
  | cons s steps ih => exact (advances_step depth w s).trans (ih _)

/-- All documents of a run come from operations. So what is proved of such documents, of their
links, of markup that is stored and of nodes that are found, holds of the documents of every run. -/
theorem reached_after (depth : Nat) (source : String) (steps : List Step) :
    ∀ d ∈ (after depth (start source) steps).documents, d.Reached := by
  refine (advances_after depth (start source) steps).reached fun d hd => ?_
  obtain rfl := Array.mem_singleton.1 hd
  exact .ofMarkup source

end Scene

end LiveBinding
