import LiveBinding.Debug
import LiveBinding.Scene.Reference

/-!
# Performing steps

What each request does to the world and what it answers. The references of a request are looked up
before anything is changed; a value that is to be written is built before its target is looked up.

User code is run by the parameter `call`, and `env` is what the running script received.
-/

namespace LiveBinding

namespace SceneAct

variable (call : Call Script) (env : Received)

/-- The node of the current document. -/
def refer (n : NodeId) : SceneAct NodeRef := return ⟨(← get).current, n⟩

/-! ### Models -/

/-- Perform a request about models. -/
def performModel : ModelStep → SceneAct Answer
  | .create name data => do
    let root ← Act.intercept data
    modifyNames fun names => { names with models := names.models.put name root }
    return .texts ((← get).store.keys root)
  | .get name path => do view (← Act.read path (← modelNamed name))
  | .kind name path => do return .kind (← Act.read path (← modelNamed name)).kind
  | .set name path e => do
    let v ← eval env e
    Act.write call path (← modelNamed name) v
    return .nothing
  | .read cell => do
    match ← locate cell with
    | .key m key => viewOption (← Act.readKey m key)
    | .item q i => viewOption (← Act.readItem q i)
  | .peek cell => do
    let location ← locate cell
    let store := (← get).store
    viewOption ((cellAt? store location).map store.value)
  | .write cell e => do
    let v ← eval env e
    match ← locate cell with
    | .key m key => do
      Act.writeKey call m key v
      return .nothing
    | .item q i => return .truth (← Act.writeItem call q i v)
  | .push container e => do
    let v ← eval env e
    match ← containerAt container with
    | .sequence q => do
      Act.put call (.newItem q) v
      return .count ((← get).store.items q).length
    | _ => throw .badRequest
  | .shape container key => do
    let store := (← get).store
    match ← containerAt container with
    | .mapping m =>
      return .shape (.mapping (store.keys m) (key.map fun k => (store.cellOf? m k).isSome))
    | .sequence q => return .shape (.sequence (store.items q).length)
    | v => return .shape (.leaf v.kind)
  | .same a b => do
    let v ← eval env a
    let w ← eval env b
    return .truth (v.same w)

/-! ### Cells -/

/-- Perform a request about a cell. -/
def performCell : CellStep → SceneAct Answer
  | .watchers cell => do
    let c ← cellAt cell
    let w ← get
    return .watchers (w.store.watchers c).length (w.liveWatchers c)
  | .get cell => do view (← Act.readCell (← cellAt cell))
  | .set cell e => do
    let v ← eval env e
    return .truth (← Act.setCell call (← cellAt cell) v)
  | .notify cell => do
    Act.notify call (← cellAt cell)
    return .nothing
  | .register cell name => do
    let c ← cellAt cell
    let e ← effectNamed name
    modify fun w => { w with store := w.store.watch c e, enlisted := e :: w.enlisted }
    return .nothing

/-! ### Effects and scopes -/

/-- Perform a request about effects and scopes. -/
def performEffect : EffectStep Script → SceneAct Answer
  | .create name model path gated code => do
    let root ← modelNamed model
    let e ← Act.newEffect path root gated (.run code)
    modifyNames fun names => { names with effects := names.effects.put name e }
    return .number e
  | .update name => do
    let e ← effectNamed name
    Act.holding [e] (Act.update call e)
    return .nothing
  | .info name => do return .effect (← effectInfo (← effectNamed name))
  | .drop name => do
    let existed := ((← get).names.effects.get? name).isSome
    modifyNames fun names => { names with effects := names.effects.erase name }
    return .truth existed
  | .createScope scope => do
    modifyNames fun names => { names with scopes := names.scopes.put scope .empty }
    return .nothing
  | .hold scope name => do
    let s ← scopeNamed scope
    let e ← effectNamed name
    modifyNames fun names =>
      { names with
        effects := names.effects.erase name
        scopes := names.scopes.put scope (s.hold e) }
    return .nothing
  | .recordListener scope => do
    let s ← scopeNamed scope
    modifyNames fun names => { names with scopes := names.scopes.put scope s.recordListener }
    return .nothing
  | .dropScope scope => do
    let existed := ((← get).names.scopes.get? scope).isSome
    modifyNames fun names => { names with scopes := names.scopes.erase scope }
    return .truth existed
  | .scopeInfo scope => do scopeInfo (← scopeNamed scope)
  | .tracking => do
    let w ← get
    return .tracking w.collectors.length w.isCollecting

/-! ### Templates and view models -/

/-- The mount point that a step names. -/
def mountOf : MountRef → SceneAct Mount
  | .node e => return .node (← nodeAt e)
  | .selector s => return .selector s

/-- Assign through the view model that a request is about, which stays in use meanwhile. -/
def assignThrough (name : Option String) (assign : ViewModel → SceneAct Unit) :
    SceneAct Answer := do
  let id ← viewModelNamed env name
  let vm ← viewModelRecord id
  Act.serving id (assign vm)
  return .nothing

/-- Perform a request about templates and view models. -/
def performTemplate : TemplateStep Script → SceneAct Answer
  | .compile scope node model methods gated => do
    let n ← nodeAt node
    let root ← modelNamed model
    let table := Methods.ofList (methods.map fun m => (m.1, Listener.run m.2))
    let made ← (Setting.mk (← get).current root table gated).instantiate n
    modifyNames fun names => { names with scopes := names.scopes.put scope made }
    scopeInfo made
  | .create name mount data methods config debug => do
    let mount ← mount.mapM mountOf
    let blueprint : Blueprint Script := ⟨mount, data, methods, config⟩
    let id ← Act.newViewModel (← get).current blueprint
    let vm ← viewModelRecord id
    modifyNames fun names =>
      { names with
        viewModels := names.viewModels.put name id
        models := names.models.put name vm.model }
    let store := (← get).store
    let texts := (Debug.blueprint blueprint, Debug.viewModel store vm)
    return .made (← viewModelInfo vm) mount.isSome (if debug then some texts else none)
  | .info name => do
    let vm ← viewModelRecord (← viewModelNamed env (some name))
    return .viewModel (← viewModelInfo vm)
  | .get name key => do
    let vm ← viewModelRecord (← viewModelNamed env name)
    view (← Act.getProxied vm key)
  | .set name key e => do
    let v ← eval env e
    assignThrough env name fun vm => Act.setProxied call vm key v
  | .read name path => do
    let vm ← viewModelRecord (← viewModelNamed env name)
    view (← Act.read path vm.model)
  | .write name path e => do
    let v ← eval env e
    assignThrough env name fun vm => Act.write call path vm.model v
  | .same name other => do
    let a ← viewModelNamed env name
    let b ← viewModelNamed env (some other)
    return .truth (a == b)
  | .nameAgain name other => do
    let id ← viewModelNamed env name
    modifyNames fun names => { names with viewModels := names.viewModels.put other id }
    return .nothing
  | .drop name => do
    let existed := ((← get).names.viewModels.get? name).isSome
    modifyNames fun names => { names with viewModels := names.viewModels.erase name }
    return .truth existed

/-! ### Documents -/

/-- Perform a request about the current document. -/
def performDocument : DocumentStep Script → SceneAct Answer
  | .replace source => do
    modify fun w =>
      { w with current := w.documents.size, documents := w.documents.push (.ofMarkup source) }
    return .nothing
  | .nodeCount => do return .count (← currentDocument).size
  | .createElement tag keep => do
    let made := (← currentDocument).createElement tag
    edit fun _ => made.1
    keepNode keep made.2
    return .node made.2
  | .createText s keep => do
    let made := (← currentDocument).createText s
    edit fun _ => made.1
    keepNode keep made.2
    return .node made.2
  | .save node keep => do
    let n ← nodeAt node
    keepNode (some keep) n
    return .node n
  | .find selector start keep => do
    let start ← match start with
      | some e => nodeAt e
      | none => pure Document.body
    match (← currentDocument).find? start selector with
    | some n => do
      keepNode keep n
      return .node n
    | none => return .nothing
  | .resolve selector keep => do
    let n ← Act.ofExcept ((Mount.selector selector).resolve (← currentDocument))
    keepNode keep n
    return .node n
  | .append node children => do
    let n ← nodeAt node
    let cs ← children.mapM nodeAt
    edit fun d => d.appendChildren n cs
    return .nothing
  | .take node keep => do
    let n ← nodeAt node
    let cs := (← currentDocument).children n
    edit fun d => d.detachChildren n
    match keep with
    | none => pure ()
    | some name =>
      modifyNames fun names =>
        { names with
          nodes := (cs.zipIdx).foldl (fun t c => t.put (name ++ toString c.2) c.1) names.nodes }
    return .nodes cs
  | .children node => do
    let n ← nodeAt node
    return .nodes ((← currentDocument).children n)
  | .parent node => do
    let n ← nodeAt node
    return ((← currentDocument).parent? n).elim .nothing .node
  | .tag node => do
    let n ← nodeAt node
    return ((← currentDocument).tag? n).elim .nothing .text
  | .sort node => do
    let n ← nodeAt node
    return .sort ((← currentDocument).sort n)
  | .attributes node => do
    let n ← nodeAt node
    return .fields ((← currentDocument).attributes n)
  | .getAttribute node name => do
    let n ← nodeAt node
    return (((← currentDocument).attributes n).get? name).elim .nothing .text
  | .setAttribute node name value => do
    let n ← nodeAt node
    touch n fun d => d.setAttribute n name value
    return .nothing
  | .removeAttribute node name => do
    let n ← nodeAt node
    touch n fun d => d.removeAttribute n name
    return .nothing
  | .text node => do
    let n ← nodeAt node
    return .text ((← currentDocument).text n)
  | .setText node s => do
    let n ← nodeAt node
    touch n fun d => d.setText n s
    return .nothing
  | .setMarkup node source => do
    let n ← nodeAt node
    touch n fun d => d.setMarkup n source
    return .nothing
  | .outerHtml node => do
    let n ← nodeAt node
    return .text ((← currentDocument).outerHtml n)
  | .innerHtml node => do
    let n ← nodeAt node
    return .text ((← currentDocument).innerHtml n)
  | .inputValue node => do
    let n ← nodeAt node
    return .text ((← currentDocument).inputValue n)
  | .setInputValue node value => do
    let n ← nodeAt node
    touch n fun d => d.setInputValue n value
    return .nothing
  | .listen node event code => do
    let n ← nodeAt node
    edit fun d => d.addListener n event (.run code)
    return .nothing
  | .listeners node event => do
    let n ← nodeAt node
    return .count ((← currentDocument).listenersFor n event).length
  | .dispatch node event => do
    let n ← nodeAt node
    return .fired event.kind (← Act.dispatch call (← refer n) event)
  | .click node => do
    let n ← nodeAt node
    return .count (← Act.dispatch call (← refer n) ⟨"click", none⟩)
  | .typeInto node s => do
    let n ← nodeAt node
    return .count (← Act.typeInto call (← refer n) s)

/-! ### Debug texts -/

/-- Perform a request for a debug text. -/
def performDebug : DebugStep → SceneAct Answer
  | .value e => do
    let v ← eval env e
    return .text (Debug.value (← get).store v)
  | .cell cell => do
    let c ← cellAt cell
    return .text (Debug.cell (← get).store c)
  | .watchers cell => do
    let c ← cellAt cell
    return .text (Debug.watchers ((← get).store.watchers c))
  | .effect name => do
    let e ← effectNamed name
    let effect ← require (← get).effects[e]?
    return .text (Debug.effect e effect)
  | .scope name => do return .text (Debug.scope (← scopeNamed name))
  | .document => do return .text (Debug.document (← currentDocument))
  | .viewModel name => do
    let vm ← viewModelRecord (← viewModelNamed env (some name))
    return .text (Debug.viewModel (← get).store vm)
  | .mountNode node => do return .text (Debug.mount (.node (← nodeAt node)))
  | .mountSelector s => return .text (Debug.mount (.selector s))

end SceneAct

open SceneAct

mutual

/-- Perform a step. -/
def Step.perform (call : Call Script) (env : Received) : Step → SceneAct Answer
  | .model s => performModel call env s
  | .cell s => performCell call env s
  | .effect s => performEffect call s
  | .template s => performTemplate call env s
  | .document s => performDocument call s
  | .debug s => performDebug env s
  | .untracked steps => Act.collecting none do
    let w ← get
    let answers ← Step.performAll call env steps
    return .many (.ok (.tracking w.collectors.length w.isCollecting) :: answers)
  | .malformed => throw .badRequest

/-- Perform steps one after the other, each whether or not those before it faulted. -/
def Step.performAll (call : Call Script) (env : Received) :
    List Step → SceneAct (List (Except Fault Answer))
  | [] => return []
  | s :: steps => do
    let answer ← Act.attempt (Step.perform call env s)
    let answers ← Step.performAll call env steps
    return answer :: answers

end

/-- Run a script. -/
def Script.exec (call : Call Script) (env : Received) : Script → SceneAct Unit
  | .done => return
  | .fail f => throw f
  | .log tag next => do
    modify fun w => { w with log := w.log ++ [tag ++ ":" ++ w.store.display env.value] }
    Script.exec call env next
  | .note line next => do
    modify fun w => { w with log := w.log ++ [line] }
    Script.exec call env next
  | .step s next => do
    let answer ← Act.attempt (Step.perform call env s)
    Script.exec call env (next answer)

/-- Run user code that may run user code in turn, nested up to a depth. -/
def Script.invoke : Nat → Call Script
  | 0 => fun _ _ => throw .exhausted
  | depth + 1 => fun code env => code.exec (Script.invoke depth) env

end LiveBinding
