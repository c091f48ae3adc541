import LiveBinding.Compile
import LiveBinding.Reactive.Write

/-!
# View models

A view model is a model together with the template that is compiled against it. The keys that the
data has at the start are proxied: they can be read and written through the view model. A view
model without a mount point binds nothing and proxies nothing.

Listeners call the methods only as long as the view model is alive.
-/

namespace LiveBinding

/-- Where a view model is mounted. -/
inductive Mount where
  | node (n : NodeId)
  | selector (s : String)
  deriving DecidableEq, Repr

/-- The node at a mount point of a document. -/
def Mount.resolve {κ : Type} (d : Document κ) : Mount → Except Fault NodeId
  | .node n => .ok n
  | .selector s =>
    match d.find? Document.body s with
    | some n => .ok n
    | none => .error (.mountNotFound s)

/-- What a view model is made from. -/
structure Blueprint (σ : Type) where
  mount : Option Mount
  data : Plain
  methods : Fields σ
  config : Config

namespace Act

variable {σ : Type}

/-- A new view model. -/
def addViewModel (vm : ViewModel) : Act σ ViewModelId := do
  let id := (← get).viewModels.size
  modify fun w => { w with viewModels := w.viewModels.push vm }
  return id

/-- Build the model of plain data. -/
def intercept (data : Plain) : Act σ MappingId := do
  let built ← ofExcept ((← get).store.interceptRoot data)
  modify fun w => w.turn built.1
  return built.2

/-- Make a view model on a document. -/
def newViewModel (document : DocumentId) (b : Blueprint σ) : Act σ ViewModelId := do
  let model ← intercept b.data
  match b.mount with
  | none => addViewModel ⟨document, none, model, [], b.config, .empty⟩
  | some mount =>
    let root ← ofExcept (mount.resolve ((← get).document document))
    let keys := (← get).store.keys model
    let proxied := if b.config.proxyData then keys else []
    let id ← addViewModel ⟨document, some root, model, proxied, b.config, .empty⟩
    let methods := Methods.ofList (b.methods.map fun m => (m.1, Listener.method id m.2))
    let scope ← (Setting.mk document model methods b.config.equalityGating).instantiate root
    modify fun w =>
      { w with viewModels := w.viewModels.modify id fun vm => { vm with bindings := scope } }
    return id

/-- Fault unless a key is proxied. -/
def checkProxied (vm : ViewModel) (key : String) : Act σ Unit :=
  if vm.proxied.contains key then return else throw (.unknownProperty key)

/-- Read a proxied key. -/
def getProxied (vm : ViewModel) (key : String) : Act σ Value := do
  checkProxied vm key
  return (← readKey vm.model key).getD .null

/-- Write a proxied key. A value that is the same as the current one changes nothing. -/
def setProxied (call : Call σ) (vm : ViewModel) (key : String) (v : Value) : Act σ Unit := do
  checkProxied vm key
  let store := (← get).store
  let current := (store.cellOf? vm.model key).map store.value
  if current.any (·.same v) then return
  writeKey call vm.model key v

end Act

end LiveBinding
