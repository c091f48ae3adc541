import LiveBinding.ViewModel

/-!
# Debug texts

One-line descriptions of the things in a world, for people who look into a running program. A
description names the type of a thing and its fields; texts are quoted and numbers always show
that they are numbers of the format binary64.
-/

namespace LiveBinding.Debug

/-- A record: its name and its fields between braces. -/
def record (name : String) (fields : List (String × String)) : String :=
  name ++ " \x7b " ++ ", ".intercalate (fields.map fun f => f.1 ++ ": " ++ f.2) ++ " \x7d"

/-- A value with the name of its type in front. -/
def tagged (name s : String) : String := name ++ "(" ++ s ++ ")"

/-- A list between brackets. -/
def list (items : List String) : String := "[" ++ ", ".intercalate items ++ "]"

/-- A set or a table between braces. -/
def braces (items : List String) : String := "\x7b" ++ ", ".intercalate items ++ "\x7d"

/-- An optional value. -/
def optional : Option String → String
  | none => "None"
  | some s => tagged "Some" s

/-- A character of a quoted text. -/
def escapeChar (c : Char) : List Char :=
  match c with
  | '"' => ['\\', '"']
  | '\\' => ['\\', '\\']
  | '\n' => ['\\', 'n']
  | '\r' => ['\\', 'r']
  | '\t' => ['\\', 't']
  | '\x00' => ['\\', '0']
  | c =>
    if c.toNat < 0x20 ∨ c.toNat = 0x7f then
      '\\' :: 'u' :: '\x7b' :: Nat.toDigits 16 c.toNat ++ ['\x7d']
    else [c]

/-- A quoted text. -/
def quote (s : String) : String := String.ofList ('"' :: s.toList.flatMap escapeChar ++ ['"'])

/-- A truth value. -/
def truth (b : Bool) : String := if b then "true" else "false"

/-- The number format of debug texts. -/
def numberLayout : Layout where
  lowest := -4
  highest := 15
  pointZero := true
  plus := false
  signedZero := true
  tie := .up
  nan := "NaN"
  infinity := "inf"

/-- A value of a model. -/
def value (s : Store) : Value → String
  | .null => "Null"
  | .boolean b => tagged "Bool" (truth b)
  | .number x => tagged "Number" (x.text numberLayout)
  | .text t => tagged "String" (quote t)
  | .mapping m => record "Mapping" [("keys", list ((s.keys m).map quote))]
  | .sequence q => record "Sequence" [("len", toString (s.items q).length)]

mutual

/-- Plain data. -/
def plain : Plain → String
  | .null => "Null"
  | .boolean b => tagged "Bool" (truth b)
  | .number n => tagged "Number" n.json
  | .text t => tagged "String" (quote t)
  | .array items => "Array " ++ list (plainItems items)
  | .object fields => "Object " ++ braces (plainFields fields)

/-- The items of an array. -/
def plainItems : List Plain → List String
  | [] => []
  | p :: ps => plain p :: plainItems ps

/-- The fields of an object. -/
def plainFields : List (String × Plain) → List String
  | [] => []
  | (key, p) :: ps => (quote key ++ ": " ++ plain p) :: plainFields ps

end

/-- A key path. -/
def keyPath (p : KeyPath) : String := tagged "KeyPath" (quote p.raw)

/-- A node of a document. -/
def node (n : NodeId) : String := tagged "NodeId" (toString n)

/-- The watchers of a cell. -/
def watchers (ws : List EffectId) : String :=
  record "DependencySet" [("subscriber_count", toString ws.length)]

/-- A cell. -/
def cell (s : Store) (c : CellId) : String :=
  record "PropertyCell" [("value", value s (s.value c)), ("deps", watchers (s.watchers c))]

/-- An effect. Effects are numbered from one. -/
def effect {σ : Type} (e : EffectId) (effect : Effect σ) : String :=
  "ReactiveEffect \x7b id: " ++ tagged "EffectId" (toString (e + 1)) ++
    ", path: " ++ keyPath effect.path ++
    ", options: " ++ record "EffectOptions" [("gate_on_change", truth effect.gated)] ++
    ", updates: " ++ toString effect.updates ++ ", .. \x7d"

/-- A scope. -/
def scope (s : Scope) : String :=
  record "BindingScope"
    [("effect_count", toString s.effects.length), ("listener_count", toString s.listeners)]

/-- A table of methods. -/
def methods {μ : Type} (t : Methods μ) : String := braces (t.names.map quote)

/-- A document. -/
def document {κ : Type} (d : Document κ) : String :=
  record "MemoryDom" [("nodes", toString d.size), ("root", node Document.body)]

/-- A mount point. -/
def mount : Mount → String
  | .node n => tagged "Node" (node n)
  | .selector s => tagged "Selector" (quote s)

/-- A configuration. -/
def config (c : Config) : String :=
  record "EngineConfig"
    [("equality_gating", truth c.equalityGating), ("proxy_data", truth c.proxyData)]

/-- What a view model is made from. -/
def blueprint {σ : Type} (b : Blueprint σ) : String :=
  record "ViewModelOptions"
    [("mount", optional (b.mount.map mount)), ("data", plain b.data),
      ("methods", list (b.methods.map fun m => quote m.1)), ("config", config b.config)]

/-- A view model. -/
def viewModel (s : Store) (vm : ViewModel) : String :=
  record "ViewModel"
    [("root", optional (vm.root.map node)), ("data", plain (s.toPlain (.mapping vm.model))),
      ("proxied", list (vm.proxied.map quote)), ("config", config vm.config),
      ("bindings", scope vm.bindings)]

end LiveBinding.Debug
