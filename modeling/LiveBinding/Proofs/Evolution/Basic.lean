import LiveBinding.Proofs.Document.Keeps
import LiveBinding.Proofs.Store.Growth
import LiveBinding.Directive

/-!
# How worlds evolve

User code may do anything that a request can do, from inside a pass or a dispatch, nested to any
depth. `Evolves activity w w'` says that a world can become another one in this way. Its rules are
the shape of an execution: what happens between the two ends of a pass is again an evolution, and
so is what an effect or a listener does. `Change` lists the changes that happen at once.

An activity tells what is going on. `free` is anything at all. The others are the parts of an
execution that come to a good end: assigning a value, setting a cell, the updates of a pass that no
fault ends, the listeners that hear of a typed text.

Every law about runs is proved by induction on `Evolves`: one case for each rule.

## Key definitions

- `World.Grows`: effects are constructed and shown, as the compilation of a template does it
- `World.Shown`: every effect constructed since shows what it should
- `World.Receives`: when an effect reacts
- `Change`, `Activity`, `Evolves`

## Key results

- `World.isAlive_iff`: the four sorts of owners
-/

namespace LiveBinding

variable {σ : Type}

/-! ### What effects show, and where -/

/-- A sink that a template cannot mistake for a directive. -/
def Sink.IsPlain : Sink → Prop
  | .attr name => Directive.parse? name = .ok none
  | _ => True

namespace Effect

/-- The sink and the node where an effect shows something. -/
def place? (effect : Effect σ) : Option (Sink × NodeRef) :=
  match effect.reaction with
  | .run _ => none
  | .display sink node => some (sink, node)
  | .render _ node => some (.text, node)

/-- What an effect shows in its place. -/
def shown (effect : Effect σ) (s : Store) : Except Fault String :=
  match effect.reaction with
  | .run _ => .ok ""
  | .display _ _ => (s.get effect.path effect.root).map s.display
  | .render template _ =>
    Interpolation.render (fun p => (s.get p effect.root).map s.display) template.segments

end Effect

/-- A sink of a node with this content shows a text. -/
def Content.Displays {κ : Type} (c : Content κ) (sink : Sink) (s : String) : Prop :=
  match sink with
  | .text => ∀ t, c = .text t → t = s
  | .markup => True
  | .input => ∃ e, c = .element e ∧ e.input = some s
  | .attr name => ∃ e, c = .element e ∧ e.attributes.get? name = some s

namespace World

/-! ### Steps of a pass, a suspension and a method -/

/-- Give a cell a value. -/
def assign (w : World σ) (c : CellId) (v : Value) : World σ := w.turn (w.store.assign c v)

/-- A pass over the watchers of a cell begins. -/
def startPass (w : World σ) (c : CellId) : World σ :=
  { w with store := w.store.prune c w.isAlive, passes := w.liveWatchers c :: w.passes }

/-- The innermost pass has visited all its effects, or the innermost update has ended. -/
def endPass (w : World σ) : World σ := { w with passes := w.passes.tail }

/-- An update of an effect begins. -/
def hold (w : World σ) (e : EffectId) : World σ := { w with passes := [e] :: w.passes }

/-- A fault has ended the innermost pass. -/
def abortPass (w : World σ) : World σ :=
  { w with abortedPasses := w.abortedPasses + 1, passes := w.passes.tail }

/-- A fault has ended a dispatch. -/
def abortDispatch (w : World σ) : World σ :=
  { w with abortedDispatches := w.abortedDispatches + 1 }

/-- Collection is suspended. -/
def suspend (w : World σ) : World σ := { w with collectors := none :: w.collectors }

/-- Collection is as it was before. -/
def resume (w : World σ) : World σ := { w with collectors := w.collectors.tail }

/-- A method of a view model, or an assignment through it, begins. -/
def enterMethod (w : World σ) (vm : ViewModelId) : World σ :=
  { w with receivers := vm :: w.receivers }

/-- The innermost method or assignment has ended. -/
def leaveMethod (w : World σ) : World σ := { w with receivers := w.receivers.tail }

/-- An effect gets a value. -/
def deliver (w : World σ) (e : EffectId) (v : Value) : World σ :=
  w.modifyEffect e fun effect => effect.receive v

/-! ### Documents -/

/-- Every document is left with everything that is not free. -/
def DocumentsKeep (free : Sink → NodeRef → Prop) (w w' : World σ) : Prop :=
  ∀ (i : DocumentId) (d : Document (Listener σ)), w.documents[i]? = some d →
    ∃ d', w'.documents[i]? = some d' ∧ d.Keeps (fun sink n => free sink ⟨i, n⟩) d'

/-- A sink of a node shows a text. -/
def Displays (w : World σ) (sink : Sink) (node : NodeRef) (s : String) : Prop :=
  ∃ d c, w.documents[node.document]? = some d ∧ d.content? node.node = some c ∧ c.Displays sink s

/-- A node writes its input value back to a place of a model. -/
def WritesBack (w : World σ) (node : NodeRef) (path : KeyPath) (root : MappingId) : Prop :=
  ∃ d el, w.documents[node.document]? = some d ∧ d.content? node.node = some (.element el) ∧
    ("input", .writeBack path root) ∈ el.listeners

/-! ### Registrations -/

/-- How often the construction of an effect read a cell. -/
def readsOf (w : World σ) (e : EffectId) (c : CellId) : Nat :=
  ((w.effects[e]?.map Effect.watched).getD []).count c

/-- The effects constructed since a moment, in order of construction, each as often as its
construction read a cell. -/
def registrationsFrom (w : World σ) (n : Nat) (c : CellId) : List EffectId :=
  (List.range' n (w.effects.size - n)).flatMap fun e => List.replicate (w.readsOf e c) e

/-! ### Constructing effects -/

/-- From one world to the other, effects are constructed, and at most the places of those whose
number is at least `n` are written. The values of the model stay as they are. -/
structure Grows (n : Nat) (w w' : World σ) : Prop where
  sameData : w.store.SameData w'.store
  size_le : w.effects.size ≤ w'.effects.size
  effects_eq : ∀ e, e < w.effects.size → w'.effects[e]? = w.effects[e]?
  watched_eq : ∀ e effect, w.effects.size ≤ e → w'.effects[e]? = some effect →
    effect.watched = w.store.reads effect.path effect.root
  memory_eq : ∀ e effect, w.effects.size ≤ e → w'.effects[e]? = some effect →
    effect.memory = match w.store.get effect.path effect.root with
      | .ok v => Memory.empty.start v
      | .error _ => .empty
  watchers_eq : ∀ c, c < w.store.cells.size →
    w'.store.watchers c = w.store.watchers c ++ w'.registrationsFrom w.effects.size c
  documents : w.DocumentsKeep
    (fun sink node => ¬ sink.IsPlain ∨ ∃ e effect, n ≤ e ∧ w'.effects[e]? = some effect ∧
      effect.place? = some (sink, node)) w'
  isAlive_of : ∀ e, e < n → w'.isAlive e = true → w.isAlive e = true
  collectors_eq : w'.collectors = w.collectors
  passes_eq : w'.passes = w.passes
  receivers_eq : w'.receivers = w.receivers
  abortedPasses_eq : w'.abortedPasses = w.abortedPasses
  abortedDispatches_eq : w'.abortedDispatches = w.abortedDispatches
  enlisted_eq : w'.enlisted = w.enlisted
  touched_eq : w'.touched = w.touched
  changes_eq : w'.changes = w.changes
  moments_eq : w'.moments = w.moments

/-- The last effect that was constructed for a place shows there what it should, if its number is at
least `n`; an input also writes back what is typed. -/
def Shown (n : Nat) (w : World σ) : Prop :=
  ∀ e effect sink node, n ≤ e → w.effects[e]? = some effect →
    effect.place? = some (sink, node) → sink.IsPlain →
    (∀ e' effect', e < e' → w.effects[e']? = some effect' →
      effect'.place? ≠ some (sink, node)) →
    ∃ s, effect.shown w.store = .ok s ∧ w.Displays sink node s ∧
      (sink = .input → w.WritesBack node effect.path effect.root)

/-- Two ways to change a document that do the same to it. -/
theorem modifyDocument_congr {w : World σ} {i : DocumentId}
    {f g : Document (Listener σ) → Document (Listener σ)}
    (h : ∀ d, w.documents[i]? = some d → f d = g d) :
    w.modifyDocument i f = w.modifyDocument i g := by
  simp only [modifyDocument]
  congr 1
  refine Array.ext_getElem? fun j => ?_
  rw [Array.getElem?_modify, Array.getElem?_modify]
  split
  · rename_i hij
    subst hij
    cases hd : w.documents[i]? with
    | none => rfl
    | some d => rw [Option.map_some, Option.map_some, h d hd]
  · rfl

/-! ### Owners -/

theorem isViewModelAlive_iff {w : World σ} {vm : ViewModelId} :
    w.isViewModelAlive vm = true ↔ (∃ f ∈ w.names.viewModels, f.2 = vm) ∨ vm ∈ w.receivers := by
  simp [isViewModelAlive]

theorem isBound_iff {w : World σ} {e : EffectId} :
    w.isBound e = true ↔ ∃ vm record, w.isViewModelAlive vm = true ∧
      w.viewModels[vm]? = some record ∧ e ∈ record.bindings.effects := by
  simp only [isBound, List.any_eq_true, List.mem_range, Bool.and_eq_true, Option.any_eq_true,
    List.contains_iff_mem]
  constructor
  · rintro ⟨vm, -, halive, record, hrecord, he⟩
    exact ⟨vm, record, halive, hrecord, he⟩
  · rintro ⟨vm, record, halive, hrecord, he⟩
    exact ⟨vm, (Array.getElem?_eq_some_iff.1 hrecord).1, halive, record, hrecord, he⟩

/-- The four sorts of owners that keep an effect alive. -/
theorem isAlive_iff {w : World σ} {e : EffectId} :
    w.isAlive e = true ↔
      (∃ f ∈ w.names.effects, f.2 = e) ∨ (∃ f ∈ w.names.scopes, e ∈ f.2.effects) ∨
        (∃ vm record, w.isViewModelAlive vm = true ∧ w.viewModels[vm]? = some record ∧
          e ∈ record.bindings.effects) ∨
        ∃ visited ∈ w.passes, e ∈ visited := by
  simp only [isAlive, Bool.or_eq_true, isBound_iff, List.any_eq_true, beq_iff_eq,
    List.contains_iff_mem, or_assoc]

theorem isAlive_of_mem_passes {w : World σ} {visited : List EffectId} {e : EffectId}
    (h : visited ∈ w.passes) (he : e ∈ visited) : w.isAlive e = true :=
  isAlive_iff.2 (.inr (.inr (.inr ⟨visited, h, he⟩)))

/-- A name, or a scope with a name, holds an effect. -/
def IsHeld (w : World σ) (e : EffectId) : Prop :=
  (∃ f ∈ w.names.effects, f.2 = e) ∨ ∃ f ∈ w.names.scopes, e ∈ f.2.effects

/-- Effects stay with the sort of owner that they have. Those constructed since get names and
scopes, or the bindings of the next view model, but not both. -/
structure Entrusts (w w' : World σ) : Prop where
  isHeld_of : ∀ e, w'.IsHeld e → w.IsHeld e ∨ w.effects.size ≤ e
  viewModel_eq : ∀ (vm : ViewModelId) (record : ViewModel), w.viewModels[vm]? = some record →
    w'.viewModels[vm]? = some record
  bindings : ∀ (vm : ViewModelId) (record : ViewModel), w'.viewModels[vm]? = some record →
    w.viewModels[vm]? = some record ∨ vm = w.viewModels.size ∧
      (∀ e ∈ record.bindings.effects, w.effects.size ≤ e ∧ e < w'.effects.size) ∧
        ∀ e, w'.IsHeld e → w.IsHeld e
  isViewModelAlive_of : ∀ f ∈ w'.names.viewModels,
    w.isViewModelAlive f.2 = true ∨ w.viewModels.size ≤ f.2

/-- An effect is to react to a value: it is alive, its path leads to the value, and its gate lets
the value through. -/
structure Receives (w : World σ) (e : EffectId) (effect : Effect σ) (v : Value) : Prop where
  isAlive : w.isAlive e = true
  get_eq : w.store.get effect.path effect.root = .ok v
  gate_eq : (effect.gated && v.same effect.last) = false

/-- Effects are constructed and kept. Either all of them show what they should, or none is kept. -/
structure Constructs (w w' : World σ) : Prop where
  grows : Grows w.effects.size w w'
  shown : Shown w.effects.size w' ∨ ∀ e, w'.isAlive e = true → w.isAlive e = true
  isAlive_of : ∀ e, w'.isAlive e = true → w.isAlive e = true ∨
    w.effects.size ≤ e ∧ ∃ effect, w'.effects[e]? = some effect ∧ effect.values ≠ []
  names_eq : ∀ f ∈ w'.names.effects, f ∈ w.names.effects ∨
    ∃ effect, w'.effects[f.2]? = some effect ∧ effect.place? = none
  entrusts : w.Entrusts w'

end World

/-- What happens to a world at once. -/
inductive Change : World σ → World σ → Prop
  /-- Cells are read. -/
  | read (w : World σ) (cells : List CellId) : Change w (w.registerReads cells)
  /-- User code notes something, or the notes are taken away. -/
  | note (w : World σ) (log : List String) : Change w { w with log := log }
  /-- The store gets new cells, containers, keys and items. -/
  | extend (w : World σ) {s : Store} (h : w.store.Extends s) : Change w (w.turn s)
  /-- An effect without a place, or with a name, gets the value that its path has. -/
  | deliver (w : World σ) {e : EffectId} {effect : Effect σ} {v : Value}
      (he : w.effects[e]? = some effect)
      (hp : effect.place? = none ∨ ∃ f ∈ w.names.effects, f.2 = e)
      (hv : w.Receives e effect v) : Change w (w.deliver e v)
  /-- An effect gets the value that its path has, and shows in its place what it should. -/
  | display (w : World σ) {e : EffectId} {effect : Effect σ} {v : Value} {sink : Sink}
      {node : NodeRef} {s : String} (he : w.effects[e]? = some effect)
      (hp : effect.place? = some (sink, node)) (hv : w.Receives e effect v)
      (hs : effect.shown w.store = .ok s) : Change w ((w.deliver e v).writeSink sink node s)
  /-- Documents are changed by hand. -/
  | redraw (w : World σ) {documents : Array (Document (Listener σ))} {new : List NodeRef}
      (current : DocumentId)
      (h : w.DocumentsKeep (fun _ node => node ∈ new) { w with documents := documents }) :
      Change w { w with documents := documents, current := current, touched := new ++ w.touched }
  /-- Names are given to what is in use, or taken away. -/
  | rename (w : World σ) {names : Names}
      (hl : ∀ e, ({ w with names := names } : World σ).isAlive e = true → w.isAlive e = true)
      (hn : ∀ f ∈ names.effects, f ∈ w.names.effects)
      (ho : w.Entrusts { w with names := names }) : Change w { w with names := names }
  /-- Effects are constructed. -/
  | construct {w w' : World σ} (h : w.Constructs w') : Change w w'
  /-- An effect is registered with a cell by hand. -/
  | enlist (w : World σ) (c : CellId) {f : String × EffectId} (h : f ∈ w.names.effects) :
      Change w { w with store := w.store.watch c f.2, enlisted := f.2 :: w.enlisted }
  /-- A fault ends a dispatch. -/
  | abortDispatch (w : World σ) : Change w w.abortDispatch
  /-- The moment is noted, before a template is compiled. -/
  | begin (w : World σ) : Change w w.begin

/-- What the update leaves behind that ends a pass with a fault: nothing, or an effect that got a
value and could not show it. -/
inductive World.Falters : World σ → World σ → Prop
  | still (w : World σ) : Falters w w
  | deliver (w : World σ) {e : EffectId} {effect : Effect σ} {v : Value}
      (he : w.effects[e]? = some effect) (hv : w.Receives e effect v) : Falters w (w.deliver e v)

/-- What is going on. All but the first come to a good end. -/
inductive Activity (σ : Type) where
  /-- Anything. -/
  | free
  /-- A cell gets a value, and its watchers are updated unless the value is the same. -/
  | setting (c : CellId) (v : Value)
  /-- A value is assigned to a path. -/
  | assigning (path : KeyPath) (root : MappingId) (v : Value)
  /-- A pass updates effects, one after the other. -/
  | visiting (es : List EffectId)
  /-- Listeners of a node hear of a typed text, one after the other. -/
  | hearing (node : NodeRef) (s : String) (ls : List (Listener σ))

/-- A world can become another one while something goes on. -/
inductive Evolves : Activity σ → World σ → World σ → Prop
  | refl (w : World σ) : Evolves .free w w
  | trans {w₁ w₂ w₃ : World σ} (h : Evolves .free w₁ w₂) (h' : Evolves .free w₂ w₃) :
      Evolves .free w₁ w₃
  | change {w w' : World σ} (h : Change w w') : Evolves .free w w'
  | suspended {w w' : World σ} (h : Evolves .free w.suspend w') : Evolves .free w w'.resume
  | method {w w' : World σ} {vm : ViewModelId} (hvm : w.isViewModelAlive vm = true)
      (h : Evolves .free (w.enterMethod vm) w') : Evolves .free w w'.leaveMethod
  | held {w w' : World σ} {e : EffectId} (he : w.isAlive e = true)
      (h : Evolves .free (w.hold e) w') : Evolves .free w w'.endPass
  | set {w w' : World σ} {c : CellId} {v : Value} (h : Evolves (.setting c v) w w') :
      Evolves .free w w'
  | assigned {w w' : World σ} {path : KeyPath} {root : MappingId} {v : Value}
      (h : Evolves (.assigning path root v) w w') : Evolves .free w w'
  /-- A pass without a new value. -/
  | pass {w w' : World σ} {c : CellId}
      (h : Evolves (.visiting (w.liveWatchers c)) (w.startPass c) w') : Evolves .free w w'.endPass
  | abortedPass {w w₁ w' : World σ} {c : CellId} (h : Evolves .free (w.startPass c) w₁)
      (hend : w₁.Falters w') : Evolves .free w w'.abortPass
  | abortedSet {w w₁ w' : World σ} {c : CellId} {v : Value}
      (hv : (w.store.value c).same v = false)
      (h : Evolves .free ((w.assign c v).startPass c) w₁) (hend : w₁.Falters w') :
      Evolves .free w w'.abortPass
  | typed {w w' : World σ} {node : NodeRef} {s : String}
      (h : Evolves (.hearing node s
        (((w.writeSink .input node s).document node.document).listenersFor node.node "input"))
        (w.writeSink .input node s) w') : Evolves .free w w'
  | abortedTyped {w w' : World σ} {node : NodeRef} {s : String}
      (h : Evolves .free (w.writeSink .input node s) w') : Evolves .free w w'.abortDispatch
  | setSame {w : World σ} {c : CellId} {v : Value} (hv : (w.store.value c).same v = true) :
      Evolves (.setting c v) w w
  | setNew {w w' : World σ} {c : CellId} {v : Value} (hv : (w.store.value c).same v = false)
      (h : Evolves (.visiting (w.liveWatchers c)) ((w.assign c v).startPass c) w') :
      Evolves (.setting c v) w w'.endPass
  | assign {w w' : World σ} {path : KeyPath} {root : MappingId} {v container : Value}
      {cells : List CellId} {c : CellId}
      (hwalk : w.store.walk path (.mapping root) path.parents = (cells, .ok container))
      (hplace : w.store.place path container path.last = .ok (.cell c))
      (h : Evolves (.setting c v) (w.registerReads cells) w') :
      Evolves (.assigning path root v) w w'
  | assignKey {w : World σ} {path : KeyPath} {root : MappingId} {v container : Value}
      {cells : List CellId} {m : MappingId} {key : String}
      (hwalk : w.store.walk path (.mapping root) path.parents = (cells, .ok container))
      (hplace : w.store.place path container path.last = .ok (.newKey m key)) :
      Evolves (.assigning path root v) w
        ((w.registerReads cells).turn ((w.registerReads cells).store.define m key v))
  | assignItem {w : World σ} {path : KeyPath} {root : MappingId} {v container : Value}
      {cells : List CellId} {q : SequenceId}
      (hwalk : w.store.walk path (.mapping root) path.parents = (cells, .ok container))
      (hplace : w.store.place path container path.last = .ok (.newItem q)) :
      Evolves (.assigning path root v) w
        ((w.registerReads cells).turn ((w.registerReads cells).store.append q v))
  | visited (w : World σ) : Evolves (.visiting []) w w
  /-- A visit to an effect that does not exist. -/
  | visitNone {w w' : World σ} {e : EffectId} {es : List EffectId} (he : w.effects[e]? = none)
      (h : Evolves (.visiting es) w w') : Evolves (.visiting (e :: es)) w w'
  | visitSame {w w' : World σ} {e : EffectId} {es : List EffectId} {effect : Effect σ} {v : Value}
      (he : w.effects[e]? = some effect) (hg : effect.gated = true)
      (hv : w.store.get effect.path effect.root = .ok v) (hl : v.same effect.last = true)
      (h : Evolves (.visiting es) w w') : Evolves (.visiting (e :: es)) w w'
  | visitRun {w w₁ w' : World σ} {e : EffectId} {es : List EffectId} {effect : Effect σ}
      {v : Value} (he : w.effects[e]? = some effect) (hp : effect.place? = none)
      (hv : w.Receives e effect v) (h₁ : Evolves .free (w.deliver e v) w₁)
      (h : Evolves (.visiting es) w₁ w') : Evolves (.visiting (e :: es)) w w'
  | visitShow {w w' : World σ} {e : EffectId} {es : List EffectId} {effect : Effect σ} {v : Value}
      {sink : Sink} {node : NodeRef} {s : String} (he : w.effects[e]? = some effect)
      (hp : effect.place? = some (sink, node)) (hv : w.Receives e effect v)
      (hs : effect.shown w.store = .ok s)
      (h : Evolves (.visiting es) ((w.deliver e v).writeSink sink node s) w') :
      Evolves (.visiting (e :: es)) w w'
  | heard (w : World σ) (node : NodeRef) (s : String) : Evolves (.hearing node s []) w w
  | hear {w w₁ w' : World σ} {node : NodeRef} {s : String} {l : Listener σ}
      {ls : List (Listener σ)} (hl : ∀ path root, l ≠ .writeBack path root)
      (h₁ : Evolves .free w w₁) (h : Evolves (.hearing node s ls) w₁ w') :
      Evolves (.hearing node s (l :: ls)) w w'
  | writeBack {w w₁ w' : World σ} {node : NodeRef} {s : String} {path : KeyPath}
      {root : MappingId} {ls : List (Listener σ)}
      (h₁ : Evolves (.assigning path root (.text s)) w w₁)
      (h : Evolves (.hearing node s ls) w₁ w') :
      Evolves (.hearing node s (.writeBack path root :: ls)) w w'

end LiveBinding
