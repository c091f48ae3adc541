import LiveBinding.Scene.Perform

/-!
# Running scenes

A scene starts with one document and nothing else. Its steps are made one after the other; a step
that faults leaves the world as it was when the fault arose, and the next step goes on from there.
-/

namespace LiveBinding

/-- How deeply user code may call itself through the model and the document. -/
def callDepth : Nat := 2500

/-- What one step of a scene gave: its answer or fault, and what user code noted meanwhile. -/
structure Outcome where
  answer : Except Fault Answer
  log : List String

/-- What can be watched while a scene runs. -/
inductive Watch where
  /-- The markup of the body. -/
  | html
  /-- The values of the inputs. -/
  | inputs
  /-- The root of a model. -/
  | model (name : String)
  deriving DecidableEq, Repr

/-- What a watch shows. -/
inductive Sight where
  | text (s : String)
  | texts (ss : List String)
  deriving DecidableEq, Repr

namespace Scene

/-- The world in which a scene starts. -/
def start (source : String) : SceneWorld := World.ofDocument (.ofMarkup source)

/-- Make one step, in which user code may call itself up to a depth. -/
def step (depth : Nat) (w : SceneWorld) (s : Step) : Outcome × SceneWorld :=
  let ended := (s.perform (Script.invoke depth) ⟨.null, none⟩).runOn w
  (⟨ended.1, ended.2.log⟩, { ended.2 with log := [] })

/-- What a watch shows in a world; `none` while there is no model with the name. -/
def look (w : SceneWorld) : Watch → Option Sight
  | .html => some (.text ((w.document w.current).innerHtml Document.body))
  | .inputs => some (.texts (w.document w.current).inputs)
  | .model name =>
    (w.names.models.get? name).map fun root => .text (w.store.display (.mapping root))

/-- Make several steps, and note after each one what the watches show. -/
def run (w : SceneWorld) (watches : List Watch) :
    List Step → List (Outcome × List (Watch × Sight))
  | [] => []
  | s :: steps =>
    let made := step callDepth w s
    (made.1, watches.filterMap fun watch => (look made.2 watch).map fun sight => (watch, sight)) ::
      run made.2 watches steps

end Scene

end LiveBinding
