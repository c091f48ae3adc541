import LiveBinding.Compile
import LiveBinding.Proofs.Act.Follows

/-!
# Compilations that follow a relation

A compilation does only a few things at a node: it constructs effects whose place is there, shows
texts there, adds listeners and removes attributes. If each of these leads every world to a related
one, then so does the compilation of the node, whether it faults or not, and in the end that of a
whole template.

## Key definitions

- `Setting.Writes`: what is done at a node follows a relation

## Key results

- `Setting.Writes.follows_compileNode`: a node without those below it
- `Setting.follows_compile`: a whole template
-/

namespace LiveBinding

/-- A method that a name resolves to is one of the table. -/
theorem Methods.exists_mem_of_resolve {μ : Type} {t : Methods μ} {name : String} {m : μ}
    (h : t.resolve name = .ok m) : ∃ f ∈ t.entries, f.2 = m := by
  unfold resolve at h
  split at h
  · rename_i method hget
    obtain ⟨⟩ := h
    exact Fields.exists_mem_of_get? hget
  · cases h

variable {σ : Type} {t : Setting σ} {R : World σ → World σ → Prop}

namespace Setting

open Act

/-- Whatever a compilation does at a node follows the relation. -/
structure Writes (t : Setting σ) (R : World σ → World σ → Prop) (n : NodeId) : Prop where
  display : ∀ path sink,
    Follows R (newEffect path t.model t.gated (.display sink ⟨t.document, n⟩))
  render : ∀ path template,
    Follows R (newEffect path t.model t.gated (.render template ⟨t.document, n⟩))
  shows : ∀ w sink s, R w (w.writeSink sink ⟨t.document, n⟩ s)
  method : ∀ f ∈ t.methods.entries, ∀ w event,
    R w (w.modifyDocument t.document fun d => d.addListener n event f.2)
  writeBack : ∀ w expression, R w
    (w.modifyDocument t.document fun d =>
      d.addListener n "input" (.writeBack ⟨expression⟩ t.model))
  remove : ∀ w name, R w (w.modifyDocument t.document fun d => d.removeAttribute n name)

variable [IsPreorder (World σ) R] {n : NodeId}

theorem follows_currentDocument : Follows R t.currentDocument :=
  follows_bind follows_get fun _ => follows_pure _

theorem follows_lastValue (e : EffectId) : Follows R (lastValue e : Act σ Value) :=
  follows_bind follows_get fun _ => follows_pure _

namespace Writes

theorem follows_bindValue (h : t.Writes R n) (scope : Scope) (expression : String) (sink : Sink) :
    Follows R (t.bindValue scope n expression sink) :=
  follows_bind (h.display _ _) fun e => follows_bind (follows_lastValue e) fun _ =>
    follows_bind (follows_modify fun w => h.shows w sink _) fun _ => follows_pure _

theorem follows_bindPlaceholders (h : t.Writes R n) (scope : Scope) (template : Interpolation)
    (paths : List KeyPath) : Follows R (t.bindPlaceholders scope n template paths) := by
  induction paths generalizing scope with
  | nil => exact follows_pure _
  | cons path paths ih =>
    exact follows_bind (h.render _ _) fun e => follows_bind (follows_lastValue e) fun _ =>
      follows_bind (ih _) fun _ => follows_pure _

theorem follows_bindText (h : t.Writes R n) (scope : Scope) (content : String) :
    Follows R (t.bindText scope n content) := by
  unfold bindText
  dsimp only
  split
  · refine follows_bind (h.follows_bindPlaceholders _ _ _) fun bound => ?_
    refine follows_bind follows_get fun w => follows_bind (follows_ofExcept _) fun s => ?_
    exact follows_bind (follows_modify fun w => h.shows w .text _) fun _ => follows_pure _
  · exact h.follows_bindValue scope content .text

theorem follows_install (h : t.Writes R n) (scope : Scope) (expression : String)
    (directive : Directive) : Follows R (t.install scope n expression directive) := by
  cases directive with
  | text => exact h.follows_bindText scope expression
  | html => exact h.follows_bindValue scope expression .markup
  | model =>
    exact follows_bind (h.follows_bindValue scope expression .input) fun _ =>
      follows_bind (follows_modify fun w => h.writeBack w expression) fun _ => follows_pure _
  | bind name => exact h.follows_bindValue scope expression (.attr name)
  | on event =>
    intro w
    refine rel_bind (follows_ofExcept (R := R) _ w) fun listener w' hr => ?_
    -- The listener is what the table has under the name.
    obtain ⟨f, hf, rfl⟩ := Methods.exists_mem_of_resolve (congrArg Prod.fst hr)
    exact follows_bind (follows_modify fun w => h.method f hf w event) (fun _ => follows_pure _) w'

theorem follows_compileAttribute (h : t.Writes R n) (scope : Scope) (a : String × String) :
    Follows R (t.compileAttribute n scope a) := by
  refine follows_bind (follows_ofExcept _) fun directive => ?_
  cases directive with
  | none => exact follows_pure _
  | some directive =>
    exact follows_bind (h.follows_install scope a.2 directive) fun _ =>
      follows_bind (follows_modify fun w => h.remove w a.1) fun _ => follows_pure _

/-- A node without those below it. -/
theorem follows_compileNode (h : t.Writes R n) (scope : Scope) :
    Follows R (t.compileNode scope n) := by
  refine follows_bind follows_currentDocument fun d => ?_
  dsimp only
  split
  · exact follows_foldlM h.follows_compileAttribute _ scope
  · split
    · exact h.follows_bindText scope _
    · exact follows_pure _
  · exact follows_pure _

end Writes

/-- A node and those below it, if the nodes left to `inner` are fine. -/
theorem follows_visit (h : ∀ n, t.Writes R n) {inner : Scope → NodeId → Act σ Scope}
    (hinner : ∀ scope n, Follows R (inner scope n)) (depth : Nat) (scope : Scope) (n : NodeId) :
    Follows R (t.visit inner depth scope n) := by
  induction depth generalizing scope n with
  | zero => exact follows_throw _
  | succ depth ih =>
    refine follows_bind follows_currentDocument fun d => ?_
    refine follows_bind ((h n).follows_compileNode scope) fun scope => ?_
    refine follows_bind follows_currentDocument fun d' => ?_
    split
    · exact follows_foldlM ih _ scope
    · exact follows_foldlM hinner _ scope

theorem follows_walk (h : ∀ n, t.Writes R n) (rounds : Nat) (scope : Scope) (n : NodeId) :
    Follows R (t.walk rounds scope n) := by
  -- By induction on the rounds: the inner walk has one round less.
  induction rounds generalizing scope n with
  | zero => exact follows_throw _
  | succ rounds ih =>
    exact follows_bind follows_currentDocument fun _ => follows_visit h ih _ scope n

/-- A whole template, of which the children of the root are taken out and put back. -/
theorem follows_compile (h : ∀ n, t.Writes R n) {root : NodeId}
    (hdetach : ∀ w, R w (w.modifyDocument t.document fun d => d.detachChildren root))
    (happend : ∀ w ns, R w (w.modifyDocument t.document fun d => d.appendChildren root ns)) :
    Follows R (t.compile root) := by
  refine follows_bind_get fun w => ?_
  rw [runOn_within]
  have hwalk := follows_foldlM (follows_walk h (rounds w.store))
    ((w.document t.document).children root) .empty
  exact IsTrans.trans _ _ _ (IsTrans.trans _ _ _ (hdetach w) (hwalk _)) (happend _ _)

end Setting

end LiveBinding
