import LiveBinding.Fault
import LiveBinding.Number.Basic

/-!
# Values

A value of a model is a leaf or a handle to a container. Two handles are the same value exactly
when they lead to the same container; what the containers hold does not matter.

Main statements: `Value.same_comm`, and `Value.same_self_iff`: a value is the same as itself
exactly when it is not the number `nan`.
-/

namespace LiveBinding

/-- A cell of a store: the place of one key of a mapping or of one item of a sequence. -/
abbrev CellId := Nat

/-- A mapping of a store. -/
abbrev MappingId := Nat

/-- A sequence of a store. -/
abbrev SequenceId := Nat

/-- A value of a model. -/
inductive Value where
  | null
  | boolean (b : Bool)
  | number (x : Number)
  | text (s : String)
  | mapping (m : MappingId)
  | sequence (q : SequenceId)
  deriving DecidableEq

namespace Value

instance : Inhabited Value := ⟨.null⟩

/-- The kind of a value. -/
def kind : Value → Kind
  | .null => .null
  | .boolean _ => .boolean
  | .number _ => .number
  | .text _ => .text
  | .mapping _ => .mapping
  | .sequence _ => .sequence

/-- Whether a value is no container. -/
def isLeaf : Value → Bool
  | .mapping _ | .sequence _ => false
  | _ => true

/-- Strict equality: leaves are compared by value, containers by handle. -/
def same : Value → Value → Bool
  | .null, .null => true
  | .boolean a, .boolean b => a == b
  | .number x, .number y => x.equal y
  | .text s, .text t => s == t
  | .mapping m, .mapping n => m == n
  | .sequence q, .sequence r => q == r
  | _, _ => false

theorem same_comm (v w : Value) : v.same w = w.same v := by
  cases v <;> cases w <;> simp only [same, Number.equal_comm] <;> exact Bool.beq_comm

theorem same_self_iff (v : Value) : v.same v = true ↔ v ≠ .number .nan := by
  cases v <;> simp [same, Number.equal_self]

end Value

end LiveBinding
