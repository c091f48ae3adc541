import LiveBinding.Fault
import LiveBinding.Fields
import LiveBinding.Text.Blank

/-!
# Method tables

The methods that event directives can call, by name. The table is sorted by name, and a name has
one method: the one registered last. A name is looked up without the blanks around it.
-/

namespace LiveBinding

/-- A table of methods, sorted by name. -/
structure Methods (μ : Type) where
  entries : Fields μ

namespace Methods

variable {μ : Type}

/-- The table without methods. -/
def empty : Methods μ := ⟨[]⟩

/-- Put a method in its place among sorted entries. -/
def insertSorted : Fields μ → String → μ → Fields μ
  | [], name, method => [(name, method)]
  | (k, m) :: rest, name, method =>
    if name < k then (name, method) :: (k, m) :: rest
    else if k = name then (name, method) :: rest
    else (k, m) :: insertSorted rest name method

/-- Register a method under a name as written. -/
def insert (t : Methods μ) (name : String) (method : μ) : Methods μ :=
  ⟨insertSorted t.entries name method⟩

/-- The table of a list of methods; of several under one name the last counts. -/
def ofList (methods : Fields μ) : Methods μ :=
  methods.foldl (fun t m => t.insert m.1 m.2) empty

/-- The method with this name, blanks around the name aside. -/
def get? (t : Methods μ) (name : String) : Option μ := t.entries.get? (Text.trim name)

/-- The method with this name, or the fault that there is none. -/
def resolve (t : Methods μ) (name : String) : Except Fault μ :=
  match t.get? name with
  | some method => .ok method
  | none => .error (.missingMethod (Text.trim name))

/-- The registered names, sorted. -/
def names (t : Methods μ) : List String := t.entries.keys

/-- The number of methods. -/
def size (t : Methods μ) : Nat := t.entries.length

end Methods

end LiveBinding
