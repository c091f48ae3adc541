import LiveBinding.Methods
import Mathlib.Data.List.Induction

/-!
# Finding methods

A table of methods is a map: it finds what was registered last under exactly the name that is asked
for, once the blanks around it are gone. A name with blanks around it can be registered, but it
cannot be asked for.

## Key results

- `Methods.get?_ofList`: a table keeps the last method of each name
- `Methods.resolve_registered`: which names a table resolves, and to what
-/

namespace LiveBinding

variable {μ : Type}

namespace Methods

/-! ### Tables as maps -/

/-- A method that is registered is found under its name, and others are where they were. -/
theorem get?_insertSorted (fs : Fields μ) (name key : String) (method : μ) :
    Fields.get? (insertSorted fs name method) key =
      if name = key then some method else Fields.get? fs key := by
  induction fs with
  | nil => rw [insertSorted, Fields.get?_cons]
  | cons f fs ih =>
    obtain ⟨k, m⟩ := f
    rw [insertSorted]
    -- The method stands in front of the field, replaces it, or goes behind it.
    split
    · rw [Fields.get?_cons]
    · split
      · rename_i hk
        subst hk
        rw [Fields.get?_cons, Fields.get?_cons]
        split <;> rfl
      · rename_i hk
        rw [Fields.get?_cons, Fields.get?_cons, ih]
        split
        · rename_i hkey
          rw [if_neg]
          rintro rfl
          exact hk hkey
        · rfl

/-- A table keeps the last method of each name. -/
theorem get?_ofList (methods : Fields μ) (key : String) :
    Fields.get? (ofList methods).entries key = Fields.get? methods.reverse key := by
  -- By induction from the right: the last method is registered last.
  induction methods using List.reverseRecOn with
  | nil => rfl
  | append_singleton methods f ih =>
    rw [ofList, List.foldl_append, List.reverse_append, List.reverse_singleton,
      List.singleton_append, Fields.get?_cons, ← ih]
    exact get?_insertSorted _ f.1 key f.2

/-! ### Names with blanks around them -/

/-- Which names a table resolves. It resolves a name to the method that was registered last under
the name without blanks around it, and there is no method if none was registered under that. So a
name that was registered without blanks around it resolves with any blanks around it, and a name
that equals no registered one, blanks aside, is missing. -/
theorem resolve_registered (methods : Fields μ) :
    (∀ name, (ofList methods).get? name = Fields.get? methods.reverse (Text.trim name)) ∧
    (∀ name, (ofList methods).resolve name =
      match Fields.get? methods.reverse (Text.trim name) with
      | some method => .ok method
      | none => .error (.missingMethod (Text.trim name))) ∧
    (∀ name ∈ Fields.keys methods, Text.trim name = name → ∀ front back : String,
      (∀ c ∈ front.toList, Text.isBlank c = true) → (∀ c ∈ back.toList, Text.isBlank c = true) →
      ∃ method, Fields.get? methods.reverse name = some method ∧
        (ofList methods).get? (front ++ name ++ back) = some method ∧
        (ofList methods).resolve (front ++ name ++ back) = .ok method) ∧
    ∀ name, (∀ other ∈ Fields.keys methods, Text.trim other ≠ Text.trim name) →
      (ofList methods).resolve name = .error (.missingMethod (Text.trim name)) := by
  have hget (name : String) :
      (ofList methods).get? name = Fields.get? methods.reverse (Text.trim name) :=
    get?_ofList methods _
  refine ⟨hget, fun name => ?_, ?_, ?_⟩
  · cases hlast : Fields.get? methods.reverse (Text.trim name) with
    | none => rw [resolve, hget, hlast]
    | some method => rw [resolve, hget, hlast]
  · intro name hname htrim front back hfront hback
    have hpadded : (ofList methods).get? (front ++ name ++ back) =
        Fields.get? methods.reverse name := by
      rw [hget, Text.trim_surround hfront hback, htrim]
    have hmem : name ∈ Fields.keys methods.reverse := by
      rwa [Fields.keys, List.map_reverse, List.mem_reverse]
    cases hlast : Fields.get? methods.reverse name with
    | none => exact absurd hmem (Fields.get?_eq_none_iff.1 hlast)
    | some method =>
      rw [hlast] at hpadded
      exact ⟨method, rfl, hpadded, by rw [resolve, hpadded]⟩
  · intro name hother
    have hnone : Fields.get? methods.reverse (Text.trim name) = none := by
      rw [Fields.get?_eq_none_iff, Fields.keys, List.map_reverse, List.mem_reverse]
      exact fun hmem => hother _ hmem (Text.trim_trim name)
    rw [resolve, hget, hnone]

/-- Of two methods with the same name the second is called, and a name may have blanks around it,
where it is asked for. -/
theorem resolve_registered_twice :
    (ofList [("save", 1), ("load", 2), ("save", 3)]).resolve "\t save\u2003" = .ok 3 ∧
      (ofList [("save", 1)]).resolve " sa ve " = .error (.missingMethod "sa ve") := by
  obtain ⟨method, hlast, -, hresolve⟩ :=
    (resolve_registered [("save", 1), ("load", 2), ("save", 3)]).2.2.1 "save" (by decide)
      (by decide +kernel) "\t " "\u2003"
      (List.all_eq_true.1 (by decide)) (List.all_eq_true.1 (by decide))
  cases hlast
  refine ⟨hresolve, ((resolve_registered [("save", 1)]).2.2.2 " sa ve " ?_).trans ?_⟩
  · decide +kernel
  · rfl

/-- A name that was registered with blanks around it is not found, not even as it was
registered. -/
theorem registered_with_blanks_missing :
    Fields.get? [(" save ", 1)] " save " = some 1 ∧ (ofList [(" save ", 1)]).get? " save " = none ∧
      (ofList [(" save ", 1)]).resolve " save " = .error (.missingMethod "save") := by
  decide +kernel

end Methods

end LiveBinding
