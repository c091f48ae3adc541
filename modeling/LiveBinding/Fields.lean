/-!
# Fields

`Fields α` is a list of named values in insertion order. It is the shape of plain objects, of
mappings, of attribute lists and of tables of handles.

* `Fields.get?` finds the value of a name;
* `Fields.put` replaces the value of a name in its place, and appends a new name at the end;
* `Fields.erase` removes a name.

Main statements: `get?_eq_none_iff` says which names have no value, `keys_put_of_mem` and
`keys_put_of_not_mem` say what `put` does to the list of names, `nodup_keys_put` that it keeps the
names distinct, `get?_put_self` and `get?_put_of_ne` what a look-up finds afterwards.
-/

namespace LiveBinding

/-- Named values in insertion order. -/
abbrev Fields (α : Type) := List (String × α)

namespace Fields

variable {α : Type}

/-- The names, in order. -/
def keys (fs : Fields α) : List String := fs.map Prod.fst

/-- The value of the first field with this name. -/
def get? (fs : Fields α) (key : String) : Option α := (fs.find? (·.1 == key)).map Prod.snd

/-- Whether there is a field with this name. -/
def has (fs : Fields α) (key : String) : Bool := fs.any (·.1 == key)

/-- Give a name a value: in its place if the name is there, at the end otherwise. -/
def put : Fields α → String → α → Fields α
  | [], key, a => [(key, a)]
  | (k, b) :: fs, key, a => if k = key then (k, a) :: fs else (k, b) :: put fs key a

/-- Remove every field with this name. -/
def erase (fs : Fields α) (key : String) : Fields α := fs.filter (·.1 != key)

@[simp] theorem keys_nil : keys ([] : Fields α) = [] := rfl

@[simp] theorem keys_cons (f : String × α) (fs : Fields α) : keys (f :: fs) = f.1 :: keys fs := rfl

@[simp] theorem keys_append (fs gs : Fields α) : keys (fs ++ gs) = keys fs ++ keys gs := by
  simp [keys]

theorem get?_cons (f : String × α) (fs : Fields α) (key : String) :
    get? (f :: fs) key = if f.1 = key then some f.2 else get? fs key := by
  rw [get?, get?, List.find?_cons]
  by_cases h : f.1 = key
  · rw [if_pos h, beq_iff_eq.2 h]
    rfl
  · rw [if_neg h, beq_eq_false_iff_ne.2 h]

theorem get?_eq_none_iff {fs : Fields α} {key : String} : get? fs key = none ↔ key ∉ keys fs := by
  rw [get?, Option.map_eq_none_iff, List.find?_eq_none, keys, List.mem_map, not_exists]
  simp only [beq_iff_eq, not_and]

theorem keys_put_of_mem {fs : Fields α} {key : String} (h : key ∈ keys fs) (a : α) :
    keys (put fs key a) = keys fs := by
  induction fs with
  | nil => simp at h
  | cons f fs ih =>
    obtain ⟨k, b⟩ := f
    by_cases hk : k = key
    · simp [put, hk]
    · rcases List.mem_cons.1 h with h | h
      · exact absurd h.symm hk
      · simp [put, hk, ih h]

theorem put_of_not_mem {fs : Fields α} {key : String} (h : key ∉ keys fs) (a : α) :
    put fs key a = fs ++ [(key, a)] := by
  induction fs with
  | nil => rfl
  | cons f fs ih =>
    obtain ⟨k, b⟩ := f
    simp only [keys_cons, List.mem_cons, not_or] at h
    have hk : k ≠ key := fun e => h.1 e.symm
    simp [put, hk, ih h.2]

theorem keys_put_of_not_mem {fs : Fields α} {key : String} (h : key ∉ keys fs) (a : α) :
    keys (put fs key a) = keys fs ++ [key] := by
  simp [put_of_not_mem h]

theorem nodup_keys_put {fs : Fields α} (h : (keys fs).Nodup) (key : String) (a : α) :
    (keys (put fs key a)).Nodup := by
  by_cases hk : key ∈ keys fs
  · rwa [keys_put_of_mem hk]
  · rw [keys_put_of_not_mem hk]
    exact List.nodup_append.2 ⟨h, by simp, by rintro x hx y hy rfl; simp_all⟩

@[simp] theorem get?_put_self (fs : Fields α) (key : String) (a : α) :
    get? (put fs key a) key = some a := by
  induction fs with
  | nil => simp [put, get?]
  | cons f fs ih =>
    obtain ⟨k, b⟩ := f
    by_cases hk : k = key
    · simp [put, get?, hk]
    · simpa [put, get?, hk] using ih

theorem get?_put_of_ne (fs : Fields α) {key other : String} (h : other ≠ key) (a : α) :
    get? (put fs key a) other = get? fs other := by
  induction fs with
  | nil => simp [put, get?, Ne.symm h]
  | cons f fs ih =>
    obtain ⟨k, b⟩ := f
    by_cases hk : k = key
    · subst hk
      simp [put, get?, Ne.symm h]
    · by_cases ho : k = other
      · subst ho
        simp [put, get?, h]
      · simpa [put, get?, hk, ho] using ih

theorem eq_or_mem_of_mem_put {fs : Fields α} {key : String} {a : α}
    {f : String × α} (h : f ∈ fs.put key a) : f = (key, a) ∨ f ∈ fs := by
  induction fs with
  | nil => exact .inl (List.mem_singleton.1 h)
  | cons g fs ih =>
    obtain ⟨k, b⟩ := g
    rw [put] at h
    split at h
    · rename_i hk
      rcases List.mem_cons.1 h with rfl | h
      · exact .inl (by rw [hk])
      · exact .inr (List.mem_cons_of_mem _ h)
    · rcases List.mem_cons.1 h with rfl | h
      · exact .inr (List.mem_cons_self ..)
      · exact (ih h).imp_right (List.mem_cons_of_mem _)

theorem exists_mem_of_get? {fs : Fields α} {key : String} {a : α}
    (h : fs.get? key = some a) : ∃ f ∈ fs, f.2 = a := by
  obtain ⟨f, hf, hfa⟩ := Option.map_eq_some_iff.1 h
  exact ⟨f, List.mem_of_find?_eq_some hf, hfa⟩

theorem mem_of_mem_erase {fs : Fields α} {key : String} {f : String × α}
    (h : f ∈ fs.erase key) : f ∈ fs :=
  (List.mem_filter.1 h).1

end Fields

end LiveBinding
