import LiveBinding.Store.Path

/-!
# What the changes of a store do

A store is looked at through four views: the value and the watchers of a cell, the entries of a
mapping and the items of a sequence. For each change there is one lemma per view; a view that is
not mentioned is not changed, which the `rfl` lemmas state.
-/

namespace LiveBinding.Store

/-! ### Assigning, watching and pruning -/

theorem cells_assign (s : Store) (c d : CellId) (v : Value) :
    (s.assign c v).cells[d]? =
      if c = d then s.cells[d]?.map fun cell => { cell with value := v } else s.cells[d]? := by
  simp [assign, Array.getElem?_modify]

theorem value_assign_self {s : Store} {c : CellId} (h : c < s.cells.size) (v : Value) :
    (s.assign c v).value c = v := by
  simp [value, cells_assign, h]

theorem value_assign_of_ne (s : Store) {c d : CellId} (h : d ≠ c) (v : Value) :
    (s.assign c v).value d = s.value d := by
  simp [value, cells_assign, Ne.symm h]

@[simp] theorem watchers_assign (s : Store) (c d : CellId) (v : Value) :
    (s.assign c v).watchers d = s.watchers d := by
  by_cases h : c = d <;> simp [watchers, cells_assign, h]
  cases s.cells[d]? <;> rfl

@[simp] theorem entries_assign (s : Store) (c : CellId) (v : Value) (m : MappingId) :
    (s.assign c v).entries m = s.entries m := rfl

@[simp] theorem items_assign (s : Store) (c : CellId) (v : Value) (q : SequenceId) :
    (s.assign c v).items q = s.items q := rfl

theorem cells_watch (s : Store) (c d : CellId) (e : EffectId) :
    (s.watch c e).cells[d]? =
      if c = d then s.cells[d]?.map fun cell => { cell with watchers := cell.watchers ++ [e] }
      else s.cells[d]? := by
  simp [watch, Array.getElem?_modify]

@[simp] theorem value_watch (s : Store) (c d : CellId) (e : EffectId) :
    (s.watch c e).value d = s.value d := by
  by_cases h : c = d <;> simp [value, cells_watch, h]
  cases s.cells[d]? <;> rfl

theorem watchers_watch_self {s : Store} {c : CellId} (h : c < s.cells.size) (e : EffectId) :
    (s.watch c e).watchers c = s.watchers c ++ [e] := by
  simp [watchers, cells_watch, h]

theorem watchers_watch_of_ne (s : Store) {c d : CellId} (h : d ≠ c) (e : EffectId) :
    (s.watch c e).watchers d = s.watchers d := by
  simp [watchers, cells_watch, Ne.symm h]

@[simp] theorem entries_watch (s : Store) (c : CellId) (e : EffectId) (m : MappingId) :
    (s.watch c e).entries m = s.entries m := rfl

@[simp] theorem items_watch (s : Store) (c : CellId) (e : EffectId) (q : SequenceId) :
    (s.watch c e).items q = s.items q := rfl

theorem cells_prune (s : Store) (c d : CellId) (p : EffectId → Bool) :
    (s.prune c p).cells[d]? =
      if c = d then s.cells[d]?.map fun cell => { cell with watchers := cell.watchers.filter p }
      else s.cells[d]? := by
  simp [prune, Array.getElem?_modify]

@[simp] theorem value_prune (s : Store) (c d : CellId) (p : EffectId → Bool) :
    (s.prune c p).value d = s.value d := by
  by_cases h : c = d <;> simp [value, cells_prune, h]
  cases s.cells[d]? <;> rfl

theorem watchers_prune (s : Store) (c d : CellId) (p : EffectId → Bool) :
    (s.prune c p).watchers d = if c = d then (s.watchers d).filter p else s.watchers d := by
  by_cases h : c = d <;> simp [watchers, cells_prune, h]
  cases s.cells[d]? <;> rfl

@[simp] theorem entries_prune (s : Store) (c : CellId) (p : EffectId → Bool) (m : MappingId) :
    (s.prune c p).entries m = s.entries m := rfl

@[simp] theorem items_prune (s : Store) (c : CellId) (p : EffectId → Bool) (q : SequenceId) :
    (s.prune c p).items q = s.items q := rfl

/-! ### New cells -/

theorem cells_addCells (s : Store) (vs : List Value) (d : CellId) :
    (s.addCells vs).1.cells[d]? =
      if d < s.cells.size then s.cells[d]?
      else (vs[d - s.cells.size]?).map fun v => Cell.mk v [] := by
  simp only [addCells, Array.getElem?_append]
  split <;> simp

theorem value_addCells_of_lt {s : Store} {d : CellId} (h : d < s.cells.size) (vs : List Value) :
    (s.addCells vs).1.value d = s.value d := by
  simp [value, cells_addCells, h]

@[simp] theorem watchers_addCells (s : Store) (vs : List Value) (d : CellId) :
    (s.addCells vs).1.watchers d = s.watchers d := by
  simp only [watchers, cells_addCells]
  split
  · rfl
  · rename_i h
    have hd : s.cells[d]? = none := Array.getElem?_eq_none (Nat.le_of_not_lt h)
    rw [hd]
    cases vs[d - s.cells.size]? <;> rfl

@[simp] theorem length_addCells (s : Store) (vs : List Value) :
    (s.addCells vs).2.length = vs.length := by
  simp [addCells]

/-! ### Growing containers -/

theorem entries_define (s : Store) (m n : MappingId) (key : String) (v : Value) :
    (s.define m key v).entries n =
      if m = n ∧ m < s.mappings.size then (s.entries n).put key s.cells.size
      else s.entries n := by
  simp only [define, entries, addCells, Array.getElem?_modify]
  by_cases h : m = n
  · subst h
    by_cases hm : m < s.mappings.size <;> simp [hm]
  · simp [h]

/-- A key that a mapping does not have comes behind those that it has. -/
theorem entries_define_of_eq_none {s : Store} {m : MappingId} {key : String}
    (h : s.cellOf? m key = none) (n : MappingId) (v : Value) :
    (s.define m key v).entries n =
      if m = n ∧ m < s.mappings.size then s.entries n ++ [(key, s.cells.size)]
      else s.entries n := by
  rw [entries_define]
  split
  · rename_i hm
    rw [← hm.1]
    exact Fields.put_of_not_mem (Fields.get?_eq_none_iff.1 h) _
  · rfl

@[simp] theorem items_define (s : Store) (m : MappingId) (key : String) (v : Value)
    (q : SequenceId) : (s.define m key v).items q = s.items q := rfl

theorem items_append (s : Store) (q r : SequenceId) (v : Value) :
    (s.append q v).items r =
      if q = r ∧ q < s.sequences.size then s.items r ++ [s.cells.size] else s.items r := by
  simp only [append, items, addCells, Array.getElem?_modify]
  by_cases h : q = r
  · subst h
    by_cases hq : q < s.sequences.size <;> simp [hq]
  · simp [h]

@[simp] theorem entries_append (s : Store) (q : SequenceId) (v : Value) (m : MappingId) :
    (s.append q v).entries m = s.entries m := rfl

end LiveBinding.Store
