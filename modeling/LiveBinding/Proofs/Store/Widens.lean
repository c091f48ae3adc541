import LiveBinding.Proofs.Store.Closed

/-!
# How heaps stay closed

A closed heap stays closed if what is stored in it leads to something. Building the containers of
plain data gives values that do, and so does reading a path: nothing that can be read is a handle
that leads nowhere. Containers are never removed, so a handle that is good now stays good.

## Key definitions

- `Store.Widens`: the second heap is closed, and what is good in the first is good in it

## Key results

- `Closed.widens_assign`, `Closed.widens_define`, `Closed.widens_append`: storing a value
- `Closed.widens_intercept`: plain data
- `Closed.knows_of_get`: what is read is good
-/

namespace LiveBinding.Store

variable {s s' t : Store}

/-- The second heap is closed, and it has every container that the first one has. -/
structure Widens (s s' : Store) : Prop where
  closed : s'.Closed
  knows : ∀ v, s.Knows v → s'.Knows v

theorem Closed.widens_self (h : s.Closed) : Widens s s := ⟨h, fun _ hv => hv⟩

theorem Widens.trans (h : Widens s t) (h' : Widens t s') : Widens s s' :=
  ⟨h'.closed, fun v hv => h'.knows v (h.knows v hv)⟩

theorem knows_of_isLeaf {v : Value} (h : v.isLeaf = true) : s.Knows v := by
  cases v with
  | mapping m => cases h
  | sequence q => cases h
  | _ => trivial

theorem Knows.of_le {v : Value} (h : s.Knows v) (hm : s.mappings.size ≤ s'.mappings.size)
    (hq : s.sequences.size ≤ s'.sequences.size) : s'.Knows v := by
  cases v with
  | mapping m => exact Nat.lt_of_lt_of_le h hm
  | sequence q => exact Nat.lt_of_lt_of_le h hq
  | _ => trivial

/-! ### Changing what is there -/

/-- Who watches the cells does not matter. -/
theorem Closed.widens_of_sameData (h : s.Closed) (hd : SameData s s') : Widens s s' where
  closed.inRange := h.inRange.of_sameData hd
  closed.knows c := by
    rw [hd.value_eq]
    exact (h.knows c).of_le (Nat.le_of_eq hd.mappings_eq.symm) (Nat.le_of_eq hd.sequences_eq.symm)
  knows _ hv := hv.of_le (Nat.le_of_eq hd.mappings_eq.symm) (Nat.le_of_eq hd.sequences_eq.symm)

/-- A cell gets a value that is good. -/
theorem Closed.widens_assign (h : s.Closed) (c : CellId) {v : Value} (hv : s.Knows v) :
    Widens s (s.assign c v) where
  closed.inRange := h.inRange.assign c v
  closed.knows d := by
    by_cases hd : d = c
    · subst hd
      by_cases hlt : d < s.cells.size
      · rw [value_assign_self hlt]
        exact hv
      · have hnone : (s.assign d v).cells[d]? = none := by
          rw [cells_assign, if_pos rfl, Array.getElem?_eq_none (Nat.le_of_not_lt hlt)]
          rfl
        rw [value, hnone]
        trivial
    · rw [value_assign_of_ne s hd]
      exact h.knows d
  knows _ hu := hu

/-! ### New cells -/

/-- A heap gets cells with good values, and at most new containers. -/
theorem Closed.widens_of_addCells (h : s.Closed) {vs : List Value} (hvs : ∀ v ∈ vs, s.Knows v)
    (hext : s.Extends s') (hcells : s'.cells = (s.addCells vs).1.cells)
    (hm : s.mappings.size ≤ s'.mappings.size) (hq : s.sequences.size ≤ s'.sequences.size) :
    Widens s s' where
  closed.inRange := h.inRange.of_extends hext
  closed.knows c := by
    have hvalue : s'.value c = (s.addCells vs).1.value c := by rw [value, value, hcells]
    rw [hvalue]
    by_cases hc : c < s.cells.size
    · rw [value_addCells_of_lt hc]
      exact (h.knows c).of_le hm hq
    · rw [value, cells_addCells, if_neg hc]
      cases hv : vs[c - s.cells.size]? with
      | none => trivial
      | some v => exact (hvs v (List.mem_of_getElem? hv)).of_le hm hq
  knows _ hu := hu.of_le hm hq

/-- A mapping gets a new key with a good value. -/
theorem Closed.widens_define (h : s.Closed) {m : MappingId} {key : String}
    (hnew : s.cellOf? m key = none) {v : Value} (hv : s.Knows v) : Widens s (s.define m key v) :=
  h.widens_of_addCells (List.forall_mem_singleton.2 hv) (extends_define hnew v) rfl
    (by simp [define, addCells]) (Nat.le_refl _)

/-- A sequence gets a new item that is good. -/
theorem Closed.widens_append (h : s.Closed) (q : SequenceId) {v : Value} (hv : s.Knows v) :
    Widens s (s.append q v) :=
  h.widens_of_addCells (List.forall_mem_singleton.2 hv) (extends_append s q v) rfl
    (Nat.le_refl _) (by simp [append, addCells])

/-- With each key once, the fields have only values that they had. -/
theorem mem_foldl_put {fields start : Fields Value} {f : String × Value}
    (h : f ∈ fields.foldl (fun fs f => Fields.put fs f.1 f.2) start) : f ∈ start ∨ f ∈ fields := by
  induction fields generalizing start with
  | nil => exact .inl h
  | cons g fields ih =>
    rcases ih h with h | h
    · rcases Fields.eq_or_mem_of_mem_put h with rfl | h
      · exact .inr (List.mem_cons_self ..)
      · exact .inl h
    · exact .inr (List.mem_cons_of_mem _ h)

theorem Closed.widens_addMapping (h : s.Closed) {fields : Fields Value}
    (hfields : ∀ f ∈ fields, s.Knows f.2) : Widens s (s.addMapping fields).1 := by
  refine h.widens_of_addCells (fun v hv => ?_) (extends_addMapping s fields) rfl
    (by simp [addMapping]) (Nat.le_refl _)
  obtain ⟨f, hf, rfl⟩ := List.mem_map.1 hv
  exact hfields f ((mem_foldl_put hf).resolve_left List.not_mem_nil)

theorem Closed.widens_addSequence (h : s.Closed) {vs : List Value} (hvs : ∀ v ∈ vs, s.Knows v) :
    Widens s (s.addSequence vs).1 :=
  h.widens_of_addCells hvs (extends_addSequence s vs) rfl (Nat.le_refl _) (by simp [addSequence])

mutual

/-- Plain data becomes a good value. -/
theorem Closed.widens_intercept {s : Store} (h : s.Closed) : (p : Plain) →
    Widens s (s.intercept p).1 ∧ (s.intercept p).1.Knows (s.intercept p).2
  | .null | .boolean _ | .number _ | .text _ => by
    simp only [intercept]
    exact ⟨h.widens_self, trivial⟩
  | .array items => by
    obtain ⟨hinner, hvs⟩ := h.widens_interceptItems items
    simp only [intercept]
    refine ⟨hinner.trans (hinner.closed.widens_addSequence hvs), ?_⟩
    simp [Knows, Has, addSequence]
  | .object fields => by
    obtain ⟨hinner, hvs⟩ := h.widens_interceptFields fields
    simp only [intercept]
    refine ⟨hinner.trans (hinner.closed.widens_addMapping hvs), ?_⟩
    simp [Knows, Has, addMapping]

theorem Closed.widens_interceptItems {s : Store} (h : s.Closed) : (ps : List Plain) →
    Widens s (s.interceptItems ps).1 ∧
      ∀ v ∈ (s.interceptItems ps).2, (s.interceptItems ps).1.Knows v
  | [] => by
    simp only [interceptItems]
    exact ⟨h.widens_self, fun _ hv => by cases hv⟩
  | p :: ps => by
    obtain ⟨hfirst, hv⟩ := h.widens_intercept p
    obtain ⟨hrest, hvs⟩ := hfirst.closed.widens_interceptItems ps
    simp only [interceptItems]
    exact ⟨hfirst.trans hrest, List.forall_mem_cons.2 ⟨hrest.knows _ hv, hvs⟩⟩

theorem Closed.widens_interceptFields {s : Store} (h : s.Closed) : (ps : List (String × Plain)) →
    Widens s (s.interceptFields ps).1 ∧
      ∀ f ∈ (s.interceptFields ps).2, (s.interceptFields ps).1.Knows f.2
  | [] => by
    simp only [interceptFields]
    exact ⟨h.widens_self, fun _ hf => by cases hf⟩
  | (_, p) :: ps => by
    obtain ⟨hfirst, hv⟩ := h.widens_intercept p
    obtain ⟨hrest, hvs⟩ := hfirst.closed.widens_interceptFields ps
    simp only [interceptFields]
    exact ⟨hfirst.trans hrest, List.forall_mem_cons.2 ⟨hrest.knows _ hv, hvs⟩⟩

end

/-- The root of a model that was built is good. -/
theorem Closed.widens_interceptRoot (h : s.Closed) {data : Plain} {built : Store × MappingId}
    (hbuilt : s.interceptRoot data = .ok built) :
    Widens s built.1 ∧ built.1.Has (.mapping built.2) := by
  have hdata := h.widens_intercept data
  rw [interceptRoot] at hbuilt
  split at hbuilt
  · rename_i s₁ m heq
    obtain ⟨⟩ := hbuilt
    rwa [heq] at hdata
  · cases hbuilt

/-! ### Reading -/

/-- What a segment leads to is good. -/
theorem Closed.knows_of_step? (h : s.Closed) {v u : Value} {segment : String} {c : Option CellId}
    (hstep : s.step? v segment = some (c, u)) : s.Knows u := by
  cases c with
  | none => exact knows_of_isLeaf (isLeaf_of_step? hstep)
  | some c =>
    obtain ⟨-, rfl⟩ := step?_eq_some_iff.1 hstep
    exact h.knows c

theorem Closed.knows_of_walk (h : s.Closed) {path : KeyPath} {v u : Value}
    {segments : List String} (hv : s.Knows v) (hwalk : (s.walk path v segments).2 = .ok u) :
    s.Knows u := by
  induction segments generalizing v with
  | nil =>
    obtain rfl := Except.ok.inj hwalk
    exact hv
  | cons segment segments ih =>
    rw [walk] at hwalk
    cases hstep : s.step? v segment with
    | none =>
      rw [hstep] at hwalk
      cases hwalk
    | some found =>
      rw [hstep] at hwalk
      exact ih (h.knows_of_step? hstep) hwalk

/-- What is read along a path is good, even if the root is not. -/
theorem Closed.knows_of_get (h : s.Closed) {path : KeyPath} {root : MappingId} {v : Value}
    (hget : s.get path root = .ok v) : s.Knows v := by
  rw [get] at hget
  cases hsegments : path.segments with
  | nil => exact absurd hsegments path.segments_ne_nil
  | cons segment segments =>
    rw [hsegments, walk] at hget
    cases hstep : s.step? (.mapping root) segment with
    | none =>
      rw [hstep] at hget
      cases hget
    | some found =>
      rw [hstep] at hget
      exact h.knows_of_walk (h.knows_of_step? hstep) hget

end LiveBinding.Store
