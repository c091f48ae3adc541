import LiveBinding.Proofs.Store.Growth

/-!
# What lasts in a store

A run changes its store in six ways: a cell gets a value, a watcher or loses watchers, a mapping
gets a key that it does not have, a sequence gets an item, and containers are built for plain data.
None of them takes a key or an item away, moves it, or gives it another cell.

## Key definitions

- `Store.Edit`: the six ways
- `Store.Lasts`: keys and items stay where they are, with their cells

## Key results

- `Store.Edit.lasts`: one change
- `Store.Lasts.cellOf?_eq`, `Store.Lasts.cellAt?_eq`: what is found stays what is found
-/

namespace LiveBinding.Store

variable {s s' s'' : Store}

/-- A change of a store. -/
inductive Edit (s : Store) : Store → Prop
  | assign (c : CellId) (v : Value) : Edit s (s.assign c v)
  | watch (c : CellId) (e : EffectId) : Edit s (s.watch c e)
  | prune (c : CellId) (p : EffectId → Bool) : Edit s (s.prune c p)
  | define (m : MappingId) {key : String} (h : s.cellOf? m key = none) (v : Value) :
      Edit s (s.define m key v)
  | append (q : SequenceId) (v : Value) : Edit s (s.append q v)
  | intercept (p : Plain) : Edit s (s.intercept p).1

/-- No cell goes, every mapping keeps its keys in their places, each with its cell, and gets new
keys behind them at most, every sequence does so with its items, and keys that are distinct stay
distinct. -/
structure Lasts (s s' : Store) : Prop where
  size_le : s.cells.size ≤ s'.cells.size
  entries_prefix : ∀ m, s.entries m <+: s'.entries m
  items_prefix : ∀ q, s.items q <+: s'.items q
  nodup_keys : (∀ m, (s.keys m).Nodup) → ∀ m, (s'.keys m).Nodup

theorem Lasts.refl (s : Store) : Lasts s s :=
  ⟨Nat.le_refl _, fun _ => List.prefix_rfl, fun _ => List.prefix_rfl, id⟩

theorem Lasts.trans (h : Lasts s s') (h' : Lasts s' s'') : Lasts s s'' where
  size_le := Nat.le_trans h.size_le h'.size_le
  entries_prefix m := (h.entries_prefix m).trans (h'.entries_prefix m)
  items_prefix q := (h.items_prefix q).trans (h'.items_prefix q)
  nodup_keys hs := h'.nodup_keys (h.nodup_keys hs)

/-! ### What is found stays -/

/-- A key keeps its cell when the mapping gets more keys. -/
theorem cellOf?_of_prefix {m : MappingId} {key : String} {c : CellId}
    (h : s.entries m <+: s'.entries m) (hc : s.cellOf? m key = some c) :
    s'.cellOf? m key = some c := by
  obtain ⟨new, hnew⟩ := h
  rw [cellOf?, ← hnew, Fields.get?, List.find?_append]
  rw [cellOf?, Fields.get?] at hc
  obtain ⟨f, hf, rfl⟩ := Option.map_eq_some_iff.1 hc
  rw [hf]
  rfl

/-- A key keeps its cell. -/
theorem Lasts.cellOf?_eq (h : Lasts s s') {m : MappingId} {key : String} {c : CellId}
    (hc : s.cellOf? m key = some c) : s'.cellOf? m key = some c :=
  cellOf?_of_prefix (h.entries_prefix m) hc

/-- What stands at a place of a list stays there when the list gets more members. -/
theorem getElem?_of_prefix {α : Type} {xs ys : List α} (h : xs <+: ys) {i : Nat} {a : α}
    (ha : xs[i]? = some a) : ys[i]? = some a := by
  obtain ⟨new, rfl⟩ := h
  rw [List.getElem?_append_left (List.getElem?_eq_some_iff.1 ha).1, ha]

/-- An index keeps its cell. -/
theorem Lasts.cellAt?_eq (h : Lasts s s') {q : SequenceId} {i : Nat} {c : CellId}
    (hc : s.cellAt? q i = some c) : s'.cellAt? q i = some c :=
  getElem?_of_prefix (h.items_prefix q) hc

/-- The keys of a mapping stay in their places, and new ones come behind them. -/
theorem Lasts.keys_prefix (h : Lasts s s') (m : MappingId) : s.keys m <+: s'.keys m :=
  (h.entries_prefix m).map Prod.fst

theorem Lasts.length_items_le (h : Lasts s s') (q : SequenceId) :
    (s.items q).length ≤ (s'.items q).length :=
  (h.items_prefix q).length_le

/-! ### One change -/

/-- A change that leaves the containers alone. -/
theorem lasts_of_eq (hsize : s.cells.size ≤ s'.cells.size)
    (hentries : ∀ m, s'.entries m = s.entries m) (hitems : ∀ q, s'.items q = s.items q) :
    Lasts s s' where
  size_le := hsize
  entries_prefix m := hentries m ▸ List.prefix_rfl
  items_prefix q := hitems q ▸ List.prefix_rfl
  nodup_keys hs m := by rw [keys, hentries]; exact hs m

theorem SameData.lasts (h : SameData s s') : Lasts s s' :=
  lasts_of_eq (Nat.le_of_eq h.size_eq.symm) h.entries_eq h.items_eq

/-- Growth lasts if it keeps distinct keys distinct. -/
theorem Extends.lasts (h : Extends s s')
    (hnodup : ∀ m, (s.keys m).Nodup → (s'.keys m).Nodup) : Lasts s s' where
  size_le := h.size_le
  entries_prefix m := by
    obtain ⟨new, hnew, -⟩ := h.entries_eq m
    exact ⟨new, hnew.symm⟩
  items_prefix q := by
    obtain ⟨new, hnew, -⟩ := h.items_eq q
    exact ⟨new, hnew.symm⟩
  nodup_keys hs m := hnodup m (hs m)

theorem lasts_define {m : MappingId} {key : String} (h : s.cellOf? m key = none) (v : Value) :
    Lasts s (s.define m key v) := by
  refine (extends_define h v).lasts fun n hn => ?_
  rw [keys, entries_define]
  split
  · exact Fields.nodup_keys_put hn key _
  · exact hn

/-- A new mapping has the keys that it is made from, and others keep theirs. -/
theorem keys_addMapping (s : Store) (fields : Fields Value) (m : MappingId) :
    (s.addMapping fields).1.keys m =
      if m = s.mappings.size then
        Fields.keys (fields.foldl (fun fs f => Fields.put fs f.1 f.2) [])
      else s.keys m := by
  split
  · rename_i hnew
    let distinct := fields.foldl (fun fs f => Fields.put fs f.1 f.2) []
    have hlength : distinct.keys.length ≤ (s.addCells (distinct.map Prod.snd)).2.length := by
      simp [Fields.keys]
    rw [keys, entries, addMapping, hnew, Array.getElem?_push_size, Option.getD_some]
    exact List.map_fst_zip hlength
  · rename_i hold
    simp [addMapping, keys, entries, Array.getElem?_push, hold, addCells]

/-- A new mapping has distinct keys, whatever it is made from. -/
theorem lasts_addMapping (s : Store) (fields : Fields Value) : Lasts s (s.addMapping fields).1 := by
  refine (extends_addMapping s fields).lasts fun m hm => ?_
  have hdistinct : ∀ (fs : Fields Value) (start : Fields Value), start.keys.Nodup →
      (fs.foldl (fun fs f => Fields.put fs f.1 f.2) start).keys.Nodup := by
    intro fs
    induction fs with
    | nil => exact fun _ h => h
    | cons f fs ih => exact fun _ h => ih _ (Fields.nodup_keys_put h f.1 f.2)
  rw [keys_addMapping]
  split
  · exact hdistinct fields [] List.nodup_nil
  · exact hm

theorem lasts_addSequence (s : Store) (vs : List Value) : Lasts s (s.addSequence vs).1 :=
  (extends_addSequence s vs).lasts fun _ hm => hm

mutual

/-- Building containers for plain data. -/
theorem lasts_intercept (s : Store) : (p : Plain) → Lasts s (s.intercept p).1
  | .null | .boolean _ | .number _ | .text _ => by
    simp only [intercept]
    exact .refl s
  | .array items => by
    simp only [intercept]
    exact (lasts_interceptItems s items).trans (lasts_addSequence _ _)
  | .object fields => by
    simp only [intercept]
    exact (lasts_interceptFields s fields).trans (lasts_addMapping _ _)

theorem lasts_interceptItems (s : Store) : (ps : List Plain) → Lasts s (s.interceptItems ps).1
  | [] => by
    simp only [interceptItems]
    exact .refl s
  | p :: ps => by
    simp only [interceptItems]
    exact (lasts_intercept s p).trans (lasts_interceptItems _ ps)

theorem lasts_interceptFields (s : Store) :
    (ps : List (String × Plain)) → Lasts s (s.interceptFields ps).1
  | [] => by
    simp only [interceptFields]
    exact .refl s
  | (_, p) :: ps => by
    simp only [interceptFields]
    exact (lasts_intercept s p).trans (lasts_interceptFields _ ps)

end

/-- Whatever changes, keys and items stay. -/
theorem Edit.lasts (h : s.Edit s') : Lasts s s' := by
  cases h with
  | assign c v => exact lasts_of_eq (by simp [Store.assign]) (fun _ => rfl) fun _ => rfl
  | watch c e => exact (sameData_watch s c e).lasts
  | prune c p => exact (sameData_prune s c p).lasts
  | define m h v => exact lasts_define h v
  | append q v => exact (extends_append s q v).lasts fun _ hm => hm
  | intercept p => exact lasts_intercept s p

end LiveBinding.Store
