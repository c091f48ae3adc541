import LiveBinding.Proofs.Refinement.Build

/-!
# Assignments to a model

An assignment changes one spot of the tree: a cell, or the container that gets a new cell. The data
of the tree changes as plain data does. Whatever the value is that the cell gets, it has to hold the
assigned data in spots of its own.

## Key results

- `Store.Holds.assign`: an assignment through segments and the same assignment to the data
- `Store.Models.assign`: a model after an assignment of intercepted data
-/

namespace LiveBinding

/-- The spot that an assignment changes. -/
def Place.spot : Place → Spot
  | .cell c => .cell c
  | .newKey m _ => .mapping m
  | .newItem q => .sequence q

namespace Store

variable {s s' t : Store}

/-! ### Places that take a value -/

/-- In the second store a place has a value; `added` lists the new cell, if there is one. -/
inductive Takes (s s' : Store) : Place → Value → List Spot → Prop
  | cell (c : CellId) : Takes s s' (.cell c) (s'.value c) []
  | newKey {m : MappingId} {key : String} {c : CellId}
      (h : s'.entries m = s.entries m ++ [(key, c)]) :
      Takes s s' (.newKey m key) (s'.value c) [.cell c]
  | newItem {q : SequenceId} {c : CellId} (h : s'.items q = s.items q ++ [c]) :
      Takes s s' (.newItem q) (s'.value c) [.cell c]

/-- Whoever gives a place a value that holds `x`, and leaves the other spots of `v` as they are,
makes `v` hold `p'`. -/
def Accepts (s : Store) (v : Value) (fp : List Spot) (place : Place) (x p' : Plain) : Prop :=
  ∀ (s' : Store) (u : Value) (added fpu : List Spot),
    (∀ y ∈ fp, y ≠ place.spot → SameAt s s' y) → Takes s s' place u added → s'.Holds u x fpu →
    ∃ fp', s'.Holds v p' fp' ∧ fp'.Subperm (fp ++ (added ++ fpu))

theorem map_eq_set {α β : Type} {f g : α → β} {l : List α} {i : Nat} {a : α} (hnodup : l.Nodup)
    (hi : l[i]? = some a) (hfg : ∀ b ∈ l, b ≠ a → g b = f b) : l.map g = (l.map f).set i (g a) := by
  apply List.ext_getElem?
  intro j
  rw [List.getElem?_set, List.getElem?_map, List.getElem?_map, List.length_map]
  by_cases hij : i = j
  · subst hij
    rw [if_pos rfl, if_pos (List.getElem?_eq_some_iff.1 hi).1, hi]
    rfl
  · rw [if_neg hij]
    cases hj : l[j]? with
    | none => rfl
    | some b =>
      have hne : b ≠ a := by
        rintro rfl
        exact hij (hnodup.getElem_inj_iff.1 ((List.getElem?_eq_some_iff.1 hi).2.trans
          (List.getElem?_eq_some_iff.1 hj).2.symm))
      rw [Option.map_some, Option.map_some, hfg b (List.mem_of_getElem? hj) hne]

theorem nodup_cellsOf {v : Value} (h : (s.spotsOf v).Nodup) : (s.cellsOf v).Nodup := by
  cases v with
  | mapping m => exact (List.nodup_cons.1 h).2.of_map _
  | sequence q => exact (List.nodup_cons.1 h).2.of_map _
  | _ => exact List.nodup_nil

/-- A cell of a container accepts data for the segment behind which it is. -/
theorem accepts_cell {v : Value} {p x p' : Plain} {inner : List Spot} {c : CellId} {i : Nat}
    {q : Plain} (hinner : s.HoldsAll (s.contents v) p.children inner)
    (hnodup : (s.spotsOf v ++ inner).Nodup) (hc : (s.cellsOf v)[i]? = some c)
    (hq : p.children[i]? = some q) (hchildren : p'.children = p.children.set i x)
    (hshape : ∀ s' : Store, s'.Shapes v p → s'.Shapes v p') (hv : s.Shapes v p) :
    s.Accepts v (s.spotsOf v ++ inner) (.cell c) x p' := by
  intro s' u added fpu hsame htakes hu
  cases htakes
  obtain ⟨hspots, -, hdisjoint⟩ := List.nodup_append'.1 hnodup
  have hcell : .cell c ∈ s.spotsOf v := cell_mem_spotsOf (List.mem_of_getElem? hc)
  have hcontainer : ∀ y ∈ s.spotsOf v, y.isContainer = true → SameAt s s' y := by
    intro y hy hyc
    refine hsame y (List.mem_append_left _ hy) ?_
    rintro rfl
    cases hyc
  -- The cell has the new value, and its siblings have the values that they had.
  have hcontents : s'.contents v = (s.contents v).set i (s'.value c) := by
    rw [contents, contents, cellsOf_eq hcontainer]
    refine map_eq_set (nodup_cellsOf hspots) hc fun d hd hne => ?_
    have hsame' := hsame (.cell d) (List.mem_append_left _ (cell_mem_spotsOf hd))
      (fun h => hne (Spot.cell.inj h))
    exact hsame'.value_eq
  have hold : (s.contents v)[i]? = some (s.value c) := by
    rw [contents, List.getElem?_map, hc]
    rfl
  obtain ⟨fpx, rest, -, hperm, hreplace⟩ := hinner.focus hold hq
  have hrest : ∀ y ∈ rest, SameAt s s' y := by
    intro y hy
    have hmem : y ∈ inner := hperm.mem_iff.2 (List.mem_append_right _ hy)
    refine hsame y (List.mem_append_right _ hmem) ?_
    rintro rfl
    exact hdisjoint hcell hmem
  obtain ⟨fp', hall, hperm'⟩ := hreplace s' (s'.value c) x fpu hrest hu
  refine ⟨s'.spotsOf v ++ fp', holds_iff.2 ⟨fp', ?_, ?_, rfl⟩, ?_⟩
  · exact hshape s' (hv.of_sameAt hcontainer)
  · rwa [hcontents, hchildren]
  · rw [spotsOf_eq hcontainer]
    refine List.subperm_ext_iff.2 fun y _ => ?_
    have hcount := hperm.count_eq y
    have hcount' := hperm'.count_eq y
    simp only [List.count_append] at hcount hcount' ⊢
    omega

/-- A container accepts data in a new cell behind the others. -/
theorem accepts_grow {v : Value} {p x p' : Plain} {inner fpu : List Spot} {c : CellId}
    {y : Spot} (hinner : s.HoldsAll (s.contents v) p.children inner)
    (hspots : s.spotsOf v = y :: (s.cellsOf v).map .cell)
    (hspots' : s'.spotsOf v = y :: (s'.cellsOf v).map .cell)
    (hcells : s'.cellsOf v = s.cellsOf v ++ [c]) (hcontainer : y.isContainer = true)
    (hy : y ∉ inner) (hsame : ∀ z ∈ s.spotsOf v ++ inner, z ≠ y → SameAt s s' z)
    (hu : s'.Holds (s'.value c) x fpu) (hshape : s'.Shapes v p')
    (hchildren : p'.children = p.children ++ [x]) :
    ∃ fp', s'.Holds v p' fp' ∧ fp'.Subperm ((s.spotsOf v ++ inner) ++ ([.cell c] ++ fpu)) := by
  have hcontents : s'.contents v = s.contents v ++ [s'.value c] := by
    rw [contents, contents, hcells, List.map_append]
    congr 1
    refine List.map_congr_left fun d hd => ?_
    have hsame' := hsame (.cell d) (List.mem_append_left _ (cell_mem_spotsOf hd))
      (by rintro rfl; cases hcontainer)
    exact hsame'.value_eq
  have hinner' : s'.HoldsAll (s.contents v) p.children inner := by
    refine hinner.of_sameAt fun z hz => hsame z (List.mem_append_right _ hz) ?_
    rintro rfl
    exact hy hz
  have hall := hinner'.append hu
  rw [← hcontents, ← hchildren] at hall
  refine ⟨_, holds_iff.2 ⟨_, hshape, hall, rfl⟩, ?_⟩
  rw [hspots', hspots, hcells]
  refine List.subperm_ext_iff.2 fun z _ => ?_
  simp only [List.count_append, List.count_cons, List.map_append, List.map_cons, List.map_nil,
    List.count_nil]
  omega

/-- An assignment to the last segment, in a container and in the data that it holds. -/
theorem Holds.put {v : Value} {p : Plain} {fp : List Spot} (h : s.Holds v p fp)
    (hnodup : fp.Nodup) (path : KeyPath) (segment : String) (x : Plain) :
    (∃ f, s.place path v segment = .error f ∧ p.put path segment x = .error f) ∨
      ∃ place p', s.place path v segment = .ok place ∧ p.put path segment x = .ok p' ∧
        place.spot ∈ fp ∧ s.Accepts v fp place x p' := by
  obtain ⟨hshape, hlength⟩ := h.lengths
  obtain ⟨inner, -, hinner, rfl⟩ := holds_iff.1 h
  cases hcell : s.cellBehind? v segment with
  | some c =>
    obtain ⟨i, q, hc, hq, -, hput, hreplace⟩ := child_of_cellBehind? hshape hlength hcell
    refine .inr ⟨.cell c, _, place_of_cellBehind? path hcell, hput path x, ?_, ?_⟩
    · exact List.mem_append_left _ (cell_mem_spotsOf (List.mem_of_getElem? hc))
    · exact accepts_cell hinner hnodup hc hq (hreplace x).1 (hreplace x).2 hshape
  | none =>
    have hdisjoint := (List.nodup_append'.1 hnodup).2.2
    cases v with
    | mapping m =>
      cases p with
      | object fs =>
        have hnone : s.cellOf? m segment = none := hcell
        have hkeys : Fields.keys (s.entries m) = Fields.keys fs := hshape
        have hmem : segment ∉ Fields.keys fs := by
          rw [cellOf?, Fields.get?_eq_getElem?, List.getElem?_eq_none_iff, hkeys] at hnone
          rw [← List.idxOf_lt_length_iff]
          have hlen : (s.entries m).length = fs.length := by
            simpa [Fields.keys] using congrArg List.length hkeys
          simp [Fields.keys] at hnone ⊢
          omega
        refine .inr ⟨.newKey m segment, .object (fs ++ [(segment, x)]), ?_, ?_,
          List.mem_append_left _ (List.mem_cons_self ..), ?_⟩
        · rw [place, hnone]
        · rw [Plain.put, Fields.put_of_not_mem hmem]
        · intro s' u added fpu hsame htakes hu
          cases htakes with
          | newKey hentries =>
            refine accepts_grow hinner rfl rfl ?_ rfl (hdisjoint (List.mem_cons_self ..)) hsame hu
              ?_ ?_
            · rw [cellsOf, cellsOf, hentries, List.map_append]
              rfl
            · show Fields.keys (s'.entries m) = Fields.keys (fs ++ [(segment, x)])
              rw [hentries, Fields.keys_append, Fields.keys_append, hkeys]
              rfl
            · rw [Plain.children, Plain.children, List.map_append]
              rfl
      | _ => exact hshape.elim
    | sequence n =>
      cases p with
      | array items =>
        have hcount : (s.items n).length = items.length := hlength
        cases hi : index? segment with
        | none =>
          refine .inl ⟨.invalidIndex path.raw segment, ?_, ?_⟩
          · rw [place, hi]
          · rw [Plain.put, hi]
        | some i =>
          have hnone : s.cellAt? n i = none := by simpa [cellBehind?, hi] using hcell
          have hle : items.length ≤ i := hcount ▸ List.getElem?_eq_none_iff.1 hnone
          have hlt : ¬ i < items.length := Nat.not_lt.2 hle
          by_cases heq : i = items.length
          · subst heq
            refine .inr ⟨.newItem n, .array (items ++ [x]), ?_, ?_,
              List.mem_append_left _ (List.mem_cons_self ..), ?_⟩
            · simp [place, hi, hnone, hcount]
            · simp [Plain.put, hi]
            · intro s' u added fpu hsame htakes hu
              cases htakes with
              | newItem hitems =>
                exact accepts_grow hinner rfl rfl hitems rfl (hdisjoint (List.mem_cons_self ..))
                  hsame hu trivial rfl
          · refine .inl ⟨.indexOutOfBounds path.raw i items.length, ?_, ?_⟩
            · simp [place, hi, hnone, hcount, heq]
            · simp [Plain.put, hi, hlt, heq]
      | _ => exact hshape.elim
    | null => cases p <;> first | exact hshape.elim | exact .inl ⟨_, rfl, rfl⟩
    | boolean b => cases p <;> first | exact hshape.elim | exact .inl ⟨_, rfl, rfl⟩
    | number x => cases p <;> first | exact hshape.elim | exact .inl ⟨_, rfl, rfl⟩
    | text t => cases p <;> first | exact hshape.elim | exact .inl ⟨_, rfl, rfl⟩

/-! ### Assignments behind parents -/

/-- What an assignment to `last` behind parents changes. -/
def placeBehind (s : Store) (path : KeyPath) (last : String) (v : Value) (parents : List String) :
    Except Fault Place :=
  (s.walk path v parents).2.bind fun container => s.place path container last

/-- An assignment to a path that leads through cells changes the last of them, which holds the value
of the path. -/
theorem Leads.placeBehind_eq {path : KeyPath} {last : String} {v w : Value} {parents : List String}
    {cells : List CellId} (h : s.Leads v (parents ++ [last]) cells w) :
    ∃ c ∈ cells, s.placeBehind path last v parents = .ok (.cell c) ∧ w = s.value c := by
  -- By induction on the parents: the resolution goes through the same cells.
  induction parents generalizing v cells with
  | nil =>
    cases h with
    | cons hcell hrest =>
      cases hrest
      exact ⟨_, List.mem_cons_self .., place_of_cellBehind? path hcell, rfl⟩
  | cons segment parents ih =>
    cases h with
    | cons hcell hrest =>
      obtain ⟨d, hd, hplace, hw⟩ := ih hrest
      refine ⟨d, List.mem_cons_of_mem _ hd, ?_, hw⟩
      rw [placeBehind, walk, step?_eq_some_iff.2 ⟨hcell, rfl⟩]
      exact hplace

/-- An assignment defines a key only where it found none. -/
theorem vacant_of_placeBehind {path : KeyPath} {last : String} {v : Value} {parents : List String}
    {place : Place} (h : s.placeBehind path last v parents = .ok place) : s.Vacant place := by
  rw [placeBehind] at h
  cases hwalk : (s.walk path v parents).2 with
  | error f =>
    rw [hwalk] at h
    cases h
  | ok container =>
    rw [hwalk] at h
    exact vacant_of_place h

theorem SameData.placeBehind_eq (h : SameData s s') (path : KeyPath) (last : String) (v : Value)
    (parents : List String) :
    s'.placeBehind path last v parents = s.placeBehind path last v parents := by
  rw [placeBehind, placeBehind, h.walk_eq]
  congr 1
  funext container
  exact h.place_eq path container last

/-- A container accepts data below it, if the value of one of its cells does. -/
theorem accepts_below {v : Value} {p x q' p' : Plain} {inner fpw rest : List Spot} {c : CellId}
    {i : Nat} {place : Place} (hshape : s.Shapes v p) (hnodup : (s.spotsOf v ++ inner).Nodup)
    (hc : (s.cellsOf v)[i]? = some c) (hperm : inner.Perm (fpw ++ rest))
    (hreplace : ∀ (s' : Store) (v' : Value) (p' : Plain) (fpv' : List Spot),
      (∀ y ∈ rest, SameAt s s' y) → s'.Holds v' p' fpv' →
        ∃ fp', s'.HoldsAll ((s.contents v).set i v') (p.children.set i p') fp' ∧
          fp'.Perm (fpv' ++ rest))
    (hplace : place.spot ∈ fpw) (haccepts : s.Accepts (s.value c) fpw place x q')
    (hchildren : p'.children = p.children.set i q')
    (hshape' : ∀ s' : Store, s'.Shapes v p → s'.Shapes v p') :
    s.Accepts v (s.spotsOf v ++ inner) place x p' := by
  intro s' u added fpu hsame htakes hu
  obtain ⟨-, hinner, hdisjoint⟩ := List.nodup_append'.1 hnodup
  obtain ⟨-, -, hdisjoint'⟩ := List.nodup_append'.1 (hperm.nodup hinner)
  have hmem : ∀ y ∈ fpw, y ∈ inner := fun y hy => hperm.mem_iff.2 (List.mem_append_left _ hy)
  -- The spot that changes is below the value of the cell, so neither the container nor what is
  -- below its other cells changes.
  have hspots : ∀ y ∈ s.spotsOf v, SameAt s s' y := by
    intro y hy
    refine hsame y (List.mem_append_left _ hy) ?_
    rintro rfl
    exact hdisjoint hy (hmem _ hplace)
  have hrest : ∀ y ∈ rest, SameAt s s' y := by
    intro y hy
    refine hsame y (List.mem_append_right _ (hperm.mem_iff.2 (List.mem_append_right _ hy))) ?_
    rintro rfl
    exact hdisjoint' hplace hy
  obtain ⟨fpw', hholds, hsub⟩ := haccepts s' u added fpu
    (fun y hy hne => hsame y (List.mem_append_right _ (hmem y hy)) hne) htakes hu
  obtain ⟨fp', hall, hperm'⟩ := hreplace s' (s.value c) q' fpw' hrest hholds
  have hcontents : (s.contents v).set i (s.value c) = s'.contents v := by
    have hi : (s.contents v)[i]? = some (s.value c) := by
      rw [contents, List.getElem?_map, hc]
      rfl
    obtain ⟨hlt, hget⟩ := List.getElem?_eq_some_iff.1 hi
    rw [contents_eq hspots, ← hget, List.set_getElem_self]
  rw [hcontents, ← hchildren] at hall
  have hcontainer : ∀ y ∈ s.spotsOf v, y.isContainer = true → SameAt s s' y :=
    fun y hy _ => hspots y hy
  refine ⟨s'.spotsOf v ++ fp',
    holds_iff.2 ⟨fp', hshape' s' (hshape.of_sameAt hcontainer), hall, rfl⟩, ?_⟩
  rw [spotsOf_eq hcontainer]
  refine List.subperm_ext_iff.2 fun y _ => ?_
  have hcount := hperm.count_eq y
  have hcount' := hperm'.count_eq y
  have hcount'' := hsub.count_le y
  simp only [List.count_append] at hcount hcount' hcount'' ⊢
  omega

/-- An assignment through segments faults like the assignment to the data, or what it changes is a
spot of the tree that accepts the assigned data. -/
theorem Holds.assign {v : Value} {p : Plain} {fp : List Spot} (h : s.Holds v p fp)
    (hnodup : fp.Nodup) (path : KeyPath) (last : String) (x : Plain) (parents : List String) :
    (∃ f, s.placeBehind path last v parents = .error f ∧
        Plain.assignBehind path x last p parents = .error f) ∨
      ∃ place p', s.placeBehind path last v parents = .ok place ∧
        Plain.assignBehind path x last p parents = .ok p' ∧ place.spot ∈ fp ∧
          s.Accepts v fp place x p' := by
  -- By induction on the parents: a step leads to a value whose tree is a part of the tree.
  induction parents generalizing v p fp with
  | nil => exact h.put hnodup path last x
  | cons segment parents ih =>
    obtain ⟨hshape, hlength⟩ := h.lengths
    rw [placeBehind, walk, Plain.assignBehind]
    cases hcell : s.cellBehind? v segment with
    | none =>
      rcases step_of_cellBehind?_eq_none hshape hlength hcell with
        ⟨hstep, hstep'⟩ | ⟨w, q, hstep, hstep', hleaf⟩
      · rw [hstep, hstep']
        refine .inl ⟨_, rfl, ?_⟩
        rw [Plain.notContainer, notContainer, hshape.kind_eq]
      · -- Nothing can be assigned below a leaf.
        rw [hstep, hstep']
        rcases ih hleaf List.nodup_nil with ⟨f, hf, hf'⟩ | ⟨_, _, _, _, hmem, _⟩
        · exact .inl ⟨f, hf, congrArg (Except.map (p.replace segment)) hf'⟩
        · cases hmem
    | some c =>
      obtain ⟨i, q, hc, hq, hstep', -, hreplace'⟩ := child_of_cellBehind? hshape hlength hcell
      rw [step?_eq_some_iff.2 ⟨hcell, rfl⟩, hstep']
      obtain ⟨inner, -, hinner, rfl⟩ := holds_iff.1 h
      have hi : (s.contents v)[i]? = some (s.value c) := by
        rw [contents, List.getElem?_map, hc]
        rfl
      obtain ⟨fpw, rest, hholds, hperm, hreplace⟩ := hinner.focus hi hq
      have hnodup' : fpw.Nodup :=
        ((List.nodup_append'.1 (hperm.nodup (List.nodup_append'.1 hnodup).2.1))).1
      rcases ih hholds hnodup' with ⟨f, hf, hf'⟩ | ⟨place, q', hplace, hassign, hmem, haccepts⟩
      · exact .inl ⟨f, hf, congrArg (Except.map (p.replace segment)) hf'⟩
      · refine .inr ⟨place, p.replace segment q', hplace,
          congrArg (Except.map (p.replace segment)) hassign, ?_, ?_⟩
        · exact List.mem_append_right _ (hperm.mem_iff.2 (List.mem_append_left _ hmem))
        · exact accepts_below hshape hnodup hc hperm hreplace hmem haccepts (hreplace' q').1
            (hreplace' q').2

/-! ### Putting a value in a place -/

/-- The store in which a place has a value. -/
def putAt (s : Store) (place : Place) (v : Value) : Store :=
  match place with
  | .cell c => s.assign c v
  | .newKey m key => s.define m key v
  | .newItem q => s.append q v

/-- A new cell behind the others. -/
theorem value_addCells_size (s : Store) (v : Value) :
    (s.addCells [v]).1.value s.cells.size = v := by
  rw [value, cells_addCells, if_neg (Nat.lt_irrefl _), Nat.sub_self]
  rfl

/-- Putting a value in a place changes one spot, and adds at most one cell. -/
theorem putAt_takes {place : Place} (h : s.Has place.spot) (hvacant : s.Vacant place) (v : Value) :
    (∀ y, s.Has y → y ≠ place.spot → SameAt s (s.putAt place v) y) ∧
      (s.putAt place v).Has place.spot ∧
      ∃ added, Takes s (s.putAt place v) place v added ∧ New s (s.putAt place v) added := by
  have hcell : New s (s.addCells [v]).1 [.cell s.cells.size] := by
    simpa [addCells] using new_addCells s [v]
  cases place with
  | cell c =>
    have hlt : c < s.cells.size := h
    refine ⟨?_, ?_, [], ?_, .nil _ _⟩
    · intro y _ hne
      cases y with
      | cell d =>
        show (s.assign c v).cells[d]?.map Cell.value = _
        rw [cells_assign, if_neg fun hcd => hne (congrArg Spot.cell hcd.symm)]
      | _ => rfl
    · show c < (s.cells.modify c _).size
      rwa [Array.size_modify]
    · have htakes : Takes s (s.assign c v) (.cell c) ((s.assign c v).value c) [] := .cell c
      rwa [value_assign_self hlt] at htakes
  | newKey m key =>
    have hlt : m < s.mappings.size := h
    have hnew : ∀ y ∈ [Spot.cell s.cells.size], (s.putAt (.newKey m key) v).Has y := by
      intro y hy
      obtain rfl := List.mem_singleton.1 hy
      exact hcell.has _ hy
    refine ⟨?_, ?_, [.cell s.cells.size], ?_, hcell.nodup, hcell.absent, hnew⟩
    · intro y hy hne
      cases y with
      | cell d => exact adds_addCells s [v] (.cell d) hy
      | mapping n =>
        show (s.mappings.modify m _)[n]? = s.mappings[n]?
        rw [Array.getElem?_modify, if_neg fun hmn => hne (congrArg Spot.mapping hmn.symm)]
      | sequence q => rfl
    · show m < (s.mappings.modify m _).size
      rwa [Array.size_modify]
    · have hentries : (s.define m key v).entries m = s.entries m ++ [(key, s.cells.size)] := by
        rw [entries_define_of_eq_none hvacant, if_pos ⟨rfl, hlt⟩]
      have htakes := Takes.newKey hentries
      rwa [show (s.define m key v).value s.cells.size = v from value_addCells_size s v] at htakes
  | newItem q =>
    have hlt : q < s.sequences.size := h
    have hnew : ∀ y ∈ [Spot.cell s.cells.size], (s.putAt (.newItem q) v).Has y := by
      intro y hy
      obtain rfl := List.mem_singleton.1 hy
      exact hcell.has _ hy
    refine ⟨?_, ?_, [.cell s.cells.size], ?_, hcell.nodup, hcell.absent, hnew⟩
    · intro y hy hne
      cases y with
      | cell d => exact adds_addCells s [v] (.cell d) hy
      | mapping n => rfl
      | sequence r =>
        show (s.sequences.modify q _)[r]? = s.sequences[r]?
        rw [Array.getElem?_modify, if_neg fun hqr => hne (congrArg Spot.sequence hqr.symm)]
    · show q < (s.sequences.modify q _).size
      rwa [Array.size_modify]
    · have hitems : (s.append q v).items q = s.items q ++ [s.cells.size] := by
        rw [items_append, if_pos ⟨rfl, hlt⟩]
      have htakes := Takes.newItem hitems
      rwa [show (s.append q v).value s.cells.size = v from value_addCells_size s v] at htakes

/-- A value that is the same as one that holds data holds the data, too. -/
theorem Holds.of_same {v u : Value} {p : Plain} {fp : List Spot} (h : s.Holds u p fp)
    (hsame : v.same u = true) : ∃ fp', s.Holds v p fp' ∧ fp'.Subperm fp := by
  have hshape := h.lengths.1
  cases u with
  | mapping m =>
    cases v with
    | mapping n =>
      obtain rfl : n = m := by simpa [Value.same] using hsame
      exact ⟨fp, h, .refl _⟩
    | _ => cases hsame
  | sequence q =>
    cases v with
    | sequence r =>
      obtain rfl : r = q := by simpa [Value.same] using hsame
      exact ⟨fp, h, .refl _⟩
    | _ => cases hsame
  | null =>
    cases v with
    | null => exact ⟨fp, h, .refl _⟩
    | _ => cases hsame
  | boolean b =>
    cases v with
    | boolean a =>
      obtain rfl : a = b := by simpa [Value.same] using hsame
      exact ⟨fp, h, .refl _⟩
    | _ => cases hsame
  | text t =>
    cases v with
    | text r =>
      obtain rfl : r = t := by simpa [Value.same] using hsame
      exact ⟨fp, h, .refl _⟩
    | _ => cases hsame
  | number y =>
    cases v with
    | number x =>
      cases p with
      | number n =>
        exact ⟨[], holds_leaf rfl ((ofNumber_eq_of_equal hsame).trans hshape), List.nil_subperm⟩
      | _ => exact hshape.elim
    | _ => cases hsame

/-! ### Models -/

theorem Models.of_sameAt {root : MappingId} {d : Plain} {fp : List Spot}
    (h : s.Holds (.mapping root) d fp) (hnodup : fp.Nodup) (hhas : ∀ x ∈ fp, s.Has x)
    (hsame : ∀ x ∈ fp, SameAt s s' x) : s'.Models root d :=
  ⟨fp, h.of_sameAt hsame, hnodup, fun x hx => (hsame x hx).has (hhas x hx)⟩

/-- New data is assigned to a model as it is to the data of the model. The assignment to the data
faults in the same way; or else the model has the new data, be it that the value is put in its place
or that the place has the same value already. -/
theorem Models.assign {root : MappingId} {d x : Plain} {u : Value} {fpu : List Spot}
    (h : s.Models root d) (hadds : Adds s t) (hu : t.Holds u x fpu) (hnew : New s t fpu)
    (path : KeyPath) :
    (∃ f, t.placeBehind path path.last (.mapping root) path.parents = .error f ∧
        d.assign path x = .error f) ∨
      ∃ place d', t.placeBehind path path.last (.mapping root) path.parents = .ok place ∧
        d.assign path x = .ok d' ∧ (t.putAt place u).Models root d' ∧
          ∀ c, place = .cell c → (t.value c).same u = true → t.Models root d' := by
  obtain ⟨fp, hholds, hnodup, hhas⟩ := h
  have hholds' : t.Holds (.mapping root) d fp := hholds.of_sameAt fun y hy => hadds y (hhas y hy)
  have hhas' : ∀ y ∈ fp, t.Has y := fun y hy => hadds.has (hhas y hy)
  -- What is built lies apart from the model.
  have hdisjoint : (fp ++ fpu).Nodup :=
    hnodup.append hnew.nodup fun y hy hy' => hnew.absent y hy' (hhas y hy)
  rcases hholds'.assign hnodup path path.last x path.parents with
    hfault | ⟨place, d', hplace, hassign, hmem, haccepts⟩
  · exact .inl hfault
  · refine .inr ⟨place, d', hplace, hassign, ?_, ?_⟩
    · obtain ⟨hsame, hspot, added, htakes, hadded⟩ :=
        putAt_takes (hhas' _ hmem) (vacant_of_placeBehind hplace) u
      have hall : ∀ x, t.Has x → (t.putAt place u).Has x := by
        intro x hx
        by_cases hxs : x = place.spot
        · exact hxs ▸ hspot
        · exact (hsame x hx hxs).has hx
      -- The place is no part of what was built.
      have hu' : (t.putAt place u).Holds u x fpu := by
        refine hu.of_sameAt fun x hx => hsame x (hnew.has x hx) ?_
        rintro rfl
        exact hnew.absent _ hx (hhas _ hmem)
      obtain ⟨fp', hfp', hsub⟩ := haccepts _ u added fpu
        (fun y hy hne => hsame y (hhas' y hy) hne) htakes hu'
      have hnodup' : (fp ++ (added ++ fpu)).Nodup := by
        refine (List.perm_append_comm_assoc fp added fpu).symm.nodup
          (hadded.nodup.append hdisjoint fun x hx hx' => hadded.absent x hx ?_)
        exact (List.mem_append.1 hx').elim (hhas' x) (hnew.has x)
      refine ⟨fp', hfp', nodup_of_subperm hnodup' hsub, fun x hx => ?_⟩
      rcases List.mem_append.1 (hsub.subset hx) with hx | hx
      · exact hall x (hhas' x hx)
      · exact (List.mem_append.1 hx).elim (hadded.has x) fun hx => hall x (hnew.has x hx)
    · rintro c rfl hsame
      obtain ⟨fpv, hv, hsub⟩ := hu.of_same hsame
      obtain ⟨fp', hfp', hsub'⟩ := haccepts t (t.value c) [] fpv
        (fun y _ _ => .refl t y) (.cell c) hv
      have hsub'' : fp'.Subperm (fp ++ fpu) :=
        hsub'.trans ((List.subperm_append_left fp).2 hsub)
      refine ⟨fp', hfp', nodup_of_subperm hdisjoint hsub'', fun x hx => ?_⟩
      exact (List.mem_append.1 (hsub''.subset hx)).elim (hhas' x) (hnew.has x)

end Store

end LiveBinding
