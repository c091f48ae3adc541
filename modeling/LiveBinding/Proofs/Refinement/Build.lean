import LiveBinding.Proofs.Refinement.Holds
import Mathlib.Data.List.Nodup

/-!
# Building containers for plain data

Intercepted data lies in new spots, each of them used once, and nothing that was there before
changes. Of several fields with one key the last one counts, so what a mapping holds is its data
with distinct keys.

## Key results

- `Store.intercept_holds`: what building containers for plain data gives
- `Store.models_interceptRoot`: a new model holds its data
-/

namespace LiveBinding

namespace Store

variable {s s' t : Store}

/-! ### Stores that gain spots -/

/-- Nothing that is there changes. -/
def Adds (s s' : Store) : Prop := ∀ x, s.Has x → SameAt s s' x

theorem Adds.refl (s : Store) : Adds s s := fun x _ => .refl s x

theorem Adds.has (h : Adds s s') {x : Spot} (hx : s.Has x) : s'.Has x := (h x hx).has hx

theorem Adds.trans (h : Adds s t) (h' : Adds t s') : Adds s s' :=
  fun x hx => (h x hx).trans (h' x (h.has hx))

/-- Spots that are new in the second store. -/
structure New (s s' : Store) (fp : List Spot) : Prop where
  nodup : fp.Nodup
  absent : ∀ x ∈ fp, ¬ s.Has x
  has : ∀ x ∈ fp, s'.Has x

theorem New.nil (s s' : Store) : New s s' [] :=
  ⟨List.nodup_nil, by simp, by simp⟩

theorem New.append {fp fp' : List Spot} (h : New s t fp) (h' : New t s' fp') (ha : Adds s t)
    (ha' : Adds t s') : New s s' (fp ++ fp') where
  nodup := h.nodup.append h'.nodup fun x hx hx' => h'.absent x hx' (h.has x hx)
  absent x hx := by
    rcases List.mem_append.1 hx with hx | hx
    · exact h.absent x hx
    · exact fun hs => h'.absent x hx (ha.has hs)
  has x hx := by
    rcases List.mem_append.1 hx with hx | hx
    · exact ha'.has (h.has x hx)
    · exact h'.has x hx

theorem New.of_subperm {fp fp' : List Spot} (h : New s s' fp) (hsub : fp'.Subperm fp) :
    New s s' fp' :=
  ⟨nodup_of_subperm h.nodup hsub, fun x hx => h.absent x (hsub.subset hx),
    fun x hx => h.has x (hsub.subset hx)⟩

/-! ### New cells -/

theorem adds_addCells (s : Store) (vs : List Value) : Adds s (s.addCells vs).1 := by
  intro x hx
  cases x with
  | cell c =>
    have hlt : c < s.cells.size := hx
    show (s.addCells vs).1.cells[c]?.map Cell.value = _
    rw [cells_addCells, if_pos hlt]
  | _ => rfl

theorem new_addCells (s : Store) (vs : List Value) :
    New s (s.addCells vs).1 ((s.addCells vs).2.map .cell) where
  nodup := by
    have hcells : (s.addCells vs).2.Nodup := List.nodup_range'
    exact hcells.map fun c d h => Spot.cell.inj h
  absent x hx := by
    obtain ⟨c, hc, rfl⟩ := List.mem_map.1 hx
    exact Nat.not_lt.2 (mem_snd_addCells hc).1
  has x hx := by
    obtain ⟨c, hc, rfl⟩ := List.mem_map.1 hx
    exact Nat.lt_of_lt_of_eq (mem_snd_addCells hc).2 (size_addCells s vs).symm

/-- New cells have the values for which they were made. -/
theorem values_addCells (s : Store) (vs : List Value) :
    (s.addCells vs).2.map (s.addCells vs).1.value = vs := by
  apply List.ext_getElem?
  intro i
  rw [List.getElem?_map]
  by_cases hi : i < vs.length
  · have hc : (s.addCells vs).2[i]? = some (s.cells.size + i) := by simp [addCells, hi]
    have hnot : ¬ s.cells.size + i < s.cells.size := Nat.not_lt.2 (Nat.le_add_right ..)
    rw [hc, Option.map_some, value, cells_addCells, if_neg hnot, Nat.add_sub_cancel_left,
      List.getElem?_eq_getElem hi]
    rfl
  · have hle := Nat.le_of_not_lt hi
    rw [List.getElem?_eq_none hle, List.getElem?_eq_none (by simpa using hle)]
    rfl

/-! ### New containers -/

/-- A new container over new cells, which have the values that hold the data inside. -/
theorem holds_container {v : Value} {p : Plain} {vs : List Value} {fp : List Spot} {x : Spot}
    (hadds : Adds (s.addCells vs).1 s') (hcells : s'.cells = (s.addCells vs).1.cells)
    (hof : s'.cellsOf v = (s.addCells vs).2)
    (hspots : s'.spotsOf v = x :: (s'.cellsOf v).map .cell) (hcontainer : x.isContainer = true)
    (hx : ¬ s.Has x) (hx' : s'.Has x) (hshape : s'.Shapes v p)
    (hall : s.HoldsAll vs p.children fp) (hfp : ∀ y ∈ fp, s.Has y) :
    s'.Holds v p (s'.spotsOf v ++ fp) ∧ New s s' (s'.spotsOf v) := by
  have hadds' : Adds s s' := (adds_addCells s vs).trans hadds
  have hvalue : s'.value = (s.addCells vs).1.value := by
    funext c
    rw [value, value, hcells]
  have hcontents : s'.contents v = vs := by
    rw [contents, hof, hvalue, values_addCells]
  have hnew := new_addCells s vs
  refine ⟨holds_iff.2 ⟨fp, hshape, ?_, rfl⟩, ?_⟩
  · rw [hcontents]
    exact hall.of_sameAt fun y hy => hadds' y (hfp y hy)
  · rw [hspots, hof]
    refine ⟨List.nodup_cons.2 ⟨?_, hnew.nodup⟩, ?_, ?_⟩
    · intro hmem
      obtain ⟨c, -, rfl⟩ := List.mem_map.1 hmem
      cases hcontainer
    · intro y hy
      rcases List.mem_cons.1 hy with rfl | hy
      · exact hx
      · exact hnew.absent y hy
    · intro y hy
      rcases List.mem_cons.1 hy with rfl | hy
      · exact hx'
      · exact hadds.has (hnew.has y hy)

theorem adds_addMapping (s : Store) (fields : Fields Value) :
    Adds (s.addCells ((Fields.distinct fields).map Prod.snd)).1 (s.addMapping fields).1 := by
  intro x hx
  cases x with
  | mapping m =>
    have hlt : m < s.mappings.size := hx
    show (s.mappings.push _)[m]? = s.mappings[m]?
    rw [Array.getElem?_push, if_neg (Nat.ne_of_lt hlt)]
  | _ => rfl

theorem adds_addSequence (s : Store) (vs : List Value) :
    Adds (s.addCells vs).1 (s.addSequence vs).1 := by
  intro x hx
  cases x with
  | sequence q =>
    have hlt : q < s.sequences.size := hx
    show (s.sequences.push _)[q]? = s.sequences[q]?
    rw [Array.getElem?_push, if_neg (Nat.ne_of_lt hlt)]
  | _ => rfl

/-- A new mapping holds an object. -/
theorem holds_addMapping {fields : Fields Value} {fs : Fields Plain} {fp : List Spot}
    (hkeys : (Fields.distinct fields).keys = Fields.keys fs)
    (hall : s.HoldsAll ((Fields.distinct fields).map Prod.snd) (fs.map Prod.snd) fp)
    (hfp : ∀ y ∈ fp, s.Has y) :
    let added := s.addMapping fields
    added.1.Holds (.mapping added.2) (.object fs) (added.1.spotsOf (.mapping added.2) ++ fp) ∧
      New s added.1 (added.1.spotsOf (.mapping added.2)) := by
  intro added
  let cells := (s.addCells ((Fields.distinct fields).map Prod.snd)).2
  have hentries : added.1.entries added.2 = (Fields.distinct fields).keys.zip cells := by
    show ((s.mappings.push _)[s.mappings.size]?).getD [] = _
    rw [Array.getElem?_push_size]
    rfl
  have hlength : (Fields.distinct fields).keys.length = cells.length := by
    simp [cells, Fields.keys]
  refine holds_container (adds_addMapping s fields) rfl ?_ rfl rfl (Nat.lt_irrefl _) ?_ ?_ hall hfp
  · rw [cellsOf, hentries]
    exact List.map_snd_zip (Nat.le_of_eq hlength.symm)
  · show s.mappings.size < (s.mappings.push _).size
    simp
  · show Fields.keys (added.1.entries added.2) = Fields.keys fs
    rw [← hkeys, hentries]
    exact List.map_fst_zip (Nat.le_of_eq hlength)

/-- A new sequence holds an array. -/
theorem holds_addSequence {vs : List Value} {ps : List Plain} {fp : List Spot}
    (hall : s.HoldsAll vs ps fp) (hfp : ∀ y ∈ fp, s.Has y) :
    let added := s.addSequence vs
    added.1.Holds (.sequence added.2) (.array ps) (added.1.spotsOf (.sequence added.2) ++ fp) ∧
      New s added.1 (added.1.spotsOf (.sequence added.2)) := by
  intro added
  refine holds_container (adds_addSequence s vs) rfl ?_ rfl rfl (Nat.lt_irrefl _) ?_ trivial
    hall hfp
  · show ((s.sequences.push _)[s.sequences.size]?).getD [] = _
    rw [Array.getElem?_push_size]
    rfl
  · show s.sequences.size < (s.sequences.push _).size
    simp

/-! ### Fields with one key each -/

/-- Putting a value in fields that hold data. -/
theorem HoldsAll.put {fs : Fields Value} {gs : Fields Plain} {fp fpv : List Spot} {v : Value}
    {p : Plain} (h : s.HoldsAll (fs.map Prod.snd) (gs.map Prod.snd) fp)
    (hkeys : fs.keys = gs.keys) (hv : s.Holds v p fpv) (key : String) :
    (fs.put key v).keys = (gs.put key p).keys ∧
      ∃ fp', s.HoldsAll ((fs.put key v).map Prod.snd) ((gs.put key p).map Prod.snd) fp' ∧
        fp'.Subperm (fp ++ fpv) := by
  -- A key that is there keeps its place, another one comes last.
  by_cases hmem : key ∈ fs.keys
  · have hmem' : key ∈ gs.keys := hkeys ▸ hmem
    refine ⟨by rw [Fields.keys_put_of_mem hmem, Fields.keys_put_of_mem hmem', hkeys], ?_⟩
    rw [Fields.values_put_of_mem hmem, Fields.values_put_of_mem hmem', ← hkeys]
    have hlt : fs.keys.idxOf key < (fs.map Prod.snd).length := by
      have := List.idxOf_lt_length_iff.2 hmem
      simpa [Fields.keys] using this
    obtain ⟨fpx, rest, -, hperm, hreplace⟩ := h.focus (List.getElem?_eq_getElem hlt)
      (List.getElem?_eq_getElem (h.length_eq ▸ hlt))
    obtain ⟨fp', hall, hperm'⟩ := hreplace s v p fpv (fun x _ => .refl s x) hv
    -- The old value goes, the others stay.
    have hrest : rest.Subperm fp :=
      (List.sublist_append_right ..).subperm.trans hperm.symm.subperm
    refine ⟨fp', hall, (hperm'.trans List.perm_append_comm).subperm.trans ?_⟩
    exact (List.subperm_append_right fpv).2 hrest
  · have hmem' : key ∉ gs.keys := hkeys ▸ hmem
    rw [Fields.put_of_not_mem hmem, Fields.put_of_not_mem hmem']
    refine ⟨by rw [Fields.keys_append, Fields.keys_append, hkeys]; rfl, fp ++ fpv, ?_, .refl _⟩
    rw [List.map_append, List.map_append]
    exact h.append hv

/-- Putting one field after the other. -/
theorem HoldsAll.foldl_put {fs : Fields Value} {gs : Fields Plain} {acc : Fields Value}
    {acc' : Fields Plain} {fp fpa : List Spot}
    (h : s.HoldsAll (fs.map Prod.snd) (gs.map Prod.snd) fp) (hkeys : fs.keys = gs.keys)
    (ha : s.HoldsAll (acc.map Prod.snd) (acc'.map Prod.snd) fpa) (hkeysa : acc.keys = acc'.keys) :
    let put := fs.foldl (fun fs f => Fields.put fs f.1 f.2) acc
    let put' := gs.foldl (fun gs f => Fields.put gs f.1 f.2) acc'
    put.keys = put'.keys ∧
      ∃ fp', s.HoldsAll (put.map Prod.snd) (put'.map Prod.snd) fp' ∧ fp'.Subperm (fpa ++ fp) := by
  induction fs generalizing gs acc acc' fp fpa with
  | nil =>
    cases gs with
    | nil => exact ⟨hkeysa, fpa, ha, (List.sublist_append_left ..).subperm⟩
    | cons g gs => cases hkeys
  | cons f fs ih =>
    cases gs with
    | nil => cases hkeys
    | cons g gs =>
      rw [Fields.keys_cons, Fields.keys_cons, List.cons.injEq] at hkeys
      obtain ⟨hkey, hkeys⟩ := hkeys
      rw [List.map_cons, List.map_cons] at h
      cases h with
      | @cons _ _ _ _ inner rest hshape hinner hrest =>
        have hv : s.Holds f.2 g.2 (s.spotsOf f.2 ++ inner) :=
          holds_iff.2 ⟨inner, hshape, hinner, rfl⟩
        obtain ⟨hkeysa', fpa', ha', hsub⟩ := ha.put hkeysa hv f.1
        rw [hkey] at hkeysa' ha'
        obtain ⟨hkeys', fp', hall, hsub'⟩ := ih hrest hkeys ha' hkeysa'
        rw [← hkey] at hkeys' hall
        refine ⟨?_, fp', ?_, hsub'.trans ?_⟩
        · rw [List.foldl_cons, List.foldl_cons, ← hkey]
          exact hkeys'
        · rw [List.foldl_cons, List.foldl_cons, ← hkey]
          exact hall
        · rw [← List.append_assoc, ← List.append_assoc, List.append_assoc fpa]
          exact (List.subperm_append_right rest).2 hsub

/-! ### Interception -/

mutual

/-- Building containers for plain data changes nothing that was there, and the value holds the data
in new spots. -/
theorem intercept_holds (s : Store) : (p : Plain) → Adds s (s.intercept p).1 ∧
    ∃ fp, (s.intercept p).1.Holds (s.intercept p).2 p.distinct fp ∧ New s (s.intercept p).1 fp
  | .null => ⟨.refl s, [], holds_leaf rfl trivial, .nil s s⟩
  | .boolean _ => ⟨.refl s, [], holds_leaf rfl rfl, .nil s s⟩
  | .number _ => ⟨.refl s, [], holds_leaf rfl rfl, .nil s s⟩
  | .text _ => ⟨.refl s, [], holds_leaf rfl rfl, .nil s s⟩
  | .array items => by
    obtain ⟨hadds, fp, hall, hnew⟩ := interceptItems_holds s items
    have hadds' := (adds_addCells _ _).trans
      (adds_addSequence (s.interceptItems items).1 (s.interceptItems items).2)
    obtain ⟨hholds, hnew'⟩ := holds_addSequence hall hnew.has
    simp only [intercept, Plain.distinct]
    exact ⟨hadds.trans hadds', _, hholds,
      (hnew.append hnew' hadds hadds').of_subperm List.perm_append_comm.subperm⟩
  | .object fields => by
    obtain ⟨hadds, hkeys, fp, hall, hnew⟩ := interceptFields_holds s fields
    have hempty : (s.interceptFields fields).1.HoldsAll (([] : Fields Value).map Prod.snd)
        (([] : Fields Plain).map Prod.snd) [] := .nil
    obtain ⟨hkeys', fp', hall', hsub⟩ := hall.foldl_put hkeys hempty rfl
    have hadds' := (adds_addCells _ _).trans
      (adds_addMapping (s.interceptFields fields).1 (s.interceptFields fields).2)
    have hnew₁ := hnew.of_subperm hsub
    obtain ⟨hholds, hnew'⟩ := holds_addMapping hkeys' hall' hnew₁.has
    simp only [intercept, Plain.distinct]
    exact ⟨hadds.trans hadds', _, hholds,
      (hnew₁.append hnew' hadds hadds').of_subperm List.perm_append_comm.subperm⟩

theorem interceptItems_holds (s : Store) : (ps : List Plain) → Adds s (s.interceptItems ps).1 ∧
    ∃ fp, (s.interceptItems ps).1.HoldsAll (s.interceptItems ps).2 (Plain.distinctItems ps) fp ∧
      New s (s.interceptItems ps).1 fp
  | [] => ⟨.refl s, [], .nil, .nil s s⟩
  | p :: ps => by
    obtain ⟨hadds, fp, hholds, hnew⟩ := intercept_holds s p
    obtain ⟨hadds', fp', hall, hnew'⟩ := interceptItems_holds (s.intercept p).1 ps
    simp only [interceptItems, Plain.distinctItems]
    have hholds' := hholds.of_sameAt fun x hx => hadds' x (hnew.has x hx)
    exact ⟨hadds.trans hadds', fp ++ fp', hholds'.append hall, hnew.append hnew' hadds hadds'⟩

theorem interceptFields_holds (s : Store) :
    (ps : List (String × Plain)) → Adds s (s.interceptFields ps).1 ∧
      Fields.keys (s.interceptFields ps).2 = Fields.keys (Plain.distinctFields ps) ∧
        ∃ fp, (s.interceptFields ps).1.HoldsAll ((s.interceptFields ps).2.map Prod.snd)
          ((Plain.distinctFields ps).map Prod.snd) fp ∧ New s (s.interceptFields ps).1 fp
  | [] => ⟨.refl s, rfl, [], .nil, .nil s s⟩
  | (key, p) :: ps => by
    obtain ⟨hadds, fp, hholds, hnew⟩ := intercept_holds s p
    obtain ⟨hadds', hkeys, fp', hall, hnew'⟩ := interceptFields_holds (s.intercept p).1 ps
    simp only [interceptFields, Plain.distinctFields]
    have hholds' := hholds.of_sameAt fun x hx => hadds' x (hnew.has x hx)
    exact ⟨hadds.trans hadds', by rw [Fields.keys_cons, Fields.keys_cons, hkeys], fp ++ fp',
      hholds'.append hall, hnew.append hnew' hadds hadds'⟩

end

/-- A new model holds its data. -/
theorem models_interceptRoot (s : Store) (fields : List (String × Plain)) :
    ∃ s' root, s.interceptRoot (.object fields) = .ok (s', root) ∧
      s'.Models root (Plain.object fields).distinct := by
  obtain ⟨-, fp, hholds, hnew⟩ := intercept_holds s (.object fields)
  simp only [intercept] at hholds hnew
  exact ⟨_, _, rfl, fp, hholds, hnew.nodup, hnew.has⟩

end Store

end LiveBinding
