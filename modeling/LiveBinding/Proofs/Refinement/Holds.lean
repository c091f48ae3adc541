import LiveBinding.Proofs.Refinement.Plain
import LiveBinding.Proofs.Store.Growth
import Mathlib.Data.List.Perm.Subperm

/-!
# Values that hold plain data

A store is a heap: a value that is a container leads to cells, and their values lead further. A
value holds plain data if following it gives the data, and the spots on the way are listed. If no
spot is listed twice, the containers below the value form a tree; then what one cell leads to can be
replaced without changing what the others lead to.

## Key definitions

- `Spot`, `Store.SameAt`: the parts of a store, and what it means that one of them did not change
- `Store.Holds`: a value holds plain data in a list of spots
- `Store.Models`: a mapping holds plain data in a tree

## Key results

- `Store.HoldsAll.of_sameAt`: only the listed spots matter
- `Store.HoldsAll.focus`: one value of several can be replaced
- `Store.Holds.toPlain_eq`: the snapshot of a value is the data that it holds
- `Store.Holds.lookup`: a path leads to what it leads to in the data
-/

namespace LiveBinding

/-- A part of a store. -/
inductive Spot where
  | cell (c : CellId)
  | mapping (m : MappingId)
  | sequence (q : SequenceId)
  deriving DecidableEq

/-- Whether a spot is a container. -/
def Spot.isContainer : Spot → Bool
  | .cell _ => false
  | _ => true

namespace Store

variable {s s' : Store}

/-! ### Spots -/

/-- The store has a spot. -/
def Has (s : Store) : Spot → Prop
  | .cell c => c < s.cells.size
  | .mapping m => m < s.mappings.size
  | .sequence q => q < s.sequences.size

/-- The value of a cell, or the arrangement of a container, is the same in both stores. -/
def SameAt (s s' : Store) : Spot → Prop
  | .cell c => s'.cells[c]?.map Cell.value = s.cells[c]?.map Cell.value
  | .mapping m => s'.mappings[m]? = s.mappings[m]?
  | .sequence q => s'.sequences[q]? = s.sequences[q]?

theorem SameAt.refl (s : Store) (x : Spot) : SameAt s s x := by cases x <;> rfl

theorem SameAt.trans {t : Store} {x : Spot} (h : SameAt s t x) (h' : SameAt t s' x) :
    SameAt s s' x := by
  cases x <;> exact Eq.trans h' h

theorem SameAt.value_eq {c : CellId} (h : SameAt s s' (.cell c)) : s'.value c = s.value c :=
  congrArg (fun v : Option Value => v.getD .null) h

theorem SameAt.entries_eq {m : MappingId} (h : SameAt s s' (.mapping m)) :
    s'.entries m = s.entries m :=
  congrArg (fun fs : Option (Fields CellId) => fs.getD []) h

theorem SameAt.items_eq {q : SequenceId} (h : SameAt s s' (.sequence q)) :
    s'.items q = s.items q :=
  congrArg (fun cs : Option (List CellId) => cs.getD []) h

theorem SameAt.has {x : Spot} (h : SameAt s s' x) (hx : s.Has x) : s'.Has x := by
  -- What can be looked up in one store can be looked up in the other.
  cases x with
  | cell c =>
    have hlt : c < s.cells.size := hx
    have hsome := congrArg Option.isSome h
    show c < s'.cells.size
    simpa [hlt] using hsome
  | mapping m =>
    have hlt : m < s.mappings.size := hx
    have hsome := congrArg Option.isSome h
    show m < s'.mappings.size
    simpa [hlt] using hsome
  | sequence q =>
    have hlt : q < s.sequences.size := hx
    have hsome := congrArg Option.isSome h
    show q < s'.sequences.size
    simpa [hlt] using hsome

/-- Who watches the cells does not matter. -/
theorem SameData.sameAt (h : SameData s s') (x : Spot) : SameAt s s' x := by
  cases x with
  | cell c =>
    show s'.cells[c]?.map Cell.value = s.cells[c]?.map Cell.value
    by_cases hc : c < s.cells.size
    · have hc' : c < s'.cells.size := h.size_eq ▸ hc
      have hv := h.value_eq c
      rw [value, value, Array.getElem?_eq_getElem hc, Array.getElem?_eq_getElem hc'] at hv
      rw [Array.getElem?_eq_getElem hc, Array.getElem?_eq_getElem hc']
      exact congrArg some hv
    · have hle := Nat.le_of_not_lt hc
      rw [Array.getElem?_eq_none hle, Array.getElem?_eq_none (h.size_eq ▸ hle)]
  | mapping m =>
    show s'.mappings[m]? = s.mappings[m]?
    by_cases hm : m < s.mappings.size
    · have hm' : m < s'.mappings.size := h.mappings_eq ▸ hm
      have he := h.entries_eq m
      rw [entries, entries, Array.getElem?_eq_getElem hm, Array.getElem?_eq_getElem hm'] at he
      rw [Array.getElem?_eq_getElem hm, Array.getElem?_eq_getElem hm']
      exact congrArg some he
    · have hle := Nat.le_of_not_lt hm
      rw [Array.getElem?_eq_none hle, Array.getElem?_eq_none (h.mappings_eq ▸ hle)]
  | sequence q =>
    show s'.sequences[q]? = s.sequences[q]?
    by_cases hq : q < s.sequences.size
    · have hq' : q < s'.sequences.size := h.sequences_eq ▸ hq
      have hi := h.items_eq q
      rw [items, items, Array.getElem?_eq_getElem hq, Array.getElem?_eq_getElem hq'] at hi
      rw [Array.getElem?_eq_getElem hq, Array.getElem?_eq_getElem hq']
      exact congrArg some hi
    · have hle := Nat.le_of_not_lt hq
      rw [Array.getElem?_eq_none hle, Array.getElem?_eq_none (h.sequences_eq ▸ hle)]

/-! ### What lies below a value -/

/-- The cells of a container. -/
def cellsOf (s : Store) : Value → List CellId
  | .mapping m => (s.entries m).map Prod.snd
  | .sequence q => s.items q
  | _ => []

/-- The values in the cells of a container. -/
def contents (s : Store) (v : Value) : List Value := (s.cellsOf v).map s.value

/-- A container and its cells. -/
def spotsOf (s : Store) (v : Value) : List Spot :=
  match v with
  | .mapping m => .mapping m :: (s.cellsOf v).map .cell
  | .sequence q => .sequence q :: (s.cellsOf v).map .cell
  | _ => []

/-- A value looks like plain data, apart from what lies below. A cell keeps its number if it is
given an equal one, so numbers only have to be written alike. -/
def Shapes (s : Store) : Value → Plain → Prop
  | .null, .null => True
  | .boolean a, .boolean b => a = b
  | .number x, .number n => Plain.ofNumber x = Plain.ofNumber n.toNumber
  | .text a, .text b => a = b
  | .mapping m, .object fs => s.keys m = Fields.keys fs
  | .sequence _, .array _ => True
  | _, _ => False

theorem cell_mem_spotsOf {c : CellId} {v : Value} (h : c ∈ s.cellsOf v) :
    .cell c ∈ s.spotsOf v := by
  cases v with
  | mapping m => exact List.mem_cons_of_mem _ (List.mem_map_of_mem h)
  | sequence q => exact List.mem_cons_of_mem _ (List.mem_map_of_mem h)
  | _ => cases h

theorem cellsOf_eq {v : Value} (h : ∀ x ∈ s.spotsOf v, x.isContainer = true → SameAt s s' x) :
    s'.cellsOf v = s.cellsOf v := by
  cases v with
  | mapping m => rw [cellsOf, cellsOf, (h _ (List.mem_cons_self ..) rfl).entries_eq]
  | sequence q => exact (h _ (List.mem_cons_self ..) rfl).items_eq
  | _ => rfl

theorem spotsOf_eq {v : Value} (h : ∀ x ∈ s.spotsOf v, x.isContainer = true → SameAt s s' x) :
    s'.spotsOf v = s.spotsOf v := by
  cases v <;> simp only [spotsOf, cellsOf_eq h]

theorem contents_eq {v : Value} (h : ∀ x ∈ s.spotsOf v, SameAt s s' x) :
    s'.contents v = s.contents v := by
  rw [contents, contents, cellsOf_eq fun x hx _ => h x hx]
  exact List.map_congr_left fun c hc => (h _ (cell_mem_spotsOf hc)).value_eq

theorem Shapes.of_sameAt {v : Value} {p : Plain} (h : s.Shapes v p)
    (hsame : ∀ x ∈ s.spotsOf v, x.isContainer = true → SameAt s s' x) : s'.Shapes v p := by
  cases v with
  | mapping m =>
    cases p with
    | object fs =>
      have hentries := (hsame _ (List.mem_cons_self ..) rfl).entries_eq
      rw [Shapes, keys, hentries]
      exact h
    | _ => cases h
  | _ => cases p <;> exact h

end Store

namespace Plain

/-- What lies directly inside plain data. -/
def children : Plain → List Plain
  | .object fields => fields.map Prod.snd
  | .array items => items
  | _ => []

end Plain

namespace Store

variable {s s' : Store}

/-! ### Holding plain data -/

/-- Values that hold plain data, and the spots below them. -/
inductive HoldsAll (s : Store) : List Value → List Plain → List Spot → Prop
  | nil : HoldsAll s [] [] []
  | cons {v : Value} {p : Plain} {vs : List Value} {ps : List Plain} {inner fp : List Spot}
      (hshape : s.Shapes v p) (hinner : HoldsAll s (s.contents v) p.children inner)
      (hrest : HoldsAll s vs ps fp) :
      HoldsAll s (v :: vs) (p :: ps) (s.spotsOf v ++ (inner ++ fp))

/-- A value holds plain data; `fp` lists the spots below it. -/
def Holds (s : Store) (v : Value) (p : Plain) (fp : List Spot) : Prop := HoldsAll s [v] [p] fp

theorem holds_iff {v : Value} {p : Plain} {fp : List Spot} :
    s.Holds v p fp ↔ ∃ inner, s.Shapes v p ∧ s.HoldsAll (s.contents v) p.children inner ∧
      fp = s.spotsOf v ++ inner := by
  constructor
  · intro h
    cases h with
    | cons hshape hinner hrest =>
      cases hrest
      exact ⟨_, hshape, hinner, by simp⟩
  · rintro ⟨inner, hshape, hinner, rfl⟩
    have hall := HoldsAll.cons hshape hinner .nil
    rwa [List.append_nil] at hall

/-- A leaf holds data that looks like it, and nothing lies below. -/
theorem holds_leaf {v : Value} {p : Plain} (hleaf : v.isLeaf = true) (h : s.Shapes v p) :
    s.Holds v p [] := by
  refine holds_iff.2 ⟨[], h, ?_, ?_⟩
  · -- The data is a leaf, too.
    cases v <;> cases p <;> first | exact .nil | exact h.elim | cases hleaf
  · cases v <;> first | rfl | cases hleaf

theorem HoldsAll.length_eq {vs : List Value} {ps : List Plain} {fp : List Spot}
    (h : s.HoldsAll vs ps fp) : vs.length = ps.length := by
  induction h with
  | nil => rfl
  | cons _ _ _ _ ih => rw [List.length_cons, List.length_cons, ih]

theorem HoldsAll.append {vs vs' : List Value} {ps ps' : List Plain} {fp fp' : List Spot}
    (h : s.HoldsAll vs ps fp) (h' : s.HoldsAll vs' ps' fp') :
    s.HoldsAll (vs ++ vs') (ps ++ ps') (fp ++ fp') := by
  -- Only the list at the top grows: what lies inside its values stays.
  induction h with
  | nil => exact h'
  | cons hshape hinner _ _ ih =>
    rw [List.append_assoc, List.append_assoc]
    exact .cons hshape hinner ih

/-- Only the listed spots matter. -/
theorem HoldsAll.of_sameAt {vs : List Value} {ps : List Plain} {fp : List Spot}
    (h : s.HoldsAll vs ps fp) (hsame : ∀ x ∈ fp, SameAt s s' x) : s'.HoldsAll vs ps fp := by
  -- The contents of a container are read through its spots, so they are the same as well.
  induction h with
  | nil => exact .nil
  | @cons v p vs ps inner fp hshape hinner hrest ih ih' =>
    simp only [List.mem_append] at hsame
    have hspots : ∀ x ∈ s.spotsOf v, SameAt s s' x := fun x hx => hsame x (.inl hx)
    have hinner' := ih fun x hx => hsame x (.inr (.inl hx))
    rw [← contents_eq hspots] at hinner'
    rw [← spotsOf_eq fun x hx _ => hspots x hx]
    exact .cons (hshape.of_sameAt fun x hx _ => hspots x hx) hinner'
      (ih' fun x hx => hsame x (.inr (.inr hx)))

/-- One value of several holds its data apart from the others: it can be replaced by a value that
holds other data, as long as the spots of the others stay the same. -/
theorem HoldsAll.focus {vs : List Value} {ps : List Plain} {fp : List Spot}
    (h : s.HoldsAll vs ps fp) {i : Nat} {v : Value} {p : Plain} (hv : vs[i]? = some v)
    (hp : ps[i]? = some p) :
    ∃ fpv rest, s.Holds v p fpv ∧ fp.Perm (fpv ++ rest) ∧
      ∀ s' v' p' fpv', (∀ x ∈ rest, SameAt s s' x) → s'.Holds v' p' fpv' →
        ∃ fp', s'.HoldsAll (vs.set i v') (ps.set i p') fp' ∧ fp'.Perm (fpv' ++ rest) := by
  -- By induction on the list; the values before the one in focus belong to the rest.
  induction h generalizing i with
  | nil => cases hv
  | @cons v₀ p₀ vs ps inner fp hshape hinner hrest ih ih' =>
    cases i with
    | zero =>
      obtain rfl : v₀ = v := Option.some.inj hv
      obtain rfl : p₀ = p := Option.some.inj hp
      refine ⟨s.spotsOf v₀ ++ inner, fp, holds_iff.2 ⟨inner, hshape, hinner, rfl⟩,
        by rw [List.append_assoc], ?_⟩
      intro s' v' p' fpv' hsame hv'
      obtain ⟨inner', hshape', hinner', rfl⟩ := holds_iff.1 hv'
      exact ⟨_, .cons hshape' hinner' (hrest.of_sameAt hsame), by rw [List.append_assoc]⟩
    | succ i =>
      obtain ⟨fpv, rest, hholds, hperm, hreplace⟩ := ih' hv hp
      refine ⟨fpv, (s.spotsOf v₀ ++ inner) ++ rest, hholds, ?_, ?_⟩
      · rw [← List.append_assoc]
        exact (hperm.append_left _).trans (List.perm_append_comm_assoc ..)
      · intro s' v' p' fpv' hsame hv'
        simp only [List.mem_append] at hsame
        have hspots : ∀ x ∈ s.spotsOf v₀, SameAt s s' x := fun x hx => hsame x (.inl (.inl hx))
        obtain ⟨fp', hall, hperm'⟩ :=
          hreplace s' v' p' fpv' (fun x hx => hsame x (.inr hx)) hv'
        have hinner' := hinner.of_sameAt fun x hx => hsame x (.inl (.inr hx))
        rw [← contents_eq hspots] at hinner'
        refine ⟨_, .cons (hshape.of_sameAt fun x hx _ => hspots x hx) hinner' hall, ?_⟩
        rw [spotsOf_eq fun x hx _ => hspots x hx, ← List.append_assoc]
        exact (hperm'.append_left _).trans (List.perm_append_comm_assoc ..)

/-! ### Snapshots -/

theorem ofNumber_eq_of_equal {x y : Number} (h : x.equal y = true) :
    Plain.ofNumber x = Plain.ofNumber y := by
  rcases Number.eq_or_zero_of_equal h with rfl | ⟨a, b, q, hx, hy, rfl, rfl⟩
  · rfl
  · -- The two zeros are written alike.
    cases a <;> cases b <;>
      simp [Plain.ofNumber, Number.smallInt?, Number.toInt?, Option.filter]

/-- What containers hold, in a list of spots that is long enough for each of them. -/
theorem HoldsAll.snapshot_eq {vs : List Value} {ps : List Plain} {fp : List Spot}
    (h : s.HoldsAll vs ps fp) {depth : Nat} (hdepth : fp.countP Spot.isContainer ≤ depth) :
    vs.map (s.snapshot depth) = ps.map Plain.rounded := by
  induction h generalizing depth with
  | nil => rfl
  | @cons v p vs ps inner fp hshape hinner hrest ih ih' =>
    rw [List.countP_append, List.countP_append] at hdepth
    rw [List.map_cons, List.map_cons, ih' (by omega)]
    congr 1
    cases v with
    | null => cases p <;> first | exact hshape.elim | simp [snapshot, Plain.rounded]
    | boolean b =>
      cases p <;> first | exact hshape.elim | simp [snapshot, Plain.rounded, show b = _ from hshape]
    | text t =>
      cases p <;> first | exact hshape.elim | simp [snapshot, Plain.rounded, show t = _ from hshape]
    | number x =>
      cases p with
      | number n =>
        have hx : Plain.ofNumber x = Plain.ofNumber n.toNumber := hshape
        simp only [snapshot, Plain.rounded, hx]
      | _ => exact hshape.elim
    | mapping m =>
      cases p with
      | object fs =>
        -- The mapping itself takes one of the levels.
        rw [spotsOf, List.countP_cons_of_pos rfl] at hdepth
        obtain ⟨depth, rfl⟩ : ∃ d, depth = d + 1 := ⟨depth - 1, by omega⟩
        have hvalues := @ih depth (by omega)
        simp only [snapshot, Plain.rounded]
        congr 1
        apply Fields.eq_of_keys_eq
        · have hkeys : (s.entries m).map Prod.fst = Fields.keys fs := hshape
          rw [Plain.keys_roundedFields, ← hkeys, Fields.keys, List.map_map]
          rfl
        · have hvalues' : _ = (fs.map Prod.snd).map Plain.rounded := hvalues
          rw [Plain.values_roundedFields, ← hvalues', contents, cellsOf]
          simp only [List.map_map]
          rfl
      | _ => exact hshape.elim
    | sequence q =>
      cases p with
      | array items =>
        rw [spotsOf, List.countP_cons_of_pos rfl] at hdepth
        obtain ⟨depth, rfl⟩ : ∃ d, depth = d + 1 := ⟨depth - 1, by omega⟩
        have hvalues := @ih depth (by omega)
        simp only [snapshot, Plain.rounded]
        congr 1
        have hvalues' : _ = items.map Plain.rounded := hvalues
        rw [Plain.roundedItems_eq_map, ← hvalues', contents, cellsOf, List.map_map]
        rfl
      | _ => exact hshape.elim

/-- A store has no more containers than it counts. -/
theorem countP_isContainer_le {fp : List Spot} (hnodup : fp.Nodup) (hhas : ∀ x ∈ fp, s.Has x) :
    fp.countP Spot.isContainer ≤ s.mappings.size + s.sequences.size := by
  have hsubset : fp.filter Spot.isContainer ⊆
      (List.range s.mappings.size).map .mapping ++ (List.range s.sequences.size).map .sequence := by
    intro x hx
    obtain ⟨hmem, hcontainer⟩ := List.mem_filter.1 hx
    have hin := hhas x hmem
    cases x with
    | cell c => cases hcontainer
    | mapping m => exact List.mem_append_left _ (List.mem_map_of_mem (List.mem_range.2 hin))
    | sequence q => exact List.mem_append_right _ (List.mem_map_of_mem (List.mem_range.2 hin))
  have hle := (List.subperm_of_subset (hnodup.filter _) hsubset).length_le
  rw [List.countP_eq_length_filter]
  simpa using hle

/-- The snapshot of a value is the data that it holds. -/
theorem Holds.toPlain_eq {v : Value} {p : Plain} {fp : List Spot} (h : s.Holds v p fp)
    (hnodup : fp.Nodup) (hhas : ∀ x ∈ fp, s.Has x) : s.toPlain v = p.rounded := by
  have hall := h.snapshot_eq (countP_isContainer_le hnodup hhas)
  exact (List.cons.inj hall).1

/-! ### Following paths -/

/-- The place of a segment in a container is its place in the data that the container holds. -/
theorem child_of_cellBehind? {v : Value} {p : Plain} (hshape : s.Shapes v p)
    (hlength : (s.cellsOf v).length = p.children.length) {segment : String} {c : CellId}
    (h : s.cellBehind? v segment = some c) :
    ∃ i q, (s.cellsOf v)[i]? = some c ∧ p.children[i]? = some q ∧ p.step? segment = some q ∧
      (∀ path x, p.put path segment x = .ok (p.replace segment x)) ∧
      ∀ x, (p.replace segment x).children = p.children.set i x ∧
        ∀ s' : Store, s'.Shapes v p → s'.Shapes v (p.replace segment x) := by
  cases v with
  | mapping m =>
    cases p with
    | object fs =>
      have hkeys : Fields.keys (s.entries m) = Fields.keys fs := hshape
      have hc : Fields.get? (s.entries m) segment = some c := h
      rw [Fields.get?_eq_getElem?] at hc
      -- The keys are the same, so the place of the key is the same.
      have hlt := (List.getElem?_eq_some_iff.1 hc).1
      have hmem : segment ∈ Fields.keys fs := by
        rw [← hkeys, ← List.idxOf_lt_length_iff]
        simpa [Fields.keys] using hlt
      rw [hkeys] at hc hlt
      obtain ⟨q, hq⟩ : ∃ q, (fs.map Prod.snd)[(Fields.keys fs).idxOf segment]? = some q :=
        ⟨_, List.getElem?_eq_getElem (Nat.lt_of_lt_of_eq hlt hlength)⟩
      refine ⟨_, q, hc, hq, ?_, fun _ _ => rfl, fun x => ⟨Fields.values_put_of_mem hmem x, ?_⟩⟩
      · rw [Plain.step?, Fields.get?_eq_getElem?, hq]
        rfl
      · intro s' hs'
        exact hs'.trans (Fields.keys_put_of_mem hmem x).symm
    | _ => exact hshape.elim
  | sequence n =>
    cases p with
    | array items =>
      obtain ⟨i, hi, hc⟩ := Option.bind_eq_some_iff.1 h
      have hlt : i < items.length :=
        Nat.lt_of_lt_of_eq (List.getElem?_eq_some_iff.1 hc).1 hlength
      refine ⟨i, items[i], hc, List.getElem?_eq_getElem hlt, ?_, ?_, fun x => ⟨?_, ?_⟩⟩
      · simp [Plain.step?, hi, hlt]
      · intro path x
        simp [Plain.put, Plain.replace, hi, hlt]
      · simp [Plain.replace, hi, Plain.children]
      · intro s' hs'
        simp only [Plain.replace, hi]
        exact hs'
    | _ => exact hshape.elim
  | _ => cases h

/-- Where no cell is behind a segment, a container and its data read the same leaf; a leaf has no
segments. -/
theorem step_of_cellBehind?_eq_none {v : Value} {p : Plain} (hshape : s.Shapes v p)
    (hlength : (s.cellsOf v).length = p.children.length) {segment : String}
    (h : s.cellBehind? v segment = none) :
    (s.step? v segment = none ∧ p.step? segment = none) ∨
      ∃ w q, s.step? v segment = some (none, w) ∧ p.step? segment = some q ∧ s.Holds w q [] := by
  have hnull : s.Holds .null .null [] := holds_leaf rfl trivial
  cases v with
  | mapping m =>
    cases p with
    | object fs =>
      have hkeys : Fields.keys (s.entries m) = Fields.keys fs := hshape
      have hnone : s.cellOf? m segment = none := h
      have hnone' : Fields.get? fs segment = none := by
        rw [cellOf?, Fields.get?_eq_getElem?, hkeys, List.getElem?_eq_none_iff] at hnone
        rw [Fields.get?_eq_getElem?, List.getElem?_eq_none_iff]
        exact Nat.le_trans (Nat.le_of_eq hlength.symm) hnone
      refine .inr ⟨.null, .null, ?_, ?_, hnull⟩
      · rw [step?, hnone]
      · rw [Plain.step?, hnone']
        rfl
    | _ => exact hshape.elim
  | sequence n =>
    cases p with
    | array items =>
      right
      cases hi : index? segment with
      | some i =>
        have hnone : (s.items n)[i]? = none := by simpa [cellBehind?, hi, cellAt?] using h
        have hle := List.getElem?_eq_none_iff.1 hnone
        have hle' : items.length ≤ i := Nat.le_trans (Nat.le_of_eq hlength.symm) hle
        exact ⟨.null, .null, by simp [step?, hi, cellAt?, hnone], by simp [Plain.step?, hi, hle'],
          hnull⟩
      | none =>
        by_cases hl : segment = "length"
        · subst hl
          refine ⟨.number (.ofInt (s.items n).length), .number (.integer items.length), ?_, ?_, ?_⟩
          · simp [step?, hi]
          · simp [Plain.step?, hi]
          · have hcount : (s.items n).length = items.length := hlength
            rw [hcount]
            exact holds_leaf rfl rfl
        · exact ⟨.null, .null, by simp [step?, hi, hl], by simp [Plain.step?, hi, hl], hnull⟩
    | _ => exact hshape.elim
  | null => cases p <;> first | exact hshape.elim | exact .inl ⟨rfl, rfl⟩
  | boolean b => cases p <;> first | exact hshape.elim | exact .inl ⟨rfl, rfl⟩
  | number x => cases p <;> first | exact hshape.elim | exact .inl ⟨rfl, rfl⟩
  | text t => cases p <;> first | exact hshape.elim | exact .inl ⟨rfl, rfl⟩

theorem Shapes.kind_eq {v : Value} {p : Plain} (h : s.Shapes v p) : v.kind = p.kind := by
  cases v <;> cases p <;> first | rfl | exact h.elim

theorem Holds.lengths {v : Value} {p : Plain} {fp : List Spot} (h : s.Holds v p fp) :
    s.Shapes v p ∧ (s.cellsOf v).length = p.children.length := by
  obtain ⟨inner, hshape, hinner, -⟩ := holds_iff.1 h
  refine ⟨hshape, ?_⟩
  rw [← hinner.length_eq, contents, List.length_map]

/-- A path leads to what it leads to in the data, or to the same fault. -/
theorem Holds.lookup {v : Value} {p : Plain} {fp : List Spot} (h : s.Holds v p fp)
    (path : KeyPath) (segments : List String) :
    (∃ f, (s.walk path v segments).2 = .error f ∧ p.lookup path segments = .error f) ∨
      ∃ w q fpw, (s.walk path v segments).2 = .ok w ∧ p.lookup path segments = .ok q ∧
        s.Holds w q fpw ∧ fpw.Subperm fp := by
  induction segments generalizing v p fp with
  | nil => exact .inr ⟨v, p, fp, rfl, rfl, h, .refl _⟩
  | cons segment segments ih =>
    obtain ⟨hshape, hlength⟩ := h.lengths
    rw [walk, Plain.lookup]
    cases hcell : s.cellBehind? v segment with
    | none =>
      rcases step_of_cellBehind?_eq_none hshape hlength hcell with
        ⟨hstep, hstep'⟩ | ⟨w, q, hstep, hstep', hleaf⟩
      · rw [hstep, hstep']
        refine .inl ⟨_, rfl, ?_⟩
        rw [Plain.notContainer, notContainer, hshape.kind_eq]
      · rw [hstep, hstep']
        rcases ih hleaf with hfault | ⟨w', q', fpw, hw, hq, hholds, hsub⟩
        · exact .inl hfault
        · exact .inr ⟨w', q', fpw, hw, hq, hholds, hsub.trans (List.nil_subperm)⟩
    | some c =>
      obtain ⟨i, q, hc, hq, hstep', -, -⟩ := child_of_cellBehind? hshape hlength hcell
      rw [step?_eq_some_iff.2 ⟨hcell, rfl⟩, hstep']
      obtain ⟨inner, -, hinner, rfl⟩ := holds_iff.1 h
      have hv : (s.contents v)[i]? = some (s.value c) := by
        rw [contents, List.getElem?_map, hc, Option.map_some]
      obtain ⟨fpw, rest, hholds, hperm, -⟩ := hinner.focus hv hq
      have hsub : fpw.Subperm (s.spotsOf v ++ inner) :=
        ((List.sublist_append_left ..).subperm.trans hperm.symm.subperm).trans
          (List.sublist_append_right ..).subperm
      rcases ih hholds with hfault | ⟨w', q', fpw', hw, hq', hholds', hsub'⟩
      · exact .inl hfault
      · exact .inr ⟨w', q', fpw', hw, hq', hholds', hsub'.trans hsub⟩

/-! ### Models -/

/-- What lies below one value lies below the whole once. -/
theorem nodup_of_subperm {fp fp' : List Spot} (h : fp.Nodup) (hsub : fp'.Subperm fp) :
    fp'.Nodup := by
  obtain ⟨l, hperm, hsublist⟩ := hsub
  exact hperm.nodup (h.sublist hsublist)

/-- A mapping holds plain data in a tree that the store has. -/
def Models (s : Store) (root : MappingId) (d : Plain) : Prop :=
  ∃ fp, s.Holds (.mapping root) d fp ∧ fp.Nodup ∧ ∀ x ∈ fp, s.Has x

/-- The snapshot of a model is its data. -/
theorem Models.toPlain_eq {root : MappingId} {d : Plain} (h : s.Models root d) :
    s.toPlain (.mapping root) = d.rounded := by
  obtain ⟨fp, hholds, hnodup, hhas⟩ := h
  exact hholds.toPlain_eq hnodup hhas

/-- What a path leads to in a model looks like what it leads to in the data. -/
theorem Models.get_eq {root : MappingId} {d : Plain} (h : s.Models root d) (path : KeyPath) :
    (s.get path root).map s.toPlain = (d.get path).map Plain.rounded := by
  obtain ⟨fp, hholds, hnodup, hhas⟩ := h
  rw [get, Plain.get]
  rcases hholds.lookup path path.segments with ⟨f, hf, hf'⟩ | ⟨w, q, fpw, hw, hq, hw', hsub⟩
  · rw [hf, hf']
    rfl
  · rw [hw, hq]
    have hhas' : ∀ x ∈ fpw, s.Has x := fun x hx => hhas x (hsub.subset hx)
    exact congrArg Except.ok (hw'.toPlain_eq (nodup_of_subperm hnodup hsub) hhas')

end Store

end LiveBinding
