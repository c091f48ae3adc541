import LiveBinding.Store.Lemmas

/-!
# How stores grow, and what resolving a path depends on

Two relations between stores. `SameData` says that stores differ at most in who watches their
cells; `Extends` says that the second store has new cells, which nobody watches, and that its
containers have at most new keys and items, which lie in new cells.

`Leads` says that segments lead from a value to another one with a cell of their own for each
segment. It is the resolution of a path without missing keys, missing items and `length`.

## Key results

- `SameData.walk_eq`: watchers play no part in the resolution of a path
- `extends_define`, `extends_append`, `extends_intercept`: the operations that extend a store
- `leads_iff`: a path leads if it resolves with a cell for every segment
- `Leads.of_extends`: a path that leads through old cells was there before
- `Leads.of_assign`: a path that leads past a cell does not depend on its value
- `Leads.eq_value`: a path leads no further than to a leaf
-/

namespace LiveBinding.Store

/-! ### The cell behind a segment -/

/-- The cell behind one segment, if there is one. -/
def cellBehind? (s : Store) (v : Value) (segment : String) : Option CellId :=
  match v with
  | .mapping m => s.cellOf? m segment
  | .sequence q => (index? segment).bind fun i => s.cellAt? q i
  | _ => none

/-- A step reads a cell exactly if there is one behind the segment, and gives its value. -/
theorem step?_eq_some_iff {s : Store} {v u : Value} {segment : String} {c : CellId} :
    s.step? v segment = some (some c, u) ↔ s.cellBehind? v segment = some c ∧ u = s.value c := by
  cases v with
  | mapping m =>
    simp only [step?, cellBehind?]
    cases s.cellOf? m segment with
    | none => simp
    | some d =>
      simp only [Option.some.injEq, Prod.mk.injEq]
      constructor <;> (rintro ⟨rfl, rfl⟩; exact ⟨rfl, rfl⟩)
  | sequence q =>
    simp only [step?, cellBehind?]
    cases index? segment with
    | none => by_cases hl : segment = "length" <;> simp [hl]
    | some i =>
      simp only [Option.bind_some]
      cases s.cellAt? q i with
      | none => simp
      | some d =>
        simp only [Option.some.injEq, Prod.mk.injEq]
        constructor <;> (rintro ⟨rfl, rfl⟩; exact ⟨rfl, rfl⟩)
  | _ => simp [step?, cellBehind?]

/-- How a path is written matters to faults only. -/
theorem walk_congr {s : Store} {path path' : KeyPath} {v w : Value} {segments : List String}
    {cells : List CellId} (h : s.walk path v segments = (cells, .ok w)) :
    s.walk path' v segments = (cells, .ok w) := by
  -- The path as written is only used by faults.
  induction segments generalizing v cells with
  | nil => exact h
  | cons segment segments ih =>
    rw [walk] at h ⊢
    cases hstep : s.step? v segment with
    | none =>
      rw [hstep] at h
      cases h
    | some found =>
      rw [hstep] at h
      obtain ⟨hcells, hw⟩ := Prod.mk.inj h
      dsimp only
      rw [ih (Prod.ext rfl hw), ← hcells]

/-- Paths with the same segments have the same value. -/
theorem get_congr {s : Store} {path path' : KeyPath} {root : MappingId} {v : Value}
    (hsegments : path'.segments = path.segments) (h : s.get path root = .ok v) :
    s.get path' root = .ok v := by
  have hwalk : s.walk path' (.mapping root) path.segments = (s.reads path root, .ok v) :=
    walk_congr (Prod.ext rfl h)
  rw [get, hsegments, hwalk]

/-! ### Places of new keys -/

/-- If a place is for a new key, the mapping does not have the key. -/
def Vacant (s : Store) : Place → Prop
  | .newKey m key => s.cellOf? m key = none
  | _ => True

/-- An assignment defines a key only where it found none. -/
theorem vacant_of_place {s : Store} {path : KeyPath} {v : Value} {segment : String} {place : Place}
    (h : s.place path v segment = .ok place) : s.Vacant place := by
  cases v with
  | mapping m =>
    rw [Store.place] at h
    split at h
    · cases h
      trivial
    · rename_i hnone
      cases h
      exact hnone
  | sequence q =>
    rw [Store.place] at h
    -- A sequence has items, and no keys.
    split at h
    · cases h
    · split at h
      · cases h
        trivial
      · split at h <;> cases h
        trivial
  | _ => cases h

/-! ### Watchers -/

/-- A cell gets one more watcher, unless it is another cell or does not exist. -/
theorem watchers_watch_cases (s : Store) (c d : CellId) (e : EffectId) :
    (s.watch c e).watchers d = s.watchers d ∨
      (s.watch c e).watchers d = s.watchers d ++ [e] := by
  by_cases hd : d = c
  · subst hd
    by_cases hlt : d < s.cells.size
    · exact .inr (watchers_watch_self hlt e)
    · have hnone : (s.watch d e).cells[d]? = none := by
        rw [cells_watch, if_pos rfl, Array.getElem?_eq_none (Nat.le_of_not_lt hlt)]
        rfl
      left
      rw [watchers, watchers, hnone, Array.getElem?_eq_none (Nat.le_of_not_lt hlt)]
  · exact .inl (watchers_watch_of_ne s hd e)

theorem mem_watchers_watch {s : Store} {c d : CellId} {e e' : EffectId}
    (h : e ∈ (s.watch c e').watchers d) : e ∈ s.watchers d ∨ e = e' := by
  rcases s.watchers_watch_cases c d e' with hsame | happend
  · exact .inl (hsame ▸ h)
  · rw [happend, List.mem_append, List.mem_singleton] at h
    exact h

theorem mem_watchers_of_prune {s : Store} {c d : CellId} {p : EffectId → Bool} {e : EffectId}
    (h : e ∈ (s.prune c p).watchers d) : e ∈ s.watchers d := by
  rw [watchers_prune] at h
  split at h
  · exact (List.mem_filter.1 h).1
  · exact h

/-! ### Stores that hold the same data -/

/-- The stores differ at most in the watchers of their cells. -/
structure SameData (s s' : Store) : Prop where
  size_eq : s'.cells.size = s.cells.size
  value_eq : ∀ c, s'.value c = s.value c
  entries_eq : ∀ m, s'.entries m = s.entries m
  items_eq : ∀ q, s'.items q = s.items q
  mappings_eq : s'.mappings.size = s.mappings.size
  sequences_eq : s'.sequences.size = s.sequences.size

theorem SameData.refl (s : Store) : SameData s s :=
  ⟨rfl, fun _ => rfl, fun _ => rfl, fun _ => rfl, rfl, rfl⟩

theorem SameData.trans {s t u : Store} (h : SameData s t) (h' : SameData t u) : SameData s u where
  size_eq := h'.size_eq.trans h.size_eq
  value_eq c := (h'.value_eq c).trans (h.value_eq c)
  entries_eq m := (h'.entries_eq m).trans (h.entries_eq m)
  items_eq q := (h'.items_eq q).trans (h.items_eq q)
  mappings_eq := h'.mappings_eq.trans h.mappings_eq
  sequences_eq := h'.sequences_eq.trans h.sequences_eq

theorem sameData_watch (s : Store) (c : CellId) (e : EffectId) : SameData s (s.watch c e) :=
  ⟨by simp [watch], fun d => value_watch s c d e, fun _ => rfl, fun _ => rfl, rfl, rfl⟩

theorem sameData_prune (s : Store) (c : CellId) (p : EffectId → Bool) : SameData s (s.prune c p) :=
  ⟨by simp [prune], fun d => value_prune s c d p, fun _ => rfl, fun _ => rfl, rfl, rfl⟩

theorem SameData.cellOf?_eq {s s' : Store} (h : SameData s s') (m : MappingId) (key : String) :
    s'.cellOf? m key = s.cellOf? m key := by
  rw [cellOf?, cellOf?, h.entries_eq]

theorem SameData.cellAt?_eq {s s' : Store} (h : SameData s s') (q : SequenceId) (i : Nat) :
    s'.cellAt? q i = s.cellAt? q i := by
  rw [cellAt?, cellAt?, h.items_eq]

theorem SameData.step?_eq {s s' : Store} (h : SameData s s') (v : Value) (segment : String) :
    s'.step? v segment = s.step? v segment := by
  cases v <;> simp only [step?, h.cellOf?_eq, h.cellAt?_eq, h.value_eq, h.items_eq]

theorem SameData.cellBehind?_eq {s s' : Store} (h : SameData s s') (v : Value)
    (segment : String) : s'.cellBehind? v segment = s.cellBehind? v segment := by
  cases v <;> simp only [cellBehind?, h.cellOf?_eq, h.cellAt?_eq]

theorem SameData.walk_eq {s s' : Store} (h : SameData s s') (path : KeyPath) (v : Value)
    (segments : List String) : s'.walk path v segments = s.walk path v segments := by
  induction segments generalizing v with
  | nil => rfl
  | cons segment segments ih => simp only [walk, h.step?_eq, ih]

theorem SameData.get_eq {s s' : Store} (h : SameData s s') (path : KeyPath) (root : MappingId) :
    s'.get path root = s.get path root := by
  rw [get, get, h.walk_eq]

theorem SameData.place_eq {s s' : Store} (h : SameData s s') (path : KeyPath) (v : Value)
    (segment : String) : s'.place path v segment = s.place path v segment := by
  simp only [place, h.cellOf?_eq, h.cellAt?_eq, h.items_eq]

theorem SameData.reads_eq {s s' : Store} (h : SameData s s') (path : KeyPath) (root : MappingId) :
    s'.reads path root = s.reads path root := by
  rw [reads, reads, h.walk_eq]

theorem SameData.snapshot_eq {s s' : Store} (h : SameData s s') (depth : Nat) (v : Value) :
    s'.snapshot depth v = s.snapshot depth v := by
  induction depth generalizing v with
  | zero => cases v <;> rfl
  | succ depth ih => cases v <;> simp only [snapshot, h.entries_eq, h.items_eq, h.value_eq, ih]

theorem SameData.display_eq {s s' : Store} (h : SameData s s') (v : Value) :
    s'.display v = s.display v := by
  cases v <;> simp only [display, toPlain, h.mappings_eq, h.sequences_eq, h.snapshot_eq]

theorem sameData_foldl_watch (s : Store) (cells : List CellId) (e : EffectId) :
    SameData s (cells.foldl (fun s c => s.watch c e) s) := by
  induction cells generalizing s with
  | nil => exact .refl s
  | cons c cells ih => exact (sameData_watch s c e).trans (ih _)

/-- Registering with cells one after the other: once for each occurrence of a cell. -/
theorem watchers_foldl_watch {s : Store} {c : CellId} (hc : c < s.cells.size)
    (cells : List CellId) (e : EffectId) :
    (cells.foldl (fun s c => s.watch c e) s).watchers c =
      s.watchers c ++ List.replicate (cells.count c) e := by
  induction cells generalizing s with
  | nil => simp
  | cons d cells ih =>
    have hsize : c < (s.watch d e).cells.size := by rwa [(sameData_watch s d e).size_eq]
    rw [List.foldl_cons, ih hsize, List.count_cons]
    by_cases hd : d = c
    · rw [hd, watchers_watch_self hc, if_pos (by simp), Nat.add_comm,
        ← List.replicate_append_replicate, List.append_assoc]
      rfl
    · rw [watchers_watch_of_ne s (Ne.symm hd), if_neg (by simpa using hd), Nat.add_zero]

/-! ### Stores that have grown -/

/-- The second store has new cells, which nobody watches, and its containers have at most new
keys and items, which lie in new cells. -/
structure Extends (s s' : Store) : Prop where
  size_le : s.cells.size ≤ s'.cells.size
  cells_eq : ∀ c, c < s.cells.size → s'.cells[c]? = s.cells[c]?
  unwatched : ∀ c, s.cells.size ≤ c → s'.watchers c = []
  entries_eq : ∀ m, ∃ added, s'.entries m = s.entries m ++ added ∧
    ∀ f ∈ added, s.cells.size ≤ f.2 ∧ f.2 < s'.cells.size
  items_eq : ∀ q, ∃ added, s'.items q = s.items q ++ added ∧
    ∀ c ∈ added, s.cells.size ≤ c ∧ c < s'.cells.size

theorem watchers_eq_nil_of_le {s : Store} {c : CellId} (h : s.cells.size ≤ c) :
    s.watchers c = [] := by
  simp [watchers, Array.getElem?_eq_none h]

theorem lt_size_of_mem_watchers {s : Store} {c : CellId} {e : EffectId} (h : e ∈ s.watchers c) :
    c < s.cells.size := by
  apply Nat.lt_of_not_le
  intro hc
  rw [watchers_eq_nil_of_le hc] at h
  cases h

theorem Extends.refl (s : Store) : Extends s s where
  size_le := Nat.le_refl _
  cells_eq _ _ := rfl
  unwatched _ h := watchers_eq_nil_of_le h
  entries_eq m := ⟨[], by simp⟩
  items_eq q := ⟨[], by simp⟩

theorem Extends.value_eq {s s' : Store} (h : Extends s s') {c : CellId} (hc : c < s.cells.size) :
    s'.value c = s.value c := by
  rw [value, value, h.cells_eq c hc]

theorem Extends.watchers_eq {s s' : Store} (h : Extends s s') (c : CellId) :
    s'.watchers c = s.watchers c := by
  by_cases hc : c < s.cells.size
  · rw [watchers, watchers, h.cells_eq c hc]
  · rw [h.unwatched c (Nat.le_of_not_lt hc), watchers_eq_nil_of_le (Nat.le_of_not_lt hc)]

theorem Extends.trans {s t u : Store} (h : Extends s t) (h' : Extends t u) : Extends s u where
  size_le := Nat.le_trans h.size_le h'.size_le
  cells_eq c hc := by rw [h'.cells_eq c (Nat.lt_of_lt_of_le hc h.size_le), h.cells_eq c hc]
  unwatched c hc := by rw [h'.watchers_eq, h.unwatched c hc]
  entries_eq m := by
    obtain ⟨first, hfirst, hnew⟩ := h.entries_eq m
    obtain ⟨second, hsecond, hnew'⟩ := h'.entries_eq m
    refine ⟨first ++ second, by rw [hsecond, hfirst, List.append_assoc], ?_⟩
    intro f hf
    rcases List.mem_append.1 hf with hf | hf
    · exact ⟨(hnew f hf).1, Nat.lt_of_lt_of_le (hnew f hf).2 h'.size_le⟩
    · exact ⟨Nat.le_trans h.size_le (hnew' f hf).1, (hnew' f hf).2⟩
  items_eq q := by
    obtain ⟨first, hfirst, hnew⟩ := h.items_eq q
    obtain ⟨second, hsecond, hnew'⟩ := h'.items_eq q
    refine ⟨first ++ second, by rw [hsecond, hfirst, List.append_assoc], ?_⟩
    intro c hc
    rcases List.mem_append.1 hc with hc | hc
    · exact ⟨(hnew c hc).1, Nat.lt_of_lt_of_le (hnew c hc).2 h'.size_le⟩
    · exact ⟨Nat.le_trans h.size_le (hnew' c hc).1, (hnew' c hc).2⟩

/-! ### The operations that extend a store -/

@[simp] theorem size_addCells (s : Store) (vs : List Value) :
    (s.addCells vs).1.cells.size = s.cells.size + vs.length := by
  simp [addCells]

theorem mem_snd_addCells {s : Store} {vs : List Value} {c : CellId}
    (h : c ∈ (s.addCells vs).2) : s.cells.size ≤ c ∧ c < s.cells.size + vs.length := by
  simpa [addCells, List.mem_range'_1] using h

theorem extends_addCells (s : Store) (vs : List Value) : Extends s (s.addCells vs).1 where
  size_le := by simp
  cells_eq c hc := by rw [cells_addCells, if_pos hc]
  unwatched c hc := by rw [watchers_addCells, watchers_eq_nil_of_le hc]
  entries_eq m := ⟨[], by simp [addCells, entries]⟩
  items_eq q := ⟨[], by simp [addCells, items]⟩

@[simp] theorem size_cells_define (s : Store) (m : MappingId) (key : String) (v : Value) :
    (s.define m key v).cells.size = s.cells.size + 1 := size_addCells s [v]

theorem extends_define {s : Store} {m : MappingId} {key : String} (h : s.cellOf? m key = none)
    (v : Value) : Extends s (s.define m key v) where
  size_le := (extends_addCells s [v]).size_le
  cells_eq := (extends_addCells s [v]).cells_eq
  unwatched := (extends_addCells s [v]).unwatched
  entries_eq n := by
    rw [entries_define_of_eq_none h]
    split
    · exact ⟨_, rfl, by simp⟩
    · exact ⟨[], by simp⟩
  items_eq q := ⟨[], by simp⟩

theorem extends_append (s : Store) (q : SequenceId) (v : Value) : Extends s (s.append q v) where
  size_le := (extends_addCells s [v]).size_le
  cells_eq := (extends_addCells s [v]).cells_eq
  unwatched := (extends_addCells s [v]).unwatched
  entries_eq m := ⟨[], by simp⟩
  items_eq r := by
    have hsize : (s.append q v).cells.size = s.cells.size + 1 := size_addCells s [v]
    rw [items_append]
    split
    · exact ⟨_, rfl, by simp [hsize]⟩
    · exact ⟨[], by simp⟩

theorem extends_addMapping (s : Store) (fields : Fields Value) :
    Extends s (s.addMapping fields).1 := by
  let distinct := fields.foldl (fun fs f => Fields.put fs f.1 f.2) []
  have hext := extends_addCells s (distinct.map Prod.snd)
  refine ⟨hext.size_le, hext.cells_eq, hext.unwatched, fun m => ?_, hext.items_eq⟩
  by_cases hm : m = s.mappings.size
  · refine ⟨distinct.keys.zip (s.addCells (distinct.map Prod.snd)).2, ?_, ?_⟩
    · simp [addMapping, entries, hm, distinct]
    · intro f hf
      have := mem_snd_addCells (List.of_mem_zip hf).2
      refine ⟨this.1, ?_⟩
      simpa [addMapping] using this.2
  · refine ⟨[], ?_, by simp⟩
    simp [addMapping, entries, Array.getElem?_push, hm, addCells]

theorem extends_addSequence (s : Store) (vs : List Value) :
    Extends s (s.addSequence vs).1 := by
  have hext := extends_addCells s vs
  refine ⟨hext.size_le, hext.cells_eq, hext.unwatched, hext.entries_eq, fun q => ?_⟩
  by_cases hq : q = s.sequences.size
  · refine ⟨(s.addCells vs).2, ?_, ?_⟩
    · simp [addSequence, items, hq]
    · intro c hc
      have := mem_snd_addCells hc
      refine ⟨this.1, ?_⟩
      simpa [addSequence] using this.2
  · refine ⟨[], ?_, by simp⟩
    simp [addSequence, items, Array.getElem?_push, hq, addCells]

mutual

/-- Building containers for plain data extends a store. -/
theorem extends_intercept (s : Store) : (p : Plain) → Extends s (s.intercept p).1
  | .null | .boolean _ | .number _ | .text _ => by
    simp only [intercept]
    exact Extends.refl s
  | .array items => by
    simp only [intercept]
    exact (extends_interceptItems s items).trans (extends_addSequence _ _)
  | .object fields => by
    simp only [intercept]
    exact (extends_interceptFields s fields).trans (extends_addMapping _ _)

theorem extends_interceptItems (s : Store) : (ps : List Plain) → Extends s (s.interceptItems ps).1
  | [] => by
    simp only [interceptItems]
    exact Extends.refl s
  | p :: ps => by
    simp only [interceptItems]
    exact (extends_intercept s p).trans (extends_interceptItems _ ps)

theorem extends_interceptFields (s : Store) :
    (ps : List (String × Plain)) → Extends s (s.interceptFields ps).1
  | [] => by
    simp only [interceptFields]
    exact Extends.refl s
  | (_, p) :: ps => by
    simp only [interceptFields]
    exact (extends_intercept s p).trans (extends_interceptFields _ ps)

end

/-! ### Paths with a cell for every segment -/

/-- Segments that lead from a value to another one through cells, one for each segment. -/
inductive Leads (s : Store) : Value → List String → List CellId → Value → Prop
  | nil (v : Value) : Leads s v [] [] v
  | cons {v w : Value} {segment : String} {segments : List String} {c : CellId}
      {cells : List CellId} (hcell : s.cellBehind? v segment = some c)
      (hrest : Leads s (s.value c) segments cells w) :
      Leads s v (segment :: segments) (c :: cells) w

/-- Leading segments resolve, and read just the cells on the way. -/
theorem Leads.walk_eq {s : Store} {v w : Value} {segments : List String} {cells : List CellId}
    (h : Leads s v segments cells w) (path : KeyPath) :
    s.walk path v segments = (cells, .ok w) := by
  induction h with
  | nil => rfl
  | cons hcell _ ih => simp [walk, step?_eq_some_iff.2 ⟨hcell, rfl⟩, ih]

theorem Leads.get_eq {s : Store} {path : KeyPath} {root : MappingId} {cells : List CellId}
    {v : Value} (h : Leads s (.mapping root) path.segments cells v) :
    s.get path root = .ok v := by
  rw [get, h.walk_eq]

theorem length_walk_le (s : Store) (path : KeyPath) (v : Value) (segments : List String) :
    (s.walk path v segments).1.length ≤ segments.length := by
  induction segments generalizing v with
  | nil => exact Nat.le_refl 0
  | cons segment segments ih =>
    rw [walk]
    cases s.step? v segment with
    | none => exact Nat.zero_le _
    | some found =>
      have hrest := ih found.2
      cases hc : found.1 <;> simp [hc] <;> omega

/-- A path leads through cells if it resolves and reads one cell for each segment. -/
theorem leads_iff {s : Store} (path : KeyPath) {v w : Value} {segments : List String}
    {cells : List CellId} :
    Leads s v segments cells w ↔
      s.walk path v segments = (cells, .ok w) ∧ cells.length = segments.length := by
  constructor
  · intro h
    refine ⟨h.walk_eq path, ?_⟩
    induction h with
    | nil => rfl
    | cons _ _ ih => rw [List.length_cons, List.length_cons, ih]
  · rintro ⟨hwalk, hlength⟩
    induction segments generalizing v cells with
    | nil =>
      obtain ⟨rfl, hw⟩ := Prod.mk.inj hwalk
      cases hw
      exact .nil w
    | cons segment segments ih =>
      rw [walk] at hwalk
      cases hstep : s.step? v segment with
      | none =>
        rw [hstep] at hwalk
        cases (Prod.mk.inj hwalk).2
      | some found =>
        obtain ⟨c, u⟩ := found
        rw [hstep] at hwalk
        obtain ⟨hcells, hw⟩ := Prod.mk.inj hwalk
        cases c with
        | none =>
          -- One segment without a cell leaves too few cells.
          have hle := s.length_walk_le path u segments
          rw [Option.toList_none, List.nil_append] at hcells
          rw [hcells, hlength, List.length_cons] at hle
          exact absurd hle (Nat.not_succ_le_self _)
        | some c =>
          obtain ⟨hcell, rfl⟩ := step?_eq_some_iff.1 hstep
          rw [Option.toList_some, List.singleton_append] at hcells
          subst hcells
          exact .cons hcell (ih (Prod.ext rfl hw) (Nat.succ.inj hlength))

theorem Leads.of_sameData {s s' : Store} (hd : SameData s s') {v w : Value}
    {segments : List String} {cells : List CellId} (h : Leads s' v segments cells w) :
    Leads s v segments cells w := by
  induction h with
  | nil v => exact .nil v
  | cons hcell _ ih =>
    rw [hd.cellBehind?_eq] at hcell
    rw [hd.value_eq] at ih
    exact .cons hcell ih

/-- A key that is found in an old cell was defined before. -/
theorem Extends.cellOf?_of_lt {s s' : Store} (h : Extends s s') {m : MappingId} {key : String}
    {c : CellId} (hc : c < s.cells.size) (hkey : s'.cellOf? m key = some c) :
    s.cellOf? m key = some c := by
  obtain ⟨added, hentries, hnew⟩ := h.entries_eq m
  rw [cellOf?, Fields.get?, hentries, List.find?_append] at hkey
  rw [cellOf?, Fields.get?]
  cases hfound : (s.entries m).find? (·.1 == key) with
  | some f => simpa [hfound] using hkey
  | none =>
    rw [hfound, Option.none_or] at hkey
    obtain ⟨f, hf, hfc⟩ := Option.map_eq_some_iff.1 hkey
    have hle := (hnew f (List.mem_of_find?_eq_some hf)).1
    rw [hfc] at hle
    exact absurd hc (Nat.not_lt.2 hle)

/-- An item that is found in an old cell was there before. -/
theorem Extends.cellAt?_of_lt {s s' : Store} (h : Extends s s') {q : SequenceId} {i : Nat}
    {c : CellId} (hc : c < s.cells.size) (hitem : s'.cellAt? q i = some c) :
    s.cellAt? q i = some c := by
  obtain ⟨added, hitems, hnew⟩ := h.items_eq q
  rw [cellAt?, hitems, List.getElem?_append] at hitem
  split at hitem
  · exact hitem
  · have hle := (hnew c (List.mem_of_getElem? hitem)).1
    exact absurd hc (Nat.not_lt.2 hle)

/-- An old cell behind a segment was there before. -/
theorem Extends.cellBehind?_of_lt {s s' : Store} (h : Extends s s') {v : Value} {segment : String}
    {c : CellId} (hc : c < s.cells.size) (hcell : s'.cellBehind? v segment = some c) :
    s.cellBehind? v segment = some c := by
  cases v with
  | mapping m => exact h.cellOf?_of_lt hc hcell
  | sequence q =>
    obtain ⟨i, hi, hitem⟩ := Option.bind_eq_some_iff.1 hcell
    exact Option.bind_eq_some_iff.2 ⟨i, hi, h.cellAt?_of_lt hc hitem⟩
  | _ => cases hcell

/-- A path that leads through old cells led through them before. -/
theorem Leads.of_extends {s s' : Store} (hext : Extends s s') {v w : Value}
    {segments : List String} {cells : List CellId} (h : Leads s' v segments cells w)
    (hold : ∀ c ∈ cells, c < s.cells.size) : Leads s v segments cells w := by
  induction h with
  | nil v => exact .nil v
  | cons hcell _ ih =>
    simp only [List.mem_cons, forall_eq_or_imp] at hold
    rw [hext.value_eq hold.1] at ih
    exact .cons (hext.cellBehind?_of_lt hold.1 hcell) (ih hold.2)

/-- A path that leads past a cell does not depend on the value of the cell. -/
theorem Leads.of_assign {s : Store} {c : CellId} {x v w : Value} {segments : List String}
    {cells : List CellId} (h : Leads (s.assign c x) v segments cells w) (hc : c ∉ cells) :
    Leads s v segments cells w := by
  induction h with
  | nil v => exact .nil v
  | cons hcell _ ih =>
    simp only [List.mem_cons, not_or] at hc
    rw [value_assign_of_ne s (Ne.symm hc.1)] at ih
    exact .cons hcell (ih hc.2)

/-- A leaf on the way is what the path leads to. -/
theorem Leads.eq_value {s : Store} {c : CellId} {v w : Value} {segments : List String}
    {cells : List CellId} (h : Leads s v segments cells w) (hc : c ∈ cells)
    (hleaf : (s.value c).isLeaf = true) : w = s.value c := by
  induction h with
  | nil v => cases hc
  | @cons _ _ _ _ d cells hcell hrest ih =>
    rcases List.mem_cons.1 hc with rfl | hc
    · cases hrest with
      | nil => rfl
      | cons hbehind _ =>
        -- There is nothing behind a leaf.
        revert hbehind hleaf
        cases s.value c <;> simp [cellBehind?, Value.isLeaf]
    · exact ih hc

theorem place_of_cellBehind? {s : Store} (path : KeyPath) {v : Value} {segment : String}
    {c : CellId} (h : s.cellBehind? v segment = some c) :
    s.place path v segment = .ok (.cell c) := by
  -- A leaf has no cell behind a segment.
  cases v with
  | mapping m => simp [place, show s.cellOf? m segment = some c from h]
  | sequence q =>
    obtain ⟨i, hi, hc⟩ := Option.bind_eq_some_iff.1 h
    simp [place, hi, hc]
  | _ => cases h

end LiveBinding.Store
