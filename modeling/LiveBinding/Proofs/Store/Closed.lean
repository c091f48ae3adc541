import LiveBinding.Proofs.Evolution.Sound
import LiveBinding.Proofs.Refinement.Assign
import LiveBinding.Proofs.Store.Lasting

/-!
# Closed heaps

A heap is closed if every reference in it leads to something: containers arrange cells that exist,
and a cell that holds a handle holds that of a container that exists. Containers may be shared, and
they may contain one another or themselves.

In a closed heap an assignment finds a spot that exists, whatever its path runs through. What an
assignment leaves behind is said by `Puts`. It is enough to resolve the path again, as long as the
cell that was assigned is not on the way.

## Key definitions

- `Store.Closed`: every reference leads to something
- `Store.Puts`: a place has a value, and nothing else has changed
- `Store.kept`: what a place holds after an assignment

## Key results

- `leads_of_walk`: segments lead to a container through cells only
- `Closed.has_spot`: what an assignment changes exists
- `Puts.get_eq`: what was assigned is read back
- `ofPath_of_placeBehind`: how an assignment faults
-/

namespace LiveBinding

/-- The faults of an assignment to a path. They name the path as written. -/
def Fault.OfPath (path : KeyPath) (f : Fault) : Prop :=
  (∃ segment found, f = .pathResolution path.raw segment found) ∨
    (∃ segment, f = .invalidIndex path.raw segment) ∨
      ∃ index length, f = .indexOutOfBounds path.raw index length

namespace Store

variable {s s' t : Store}

/-! ### References that lead to something -/

/-- A value that is a handle is that of a container of the store. -/
def Knows (s : Store) : Value → Prop
  | .mapping m => s.Has (.mapping m)
  | .sequence q => s.Has (.sequence q)
  | _ => True

instance (s : Store) : (v : Value) → Decidable (s.Knows v)
  | .mapping m => inferInstanceAs (Decidable (m < s.mappings.size))
  | .sequence q => inferInstanceAs (Decidable (q < s.sequences.size))
  | .null | .boolean _ | .number _ | .text _ => .isTrue trivial

/-- Every reference leads to something. -/
structure Closed (s : Store) : Prop where
  inRange : s.InRange
  knows : ∀ c, s.Knows (s.value c)

/-! ### Ways to a container -/

/-- What is read without a cell is a leaf. -/
theorem isLeaf_of_step? {v w : Value} {segment : String} (h : s.step? v segment = some (none, w)) :
    w.isLeaf = true := by
  unfold step? at h
  split at h
  · split at h
    · cases h
    · cases h
      rfl
  · split at h
    · split at h
      · cases h
      · cases h
        rfl
    · split at h <;> cases h <;> rfl
  · cases h

/-- Nothing but a leaf is read from a leaf. -/
theorem isLeaf_of_walk {path : KeyPath} {v w : Value} {segments : List String}
    {cells : List CellId} (hv : v.isLeaf = true)
    (h : s.walk path v segments = (cells, .ok w)) : w.isLeaf = true := by
  cases segments with
  | nil =>
    obtain ⟨-, hw⟩ := Prod.mk.inj h
    cases hw
    exact hv
  | cons segment segments =>
    have hnone : s.step? v segment = none := by cases v <;> first | rfl | cases hv
    rw [walk, hnone] at h
    cases h

/-- Segments that lead to a container lead there through cells. -/
theorem leads_of_walk {path : KeyPath} {v w : Value} {segments : List String}
    {cells : List CellId} (h : s.walk path v segments = (cells, .ok w)) (hw : w.isLeaf = false) :
    s.Leads v segments cells w := by
  induction segments generalizing v cells with
  | nil =>
    obtain ⟨rfl, hv⟩ := Prod.mk.inj h
    cases hv
    exact .nil w
  | cons segment segments ih =>
    rw [walk] at h
    cases hstep : s.step? v segment with
    | none =>
      rw [hstep] at h
      cases h
    | some found =>
      obtain ⟨c, u⟩ := found
      rw [hstep] at h
      obtain ⟨hcells, hrest⟩ := Prod.mk.inj h
      cases c with
      | none =>
        -- A missing key or item is a leaf, and so is a length.
        have hleaf := isLeaf_of_walk (isLeaf_of_step? hstep) (Prod.ext rfl hrest)
        exact absurd (hleaf.symm.trans hw) (by simp)
      | some c =>
        obtain ⟨hcell, rfl⟩ := step?_eq_some_iff.1 hstep
        rw [← hcells]
        exact .cons hcell (ih (Prod.ext rfl hrest))

/-- A path that leads through cells still leads there, if they hold what they held and cells that
were behind a segment still are. -/
theorem Leads.of_value_eq {v w : Value} {segments : List String} {cells : List CellId}
    (h : s.Leads v segments cells w) (hvalue : ∀ c ∈ cells, s'.value c = s.value c)
    (hbehind : ∀ u segment c, s.cellBehind? u segment = some c →
      s'.cellBehind? u segment = some c) : s'.Leads v segments cells w := by
  induction h with
  | nil v => exact .nil v
  | @cons v w segment segments c cells hcell _ ih =>
    rw [List.forall_mem_cons] at hvalue
    have hrest := ih hvalue.2
    rw [← hvalue.1] at hrest
    exact .cons (hbehind _ _ _ hcell) hrest

/-- A closed heap has what its values lead to. -/
theorem Closed.knows_of_leads (h : s.Closed) {v w : Value} {segments : List String}
    {cells : List CellId} (hv : s.Knows v) (hleads : s.Leads v segments cells w) : s.Knows w := by
  induction hleads with
  | nil => exact hv
  | cons _ _ ih => exact ih (h.knows _)

/-! ### Places of assignments -/

/-- The three kinds of places in a container. -/
theorem place_cases {path : KeyPath} {v : Value} {segment : String} {place : Place}
    (h : s.place path v segment = .ok place) :
    (∃ c, s.cellBehind? v segment = some c ∧ place = .cell c) ∨
      (∃ m, v = .mapping m ∧ s.cellOf? m segment = none ∧ place = .newKey m segment) ∨
        ∃ q, v = .sequence q ∧ index? segment = some (s.items q).length ∧ place = .newItem q := by
  cases v with
  | mapping m =>
    simp only [Store.place] at h
    split at h
    · rename_i c hc
      exact .inl ⟨c, hc, (Except.ok.inj h).symm⟩
    · rename_i hnone
      exact .inr (.inl ⟨m, rfl, hnone, (Except.ok.inj h).symm⟩)
  | sequence q =>
    simp only [Store.place] at h
    split at h
    · cases h
    · rename_i i hi
      split at h
      · rename_i c hc
        exact .inl ⟨c, Option.bind_eq_some_iff.2 ⟨i, hi, hc⟩, (Except.ok.inj h).symm⟩
      · split at h
        · rename_i hlength
          exact .inr (.inr ⟨q, rfl, hlength ▸ hi, (Except.ok.inj h).symm⟩)
        · cases h
  | _ => cases h

/-- A place is found in a container that the parents lead to. -/
theorem exists_container {path : KeyPath} {last : String} {v : Value} {parents : List String}
    {place : Place} (h : s.placeBehind path last v parents = .ok place) :
    ∃ container, s.Leads v parents (s.walk path v parents).1 container ∧
      s.place path container last = .ok place := by
  rw [placeBehind] at h
  rcases hwalk : s.walk path v parents with ⟨cells, f | container⟩
  · rw [hwalk] at h
    cases h
  · rw [hwalk] at h
    refine ⟨container, leads_of_walk hwalk ?_, h⟩
    -- Nothing can be assigned in a leaf.
    cases container with
    | mapping m => rfl
    | sequence q => rfl
    | _ => cases h

/-- What an assignment changes exists. -/
theorem Closed.has_spot (hs : s.Closed) {path : KeyPath} {last : String} {v : Value}
    {parents : List String} {place : Place} (hv : s.Knows v)
    (h : s.placeBehind path last v parents = .ok place) : s.Has place.spot := by
  obtain ⟨container, hleads, hplace⟩ := exists_container h
  have hcontainer := hs.knows_of_leads hv hleads
  rcases place_cases hplace with ⟨c, hc, rfl⟩ | ⟨m, rfl, -, rfl⟩ | ⟨q, rfl, -, rfl⟩
  · exact hs.inRange.cellBehind?_lt hc
  · exact hcontainer
  · exact hcontainer

/-- A path that cannot be followed faults at a segment. -/
theorem ofPath_of_walk {path : KeyPath} {v : Value} {segments : List String} {f : Fault}
    (h : (s.walk path v segments).2 = .error f) : f.OfPath path := by
  induction segments generalizing v with
  | nil => cases h
  | cons segment segments ih =>
    rw [walk] at h
    cases hstep : s.step? v segment with
    | none =>
      rw [hstep] at h
      cases h
      exact .inl ⟨segment, v.kind, rfl⟩
    | some found =>
      rw [hstep] at h
      exact ih h

/-- An assignment that finds no place faults at a segment. -/
theorem ofPath_of_placeBehind {path : KeyPath} {last : String} {v : Value} {parents : List String}
    {f : Fault} (h : s.placeBehind path last v parents = .error f) : f.OfPath path := by
  rw [placeBehind] at h
  rcases hwalk : s.walk path v parents with ⟨cells, g | container⟩
  · rw [hwalk] at h
    cases h
    exact ofPath_of_walk (congrArg Prod.snd hwalk)
  · rw [hwalk] at h
    change s.place path container last = .error f at h
    cases container with
    | mapping m =>
      simp only [Store.place] at h
      split at h <;> cases h
    | sequence q =>
      simp only [Store.place] at h
      split at h
      · cases h
        exact .inr (.inl ⟨last, rfl⟩)
      · split at h
        · cases h
        · split at h
          · cases h
          · cases h
            exact .inr (.inr ⟨_, _, rfl⟩)
    | _ =>
      cases h
      exact .inl ⟨last, _, rfl⟩

/-! ### A place gets a value -/

/-- What a place holds after a value was assigned to it: a cell keeps a value that is the same. -/
def kept (s : Store) (place : Place) (v : Value) : Value :=
  match place with
  | .cell c => if (s.value c).same v then s.value c else v
  | _ => v

/-- In the second store a place has a value. No other cell, mapping or sequence that was there has
changed, and what the place has got lies in a cell that is new. -/
structure Puts (s s' : Store) (place : Place) (v : Value) : Prop where
  sameAt : ∀ x, s.Has x → x ≠ place.spot → SameAt s s' x
  takes : ∃ added, Takes s s' place v added ∧ New s s' added

theorem puts_putAt {place : Place} (h : s.Has place.spot) (hvacant : s.Vacant place) (v : Value) :
    Puts s (s.putAt place v) place v :=
  ⟨(putAt_takes h hvacant v).1, (putAt_takes h hvacant v).2.2⟩

/-- A cell that is left as it is has the value that it had. -/
theorem puts_value (s : Store) (c : CellId) : Puts s s (.cell c) (s.value c) :=
  ⟨fun x _ _ => .refl s x, [], .cell c, .nil s s⟩

theorem SameData.has_iff (h : SameData s s') (x : Spot) : s'.Has x ↔ s.Has x := by
  cases x with
  | cell c => rw [Has, Has, h.size_eq]
  | mapping m => rw [Has, Has, h.mappings_eq]
  | sequence q => rw [Has, Has, h.sequences_eq]

/-- Who watched the cells does not matter. -/
theorem Puts.of_sameData {place : Place} {v : Value} (h : Puts t s' place v)
    (hd : SameData s t) : Puts s s' place v where
  sameAt x hx hne := (hd.sameAt x).trans (h.sameAt x ((hd.has_iff x).2 hx) hne)
  takes := by
    obtain ⟨added, htakes, hnew⟩ := h.takes
    refine ⟨added, ?_, hnew.nodup, fun x hx hs => hnew.absent x hx ((hd.has_iff x).2 hs), hnew.has⟩
    cases htakes with
    | cell c => exact .cell c
    | newKey hentries => exact .newKey (by rw [hentries, hd.entries_eq])
    | newItem hitems => exact .newItem (by rw [hitems, hd.items_eq])

/-- What is added afterwards does not matter. -/
theorem Puts.trans_adds {place : Place} {v : Value} (h : Puts s t place v)
    (hplace : t.Has place.spot) (hadds : Adds t s') : Puts s s' place v where
  sameAt x hx hne := (h.sameAt x hx hne).trans (hadds x ((h.sameAt x hx hne).has hx))
  takes := by
    obtain ⟨added, htakes, hnew⟩ := h.takes
    refine ⟨added, ?_, hnew.nodup, hnew.absent, fun x hx => hadds.has (hnew.has x hx)⟩
    cases htakes with
    | cell c =>
      rw [← (hadds _ hplace).value_eq]
      exact .cell c
    | newKey hentries =>
      rw [← (hadds _ (hnew.has _ (List.mem_singleton_self _))).value_eq]
      exact .newKey (by rw [(hadds _ hplace).entries_eq, hentries])
    | newItem hitems =>
      rw [← (hadds _ (hnew.has _ (List.mem_singleton_self _))).value_eq]
      exact .newItem (by rw [(hadds _ hplace).items_eq, hitems])

/-! ### Reading back -/

/-- Keys stay where they are, with their cells. -/
theorem Puts.entries_prefix {place : Place} {v : Value} (h : Puts s s' place v) (m : MappingId) :
    s.entries m <+: s'.entries m := by
  by_cases hm : s.Has (.mapping m)
  · by_cases hplace : Spot.mapping m = place.spot
    · obtain ⟨added, htakes, -⟩ := h.takes
      cases htakes with
      | newKey hentries =>
        cases hplace
        exact ⟨_, hentries.symm⟩
      | _ => cases hplace
    · exact (h.sameAt _ hm hplace).entries_eq ▸ List.prefix_rfl
  · rw [entries, Array.getElem?_eq_none (Nat.le_of_not_lt hm)]
    exact List.nil_prefix

/-- Items stay where they are, with their cells. -/
theorem Puts.items_prefix {place : Place} {v : Value} (h : Puts s s' place v) (q : SequenceId) :
    s.items q <+: s'.items q := by
  by_cases hq : s.Has (.sequence q)
  · by_cases hplace : Spot.sequence q = place.spot
    · obtain ⟨added, htakes, -⟩ := h.takes
      cases htakes with
      | newItem hitems =>
        cases hplace
        exact ⟨_, hitems.symm⟩
      | _ => cases hplace
    · exact (h.sameAt _ hq hplace).items_eq ▸ List.prefix_rfl
  · rw [items, Array.getElem?_eq_none (Nat.le_of_not_lt hq)]
    exact List.nil_prefix

/-- Cells that are behind a segment stay there. -/
theorem Puts.cellBehind?_eq {place : Place} {v : Value} (h : Puts s s' place v) {u : Value}
    {segment : String} {c : CellId} (hc : s.cellBehind? u segment = some c) :
    s'.cellBehind? u segment = some c := by
  cases u with
  | mapping m => exact cellOf?_of_prefix (h.entries_prefix m) hc
  | sequence q =>
    obtain ⟨i, hi, hitem⟩ := Option.bind_eq_some_iff.1 hc
    exact Option.bind_eq_some_iff.2 ⟨i, hi, getElem?_of_prefix (h.items_prefix q) hitem⟩
  | _ => cases hc

/-- The value of a place is behind the segment that names it. -/
theorem Puts.exists_cellBehind? {path : KeyPath} {container v : Value} {segment : String}
    {place : Place} (h : Puts s s' place v)
    (hplace : s.place path container segment = .ok place) :
    ∃ c, s'.cellBehind? container segment = some c ∧ s'.value c = v := by
  obtain ⟨added, htakes, -⟩ := h.takes
  rcases place_cases hplace with ⟨c, hc, rfl⟩ | ⟨m, rfl, hnone, rfl⟩ | ⟨q, rfl, hi, rfl⟩
  · cases htakes
    exact ⟨c, h.cellBehind?_eq hc, rfl⟩
  · cases htakes with
    | @newKey _ _ c hentries =>
      -- The key is found behind the others, of which it is none.
      refine ⟨c, ?_, rfl⟩
      rw [cellOf?, Fields.get?, Option.map_eq_none_iff] at hnone
      rw [cellBehind?, cellOf?, Fields.get?, hentries, List.find?_append, hnone]
      simp
  · cases htakes with
    | @newItem _ c hitems =>
      refine ⟨c, Option.bind_eq_some_iff.2 ⟨_, hi, ?_⟩, rfl⟩
      rw [cellAt?, hitems, List.getElem?_concat_length]

/-- One more segment. -/
theorem Leads.concat {v w : Value} {segments : List String} {cells : List CellId}
    (h : s.Leads v segments cells w) {segment : String} {c : CellId}
    (hc : s.cellBehind? w segment = some c) :
    s.Leads v (segments ++ [segment]) (cells ++ [c]) (s.value c) := by
  induction h with
  | nil => exact .cons hc (.nil _)
  | cons hcell _ ih => exact .cons hcell (ih hc)

/-- What was assigned to a path is read back, if the cell that was assigned is not on the way. -/
theorem Puts.get_eq {path : KeyPath} {root : MappingId} {place : Place} {v : Value}
    (h : Puts s s' place v) (hs : s.InRange)
    (hplace : s.placeBehind path path.last (.mapping root) path.parents = .ok place)
    (hfree : ∀ c, place = .cell c → c ∉ (s.walk path (.mapping root) path.parents).1) :
    s'.get path root = .ok v := by
  obtain ⟨container, hleads, hfound⟩ := exists_container hplace
  have hvalue : ∀ c ∈ (s.walk path (.mapping root) path.parents).1, s'.value c = s.value c := by
    intro c hc
    refine (h.sameAt (.cell c) (hs.mem_walk_lt path hc) fun hspot => ?_).value_eq
    -- Only a cell that was assigned could have changed.
    cases place with
    | cell d =>
      cases hspot
      exact hfree c rfl hc
    | _ => cases hspot
  obtain ⟨c, hc, rfl⟩ := h.exists_cellBehind? hfound
  have hpath := (hleads.of_value_eq hvalue fun _ _ _ => h.cellBehind?_eq).concat hc
  rw [← path.segments_eq] at hpath
  exact hpath.get_eq

end Store

end LiveBinding
