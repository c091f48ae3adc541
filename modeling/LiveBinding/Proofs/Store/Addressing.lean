import LiveBinding.Proofs.Advance.Scene

/-!
# How segments address the items of a sequence

An index has one written form: its decimal text, without zeros in front. So a segment names at most
one index, and no other segment names the same one. The items of a sequence have cells of their own,
which means that a segment and the cell behind it determine each other, whether the cell is read or
written.

## Key definitions

- `Store.ReadsItem`, `Store.WritesItem`: the cell behind a segment of a sequence
- `Store.ItemsApart`: no two items of a sequence have the same cell

## Key results

- `toDigits_ofDigitChars`: digits without a zero in front are the digits of their value
- `index?_eq_some_iff`: the segment that names an index
- `Store.Edit.itemsApart`: an invariant of all changes of a store
- `Scene.items_addressed`: segments and items in a run
-/

namespace LiveBinding

/-! ### Decimal digits -/

/-- A digit is the digit of its value. -/
theorem digitChar_toNat_sub {c : Char} (h : c.isDigit = true) :
    c.toNat - '0'.toNat < 10 ∧ (c.toNat - '0'.toNat).digitChar = c := by
  simp only [Char.isDigit, Bool.and_eq_true, decide_eq_true_eq] at h
  have hlow : 48 ≤ c.toNat := h.1
  have hhigh : c.toNat ≤ 57 := h.2
  have hlt : c.toNat - '0'.toNat < 10 := by
    change c.toNat - 48 < 10
    omega
  refine ⟨hlt, Char.toNat_inj.1 ?_⟩
  rw [Nat.toNat_digitChar_of_lt_ten hlt]
  change 48 + (c.toNat - 48) = c.toNat
  omega

/-- Digits without a zero in front of others are the digits of their value. -/
theorem toDigits_ofDigitChars {cs : List Char} (hne : cs ≠ [])
    (hdigits : ∀ c ∈ cs, c.isDigit = true) (hzero : cs.head? = some '0' → cs.length = 1) :
    Nat.toDigits 10 (Nat.ofDigitChars 10 cs 0) = cs := by
  -- By induction from the right: the last digit is the rest of a division by ten.
  induction cs using List.reverseRecOn with
  | nil => exact absurd rfl hne
  | append_singleton cs c ih =>
    obtain ⟨hlt, hc⟩ := digitChar_toNat_sub (hdigits c (by simp))
    rw [Nat.ofDigitChars_append, Nat.ofDigitChars_cons, Nat.ofDigitChars_nil]
    by_cases hnil : cs = []
    · subst hnil
      rw [Nat.ofDigitChars_nil, Nat.mul_zero, Nat.zero_add, Nat.toDigits_of_lt_base hlt, hc]
      rfl
    · have hhead : cs.head? ≠ some '0' := by
        intro h
        have hlength := hzero (by rw [List.head?_append_of_ne_nil _ hnil, h])
        have hpos := List.length_pos_iff.2 hnil
        rw [List.length_append, List.length_singleton] at hlength
        omega
      have hfront := ih hnil (fun d hd => hdigits d (by simp [hd])) fun h => absurd h hhead
      -- The front has a value, because it does not start with a zero.
      have hpos : 0 < Nat.ofDigitChars 10 cs 0 := by
        rw [Nat.pos_iff_ne_zero]
        intro h
        rw [h, Nat.toDigits_zero] at hfront
        rw [← hfront] at hhead
        exact hhead rfl
      rw [← Nat.toDigits_append_toDigits (by omega) hpos hlt, hfront, Nat.toDigits_of_lt_base hlt,
        hc]

/-- The digits of a number do not start with a zero, unless the number is zero. -/
theorem head?_toDigits_ne_zero {n : Nat} (h : 0 < n) : (Nat.toDigits 10 n).head? ≠ some '0' := by
  induction n using Nat.strong_induction_on with
  | _ n ih =>
    by_cases hlt : n < 10
    · rw [Nat.toDigits_of_lt_base hlt, List.head?_cons, ne_eq, Option.some.injEq,
        Nat.digitChar_eq_zero]
      omega
    · rw [Nat.toDigits_of_base_le (by omega) (by omega),
        List.head?_append_of_ne_nil _ Nat.toDigits_ne_nil]
      exact ih (n / 10) (by omega) (by omega)

/-- A segment names an index exactly if it is the decimal text of the index. -/
theorem index?_eq_some_iff {segment : String} {n : Nat} :
    index? segment = some n ↔ segment = toString n ∧ n ≤ maxIndex := by
  have htext : (toString n).toList = Nat.toDigits 10 n := by
    rw [Nat.toString_eq_repr, Nat.toList_repr]
  simp only [index?, List.all_eq_true]
  constructor
  · intro h
    split at h
    · rename_i hcs
      obtain ⟨hne, hdigits, hzero⟩ := hcs
      split at h
      · rename_i hle
        obtain rfl := Option.some.inj h
        refine ⟨String.toList_inj.1 ?_, hle⟩
        rw [htext, toDigits_ofDigitChars hne hdigits hzero]
      · cases h
    · cases h
  · rintro ⟨rfl, hle⟩
    rw [htext, Nat.ofDigitChars_ten_toDigits, if_pos hle, if_pos]
    refine ⟨Nat.toDigits_ne_nil, fun c hc => Nat.isDigit_of_mem_toDigits (by omega) (by omega) hc,
      fun hhead => ?_⟩
    -- Only the number zero starts with a zero.
    by_cases hpos : 0 < n
    · exact absurd hhead (head?_toDigits_ne_zero hpos)
    · rw [show n = 0 by omega]
      rfl

example : maxIndex = UInt64.size - 1 ∧ index? "18446744073709551615" = some maxIndex ∧
    index? "18446744073709551616" = none ∧ index? "01" = none := by
  decide +kernel

/-! ### Items -/

namespace Store

variable {s s' : Store} {q : SequenceId} {segment : String} {c : CellId}

/-- Reading a segment of a sequence reads a cell. -/
def ReadsItem (s : Store) (q : SequenceId) (segment : String) (c : CellId) : Prop :=
  s.step? (.sequence q) segment = some (some c, s.value c)

/-- Assigning to a segment of a sequence changes a cell. -/
def WritesItem (s : Store) (q : SequenceId) (segment : String) (c : CellId) : Prop :=
  ∀ path, s.place path (.sequence q) segment = .ok (.cell c)

theorem readsItem_iff : s.ReadsItem q segment c ↔
    ∃ i ≤ maxIndex, segment = toString i ∧ s.cellAt? q i = some c := by
  rw [ReadsItem, step?_eq_some_iff, cellBehind?, Option.bind_eq_some_iff]
  constructor
  · rintro ⟨⟨i, hi, hc⟩, -⟩
    obtain ⟨hsegment, hle⟩ := index?_eq_some_iff.1 hi
    exact ⟨i, hle, hsegment, hc⟩
  · rintro ⟨i, hle, hsegment, hc⟩
    exact ⟨⟨i, index?_eq_some_iff.2 ⟨hsegment, hle⟩, hc⟩, rfl⟩

/-- What is written is what is read. -/
theorem writesItem_iff_readsItem : s.WritesItem q segment c ↔ s.ReadsItem q segment c := by
  rw [ReadsItem, step?_eq_some_iff]
  constructor
  · intro h
    refine ⟨?_, rfl⟩
    have hplace := h ⟨segment⟩
    rw [place] at hplace
    rw [cellBehind?]
    -- A cell is the place of a segment only if there is an index with a cell.
    split at hplace
    · cases hplace
    · rename_i i hi
      split at hplace
      · rename_i d hd
        cases hplace
        rw [hi, Option.bind_some, hd]
      · split at hplace <;> cases hplace
  · rintro ⟨h, -⟩ path
    exact place_of_cellBehind? path h

/-- The items of a sequence have cells of their own. -/
structure ItemsApart (s : Store) : Prop where
  lt_size : ∀ q, ∀ c ∈ s.items q, c < s.cells.size
  nodup : ∀ q, (s.items q).Nodup

/-- No two segments lead to the same item. -/
theorem ItemsApart.eq_of_readsItem (h : s.ItemsApart) {segment' : String}
    (hc : s.ReadsItem q segment c) (hc' : s.ReadsItem q segment' c) : segment = segment' := by
  obtain ⟨i, -, rfl, hi⟩ := readsItem_iff.1 hc
  obtain ⟨j, -, rfl, hj⟩ := readsItem_iff.1 hc'
  have hlt := (List.getElem?_eq_some_iff.1 hi).1
  rw [(List.getElem?_inj hlt (h.nodup q)).1 (hi.trans hj.symm)]

/-- An item whose index has 64 bits has exactly one segment. -/
theorem ItemsApart.existsUnique_readsItem (h : s.ItemsApart) {i : Nat} (hle : i ≤ maxIndex)
    (hi : s.cellAt? q i = some c) : ∃! segment, s.ReadsItem q segment c := by
  have hreads : s.ReadsItem q (toString i) c := readsItem_iff.2 ⟨i, hle, rfl, hi⟩
  exact ⟨toString i, hreads, fun _ h' => h.eq_of_readsItem h' hreads⟩

/-! ### Items stay apart -/

theorem ItemsApart.of_eq (h : s.ItemsApart) (hitems : ∀ q, s'.items q = s.items q)
    (hsize : s.cells.size ≤ s'.cells.size) : s'.ItemsApart where
  lt_size q c hc := Nat.lt_of_lt_of_le (h.lt_size q c (hitems q ▸ hc)) hsize
  nodup q := by rw [hitems]; exact h.nodup q

/-- A new item has a new cell. -/
theorem ItemsApart.append (h : s.ItemsApart) (q : SequenceId) (v : Value) :
    (s.append q v).ItemsApart where
  lt_size r c hc := by
    rw [items_append] at hc
    rw [show (s.append q v).cells.size = s.cells.size + 1 from size_addCells s [v]]
    split at hc
    · rcases List.mem_append.1 hc with hc | hc
      · exact Nat.lt_succ_of_lt (h.lt_size r c hc)
      · rw [List.mem_singleton.1 hc]
        exact Nat.lt_succ_self _
    · exact Nat.lt_succ_of_lt (h.lt_size r c hc)
  nodup r := by
    rw [items_append]
    split
    · refine List.nodup_append.2 ⟨h.nodup r, List.nodup_singleton _, fun c hc d hd => ?_⟩
      rw [List.mem_singleton.1 hd]
      exact Nat.ne_of_lt (h.lt_size r c hc)
    · exact h.nodup r

theorem ItemsApart.addMapping (h : s.ItemsApart) (fields : Fields Value) :
    (s.addMapping fields).1.ItemsApart :=
  h.of_eq (fun _ => rfl) (extends_addMapping s fields).size_le

/-- A new sequence has new cells, one behind the other. -/
theorem ItemsApart.addSequence (h : s.ItemsApart) (vs : List Value) :
    (s.addSequence vs).1.ItemsApart := by
  have hsize : (s.addSequence vs).1.cells.size = s.cells.size + vs.length := size_addCells s vs
  have hitems (r : SequenceId) : (s.addSequence vs).1.items r =
      if r = s.sequences.size then List.range' s.cells.size vs.length else s.items r := by
    simp only [Store.addSequence, items, addCells, Array.getElem?_push]
    split <;> rfl
  constructor
  · intro r c hc
    rw [hitems] at hc
    rw [hsize]
    split at hc
    · exact (List.mem_range'_1.1 hc).2
    · exact Nat.lt_of_lt_of_le (h.lt_size r c hc) (Nat.le_add_right ..)
  · intro r
    rw [hitems]
    split
    · exact List.nodup_range'
    · exact h.nodup r

mutual

theorem ItemsApart.intercept {s : Store} (h : s.ItemsApart) :
    (p : Plain) → (s.intercept p).1.ItemsApart
  | .null | .boolean _ | .number _ | .text _ => by
    simp only [Store.intercept]
    exact h
  | .array items => by
    simp only [Store.intercept]
    exact (h.interceptItems items).addSequence _
  | .object fields => by
    simp only [Store.intercept]
    exact (h.interceptFields fields).addMapping _

theorem ItemsApart.interceptItems {s : Store} (h : s.ItemsApart) :
    (ps : List Plain) → (s.interceptItems ps).1.ItemsApart
  | [] => by
    simp only [Store.interceptItems]
    exact h
  | p :: ps => by
    simp only [Store.interceptItems]
    exact (h.intercept p).interceptItems ps

theorem ItemsApart.interceptFields {s : Store} (h : s.ItemsApart) :
    (ps : List (String × Plain)) → (s.interceptFields ps).1.ItemsApart
  | [] => by
    simp only [Store.interceptFields]
    exact h
  | (_, p) :: ps => by
    simp only [Store.interceptFields]
    exact (h.intercept p).interceptFields ps

end

/-- Whatever changes, no two items of a sequence get the same cell. -/
theorem Edit.itemsApart (h : s.Edit s') (hs : s.ItemsApart) : s'.ItemsApart := by
  cases h with
  | assign c v => exact hs.of_eq (fun _ => rfl) (by simp [Store.assign])
  | watch c e => exact hs.of_eq (fun _ => rfl) (by simp [Store.watch])
  | prune c p => exact hs.of_eq (fun _ => rfl) (by simp [Store.prune])
  | define m h v => exact hs.of_eq (fun _ => rfl) (extends_define h v).size_le
  | append q v => exact hs.append q v
  | intercept p => exact hs.intercept p

end Store

/-! ### Runs -/

theorem Advances.itemsApart {σ : Type} {w w' : World σ} (h : Advances w w')
    (hw : w.store.ItemsApart) : w'.store.ItemsApart :=
  h.preserves (fun hedit hs => hedit.itemsApart hs) hw

theorem stable_itemsApart {σ : Type} : Stable fun w : World σ => w.store.ItemsApart where
  of_advances h hw := h.itemsApart hw
  suspend hw := hw

namespace Scene

/-- Segments and indices correspond one to one. A segment names an index exactly if it is the
decimal text of the index, which has 64 bits. So a segment of a sequence reads the cell at the
index whose text it is, and writes the same cell. If the items of a sequence have cells of their
own, no two segments lead to the same item, and every item at such an index, however long the
sequence is, has exactly one segment. In every run they do: between the steps, and where a script
starts. -/
theorem items_addressed (depth : Nat) (source : String) (steps : List Step) :
    let w := after depth (start source) steps
    (∀ segment n, index? segment = some n ↔ segment = toString n ∧ n ≤ maxIndex) ∧
    (∀ (s : Store) q segment c,
      (s.ReadsItem q segment c ↔
        ∃ i ≤ maxIndex, segment = toString i ∧ s.cellAt? q i = some c) ∧
      (s.WritesItem q segment c ↔ s.ReadsItem q segment c)) ∧
    (∀ s : Store, s.ItemsApart →
      (∀ q segment segment' c, s.ReadsItem q segment c → s.ReadsItem q segment' c →
        segment = segment') ∧
      ∀ q i c, i ≤ maxIndex → s.cellAt? q i = some c → ∃! segment, s.ReadsItem q segment c) ∧
    w.store.ItemsApart ∧
    ∀ (other : Call Script) (limit : Nat) (env : Received) (s : Step),
      (s.perform (Script.runWhere (fun u => u.store.ItemsApart) other limit) env).runOn w =
        (s.perform (Script.invoke limit) env).runOn w := by
  intro w
  have hstart : (start source).store.ItemsApart :=
    ⟨fun _ _ hc => absurd hc List.not_mem_nil, fun _ => List.nodup_nil⟩
  have hw : w.store.ItemsApart := (advances_after depth (start source) steps).itemsApart hstart
  exact ⟨fun _ _ => index?_eq_some_iff,
    fun _ _ _ _ => ⟨Store.readsItem_iff, Store.writesItem_iff_readsItem⟩,
    fun s hs => ⟨fun _ _ _ _ => hs.eq_of_readsItem, fun _ _ _ => hs.existsUnique_readsItem⟩, hw,
    fun other limit env s => Step.perform_runWhere stable_itemsApart other limit env s hw⟩

/-- The second item of a list has the segment `1` and no other one. -/
theorem items_addressed_second :
    let w := after callDepth (start "")
      [.model (.create "m" (.object [("a", .array [.text "x", .text "y"])]))]
    w.store.items 0 = [0, 1] ∧ w.store.WritesItem 0 "1" 1 ∧
      ∃! segment, w.store.ReadsItem 0 segment 1 := by
  intro w
  have hitems : w.store.items 0 = [0, 1] := by decide +kernel
  obtain ⟨-, haddress, hone, hapart, -⟩ :=
    items_addressed callDepth ""
      [.model (.create "m" (.object [("a", .array [.text "x", .text "y"])]))]
  have hcell : w.store.cellAt? 0 1 = some 1 := by
    rw [Store.cellAt?, hitems]
    rfl
  have hread : w.store.ReadsItem 0 "1" 1 :=
    (haddress w.store 0 "1" 1).1.2 ⟨1, by decide, by decide, hcell⟩
  exact ⟨hitems, (haddress w.store 0 "1" 1).2.2 hread,
    (hone w.store hapart).2 0 1 1 (by decide) hcell⟩

end Scene

end LiveBinding
