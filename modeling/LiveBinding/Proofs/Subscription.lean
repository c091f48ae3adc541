import LiveBinding.Proofs.Evolution.Scene
import LiveBinding.Proofs.Evolution.Sound

/-!
# Who watches a cell

An effect is registered with a cell by its construction, once for each time that the resolution of
its path read the cell. Nothing else registers it, except a request that does so by hand; nothing
takes it off as long as it is alive; and the order of the registrations is the order of the
constructions. So the watchers of a cell that are alive can be read off from the records of the
constructions.

The invariant compares the watchers of a cell with the records, both restricted to the effects that
are alive and were never registered by hand. This restriction can only shrink for the effects that
exist, so an equality of restricted lists stays an equality.

## Key results

- `Store.reads_iff`: which cells a path reads
- `Move.registered`: one move preserves the invariant
- `liveWatchers_exact`: the law of runs
-/

namespace LiveBinding

variable {σ : Type}

/-! ### The cells that a path reads -/

/-- Following segments from a value reads these cells: one for a key that is defined and for an
index in range, and none for anything else. -/
inductive Store.Reads (s : Store) : Value → List String → List CellId → Prop
  | nil (v : Value) : Reads s v [] []
  | key {m : MappingId} {segment : String} {segments : List String} {c : CellId}
      {cells : List CellId} (hcell : s.cellOf? m segment = some c)
      (hrest : Reads s (s.value c) segments cells) :
      Reads s (.mapping m) (segment :: segments) (c :: cells)
  | missingKey {m : MappingId} {segment : String} {segments : List String} {cells : List CellId}
      (hcell : s.cellOf? m segment = none) (hrest : Reads s .null segments cells) :
      Reads s (.mapping m) (segment :: segments) cells
  | item {q : SequenceId} {segment : String} {segments : List String} {i : Nat} {c : CellId}
      {cells : List CellId} (hindex : index? segment = some i) (hcell : s.cellAt? q i = some c)
      (hrest : Reads s (s.value c) segments cells) :
      Reads s (.sequence q) (segment :: segments) (c :: cells)
  | missingItem {q : SequenceId} {segment : String} {segments : List String} {i : Nat}
      {cells : List CellId} (hindex : index? segment = some i) (hcell : s.cellAt? q i = none)
      (hrest : Reads s .null segments cells) :
      Reads s (.sequence q) (segment :: segments) cells
  | length {q : SequenceId} {segments : List String} {cells : List CellId}
      (hindex : index? "length" = none)
      (hrest : Reads s (.number (.ofInt (s.items q).length)) segments cells) :
      Reads s (.sequence q) ("length" :: segments) cells
  | noIndex {q : SequenceId} {segment : String} {segments : List String} {cells : List CellId}
      (hindex : index? segment = none) (hlength : segment ≠ "length")
      (hrest : Reads s .null segments cells) :
      Reads s (.sequence q) (segment :: segments) cells
  | leaf {v : Value} {segment : String} {segments : List String} (hleaf : v.isLeaf = true) :
      Reads s v (segment :: segments) []

/-- Resolving reads these cells and no others. -/
theorem Store.reads_walk (s : Store) (path : KeyPath) (v : Value) (segments : List String) :
    s.Reads v segments (s.walk path v segments).1 := by
  -- The rules of `Reads` are the cases of one step of the resolution.
  induction segments generalizing v with
  | nil => exact .nil v
  | cons segment segments ih =>
    cases v with
    | mapping m =>
      cases hcell : s.cellOf? m segment with
      | some c => simpa [walk, step?, hcell] using Reads.key hcell (ih (s.value c))
      | none => simpa [walk, step?, hcell] using Reads.missingKey hcell (ih .null)
    | sequence q =>
      cases hindex : index? segment with
      | some i =>
        cases hcell : s.cellAt? q i with
        | some c =>
          simpa [walk, step?, hindex, hcell] using Reads.item hindex hcell (ih (s.value c))
        | none => simpa [walk, step?, hindex, hcell] using Reads.missingItem hindex hcell (ih .null)
      | none =>
        by_cases hlength : segment = "length"
        · subst hlength
          simpa [walk, step?, hindex] using Reads.length hindex (ih _)
        · simpa [walk, step?, hindex, hlength] using Reads.noIndex hindex hlength (ih .null)
    | _ => exact .leaf rfl

/-- The cells that a path reads are those that its resolution goes through. -/
theorem Store.reads_iff {s : Store} {path : KeyPath} {v : Value} {segments : List String}
    {cells : List CellId} :
    (s.walk path v segments).1 = cells ↔ s.Reads v segments cells := by
  constructor
  · rintro rfl
    exact s.reads_walk path v segments
  · intro h
    induction h with
    | nil v => rfl
    | key hcell _ ih => simp [walk, step?, hcell, ih]
    | missingKey hcell _ ih => simp [walk, step?, hcell, ih]
    | item hindex hcell _ ih => simp [walk, step?, hindex, hcell, ih]
    | missingItem hindex hcell _ ih => simp [walk, step?, hindex, hcell, ih]
    | length hindex _ ih => simp [walk, step?, hindex, ih]
    | noIndex hindex hlength _ ih => simp [walk, step?, hindex, hlength, ih]
    | @leaf v _ _ hleaf => cases v <;> first | rfl | cases hleaf

/-! ### The invariant -/

/-- A filter in front of a sharper one makes no difference. -/
theorem filter_filter_of_imp {α : Type} {p q : α → Bool} {l : List α}
    (h : ∀ a ∈ l, q a = true → p a = true) : (l.filter p).filter q = l.filter q := by
  rw [List.filter_filter]
  refine List.filter_congr fun a ha => ?_
  rw [Bool.and_eq_left_iff_imp]
  exact h a ha

/-- Lists that agree after a filter agree after every sharper one. -/
theorem filter_eq_filter_of_imp {α : Type} {p q : α → Bool} {l l' : List α}
    (h : l.filter p = l'.filter p) (hl : ∀ a ∈ l, q a = true → p a = true)
    (hl' : ∀ a ∈ l', q a = true → p a = true) : l.filter q = l'.filter q := by
  rw [← filter_filter_of_imp hl, ← filter_filter_of_imp hl', h]

namespace World

/-- Whether an effect is alive, and only its construction can have registered it. -/
def isTracked (w : World σ) (e : EffectId) : Bool := w.isAlive e && !w.enlisted.contains e

/-- The watchers of a cell are the effects that were constructed, in order of construction and as
often as they read the cell, as far as they are alive and were not registered by hand. -/
def Registered (w : World σ) : Prop :=
  ∀ c, (w.store.watchers c).filter w.isTracked = (w.registrationsFrom 0 c).filter w.isTracked

theorem isTracked_iff {w : World σ} {e : EffectId} :
    w.isTracked e = true ↔ w.isAlive e = true ∧ e ∉ w.enlisted := by
  simp [isTracked]

theorem registrationsFrom_eq {w w' : World σ} (hsize : w'.effects.size = w.effects.size)
    (hreads : ∀ e c, w'.readsOf e c = w.readsOf e c) (n : Nat) (c : CellId) :
    w'.registrationsFrom n c = w.registrationsFrom n c := by
  simp only [registrationsFrom, hsize, hreads]

/-- No effect has read a cell that does not exist. -/
theorem Sound.registrationsFrom_eq_nil {w : World σ} (h : w.Sound) (n : Nat) {c : CellId}
    (hc : w.store.cells.size ≤ c) : w.registrationsFrom n c = [] := by
  refine List.flatMap_eq_nil_iff.2 fun e _ => ?_
  rw [List.replicate_eq_nil_iff, readsOf, List.count_eq_zero]
  cases he : w.effects[e]? with
  | none => exact List.not_mem_nil
  | some effect => exact fun hmem => absurd (h.watched_lt e effect he c hmem) (Nat.not_lt.2 hc)

/-- The invariant survives if watchers and records stay, and no effect comes back. -/
theorem Registered.of_eq {w w' : World σ} (hr : w.Registered) (hw : w.Sound)
    (hwatchers : ∀ c, w'.store.watchers c = w.store.watchers c)
    (hrecords : ∀ c, w'.registrationsFrom 0 c = w.registrationsFrom 0 c)
    (htracked : ∀ e, e < w.effects.size → w'.isTracked e = true → w.isTracked e = true) :
    w'.Registered := by
  intro c
  rw [hwatchers, hrecords]
  refine filter_eq_filter_of_imp (hr c) (fun e he => htracked e (hw.watchers_lt c e he))
    fun e he => htracked e (mem_registrationsFrom (Nat.zero_le _) he).2

/-- Effects that are constructed are registered behind the others. -/
theorem Constructs.registered {w w' : World σ} (h : w.Constructs w') (hw : w.Sound)
    (hr : w.Registered) (htracked : ∀ e, e < w.effects.size → w'.isTracked e = true →
      w.isTracked e = true) : w'.Registered := by
  intro c
  by_cases hc : c < w.store.cells.size
  -- The old registrations stay in front of the new ones.
  · have hold : (w.store.watchers c).filter w'.isTracked =
        (w.registrationsFrom 0 c).filter w'.isTracked :=
      filter_eq_filter_of_imp (hr c) (fun e he => htracked e (hw.watchers_lt c e he))
        fun e he => htracked e (mem_registrationsFrom (Nat.zero_le _) he).2
    rw [h.grows.watchers_eq c hc, registrationsFrom_append (Nat.zero_le _) h.grows.size_le c
      fun e he => readsOf_eq (h.grows.effects_eq e he) c, List.filter_append, List.filter_append,
      hold]
  · have hc' : w'.store.cells.size ≤ c := by
      rw [h.grows.sameData.size_eq]
      exact Nat.le_of_not_lt hc
    rw [Store.watchers_eq_nil_of_le hc', (h.sound hw).registrationsFrom_eq_nil 0 hc']

end World

open World

/-- A move makes no effect tracked again. -/
theorem Move.isTracked_of {w w' : World σ} (h : Move w w') {e : EffectId}
    (he : e < w.effects.size) (htracked : w'.isTracked e = true) : w.isTracked e = true := by
  rw [isTracked_iff] at htracked ⊢
  have henlisted : w.enlisted ⊆ w'.enlisted := by
    cases h with
    | change h => exact h.later.enlisted_subset
    | _ => exact fun _ h => h
  exact ⟨h.isAlive_of he htracked.1, fun hmem => htracked.2 (henlisted hmem)⟩

/-- What the construction of an effect read does not change when it gets a value. -/
theorem registrationsFrom_deliver (w : World σ) (e : EffectId) (v : Value) :
    ∀ c, (w.deliver e v).registrationsFrom 0 c = w.registrationsFrom 0 c := by
  refine registrationsFrom_eq (by simp) (fun e' c => ?_) 0
  rw [readsOf, readsOf, effects_deliver]
  split
  · cases w.effects[e']? <;> rfl
  · rfl

/-- A change preserves the invariant. -/
theorem Change.registered {w w' : World σ} (h : Change w w') (hw : w.Sound) (hr : w.Registered)
    (htracked : ∀ e, e < w.effects.size → w'.isTracked e = true → w.isTracked e = true) :
    w'.Registered := by
  cases h with
  | read cells =>
    rw [hw.registerReads_eq]
    exact hr
  | extend hext => exact hr.of_eq hw hext.watchers_eq (fun _ => rfl) htracked
  | deliver => exact hr.of_eq hw (fun _ => rfl) (registrationsFrom_deliver w _ _) htracked
  | display => exact hr.of_eq hw (fun _ => rfl) (registrationsFrom_deliver w _ _) htracked
  | construct h => exact h.registered hw hr htracked
  | @enlist c f hf =>
    intro d
    -- The registration by hand is not counted, because it is recorded.
    have hnew : ({ w with
        store := w.store.watch c f.2, enlisted := f.2 :: w.enlisted } : World σ).isTracked f.2 =
          false := by
      simp [isTracked]
    have hold := filter_eq_filter_of_imp (hr d) (fun e he => htracked e (hw.watchers_lt d e he))
      fun e he => htracked e (mem_registrationsFrom (Nat.zero_le _) he).2
    refine Eq.trans ?_ hold
    rcases Store.watchers_watch_cases w.store c d f.2 with hsame | happend
    · rw [hsame]
    · rw [happend, List.filter_append, List.filter_cons, hnew]
      simp
  | _ => exact hr.of_eq hw (fun _ => rfl) (fun _ => rfl) htracked

/-- Every move preserves the invariant. -/
theorem Move.registered {w w' : World σ} (h : Move w w') (hw : w.Sound) (hr : w.Registered) :
    w'.Registered := by
  have htracked (e : EffectId) (he : e < w.effects.size) (ht : w'.isTracked e = true) :
      w.isTracked e = true := h.isTracked_of he ht
  cases h with
  | change h => exact h.registered hw hr htracked
  | startPass c =>
    intro d
    have hold := filter_eq_filter_of_imp (hr d) (fun e he => htracked e (hw.watchers_lt d e he))
      fun e he => htracked e (mem_registrationsFrom (Nat.zero_le _) he).2
    refine Eq.trans ?_ hold
    -- The pass takes off only watchers that are not alive.
    change ((w.store.prune c w.isAlive).watchers d).filter _ = _
    rw [Store.watchers_prune]
    split
    · exact filter_filter_of_imp fun e he ht =>
        (isTracked_iff.1 (htracked e (hw.watchers_lt d e he) ht)).1
    · rfl
  | assign c v =>
    exact hr.of_eq hw (fun d => Store.watchers_assign w.store c d v) (fun _ => rfl) htracked
  | deliver => exact hr.of_eq hw (fun _ => rfl) (registrationsFrom_deliver w _ _) htracked
  | _ => exact hr.of_eq hw (fun _ => rfl) (fun _ => rfl) htracked

/-- The invariant holds wherever a run gets. -/
theorem Evolves.registered {activity : Activity σ} {w w' : World σ} (h : Evolves activity w w')
    (hw : w.Sound) (hr : w.Registered) : w'.Registered :=
  (h.preserves (fun _ _ hmove (hP : World.Sound _ ∧ World.Registered _) =>
    ⟨hmove.sound hP.1, hmove.registered hP.1 hP.2⟩) ⟨hw, hr⟩).2

theorem World.registered_ofDocument (d : Document (Listener σ)) :
    (World.ofDocument d).Registered := fun _ => rfl

/-! ### Runs -/

/-- A scene reaches sound worlds only. -/
theorem Scene.sound_after (depth : Nat) (source : String) (steps : List Step) :
    (after depth (start source) steps).Sound :=
  (evolves_after depth _ steps).sound (World.sound_ofDocument _)

/-- The law of runs without registrations by hand. For every cell, the watchers that are alive are
the effects in order of their construction, each as often as the resolution of its path read the
cell when it was constructed. The records of constructions tell which cells these were, they never
change, and an effect that could not be constructed is not alive. -/
theorem liveWatchers_exact (depth : Nat) (source : String) (steps later : List Step)
    (h : (Scene.after depth (Scene.start source) steps).enlisted = []) :
    let w := Scene.after depth (Scene.start source) steps
    (∀ c, (w.store.watchers c).filter w.isAlive =
      ((List.range w.effects.size).flatMap fun e =>
        List.replicate (((w.effects[e]?.map Effect.watched).getD []).count c) e).filter w.isAlive) ∧
    (∀ (u : SceneWorld) path root gated reaction,
      ∃ effect, ((Act.newEffect path root gated reaction).runOn u).2.effects =
        u.effects.push effect ∧ effect.path = path ∧ effect.root = root ∧
          u.store.Reads (.mapping root) path.segments effect.watched) ∧
    (∀ (e : EffectId) effect, w.effects[e]? = some effect →
      ∃ m, (Scene.after depth w later).effects[e]? = some { effect with memory := m }) ∧
    ∀ (e : EffectId) effect, w.effects[e]? = some effect → effect.values = [] →
      w.isAlive e = false := by
  intro w
  have hsound : w.Sound := Scene.sound_after depth source steps
  have hregistered : w.Registered := (Scene.evolves_after depth _ steps).registered
    (World.sound_ofDocument _) (World.registered_ofDocument _)
  refine ⟨fun c => ?_, fun u path root gated reaction => ?_, fun e effect he => ?_,
    fun e effect he hvalues => ?_⟩
  -- Nobody was registered by hand, so every effect that is alive is tracked.
  · have htracked : w.isTracked = w.isAlive := by
      funext e
      rw [World.isTracked, h]
      simp
    have hrecords := hregistered c
    rw [htracked, World.registrationsFrom, Nat.sub_zero, ← List.range_eq_range'] at hrecords
    exact hrecords
  · refine ⟨u.record path root gated reaction, ?_, rfl, rfl, Store.reads_iff.1 rfl⟩
    rw [Act.runOn_newEffect]
    rfl
  · exact (Scene.evolves_after depth w later).later.effects_eq e effect he
  · refine Bool.eq_false_iff.2 fun halive => ?_
    obtain ⟨effect', heffect', hne⟩ := hsound.exists_effect e halive
    rw [he] at heffect'
    obtain ⟨⟩ := heffect'
    exact hne hvalues

/-- Two effects, one dropped again, and one that could not be constructed. -/
theorem liveWatchers_dropped_failed :
    let w := Scene.after callDepth (Scene.start "") [
      .model (.create "m" (.object [("a", .text "x")])),
      .effect (.create "d" "m" ⟨"a"⟩ false .done),
      .effect (.create "e" "m" ⟨"a"⟩ true .done),
      .effect (.create "f" "m" ⟨"a.b"⟩ false .done),
      .effect (.drop "d")]
    w.effects.map Effect.watched = #[[0], [0], [0]] ∧
      (w.store.watchers 0).filter w.isAlive = [1] := by
  intro w
  refine ⟨by decide +kernel, ?_⟩
  rw [(liveWatchers_exact callDepth "" _ [] (by decide +kernel)).1 0]
  decide +kernel

end LiveBinding
