import LiveBinding.Proofs.Evolution.Basic
import LiveBinding.Store.Lemmas

/-!
# What no evolution undoes

Effects are never removed, and only their memories change. Faults that ended a pass or a dispatch,
registrations by hand and changes by hand are never forgotten. Whatever begins a pass, a suspension
or a method also ends it.

## Key results

- `Evolves.later`: records only grow
- `Evolves.sameFrames`: the collectors, passes and receivers at the end are those at the start
-/

namespace LiveBinding

variable {σ : Type}

namespace World

/-- Reading registers at most the innermost collector, and changes nothing else. -/
theorem registerReads_eq (w : World σ) (cells : List CellId) :
    ∃ s, w.registerReads cells = { w with store := s } ∧ w.store.SameData s := by
  unfold registerReads
  split
  · rename_i e _ _
    exact ⟨_, rfl, Store.sameData_foldl_watch w.store cells e⟩
  · exact ⟨w.store, rfl, .refl _⟩

/-- Where an assignment finds no key, there is none after the reads either. -/
theorem vacant_registerReads {w : World σ} {cells : List CellId} {path : KeyPath} {v : Value}
    {segment : String} {place : Place} (h : w.store.place path v segment = .ok place) :
    (w.registerReads cells).store.Vacant place := by
  obtain ⟨s, hs, hd⟩ := w.registerReads_eq cells
  rw [hs]
  exact Store.vacant_of_place ((hd.place_eq path v segment).trans h)

/-- Without a collector, reading changes nothing. -/
theorem registerReads_eq_self {w : World σ} (h : ∀ x ∈ w.collectors, x = none)
    (cells : List CellId) : w.registerReads cells = w := by
  unfold registerReads
  split
  · rename_i e _ hc
    rw [hc] at h
    exact absurd (h (some e) (List.mem_cons_self ..)) (by simp)
  · rfl

theorem effects_deliver (w : World σ) (e e' : EffectId) (v : Value) :
    (w.deliver e v).effects[e']? =
      if e = e' then (w.effects[e']?).map (·.receive v) else w.effects[e']? := by
  simp [deliver, modifyEffect, Array.getElem?_modify]

theorem effects_deliver_self {w : World σ} {e : EffectId} {effect : Effect σ}
    (h : w.effects[e]? = some effect) (v : Value) :
    (w.deliver e v).effects[e]? = some (effect.receive v) := by
  rw [effects_deliver, if_pos rfl, h]
  rfl

@[simp] theorem size_effects_deliver (w : World σ) (e : EffectId) (v : Value) :
    (w.deliver e v).effects.size = w.effects.size := by
  simp [deliver, modifyEffect]

/-- The records of the second world go on from those of the first. -/
structure Later (w w' : World σ) : Prop where
  cells_le : w.store.cells.size ≤ w'.store.cells.size
  size_le : w.effects.size ≤ w'.effects.size
  effects_eq : ∀ (e : EffectId) (effect : Effect σ), w.effects[e]? = some effect →
    ∃ m, w'.effects[e]? = some { effect with memory := m }
  abortedPasses_le : w.abortedPasses ≤ w'.abortedPasses
  abortedDispatches_le : w.abortedDispatches ≤ w'.abortedDispatches
  enlisted_subset : w.enlisted ⊆ w'.enlisted
  touched_eq : ∃ new, w'.touched = new ++ w.touched
  changes_suffix : w.changes <:+ w'.changes
  moments_suffix : w.moments <:+ w'.moments

theorem Later.refl (w : World σ) : Later w w :=
  ⟨Nat.le_refl _, Nat.le_refl _, fun _ effect he => ⟨effect.memory, he⟩, Nat.le_refl _,
    Nat.le_refl _, fun _ h => h, ⟨[], rfl⟩, List.suffix_rfl, List.suffix_rfl⟩

theorem Later.trans {w₁ w₂ w₃ : World σ} (h : Later w₁ w₂) (h' : Later w₂ w₃) : Later w₁ w₃ where
  cells_le := Nat.le_trans h.cells_le h'.cells_le
  size_le := Nat.le_trans h.size_le h'.size_le
  effects_eq e effect he := by
    obtain ⟨m, hm⟩ := h.effects_eq e effect he
    obtain ⟨m', hm'⟩ := h'.effects_eq e _ hm
    exact ⟨m', hm'⟩
  abortedPasses_le := Nat.le_trans h.abortedPasses_le h'.abortedPasses_le
  abortedDispatches_le := Nat.le_trans h.abortedDispatches_le h'.abortedDispatches_le
  enlisted_subset := fun _ he => h'.enlisted_subset (h.enlisted_subset he)
  touched_eq := by
    obtain ⟨new, hnew⟩ := h.touched_eq
    obtain ⟨new', hnew'⟩ := h'.touched_eq
    exact ⟨new' ++ new, by rw [hnew', hnew, List.append_assoc]⟩
  changes_suffix := h.changes_suffix.trans h'.changes_suffix
  moments_suffix := h.moments_suffix.trans h'.moments_suffix

/-- Effects stay as they are, and nothing is forgotten. -/
theorem later_of_eq {w w' : World σ} (hc : w.store.cells.size ≤ w'.store.cells.size)
    (he : w'.effects = w.effects) (hp : w.abortedPasses ≤ w'.abortedPasses)
    (hd : w.abortedDispatches ≤ w'.abortedDispatches) (hen : w.enlisted ⊆ w'.enlisted)
    (ht : ∃ new, w'.touched = new ++ w.touched) (hch : w.changes <:+ w'.changes)
    (hm : w.moments <:+ w'.moments) : Later w w' :=
  ⟨hc, Nat.le_of_eq (by rw [he]), fun _ effect h => ⟨effect.memory, by rw [he]; exact h⟩, hp, hd,
    hen, ht, hch, hm⟩

theorem later_store (w : World σ) {s : Store} (h : w.store.cells.size ≤ s.cells.size) :
    Later w { w with store := s } :=
  later_of_eq h rfl (Nat.le_refl _) (Nat.le_refl _) (fun _ h => h) ⟨[], rfl⟩ List.suffix_rfl
    List.suffix_rfl

theorem later_turn (w : World σ) {s : Store} (h : w.store.cells.size ≤ s.cells.size) :
    Later w (w.turn s) :=
  later_of_eq h rfl (Nat.le_refl _) (Nat.le_refl _) (fun _ h => h) ⟨[], rfl⟩ (List.suffix_cons _ _)
    List.suffix_rfl

theorem later_registerReads (w : World σ) (cells : List CellId) :
    Later w (w.registerReads cells) := by
  obtain ⟨s, hs, hd⟩ := w.registerReads_eq cells
  rw [hs]
  exact later_store w (Nat.le_of_eq hd.size_eq.symm)

theorem later_assign (w : World σ) (c : CellId) (v : Value) : Later w (w.assign c v) :=
  later_turn w (by simp [Store.assign])

theorem later_startPass (w : World σ) (c : CellId) : Later w (w.startPass c) :=
  later_of_eq (by simp [startPass, Store.prune]) rfl (Nat.le_refl _) (Nat.le_refl _) (fun _ h => h)
    ⟨[], rfl⟩ List.suffix_rfl List.suffix_rfl

theorem later_hold (w : World σ) (e : EffectId) : Later w (w.hold e) :=
  later_of_eq (Nat.le_refl _) rfl (Nat.le_refl _) (Nat.le_refl _) (fun _ h => h)
    ⟨[], rfl⟩ List.suffix_rfl List.suffix_rfl

theorem later_endPass (w : World σ) : Later w w.endPass :=
  later_of_eq (Nat.le_refl _) rfl (Nat.le_refl _) (Nat.le_refl _) (fun _ h => h)
    ⟨[], rfl⟩ List.suffix_rfl List.suffix_rfl

theorem later_abortPass (w : World σ) : Later w w.abortPass :=
  later_of_eq (Nat.le_refl _) rfl (Nat.le_succ _) (Nat.le_refl _) (fun _ h => h)
    ⟨[], rfl⟩ List.suffix_rfl List.suffix_rfl

theorem later_abortDispatch (w : World σ) : Later w w.abortDispatch :=
  later_of_eq (Nat.le_refl _) rfl (Nat.le_refl _) (Nat.le_succ _) (fun _ h => h)
    ⟨[], rfl⟩ List.suffix_rfl List.suffix_rfl

theorem later_begin (w : World σ) : Later w w.begin :=
  later_of_eq (Nat.le_refl _) rfl (Nat.le_refl _) (Nat.le_refl _) (fun _ h => h)
    ⟨[], rfl⟩ List.suffix_rfl (List.suffix_cons _ _)

theorem later_frames (w : World σ) (collectors : List (Option EffectId))
    (receivers : List ViewModelId) :
    Later w { w with collectors := collectors, receivers := receivers } :=
  later_of_eq (Nat.le_refl _) rfl (Nat.le_refl _) (Nat.le_refl _) (fun _ h => h)
    ⟨[], rfl⟩ List.suffix_rfl List.suffix_rfl

theorem later_writeSink (w : World σ) (sink : Sink) (node : NodeRef) (s : String) :
    Later w (w.writeSink sink node s) :=
  later_of_eq (Nat.le_refl _) rfl (Nat.le_refl _) (Nat.le_refl _) (fun _ h => h)
    ⟨[], rfl⟩ List.suffix_rfl List.suffix_rfl

theorem later_deliver (w : World σ) (e : EffectId) (v : Value) : Later w (w.deliver e v) where
  cells_le := Nat.le_refl _
  size_le := Nat.le_of_eq (size_effects_deliver w e v).symm
  effects_eq e' effect he := by
    rw [effects_deliver, he]
    split
    · exact ⟨effect.memory.receive v, rfl⟩
    · exact ⟨effect.memory, rfl⟩
  abortedPasses_le := Nat.le_refl _
  abortedDispatches_le := Nat.le_refl _
  enlisted_subset := fun _ h => h
  touched_eq := ⟨[], rfl⟩
  changes_suffix := List.suffix_rfl
  moments_suffix := List.suffix_rfl

theorem lt_size_of_effect {w : World σ} {e : EffectId} {effect : Effect σ}
    (h : w.effects[e]? = some effect) : e < w.effects.size := by
  apply Nat.lt_of_not_le
  intro hle
  rw [Array.getElem?_eq_none hle] at h
  cases h

/-- Growing leaves the effects that are there as they are. -/
theorem Grows.effect_eq {n : Nat} {w w' : World σ} (h : Grows n w w') {e : EffectId}
    {effect : Effect σ} (he : w.effects[e]? = some effect) : w'.effects[e]? = some effect := by
  rw [h.effects_eq e (lt_size_of_effect he), he]

theorem Grows.later {n : Nat} {w w' : World σ} (h : Grows n w w') : Later w w' where
  cells_le := Nat.le_of_eq h.sameData.size_eq.symm
  size_le := h.size_le
  effects_eq e effect he := ⟨effect.memory, h.effect_eq he⟩
  abortedPasses_le := Nat.le_of_eq h.abortedPasses_eq.symm
  abortedDispatches_le := Nat.le_of_eq h.abortedDispatches_eq.symm
  enlisted_subset := by rw [h.enlisted_eq]; exact fun _ h => h
  touched_eq := ⟨[], h.touched_eq⟩
  changes_suffix := h.changes_eq ▸ List.suffix_rfl
  moments_suffix := h.moments_eq ▸ List.suffix_rfl

/-- The collectors, passes and receivers are the same. -/
structure SameFrames (w w' : World σ) : Prop where
  collectors_eq : w'.collectors = w.collectors
  passes_eq : w'.passes = w.passes
  receivers_eq : w'.receivers = w.receivers

theorem SameFrames.refl (w : World σ) : SameFrames w w := ⟨rfl, rfl, rfl⟩

theorem SameFrames.trans {w₁ w₂ w₃ : World σ} (h : SameFrames w₁ w₂) (h' : SameFrames w₂ w₃) :
    SameFrames w₁ w₃ :=
  ⟨h'.collectors_eq.trans h.collectors_eq, h'.passes_eq.trans h.passes_eq,
    h'.receivers_eq.trans h.receivers_eq⟩

/-- The frames of a world that differs from the first in other things. -/
theorem SameFrames.of_eq {w u w' : World σ} (h : SameFrames u w')
    (hc : u.collectors = w.collectors) (hp : u.passes = w.passes)
    (hr : u.receivers = w.receivers) : SameFrames w w' :=
  ⟨h.collectors_eq.trans hc, h.passes_eq.trans hp, h.receivers_eq.trans hr⟩

theorem sameFrames_registerReads (w : World σ) (cells : List CellId) :
    SameFrames w (w.registerReads cells) := by
  obtain ⟨s, hs, -⟩ := w.registerReads_eq cells
  rw [hs]
  exact ⟨rfl, rfl, rfl⟩

/-- What begins a pass also ends it. -/
theorem SameFrames.endPass {w w' : World σ} {c : CellId}
    (h : SameFrames (w.startPass c) w') : SameFrames w w'.endPass :=
  ⟨h.collectors_eq, by rw [World.endPass, h.passes_eq]; rfl, h.receivers_eq⟩

/-- What begins an update also ends it. -/
theorem SameFrames.release {w w' : World σ} {e : EffectId} (h : SameFrames (w.hold e) w') :
    SameFrames w w'.endPass :=
  ⟨h.collectors_eq, by rw [World.endPass, h.passes_eq]; rfl, h.receivers_eq⟩

theorem SameFrames.abortPass {w w' : World σ} {c : CellId}
    (h : SameFrames (w.startPass c) w') : SameFrames w w'.abortPass :=
  ⟨h.collectors_eq, by rw [World.abortPass, h.passes_eq]; rfl, h.receivers_eq⟩

end World

open World

theorem Change.later {w w' : World σ} (h : Change w w') : Later w w' := by
  cases h with
  | read cells => exact later_registerReads _ cells
  | note =>
    exact later_of_eq (Nat.le_refl _) rfl (Nat.le_refl _) (Nat.le_refl _) (fun _ h => h)
      ⟨[], rfl⟩ List.suffix_rfl List.suffix_rfl
  | extend h => exact later_turn _ h.size_le
  | deliver => exact later_deliver _ _ _
  | display => exact (later_deliver _ _ _).trans (later_writeSink _ _ _ _)
  | redraw =>
    exact later_of_eq (Nat.le_refl _) rfl (Nat.le_refl _) (Nat.le_refl _) (fun _ h => h)
      ⟨_, rfl⟩ List.suffix_rfl List.suffix_rfl
  | rename =>
    exact later_of_eq (Nat.le_refl _) rfl (Nat.le_refl _) (Nat.le_refl _) (fun _ h => h)
      ⟨[], rfl⟩ List.suffix_rfl List.suffix_rfl
  | construct h => exact h.grows.later
  | enlist =>
    exact later_of_eq (by simp [Store.watch]) rfl (Nat.le_refl _) (Nat.le_refl _)
      (fun _ h => List.mem_cons_of_mem _ h) ⟨[], rfl⟩ List.suffix_rfl List.suffix_rfl
  | abortDispatch => exact later_abortDispatch _
  | begin => exact later_begin _

theorem Change.sameFrames {w w' : World σ} (h : Change w w') : SameFrames w w' := by
  cases h with
  | read cells => exact sameFrames_registerReads _ cells
  | construct h => exact ⟨h.grows.collectors_eq, h.grows.passes_eq, h.grows.receivers_eq⟩
  | _ => exact ⟨rfl, rfl, rfl⟩

theorem World.Falters.later {w w' : World σ} (h : w.Falters w') : Later w w' := by
  cases h with
  | still => exact .refl w
  | deliver => exact later_deliver _ _ _

theorem World.Falters.sameFrames {w w' : World σ} (h : w.Falters w') : SameFrames w w' := by
  cases h <;> exact ⟨rfl, rfl, rfl⟩

/-- Whatever goes on, records only grow. -/
theorem Evolves.later {activity : Activity σ} {w w' : World σ} (h : Evolves activity w w') :
    Later w w' := by
  -- Every rule is a chain of operations, each of which only adds to the records.
  induction h with
  | refl w => exact .refl w
  | trans _ _ ih ih' => exact ih.trans ih'
  | change h => exact h.later
  | suspended _ ih => exact ((later_frames _ _ _).trans ih).trans (later_frames _ _ _)
  | method _ _ ih => exact ((later_frames _ _ _).trans ih).trans (later_frames _ _ _)
  | held _ _ ih => exact ((later_hold _ _).trans ih).trans (later_endPass _)
  | set _ ih => exact ih
  | assigned _ ih => exact ih
  | pass _ ih => exact ((later_startPass _ _).trans ih).trans (later_endPass _)
  | abortedPass _ hend ih =>
    exact (((later_startPass _ _).trans ih).trans hend.later).trans (later_abortPass _)
  | abortedSet _ _ hend ih =>
    exact ((((later_assign _ _ _).trans (later_startPass _ _)).trans ih).trans hend.later).trans
      (later_abortPass _)
  | typed _ ih => exact (later_writeSink _ _ _ _).trans ih
  | abortedTyped _ ih =>
    exact ((later_writeSink _ _ _ _).trans ih).trans (later_abortDispatch _)
  | setSame => exact .refl _
  | setNew _ _ ih =>
    exact (((later_assign _ _ _).trans (later_startPass _ _)).trans ih).trans (later_endPass _)
  | assign _ _ _ ih => exact (later_registerReads _ _).trans ih
  | assignKey =>
    exact (later_registerReads _ _).trans (later_turn _ (by simp))
  | assignItem =>
    exact (later_registerReads _ _).trans (later_turn _ (Store.extends_append _ _ _).size_le)
  | visited w => exact .refl w
  | visitNone _ _ ih => exact ih
  | visitSame _ _ _ _ _ ih => exact ih
  | visitRun _ _ _ _ _ ih₁ ih => exact ((later_deliver _ _ _).trans ih₁).trans ih
  | visitShow _ _ _ _ _ ih =>
    exact ((later_deliver _ _ _).trans (later_writeSink _ _ _ _)).trans ih
  | heard w => exact .refl w
  | hear _ _ _ ih₁ ih => exact ih₁.trans ih
  | writeBack _ _ ih₁ ih => exact ih₁.trans ih

/-- Whatever begins a pass, a suspension or a method also ends it. -/
theorem Evolves.sameFrames {activity : Activity σ} {w w' : World σ} (h : Evolves activity w w') :
    SameFrames w w' := by
  -- Whoever pushes a frame pops it: the rules for passes, suspensions and methods.
  induction h with
  | refl w => exact .refl w
  | trans _ _ ih ih' => exact ih.trans ih'
  | change h => exact h.sameFrames
  | suspended _ ih =>
    exact ⟨by rw [resume, ih.collectors_eq]; rfl, ih.passes_eq, ih.receivers_eq⟩
  | method _ _ ih =>
    exact ⟨ih.collectors_eq, ih.passes_eq, by rw [leaveMethod, ih.receivers_eq]; rfl⟩
  | held _ _ ih => exact ih.release
  | set _ ih => exact ih
  | assigned _ ih => exact ih
  | pass _ ih => exact ih.endPass
  | abortedPass _ hend ih => exact (ih.trans hend.sameFrames).abortPass
  | abortedSet _ _ hend ih => exact (ih.trans hend.sameFrames).abortPass.of_eq rfl rfl rfl
  | typed _ ih => exact ih.of_eq rfl rfl rfl
  | abortedTyped _ ih => exact ⟨ih.collectors_eq, ih.passes_eq, ih.receivers_eq⟩
  | setSame => exact .refl _
  | setNew _ _ ih => exact ih.endPass.of_eq rfl rfl rfl
  | assign _ _ _ ih => exact (sameFrames_registerReads _ _).trans ih
  | assignKey => exact (sameFrames_registerReads _ _).trans ⟨rfl, rfl, rfl⟩
  | assignItem => exact (sameFrames_registerReads _ _).trans ⟨rfl, rfl, rfl⟩
  | visited w => exact .refl w
  | visitNone _ _ ih => exact ih
  | visitSame _ _ _ _ _ ih => exact ih
  | visitRun _ _ _ _ _ ih₁ ih => exact (ih₁.trans ih).of_eq rfl rfl rfl
  | visitShow _ _ _ _ _ ih => exact ih.of_eq rfl rfl rfl
  | heard w => exact .refl w
  | hear _ _ _ ih₁ ih => exact ih₁.trans ih
  | writeBack _ _ ih₁ ih => exact ih₁.trans ih

/-- The records go on and the frames are the same, as every evolution leaves them. -/
structure World.Evolved (w w' : World σ) : Prop where
  later : Later w w'
  sameFrames : SameFrames w w'

theorem World.Evolved.refl (w : World σ) : w.Evolved w := ⟨.refl w, .refl w⟩

theorem World.Evolved.trans {w₁ w₂ w₃ : World σ} (h : w₁.Evolved w₂) (h' : w₂.Evolved w₃) :
    w₁.Evolved w₃ :=
  ⟨h.later.trans h'.later, h.sameFrames.trans h'.sameFrames⟩

theorem Evolves.evolved {activity : Activity σ} {w w' : World σ} (h : Evolves activity w w') :
    w.Evolved w' :=
  ⟨h.later, h.sameFrames⟩

end LiveBinding
