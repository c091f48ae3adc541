import LiveBinding.Proofs.Evolution.Sound

/-!
# Moments of a run

A run notes the moments at which templates begin to be compiled. A moment that was noted precedes
every world that the run gets to later: there are at least as many effects, no effect has come back
to life, no more has been forgotten. So a statement about what has happened since a compilation can
be read off the world at the end, also if the compilation was made by user code, in the middle of a
pass.

Steady worlds put together what every move preserves: they are sound, the moments that they have
noted precede them, and only effects without a place were registered by hand.

## Key definitions

- `Moment.Precedes`: a world that comes after a moment
- `Moment.Quiet`: no fault has ended a pass or a dispatch since, and nobody has changed a node by
  hand
- `World.Continues`: a world that a run gets to from another one
- `World.Steady`

## Key results

- `Move.precedes`: what preceded a world still precedes the next one
- `Move.steady`, `Evolves.steady`: steadiness is preserved
- `Moment.Quiet.of_later`: what is quiet now was quiet before
-/

namespace LiveBinding

variable {σ : Type}

open World Relation

/-! ### What comes after a moment -/

/-- A world comes after a moment. -/
structure Moment.Precedes (s : Moment) (w : World σ) : Prop where
  size_le : s.size ≤ w.effects.size
  mem_alive : ∀ e, e < s.size → w.isAlive e = true → e ∈ s.alive
  touched_suffix : s.touched <:+ w.touched
  abortedPasses_le : s.abortedPasses ≤ w.abortedPasses
  abortedDispatches_le : s.abortedDispatches ≤ w.abortedDispatches
  changes_le : s.changes ≤ w.changes.length

/-- The moments that were noted precede the world. -/
def World.Dated (w : World σ) : Prop := ∀ s ∈ w.moments, s.Precedes w

theorem World.precedes_moment (w : World σ) : w.moment.Precedes w where
  size_le := Nat.le_refl _
  mem_alive _ he halive := List.mem_filter.2 ⟨List.mem_range.2 he, halive⟩
  touched_suffix := List.suffix_rfl
  abortedPasses_le := Nat.le_refl _
  abortedDispatches_le := Nat.le_refl _
  changes_le := Nat.le_refl _

/-- What preceded a world precedes the next one. -/
theorem Move.precedes {w w' : World σ} (h : Move w w') {s : Moment} (hs : s.Precedes w) :
    s.Precedes w' where
  size_le := Nat.le_trans hs.size_le h.later.size_le
  mem_alive e he halive :=
    hs.mem_alive e he (h.isAlive_of (Nat.lt_of_lt_of_le he hs.size_le) halive)
  touched_suffix := by
    obtain ⟨new, hnew⟩ := h.later.touched_eq
    exact hs.touched_suffix.trans ⟨new, hnew.symm⟩
  abortedPasses_le := Nat.le_trans hs.abortedPasses_le h.later.abortedPasses_le
  abortedDispatches_le := Nat.le_trans hs.abortedDispatches_le h.later.abortedDispatches_le
  changes_le := Nat.le_trans hs.changes_le h.later.changes_suffix.length_le

/-- A move notes the moment, or it leaves the moments that were noted. -/
theorem Move.moments_eq_or {w w' : World σ} (h : Move w w') :
    w'.moments = w.moments ∨ w' = w.begin := by
  cases h with
  | change h =>
    cases h with
    | read cells =>
      obtain ⟨s, hs, -⟩ := w.registerReads_eq cells
      exact .inl (by rw [hs])
    | construct h => exact .inl h.grows.moments_eq
    | begin => exact .inr rfl
    | _ => exact .inl rfl
  | _ => exact .inl rfl

/-- A moment was noted before, or it is the one that is noted now. -/
theorem Move.mem_moments {w w' : World σ} (h : Move w w') {s : Moment} (hs : s ∈ w'.moments) :
    s ∈ w.moments ∨ s = w.moment ∧ w' = w.begin := by
  rcases h.moments_eq_or with heq | rfl
  · exact .inl (heq ▸ hs)
  · exact (List.mem_cons.1 hs).symm.imp_right fun heq => ⟨heq, rfl⟩

theorem Move.dated {w w' : World σ} (h : Move w w') (hw : w.Dated) : w'.Dated := by
  intro s hs
  rcases h.mem_moments hs with hold | ⟨rfl, -⟩
  · exact h.precedes (hw s hold)
  · exact h.precedes w.precedes_moment

/-! ### Effects that were registered by hand -/

/-- Only effects without a place were registered by hand. -/
def World.EnlistsPlaceless (w : World σ) : Prop :=
  ∀ e ∈ w.enlisted, ∃ effect, w.effects[e]? = some effect ∧ effect.place? = none

theorem Move.enlistsPlaceless {w w' : World σ} (h : Move w w') (hw : w.Sound)
    (hp : w.EnlistsPlaceless) : w'.EnlistsPlaceless := by
  have hold : ∀ e ∈ w.enlisted, ∃ effect, w'.effects[e]? = some effect ∧ effect.place? = none := by
    intro e he
    obtain ⟨effect, heffect, hplace⟩ := hp e he
    obtain ⟨m, hm⟩ := h.later.effects_eq e effect heffect
    exact ⟨_, hm, hplace⟩
  cases h with
  | change h =>
    cases h with
    | read cells =>
      rw [hw.registerReads_eq]
      exact hp
    | construct h =>
      intro e he
      rw [h.grows.enlisted_eq] at he
      exact hold e he
    | @enlist c f hf =>
      intro e he
      rcases List.mem_cons.1 he with rfl | he
      · exact hw.placeless f hf
      · exact hold e he
    | _ => exact hold
  | _ => exact hold

/-! ### Steady worlds -/

/-- What every move preserves. -/
structure World.Steady (w : World σ) : Prop where
  sound : w.Sound
  placeless : w.EnlistsPlaceless
  dated : w.Dated

theorem Move.steady {w w' : World σ} (h : Move w w') (hw : w.Steady) : w'.Steady :=
  ⟨h.sound hw.sound, h.enlistsPlaceless hw.sound hw.placeless, h.dated hw.dated⟩

/-- Steadiness holds wherever a run gets. -/
theorem Evolves.steady {activity : Activity σ} {w w' : World σ} (h : Evolves activity w w')
    (hw : w.Steady) : w'.Steady :=
  h.preserves (fun _ _ hmove hw => hmove.steady hw) hw

/-- The world in which a run starts is steady. -/
theorem World.steady_ofDocument (d : Document (Listener σ)) : (World.ofDocument d).Steady where
  sound := sound_ofDocument d
  placeless _ he := by cases he
  dated s hs := by
    obtain rfl := List.mem_singleton.1 hs
    exact ⟨Nat.le_refl _, fun _ he => absurd he (Nat.not_lt_zero _), List.suffix_rfl,
      Nat.le_refl _, Nat.le_refl _, Nat.le_refl _⟩

/-! ### Quiet times -/

/-- Since a moment no fault has ended a pass or a dispatch, and no request has changed the node by
hand. -/
structure Moment.Quiet (s : Moment) (node : NodeRef) (w : World σ) : Prop where
  abortedPasses_eq : w.abortedPasses = s.abortedPasses
  abortedDispatches_eq : w.abortedDispatches = s.abortedDispatches
  touched_eq : w.touched.count node = s.touched.count node

instance (s : Moment) (node : NodeRef) (w : World σ) : Decidable (s.Quiet node w) :=
  decidable_of_iff (w.abortedPasses = s.abortedPasses ∧
      w.abortedDispatches = s.abortedDispatches ∧ w.touched.count node = s.touched.count node)
    ⟨fun h => ⟨h.1, h.2.1, h.2.2⟩, fun h => ⟨h.1, h.2, h.3⟩⟩

/-- What is quiet now was quiet before. -/
theorem Moment.Quiet.of_later {s : Moment} {node : NodeRef} {w w' : World σ}
    (h : s.Quiet node w') (hs : s.Precedes w) (hl : Later w w') : s.Quiet node w := by
  obtain ⟨new, hnew⟩ := hl.touched_eq
  have hcount : w.touched.count node ≤ w'.touched.count node := by
    rw [hnew, List.count_append]
    exact Nat.le_add_left _ _
  exact
    { abortedPasses_eq := Nat.le_antisymm
        (h.abortedPasses_eq ▸ hl.abortedPasses_le) hs.abortedPasses_le
      abortedDispatches_eq := Nat.le_antisymm
        (h.abortedDispatches_eq ▸ hl.abortedDispatches_le) hs.abortedDispatches_le
      touched_eq := Nat.le_antisymm (h.touched_eq ▸ hcount)
        (hs.touched_suffix.sublist.count_le node) }

/-- A node is none of those that were changed by hand in a quiet time. -/
theorem Moment.Quiet.notMem {s : Moment} {node : NodeRef} {w w' : World σ} {new : List NodeRef}
    (h : s.Quiet node w') (hs : s.Precedes w) (hl : Later w w')
    (hnew : w'.touched = new ++ w.touched) : node ∉ new := by
  have hcount := h.touched_eq.trans (h.of_later hs hl).touched_eq.symm
  rw [hnew, List.count_append] at hcount
  exact List.count_eq_zero.1 (Nat.add_eq_right.1 hcount)

/-! ### What a run gets to -/

/-- A run has gone on from one world to the other. -/
structure World.Continues (w w' : World σ) : Prop where
  later : w.Later w'
  documentsKeep : w.DocumentsKeep (fun _ _ => True) w'

theorem World.Continues.trans {w₁ w₂ w₃ : World σ} (h : w₁.Continues w₂) (h' : w₂.Continues w₃) :
    w₁.Continues w₃ :=
  ⟨h.later.trans h'.later, h.documentsKeep.trans h'.documentsKeep⟩

theorem World.continues_of_moves {w w' : World σ} (h : ReflTransGen Move w w') : w.Continues w' :=
  ⟨later_of_moves h, documentsKeep_of_moves h⟩

theorem Evolves.continues {activity : Activity σ} {w w' : World σ} (h : Evolves activity w w') :
    w.Continues w' :=
  continues_of_moves h.moves

end LiveBinding
