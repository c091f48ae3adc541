import LiveBinding.Proofs.Act.Follows

/-!
# Acts in turn

A loop runs an act for each member of a list, each in the world that the one before it left.
`InTurn act as w w'` says that all of them succeed and lead from `w` to `w'`. The list is fixed
before the first act runs: whatever the acts do, no other act is run.

## Key results

- `inTurn_iff`, `inTurn_error_iff`: how a loop ends, and where it is cut off
- `InTurn.follows`: what each act keeps, all of them keep
-/

namespace LiveBinding.Act

variable {σ α : Type} {act : α → Act σ PUnit}

/-- Acts for the members of a list that succeed, one after the other: each starts in the world that
the one before it left. -/
inductive InTurn (act : α → Act σ PUnit) : List α → World σ → World σ → Prop
  | nil (w : World σ) : InTurn act [] w w
  | cons {a : α} {as : List α} {w w₁ w₂ : World σ} (first : (act a).runOn w = (.ok ⟨⟩, w₁))
      (rest : InTurn act as w₁ w₂) : InTurn act (a :: as) w w₂

theorem runOn_forM_cons (act : α → Act σ PUnit) (a : α) (as : List α) (w : World σ) :
    ((a :: as).forM act).runOn w =
      match (act a).runOn w with
      | (.ok _, w₁) => (as.forM act).runOn w₁
      | (.error f, w₁) => (.error f, w₁) := by
  change (act a >>= fun _ => as.forM act).runOn w = _
  rw [runOn_bind]
  rcases (act a).runOn w with ⟨_ | _, _⟩ <;> rfl

/-- A loop succeeds exactly if all of its acts do. -/
theorem inTurn_iff {as : List α} {w w' : World σ} :
    (as.forM act).runOn w = (.ok ⟨⟩, w') ↔ InTurn act as w w' := by
  induction as generalizing w with
  | nil =>
    constructor
    · intro h
      obtain ⟨-, rfl⟩ := Prod.mk.inj h
      exact .nil w
    · rintro ⟨⟩
      rfl
  | cons a as ih =>
    rw [runOn_forM_cons]
    -- The loop goes on exactly if the first act succeeds.
    rcases hfirst : (act a).runOn w with ⟨f | ⟨⟨⟩⟩, w₁⟩
    · constructor
      · intro h
        cases h
      · rintro (_ | ⟨first, -⟩)
        rw [hfirst] at first
        cases first
    · dsimp only
      rw [ih]
      constructor
      · exact fun rest => .cons hfirst rest
      · rintro (_ | ⟨first, rest⟩)
        rw [hfirst] at first
        obtain ⟨-, rfl⟩ := Prod.mk.inj first
        exact rest

/-- A loop faults exactly if its acts succeed up to one that faults; what comes after it is not
run. -/
theorem inTurn_error_iff {as : List α} {w w' : World σ} {f : Fault} :
    (as.forM act).runOn w = (.error f, w') ↔
      ∃ done a rest w₁, as = done ++ a :: rest ∧ InTurn act done w w₁ ∧
        (act a).runOn w₁ = (.error f, w') := by
  induction as generalizing w with
  | nil =>
    constructor
    · intro h
      cases h
    · rintro ⟨done, a, rest, w₁, h, -, -⟩
      simp at h
  | cons a as ih =>
    rw [runOn_forM_cons]
    simp only [List.cons_eq_append_iff]
    rcases hfirst : (act a).runOn w with ⟨g | ⟨⟨⟩⟩, w₂⟩
    -- The first act faults: none has succeeded before it.
    · constructor
      · intro h
        exact ⟨[], a, as, w, .inl ⟨rfl, rfl⟩, .nil w, hfirst.trans h⟩
      · rintro ⟨done, b, rest, w₁, ⟨rfl, h⟩ | ⟨done', rfl, -⟩, hdone, hfault⟩
        · obtain ⟨rfl, rfl⟩ := List.cons.inj h
          cases hdone
          rw [← hfault, hfirst]
        · cases hdone with
          | cons first _ =>
            rw [hfirst] at first
            cases first
    -- The first act succeeds: it joins those that succeed before the fault.
    · dsimp only
      rw [ih]
      constructor
      · rintro ⟨done, b, rest, w₁, rfl, hdone, hfault⟩
        exact ⟨a :: done, b, rest, w₁, .inr ⟨done, rfl, rfl⟩, .cons hfirst hdone, hfault⟩
      · rintro ⟨done, b, rest, w₁, ⟨rfl, h⟩ | ⟨done', rfl, rfl⟩, hdone, hfault⟩
        · obtain ⟨rfl, rfl⟩ := List.cons.inj h
          cases hdone
          rw [hfirst] at hfault
          cases hfault
        · cases hdone with
          | cons first hdone =>
            rw [hfirst] at first
            obtain ⟨-, rfl⟩ := Prod.mk.inj first
            exact ⟨done', b, rest, w₁, rfl, hdone, hfault⟩

/-- What every act follows, a chain of them follows. -/
theorem InTurn.follows {R : World σ → World σ → Prop} [IsPreorder (World σ) R]
    (hact : ∀ a, Follows R (act a)) {as : List α} {w w' : World σ} (h : InTurn act as w w') :
    R w w' := by
  have hloop := follows_forM hact as w
  rwa [inTurn_iff.2 h] at hloop

end LiveBinding.Act
