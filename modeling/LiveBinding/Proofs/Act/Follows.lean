import LiveBinding.Act
import Mathlib.Order.Defs.Unbundled

/-!
# Acts that follow a relation

An act follows a relation between worlds if it leads every world to a related one, whether it
faults or not. For a reflexive and transitive relation this is closed under the ways to build an
act, so that a statement about an act is proved from its parts.

## Key results

- `rel_bind`: the step from an act to the rest, where the rest may use what the act gave
- `follows_bind`: the same when the rest is fine whatever the act gave
- `follows_forM`, `follows_foldlM`, `follows_mapM`: loops
- `Follows.mono`: a smaller relation is followed more rarely
- `Looks`: acts that change nothing
-/

namespace LiveBinding.Act

variable {σ α β : Type}

/-- Every world is related to the one that an act leaves. -/
def Follows (R : World σ → World σ → Prop) (act : Act σ α) : Prop := ∀ w, R w (act.runOn w).2

/-- The act changes nothing. -/
def Looks (act : Act σ α) : Prop := Follows Eq act

variable {R S : World σ → World σ → Prop}

/-- What follows a relation follows every larger one. -/
theorem Follows.mono {act : Act σ α} (h : Follows R act) (hRS : ∀ w w', R w w' → S w w') :
    Follows S act :=
  fun w => hRS w _ (h w)

/-- A change follows a relation if every world is related to the changed one. -/
theorem follows_modify {f : World σ → World σ} (h : ∀ w, R w (f w)) :
    Follows R (modify f : Act σ PUnit) :=
  fun w => h w

/-- Changing the result of an act changes nothing else. -/
theorem follows_map {x : Act σ α} (h : Follows R x) (f : α → β) : Follows R (f <$> x) := by
  intro w
  rw [runOn_map]
  exact h w

/-- An act that looks leaves the world as it is. -/
theorem Looks.runOn_snd {act : Act σ α} (h : Looks act) (w : World σ) : (act.runOn w).2 = w :=
  (h w).symm

/-- An act that looks and gives a result leaves the world in which it started. -/
theorem Looks.eq_of_runOn {act : Act σ α} (h : Looks act) {w w' : World σ} {r : Except Fault α}
    (hr : act.runOn w = (r, w')) : w' = w := by
  have := h.runOn_snd w
  rwa [hr] at this

/-- Looking at the world and then acting on what was seen. -/
theorem follows_bind_get {f : World σ → Act σ β} (hf : ∀ w, R w ((f w).runOn w).2) :
    Follows R (get >>= f) := by
  intro w
  rw [runOn_bind, runOn_get]
  exact hf w

/-- Catching a fault changes nothing. -/
theorem follows_attempt {x : Act σ α} (h : Follows R x) : Follows R x.attempt := by
  intro w
  have hw := h w
  rw [runOn_attempt]
  rcases hr : x.runOn w with ⟨f | a, w'⟩
  · rw [hr] at hw
    cases f <;> exact hw
  · rwa [hr] at hw

section Preorder

variable [IsPreorder (World σ) R]

/-- An act that looks follows every reflexive relation. -/
theorem Looks.follows {act : Act σ α} (h : Looks act) : Follows R act := by
  intro w
  rw [h.runOn_snd w]
  exact refl w

theorem follows_pure (a : α) : Follows R (pure a : Act σ α) := fun w => refl w

theorem follows_throw (f : Fault) : Follows R (throw f : Act σ α) := fun w => refl w

theorem follows_get : Follows R (get : Act σ (World σ)) := fun w => refl w

theorem follows_ofExcept (r : Except Fault α) : Follows R (ofExcept r : Act σ α) := fun w => refl w

/-- An act and then another one: the second starts where the first ended with a result. -/
theorem rel_bind {x : Act σ α} {f : α → Act σ β} {w : World σ} (hx : R w (x.runOn w).2)
    (hf : ∀ a w', x.runOn w = (.ok a, w') → R w' ((f a).runOn w').2) :
    R w ((x >>= f).runOn w).2 := by
  rw [runOn_bind]
  rcases h : x.runOn w with ⟨_ | a, w'⟩
  · rwa [h] at hx
  · rw [h] at hx
    exact IsTrans.trans _ _ _ hx (hf a w' h)

/-- An act and then another one that is fine in every world. -/
theorem follows_bind {x : Act σ α} {f : α → Act σ β} (hx : Follows R x)
    (hf : ∀ a, Follows R (f a)) : Follows R (x >>= f) :=
  fun w => rel_bind (hx w) fun a w' _ => hf a w'

/-- An act for each member of a list. -/
theorem follows_forM {f : β → Act σ PUnit} (hf : ∀ b, Follows R (f b)) (bs : List β) :
    Follows R (bs.forM f) := by
  induction bs with
  | nil => exact follows_pure _
  | cons b bs ih => exact follows_bind (hf b) fun _ => ih

/-- An act for each member of a list, the results chained. -/
theorem follows_foldlM {f : α → β → Act σ α} (hf : ∀ a b, Follows R (f a b)) (bs : List β) (a : α) :
    Follows R (bs.foldlM f a) := by
  induction bs generalizing a with
  | nil => exact follows_pure _
  | cons b bs ih =>
    rw [List.foldlM_cons]
    exact follows_bind (hf a b) fun a' => ih a'

/-- An act for each member of a list, the results collected. -/
theorem follows_mapM {f : β → Act σ α} (hf : ∀ b, Follows R (f b)) (bs : List β) :
    Follows R (bs.mapM f) := by
  induction bs with
  | nil =>
    rw [List.mapM_nil]
    exact follows_pure _
  | cons b bs ih =>
    rw [List.mapM_cons]
    exact follows_bind (hf b) fun _ => follows_bind ih fun _ => follows_pure _

end Preorder

end LiveBinding.Act
