import LiveBinding.Proofs.Evolution.Scene
import LiveBinding.Proofs.Evolution.Sound

/-!
# Who owns the effects of a view model

The effects of a view model's bindings are its own: no name and no scope holds them, and no other
view model binds them. This is an invariant of every move, because effects stay with the owners
that they have, and only effects that are constructed at the same moment get a new one.

So when a view model is no longer in use and no pass is running, nothing keeps its effects alive,
and neither the view model nor its effects ever come back.

## Key results

- `Move.owned`, `Evolves.owned`: the invariant
- `Move.isViewModelAlive_of`: a view model that is not in use stays so
- `Owned.dropped`: the effects of a view model that is not in use are dead
-/

namespace LiveBinding

variable {σ : Type}

namespace World

/-- The effects that a view model binds belong to it and to nothing else. -/
structure Owned (w : World σ) : Prop where
  lt_size : ∀ (vm : ViewModelId) (record : ViewModel), w.viewModels[vm]? = some record →
    ∀ e ∈ record.bindings.effects, e < w.effects.size
  not_isHeld : ∀ (vm : ViewModelId) (record : ViewModel), w.viewModels[vm]? = some record →
    ∀ e ∈ record.bindings.effects, ¬ w.IsHeld e
  eq_of_mem : ∀ (vm vm' : ViewModelId) (record record' : ViewModel),
    w.viewModels[vm]? = some record → w.viewModels[vm']? = some record' →
      ∀ e ∈ record.bindings.effects, e ∈ record'.bindings.effects → vm = vm'

/-- New owners get new effects only, so they cannot take those of a view model. -/
theorem Entrusts.owned {w w' : World σ} (h : w.Entrusts w')
    (hsize : w.effects.size ≤ w'.effects.size) (hw : w.Sound) (ho : w.Owned) : w'.Owned where
  lt_size vm record hr e he := by
    rcases h.bindings vm record hr with hold | ⟨-, hnew, -⟩
    · exact Nat.lt_of_lt_of_le (ho.lt_size vm record hold e he) hsize
    · exact (hnew e he).2
  not_isHeld vm record hr e he hheld := by
    rcases h.bindings vm record hr with hold | ⟨-, hnew, hsame⟩
    -- Whoever holds an old effect has held it before.
    · have hlt := ho.lt_size vm record hold e he
      rcases h.isHeld_of e hheld with hheld | hle
      · exact ho.not_isHeld vm record hold e he hheld
      · exact absurd hlt (Nat.not_lt.2 hle)
    -- And nobody holds an effect that has just been constructed.
    · have hlt := hw.lt_size (hsame e hheld).isAlive
      have hle := (hnew e he).1
      exact absurd hlt (Nat.not_lt.2 hle)
  eq_of_mem vm vm' record record' hr hr' e he he' := by
    rcases h.bindings vm record hr with hold | ⟨hvm, hnew, -⟩
    · rcases h.bindings vm' record' hr' with hold' | ⟨-, hnew', -⟩
      · exact ho.eq_of_mem vm vm' record record' hold hold' e he he'
      · have hlt := ho.lt_size vm record hold e he
        have hle := (hnew' e he').1
        exact absurd hlt (Nat.not_lt.2 hle)
    · rcases h.bindings vm' record' hr' with hold' | ⟨hvm', -, -⟩
      · have hlt := ho.lt_size vm' record' hold' e he'
        have hle := (hnew e he).1
        exact absurd hlt (Nat.not_lt.2 hle)
      · rw [hvm, hvm']

theorem owned_ofDocument (d : Document (Listener σ)) : (ofDocument d).Owned where
  lt_size vm record hr := by simp [ofDocument] at hr
  not_isHeld vm record hr := by simp [ofDocument] at hr
  eq_of_mem vm vm' record record' hr := by simp [ofDocument] at hr

end World

open World

/-- Every move leaves effects with the sort of owner that they have. -/
theorem Move.entrusts {w w' : World σ} (h : Move w w') : w.Entrusts w' := by
  cases h with
  | change h =>
    cases h with
    | read cells =>
      obtain ⟨s, hs, -⟩ := w.registerReads_eq cells
      rw [hs]
      exact entrusts_of_eq rfl rfl
    | rename hl hn ho => exact ho
    | construct h => exact h.entrusts
    | _ => exact entrusts_of_eq rfl rfl
  | _ => exact entrusts_of_eq rfl rfl

/-- Every move keeps the owners of effects apart. -/
theorem Move.owned {w w' : World σ} (h : Move w w') (hw : w.Sound) (ho : w.Owned) : w'.Owned :=
  h.entrusts.owned h.later.size_le hw ho

/-- The owners of effects are kept apart wherever a run gets. -/
theorem Evolves.owned {activity : Activity σ} {w w' : World σ} (h : Evolves activity w w')
    (hw : w.Sound) (ho : w.Owned) : w'.Owned :=
  (h.preserves (fun _ _ hmove (hP : World.Sound _ ∧ World.Owned _) =>
    ⟨hmove.sound hP.1, hmove.owned hP.1 hP.2⟩) ⟨hw, ho⟩).2

/-! ### View models that are not in use -/

/-- A change gives names only to view models in use or to new ones. -/
theorem Change.isViewModelAlive_of {w w' : World σ} (h : Change w w') {vm : ViewModelId}
    {record : ViewModel} (hr : w.viewModels[vm]? = some record)
    (halive : w'.isViewModelAlive vm = true) : w.isViewModelAlive vm = true := by
  have hlt : vm < w.viewModels.size := (Array.getElem?_eq_some_iff.1 hr).1
  -- The rules that change names say who gets them.
  have hentrusts (ho : w.Entrusts w') (hreceivers : w'.receivers = w.receivers) :
      w.isViewModelAlive vm = true := by
    rcases isViewModelAlive_iff.1 halive with ⟨f, hf, rfl⟩ | hreceiver
    · rcases ho.isViewModelAlive_of f hf with hold | hnew
      · exact hold
      · exact absurd hlt (Nat.not_lt.2 hnew)
    · exact isViewModelAlive_iff.2 (.inr (hreceivers ▸ hreceiver))
  cases h with
  | read cells =>
    obtain ⟨s, hs, -⟩ := w.registerReads_eq cells
    rw [hs] at halive
    exact halive
  | rename hl hn ho => exact hentrusts ho rfl
  | construct h => exact hentrusts h.entrusts h.grows.receivers_eq
  | _ => exact halive

/-- A view model that is not in use stays so. -/
theorem Move.isViewModelAlive_of {w w' : World σ} (h : Move w w') {vm : ViewModelId}
    {record : ViewModel} (hr : w.viewModels[vm]? = some record)
    (halive : w'.isViewModelAlive vm = true) : w.isViewModelAlive vm = true := by
  cases h with
  | change h => exact h.isViewModelAlive_of hr halive
  | enterMethod hvm =>
    rcases isViewModelAlive_iff.1 halive with hname | hreceiver
    · exact isViewModelAlive_iff.2 (.inl hname)
    · rcases List.mem_cons.1 hreceiver with rfl | hreceiver
      · exact hvm
      · exact isViewModelAlive_iff.2 (.inr hreceiver)
  | leaveMethod =>
    rcases isViewModelAlive_iff.1 halive with hname | hreceiver
    · exact isViewModelAlive_iff.2 (.inl hname)
    · exact isViewModelAlive_iff.2 (.inr (List.mem_of_mem_tail hreceiver))
  | _ => exact halive

/-- The record of a view model is final once it has its bindings. -/
theorem Move.viewModel_eq {w w' : World σ} (h : Move w w') {vm : ViewModelId} {record : ViewModel}
    (hr : w.viewModels[vm]? = some record) : w'.viewModels[vm]? = some record :=
  h.entrusts.viewModel_eq vm record hr

namespace World

/-- A view model that is not in use, and whose effects nothing keeps alive. -/
structure Dropped (w : World σ) (id : ViewModelId) (vm : ViewModel) : Prop where
  record_eq : w.viewModels[id]? = some vm
  isViewModelAlive_eq : w.isViewModelAlive id = false
  lt_size : ∀ e ∈ vm.bindings.effects, e < w.effects.size
  isAlive_eq : ∀ e ∈ vm.bindings.effects, w.isAlive e = false

/-- Without a running pass, a view model that is not in use keeps no effect alive, and nothing else
keeps its effects alive. -/
theorem Owned.dropped {w : World σ} (h : w.Owned) (hp : w.passes = []) {id : ViewModelId}
    {vm : ViewModel} (hr : w.viewModels[id]? = some vm) (hdead : w.isViewModelAlive id = false) :
    w.Dropped id vm where
  record_eq := hr
  isViewModelAlive_eq := hdead
  lt_size := h.lt_size id vm hr
  isAlive_eq e he := by
    refine Bool.eq_false_iff.2 fun halive => ?_
    rcases isAlive_iff.1 halive with hname | hscope | ⟨vm', record', halive', hr', he'⟩ | hpass
    · exact h.not_isHeld id vm hr e he (.inl hname)
    · exact h.not_isHeld id vm hr e he (.inr hscope)
    -- The only view model that binds the effect is the one that is not in use.
    · obtain rfl := h.eq_of_mem id vm' vm record' hr hr' e he he'
      rw [hdead] at halive'
      cases halive'
    · obtain ⟨visited, hmem, -⟩ := hpass
      rw [hp] at hmem
      cases hmem

end World

/-- What was dropped stays dropped. -/
theorem Move.dropped {w w' : World σ} (h : Move w w') {id : ViewModelId} {vm : ViewModel}
    (hd : w.Dropped id vm) : w'.Dropped id vm where
  record_eq := h.viewModel_eq hd.record_eq
  isViewModelAlive_eq := by
    refine Bool.eq_false_iff.2 fun halive => ?_
    have hold := h.isViewModelAlive_of hd.record_eq halive
    rw [hd.isViewModelAlive_eq] at hold
    cases hold
  lt_size e he := Nat.lt_of_lt_of_le (hd.lt_size e he) h.later.size_le
  isAlive_eq e he := by
    refine Bool.eq_false_iff.2 fun halive => ?_
    have hold := h.isAlive_of (hd.lt_size e he) halive
    rw [hd.isAlive_eq e he] at hold
    cases hold

/-- What was dropped stays dropped, wherever a run gets. -/
theorem Evolves.dropped {activity : Activity σ} {w w' : World σ} (h : Evolves activity w w')
    {id : ViewModelId} {vm : ViewModel} (hd : w.Dropped id vm) : w'.Dropped id vm :=
  h.preserves (fun _ _ hmove => hmove.dropped) hd

end LiveBinding
