import LiveBinding.Proofs.Evolution.Compile
import LiveBinding.Proofs.Evolution.Engine

/-!
# Owners of effects

An effect is alive as long as something owns it: a name, a scope with a name, a view model in use,
or a running pass. Effects that were constructed become alive when an owner gets a name, and then
all of them could be constructed. Names that are given to owners in use, or taken away, make no
effect alive.

## Key results

- `constructs_nameEffect`, `constructs_nameScope`, `constructs_nameViewModel`: new owners
- `prepares_newViewModel`: a view model before it gets a name
-/

namespace LiveBinding

variable {σ : Type}

namespace World

/-- What is alive with other names and view models: the owners that were there before, and those
for which it is shown. -/
theorem isAlive_of_owners {w w' : World σ} {e : EffectId} {P : Prop} (h : w'.isAlive e = true)
    (hp : w'.passes = w.passes) (he : ∀ f ∈ w'.names.effects, f.2 = e → f ∈ w.names.effects ∨ P)
    (hs : ∀ f ∈ w'.names.scopes, e ∈ f.2.effects → f ∈ w.names.scopes ∨ P)
    (hv : ∀ vm record, w'.isViewModelAlive vm = true → w'.viewModels[vm]? = some record →
      e ∈ record.bindings.effects →
        w.isViewModelAlive vm = true ∧ w.viewModels[vm]? = some record ∨ P) :
    w.isAlive e = true ∨ P := by
  rw [isAlive_iff] at h ⊢
  rcases h with ⟨f, hf, hfe⟩ | ⟨f, hf, hfe⟩ | ⟨vm, record, halive, hrecord, hmem⟩ | hpass
  · exact (he f hf hfe).imp_left fun hf => .inl ⟨f, hf, hfe⟩
  · exact (hs f hf hfe).imp_left fun hf => .inr (.inl ⟨f, hf, hfe⟩)
  · exact (hv vm record halive hrecord hmem).imp_left fun h =>
      .inr (.inr (.inl ⟨vm, record, h.1, h.2, hmem⟩))
  · rw [hp] at hpass
    exact .inl (.inr (.inr (.inr hpass)))

theorem IsHeld.isAlive {w : World σ} {e : EffectId} (h : w.IsHeld e) : w.isAlive e = true :=
  isAlive_iff.2 (h.imp_right .inl)

theorem isHeld_of_mem_scope {w : World σ} {f : String × Scope} (h : f ∈ w.names.scopes)
    {e : EffectId} (he : e ∈ f.2.effects) : w.IsHeld e :=
  .inr ⟨f, h, he⟩

theorem isHeld_of_mem_effects {w : World σ} {f : String × EffectId} (h : f ∈ w.names.effects) :
    w.IsHeld f.2 :=
  .inl ⟨f, h, rfl⟩

/-! ### Names that are given again or taken away -/

/-- Names may change as long as no owner is new. -/
theorem change_rename (w : World σ) {names : Names}
    (he : ∀ f ∈ names.effects, f ∈ w.names.effects)
    (hs : ∀ f ∈ names.scopes, ∀ e ∈ f.2.effects, w.IsHeld e)
    (hv : ∀ f ∈ names.viewModels, w.isViewModelAlive f.2 = true) :
    Change w { w with names := names } := by
  refine .rename w (fun e h => ?_) he ⟨fun e h => .inl ?_, fun _ _ h => h, fun _ _ h => .inl h,
    fun f hf => .inl (hv f hf)⟩
  · refine (isAlive_of_owners (w := w) (P := w.isAlive e = true) h rfl
      (fun f hf _ => .inl (he f hf)) (fun f hf hfe => .inr (hs f hf e hfe).isAlive)
      (fun vm record halive hrecord hmem => ?_)).elim id id
    refine .inl ⟨?_, hrecord⟩
    rcases isViewModelAlive_iff.1 halive with ⟨f, hf, rfl⟩ | hreceiver
    · exact hv f hf
    · exact isViewModelAlive_iff.2 (.inr hreceiver)
  · rcases h with ⟨f, hf, hfe⟩ | ⟨f, hf, hfe⟩
    · exact .inl ⟨f, he f hf, hfe⟩
    · exact hs f hf e hfe

theorem isViewModelAlive_of_mem {w : World σ} {f : String × ViewModelId}
    (h : f ∈ w.names.viewModels) : w.isViewModelAlive f.2 = true :=
  isViewModelAlive_iff.2 (.inl ⟨f, h, rfl⟩)

/-! ### New owners -/

/-- View models change, and no effect constructed before becomes alive. -/
theorem grows_viewModels (n : Nat) (w : World σ) {viewModels : Array ViewModel}
    (h : ∀ e, e < n → ({ w with viewModels := viewModels } : World σ).isAlive e = true →
      w.isAlive e = true) :
    Grows n w { w with viewModels := viewModels } where
  sameData := .refl _
  size_le := Nat.le_refl _
  effects_eq _ _ := rfl
  watched_eq _ _ hle he := absurd (lt_size_of_effect he) (Nat.not_lt.2 hle)
  memory_eq _ _ hle he := absurd (lt_size_of_effect he) (Nat.not_lt.2 hle)
  watchers_eq c _ := by simp [registrationsFrom]
  documents := documentsKeep_of_eq rfl
  isAlive_of := h
  collectors_eq := rfl
  passes_eq := rfl
  receivers_eq := rfl
  abortedPasses_eq := rfl
  abortedDispatches_eq := rfl
  enlisted_eq := rfl
  touched_eq := rfl
  changes_eq := rfl
  moments_eq := rfl

/-- After growing, names change. -/
theorem Grows.rename {n : Nat} {w w' : World σ} (h : Grows n w w') {names : Names}
    (hl : ∀ e, e < n → ({ w' with names := names } : World σ).isAlive e = true →
      w.isAlive e = true) : Grows n w { w' with names := names } where
  sameData := h.sameData
  size_le := h.size_le
  effects_eq := h.effects_eq
  watched_eq := h.watched_eq
  memory_eq := h.memory_eq
  watchers_eq := h.watchers_eq
  documents := h.documents
  isAlive_of := hl
  collectors_eq := h.collectors_eq
  passes_eq := h.passes_eq
  receivers_eq := h.receivers_eq
  abortedPasses_eq := h.abortedPasses_eq
  abortedDispatches_eq := h.abortedDispatches_eq
  enlisted_eq := h.enlisted_eq
  touched_eq := h.touched_eq
  changes_eq := h.changes_eq
  moments_eq := h.moments_eq

/-- Nothing changes for the owners if names and view models stay as they are. -/
theorem entrusts_of_eq {w w' : World σ} (hn : w'.names = w.names)
    (hv : w'.viewModels = w.viewModels) : Entrusts w w' where
  isHeld_of e h := by
    rw [IsHeld, hn] at h
    exact .inl h
  viewModel_eq _ _ h := hv ▸ h
  bindings _ _ h := .inl (hv ▸ h)
  isViewModelAlive_of f hf := .inl (isViewModelAlive_of_mem (hn ▸ hf))

/-- Nothing that was constructed is kept. -/
theorem constructs_of_fault {w w' : World σ} (hg : Grows w.effects.size w w')
    (hn : w'.names = w.names) (halive : ∀ e, w'.isAlive e = true → w.isAlive e = true)
    (ho : Entrusts w w') : Constructs w w' where
  grows := hg
  shown := .inr halive
  isAlive_of e h := .inl (halive e h)
  names_eq _ hf := .inl (hn ▸ hf)
  entrusts := ho

/-- An effect that was constructed gets a name. Its reaction is user code. -/
theorem constructs_nameEffect (w : World σ) (name : String) {path : KeyPath} {root : MappingId}
    {gated : Bool} {code : σ} {v : Value} (hv : w.store.get path root = .ok v) :
    Constructs w
      { w.construct path root gated (.run code) with
        names := { w.names with effects := w.names.effects.put name w.effects.size } } := by
  let w₁ := w.construct path root gated (.run code)
  have hnew : w₁.effects[w.effects.size]? = some (w.record path root gated (.run code)) := by
    rw [effects_construct, if_pos rfl]
  -- The new name keeps the new effect alive and nothing else.
  have halive (e : EffectId) (h : ({ w₁ with names := { w.names with
      effects := w.names.effects.put name w.effects.size } } : World σ).isAlive e = true) :
      w.isAlive e = true ∨ e = w.effects.size := by
    refine isAlive_of_owners h rfl (fun f hf hfe => ?_) (fun f hf _ => .inl hf)
      (fun vm record hvm hrecord _ => .inl ⟨hvm, hrecord⟩)
    rcases Fields.eq_or_mem_of_mem_put hf with rfl | hf
    · exact .inr hfe.symm
    · exact .inl hf
  refine ⟨(grows_construct _ w).rename fun e he h => ?_, .inl ?_,
    fun e h => ?_, fun f hf => ?_, ?_⟩
  · exact (halive e h).resolve_right (Nat.ne_of_lt he)
  -- An effect of user code has no place, so there is nothing to show.
  · intro e effect sink node hle heffect hp
    have heq : e = w.effects.size := by
      have hlt := lt_size_of_effect heffect
      rw [size_effects_construct] at hlt
      exact Nat.le_antisymm (Nat.le_of_lt_succ hlt) hle
    rw [heq, hnew] at heffect
    obtain ⟨⟩ := heffect
    cases hp
  · refine (halive e h).imp_right ?_
    rintro rfl
    exact ⟨Nat.le_refl _, _, hnew, by simp [Effect.values, memory_record hv, Memory.start]⟩
  · rcases Fields.eq_or_mem_of_mem_put hf with rfl | hf
    · exact .inr ⟨_, hnew, rfl⟩
    · exact .inl hf
  · refine ⟨?_, fun _ _ h => h, fun _ _ h => .inl h, fun f hf => .inl (isViewModelAlive_of_mem hf)⟩
    rintro e (⟨f, hf, rfl⟩ | h)
    · rcases Fields.eq_or_mem_of_mem_put hf with rfl | hf
      · exact .inr (Nat.le_refl _)
      · exact .inl (isHeld_of_mem_effects hf)
    · exact .inl (.inr h)

/-- A view model that is not in use yet: its effects could be constructed, if nothing faulted. -/
structure Prepares (w : World σ) (r : Except Fault ViewModelId × World σ) : Prop where
  grows : Grows w.effects.size w r.2
  names_eq : r.2.names = w.names
  shown : ∀ id, r.1 = .ok id → Shown w.effects.size r.2
  viewModel_eq : ∀ id, r.1 = .ok id → w.viewModels[id]? = none
  exists_record : ∀ id, r.1 = .ok id → ∃ record, r.2.viewModels[id]? = some record
  record_eq : ∀ (vm : ViewModelId) (record : ViewModel), w.viewModels[vm]? = some record →
    r.2.viewModels[vm]? = some record
  holds : ∀ (vm : ViewModelId) (record : ViewModel), r.2.viewModels[vm]? = some record →
    w.viewModels[vm]? = some record ∨ vm = w.viewModels.size ∧
      ∀ e ∈ record.bindings.effects, (∃ id, r.1 = .ok id) ∧ w.effects.size ≤ e ∧
        ∃ effect, r.2.effects[e]? = some effect ∧ effect.values ≠ []
  backs : ∀ (vm : ViewModelId) (record : ViewModel), r.2.viewModels[vm]? = some record →
    w.viewModels[vm]? = some record ∨ ∀ e ∈ record.bindings.effects, r.2.Backs e

end World

open World

/-- A compilation that faults keeps nothing. -/
theorem Builds.constructs_of_fault {w w' : World σ} {scope : Scope} {fault : Fault}
    (h : Builds w.effects.size scope w (.error fault, w')) : Constructs w w' :=
  World.constructs_of_fault h.grows h.names_eq (fun e he => by
    rwa [isAlive_of_eq h.names_eq h.viewModels_eq h.grows.passes_eq h.grows.receivers_eq] at he)
    (World.entrusts_of_eq h.names_eq h.viewModels_eq)

/-- The name of a scope keeps the effects of the scope alive and nothing else. -/
theorem Builds.isAlive_of_nameScope {n : Nat} {scope made : Scope} {w w' : World σ}
    (h : Builds n scope w (.ok made, w')) {name : String} {e : EffectId}
    (he : ({ w' with names := { w'.names with
      scopes := w'.names.scopes.put name made } } : World σ).isAlive e = true) :
    w.isAlive e = true ∨ e ∈ made.effects := by
  refine isAlive_of_owners he h.grows.passes_eq (fun f hf _ => .inl (h.names_eq ▸ hf))
    (fun f hf hfe => ?_) (fun vm record hvm hrecord _ => .inl ⟨?_, h.viewModels_eq ▸ hrecord⟩)
  · rcases Fields.eq_or_mem_of_mem_put hf with rfl | hf
    · exact .inr hfe
    · exact .inl (h.names_eq ▸ hf)
  · rw [isViewModelAlive_iff] at hvm ⊢
    exact h.names_eq ▸ h.grows.receivers_eq ▸ hvm

/-- The scope of a compilation gets a name. -/
theorem Builds.constructs_nameScope {w w' : World σ} {made : Scope}
    (h : Builds w.effects.size .empty w (.ok made, w')) (name : String) :
    Constructs w
      { w' with names := { w'.names with scopes := w'.names.scopes.put name made } } := by
  -- The compilation started with an empty scope.
  have hmade (e : EffectId) (he : e ∈ made.effects) : w.effects.size ≤ e ∧
      ∃ effect, w'.effects[e]? = some effect ∧ effect.values ≠ [] :=
    (h.holds made rfl e he).resolve_left List.not_mem_nil
  have halive (e : EffectId) (he : ({ w' with names := { w'.names with
      scopes := w'.names.scopes.put name made } } : World σ).isAlive e = true) :
      w.isAlive e = true ∨ e ∈ made.effects := h.isAlive_of_nameScope he
  refine ⟨h.grows.rename fun e he h' => ?_, .inl ?_, fun e h' => ?_, fun f hf => ?_, ?_⟩
  · exact (halive e h').resolve_right fun hm => absurd he (Nat.not_lt.2 (hmade e hm).1)
  · exact (h.shown made rfl (shown_size w)).keep rfl (.refl _) (documentsKeep_of_eq rfl)
  · exact (halive e h').imp_right (hmade e)
  · exact .inl (h.names_eq ▸ hf)
  · refine ⟨?_, fun _ _ hr => h.viewModels_eq ▸ hr, fun _ _ hr => .inl (h.viewModels_eq ▸ hr),
      fun f hf => .inl (isViewModelAlive_of_mem (h.names_eq ▸ hf))⟩
    rintro e (⟨f, hf, rfl⟩ | ⟨f, hf, he⟩)
    · exact .inl (isHeld_of_mem_effects (h.names_eq ▸ hf))
    · rcases Fields.eq_or_mem_of_mem_put hf with rfl | hf
      · exact .inr (hmade e he).1
      · exact .inl (isHeld_of_mem_scope (h.names_eq ▸ hf) he)

/-! ### View models -/

namespace Act

theorem runOn_intercept (data : Plain) (w : World σ) :
    (intercept data).runOn w =
      match w.store.interceptRoot data with
      | .error f => (.error f, w)
      | .ok built => (.ok built.2, w.turn built.1) := by
  rw [intercept, runOn_bind, runOn_get]
  dsimp only
  rw [runOn_bind, runOn_ofExcept]
  cases w.store.interceptRoot data <;> rfl

theorem extends_interceptRoot {s : Store} {data : Plain} {built : Store × MappingId}
    (h : s.interceptRoot data = .ok built) : s.Extends built.1 := by
  have hext := s.extends_intercept data
  rw [Store.interceptRoot] at h
  split at h
  · rename_i s' m heq
    obtain ⟨⟩ := h
    rwa [heq] at hext
  · cases h

theorem runOn_addViewModel (vm : ViewModel) (w : World σ) :
    (addViewModel vm).runOn w =
      (.ok w.viewModels.size, { w with viewModels := w.viewModels.push vm }) := rfl

end Act

namespace World

theorem prepares_fault (w : World σ) (f : Fault) : Prepares w (.error f, w) where
  grows := .refl _ w
  names_eq := rfl
  shown _ h := by cases h
  viewModel_eq _ h := by cases h
  exists_record _ h := by cases h
  record_eq _ _ h := h
  holds _ _ h := .inl h
  backs _ _ h := .inl h

theorem eq_or_eq_of_getElem?_push {vms : Array ViewModel} {vm record : ViewModel}
    {id : ViewModelId} (h : (vms.push vm)[id]? = some record) :
    vms[id]? = some record ∨ id = vms.size ∧ record = vm := by
  rw [Array.getElem?_push] at h
  split at h
  · rename_i hid
    exact .inr ⟨hid, by simpa using h.symm⟩
  · exact .inl h

/-- A record stays where it is when another one comes behind it. -/
theorem getElem?_push_of_eq_some {vms : Array ViewModel} {record : ViewModel} {id : ViewModelId}
    (h : vms[id]? = some record) (vm : ViewModel) : (vms.push vm)[id]? = some record := by
  rw [Array.getElem?_push, if_neg (Nat.ne_of_lt (Array.getElem?_eq_some_iff.1 h).1), h]

/-- A view model without bindings keeps nothing alive. -/
theorem isAlive_push (w : World σ) {vm : ViewModel} (h : vm.bindings = .empty) (e : EffectId) :
    ({ w with viewModels := w.viewModels.push vm } : World σ).isAlive e = w.isAlive e := by
  refine Bool.eq_iff_iff.2 (isAlive_iff.trans (Iff.trans ?_ isAlive_iff.symm))
  refine or_congr_right (or_congr_right (or_congr_left ⟨?_, ?_⟩))
  · rintro ⟨id, record, hvm, hrecord, he⟩
    rcases eq_or_eq_of_getElem?_push hrecord with hrecord | ⟨-, rfl⟩
    · exact ⟨id, record, hvm, hrecord, he⟩
    · rw [h] at he
      cases he
  · rintro ⟨id, record, hvm, hrecord, he⟩
    exact ⟨id, record, hvm, getElem?_push_of_eq_some hrecord vm, he⟩

/-- The moment is the same before a view model without bindings comes and after it. -/
theorem begin_push (w : World σ) {vm : ViewModel} (h : vm.bindings = .empty) :
    ({ w with viewModels := w.viewModels.push vm } : World σ).begin =
      { w.begin with viewModels := w.viewModels.push vm } := by
  have halive : ({ w with viewModels := w.viewModels.push vm } : World σ).isAlive = w.isAlive :=
    funext (isAlive_push w h)
  simp only [begin, moment, halive]

/-- After the last view model got its bindings, each of them is an old one or has these bindings. -/
theorem bindings_of_modify_push {vms : Array ViewModel} {vm record : ViewModel} {scope : Scope}
    {id : ViewModelId}
    (h : ((vms.push vm).modify vms.size fun vm => { vm with bindings := scope })[id]? =
      some record) : vms[id]? = some record ∨ id = vms.size ∧ record.bindings = scope := by
  rw [Array.getElem?_modify] at h
  split at h
  · rename_i hid
    obtain ⟨_, -, rfl⟩ := Option.map_eq_some_iff.1 h
    exact .inr ⟨hid.symm, rfl⟩
  · rename_i hne
    rw [Array.getElem?_push, if_neg (Ne.symm hne)] at h
    exact .inl h

/-- A view model without bindings. -/
theorem prepares_addViewModel (w : World σ) (vm : ViewModel) (h : vm.bindings = .empty) :
    Prepares w (.ok w.viewModels.size, { w with viewModels := w.viewModels.push vm }) := by
  refine ⟨grows_viewModels _ w fun e _ he => ?_, rfl, fun _ _ => shown_size w, ?_, ?_,
    fun _ _ hr => getElem?_push_of_eq_some hr vm, fun id record hr => ?_, fun id record hr => ?_⟩
  · refine (isAlive_of_owners (w := w) (P := False) he rfl (fun _ hf _ => .inl hf)
      (fun _ hf _ => .inl hf) fun id record hvm hr hm => ?_).elim id False.elim
    rcases eq_or_eq_of_getElem?_push hr with hr | ⟨-, rfl⟩
    · exact .inl ⟨hvm, hr⟩
    · rw [h] at hm
      cases hm
  · rintro id ⟨⟩
    exact Array.getElem?_eq_none (Nat.le_refl _)
  · rintro id ⟨⟩
    exact ⟨vm, Array.getElem?_push_size⟩
  · refine (eq_or_eq_of_getElem?_push hr).imp_right ?_
    rintro ⟨hid, rfl⟩
    refine ⟨hid, fun e he => ?_⟩
    rw [h] at he
    cases he
  · refine (eq_or_eq_of_getElem?_push hr).imp_right ?_
    rintro ⟨-, rfl⟩ e he
    rw [h] at he
    cases he

/-- A view model with the bindings of a template. -/
theorem prepares_compile (w : World σ) (vm : ViewModel) (h : vm.bindings = .empty)
    (t : Setting σ) (root : NodeId) :
    Prepares w (Act.runOn (do
      let scope ← t.compile root
      modify fun w' => { w' with
        viewModels := w'.viewModels.modify w.viewModels.size fun vm =>
          { vm with bindings := scope } }
      return w.viewModels.size) { w with viewModels := w.viewModels.push vm }) := by
  have hadd := prepares_addViewModel w vm h
  have hbuilds : Builds w.effects.size .empty { w with viewModels := w.viewModels.push vm }
      ((t.compile root).runOn { w with viewModels := w.viewModels.push vm }) :=
    Setting.builds_compile w.effects.size root (Nat.le_refl _)
  rw [Act.runOn_bind]
  rcases hr : (t.compile root).runOn { w with viewModels := w.viewModels.push vm }
    with ⟨f | scope, w₂⟩
  · rw [hr] at hbuilds
    -- The record stays, without bindings.
    refine ⟨hadd.grows.trans hbuilds.grows, hbuilds.names_eq, (fun _ hok => by cases hok),
      (fun _ hok => by cases hok), (fun _ hok => by cases hok), fun _ _ hrecord => ?_,
      fun id record hrecord => ?_, fun id record hrecord => ?_⟩
    · exact hbuilds.viewModels_eq ▸ hadd.record_eq _ _ hrecord
    all_goals
      have hviewModels : w₂.viewModels = w.viewModels.push vm := hbuilds.viewModels_eq
      dsimp only at hrecord
      rw [hviewModels] at hrecord
      refine (eq_or_eq_of_getElem?_push hrecord).imp_right ?_
    · rintro ⟨hid, rfl⟩
      refine ⟨hid, fun e he => ?_⟩
      rw [h] at he
      cases he
    · rintro ⟨-, rfl⟩ e he
      rw [h] at he
      cases he
  · rw [hr] at hbuilds
    have hviewModels : w₂.viewModels = w.viewModels.push vm := hbuilds.viewModels_eq
    let bound := w₂.viewModels.modify w.viewModels.size fun vm => { vm with bindings := scope }
    change Prepares w (.ok w.viewModels.size, { w₂ with viewModels := bound })
    have hbound (id : ViewModelId) (record : ViewModel) (hrecord : bound[id]? = some record) :
        w.viewModels[id]? = some record ∨ id = w.viewModels.size ∧ record.bindings = scope := by
      simp only [bound, hviewModels] at hrecord
      exact bindings_of_modify_push hrecord
    have hscope (e : EffectId) (he : e ∈ scope.effects) : w.effects.size ≤ e ∧
        ∃ effect, w₂.effects[e]? = some effect ∧ effect.values ≠ [] :=
      (hbuilds.holds scope rfl e he).resolve_left List.not_mem_nil
    -- The record gets its bindings; nobody uses the view model yet.
    refine ⟨(hadd.grows.trans hbuilds.grows).trans (grows_viewModels _ w₂ fun e he halive => ?_),
      hbuilds.names_eq, fun _ _ => ?_, ?_, ?_, fun id record hrecord => ?_,
      fun id record hrecord => ?_, fun id record hrecord => ?_⟩
    · refine (isAlive_of_owners (w := w₂) (P := False) halive rfl (fun _ hf _ => .inl hf)
        (fun _ hf _ => .inl hf) fun id record hvm hrecord hm => ?_).elim id False.elim
      rcases hbound id record hrecord with hold | ⟨-, heq⟩
      · exact .inl ⟨hvm, hviewModels ▸ getElem?_push_of_eq_some hold vm⟩
      · rw [heq] at hm
        exact absurd he (Nat.not_lt.2 (hscope e hm).1)
    · exact (hbuilds.shown scope rfl (shown_size w)).keep rfl (.refl _) (documentsKeep_of_eq rfl)
    · rintro id ⟨⟩
      exact Array.getElem?_eq_none (Nat.le_refl _)
    · rintro id ⟨⟩
      refine ⟨{ vm with bindings := scope }, ?_⟩
      simp only [bound, hviewModels, Array.getElem?_modify, if_pos, Array.getElem?_push_size]
      rfl
    · have hlt := (Array.getElem?_eq_some_iff.1 hrecord).1
      simp only [bound, hviewModels, Array.getElem?_modify, if_neg (Nat.ne_of_gt hlt)]
      exact getElem?_push_of_eq_some hrecord vm
    · refine (hbound id record hrecord).imp_right fun heq => ⟨heq.1, fun e he => ?_⟩
      rw [heq.2] at he
      exact ⟨⟨_, rfl⟩, hscope e he⟩
    · refine (hbound id record hrecord).imp_right fun heq e he => ?_
      rw [heq.2] at he
      exact (hbuilds.backs scope rfl e he).resolve_left List.not_mem_nil

/-- The moment that is noted for the template is that of a world without the view model. -/
theorem prepares_instantiate (w : World σ) (vm : ViewModel) (h : vm.bindings = .empty)
    (t : Setting σ) (root : NodeId) :
    Prepares w.begin (Act.runOn (do
      let scope ← t.instantiate root
      modify fun w' => { w' with
        viewModels := w'.viewModels.modify w.viewModels.size fun vm =>
          { vm with bindings := scope } }
      return w.viewModels.size) { w with viewModels := w.viewModels.push vm }) := by
  rw [Act.runOn_bind, t.runOn_instantiate, begin_push w h, ← Act.runOn_bind]
  exact prepares_compile w.begin vm h t root

end World

namespace Act

/-- A view model is made: its model first, then its record, then its bindings. -/
theorem prepares_newViewModel (document : DocumentId) (b : Blueprint σ) (w : World σ) :
    ∃ u, Evolves .free w u ∧ Prepares u ((newViewModel document b).runOn w) := by
  rw [newViewModel, runOn_bind, runOn_intercept]
  cases hbuilt : w.store.interceptRoot b.data with
  | error f => exact ⟨w, .refl w, prepares_fault w f⟩
  | ok built =>
    have hstart : Evolves .free w (w.turn built.1) :=
      .change (.extend w (extends_interceptRoot hbuilt))
    dsimp only
    generalize w.turn built.1 = w₀ at hstart ⊢
    cases b.mount with
    | none => exact ⟨w₀, hstart, prepares_addViewModel w₀ _ rfl⟩
    | some mount =>
      dsimp only
      rw [runOn_bind, runOn_get]
      dsimp only
      rw [runOn_bind, runOn_ofExcept]
      cases mount.resolve (w₀.document document) with
      | error f => exact ⟨w₀, hstart, prepares_fault w₀ f⟩
      | ok root =>
        dsimp only
        rw [runOn_bind, runOn_get]
        dsimp only
        rw [runOn_bind, runOn_addViewModel]
        exact ⟨w₀.begin, hstart.trans (.change (.begin w₀)), prepares_instantiate w₀ _ rfl _ root⟩

end Act

namespace World

/-- At most the new view model is put in use by names, and it keeps its own bindings alive. -/
theorem Prepares.isAlive_of {w : World σ} {r : Except Fault ViewModelId × World σ}
    (h : Prepares w r) {names : Names} {e : EffectId} {P : Prop}
    (halive : ({ r.2 with names := names } : World σ).isAlive e = true)
    (he : names.effects = r.2.names.effects) (hs : names.scopes = r.2.names.scopes)
    (hv : ∀ f ∈ names.viewModels, f ∈ r.2.names.viewModels ∨ r.1 = .ok f.2)
    (hP : ∀ (vm : ViewModelId) (record : ViewModel), r.2.viewModels[vm]? = some record →
      e ∈ record.bindings.effects → w.viewModels[vm]? = some record ∨ P) :
    w.isAlive e = true ∨ P := by
  rw [h.names_eq] at he hs hv
  refine isAlive_of_owners halive h.grows.passes_eq (fun f hf _ => .inl (he ▸ hf))
    (fun f hf _ => .inl (hs ▸ hf)) fun vm record hvm hrecord hm => ?_
  refine (hP vm record hrecord hm).imp_left fun hold => ⟨?_, hold⟩
  rcases isViewModelAlive_iff.1 hvm with ⟨f, hf, rfl⟩ | hreceiver
  · rcases hv f hf with hf | hid
    · exact isViewModelAlive_of_mem hf
    · rw [h.viewModel_eq _ hid] at hold
      cases hold
  · exact isViewModelAlive_iff.2 (.inr (h.grows.receivers_eq ▸ hreceiver))

/-- The bindings of a new view model are its own, whether the view model gets a name or not. -/
theorem Prepares.entrusts {w : World σ} {r : Except Fault ViewModelId × World σ}
    (h : Prepares w r) {names : Names} (he : names.effects = r.2.names.effects)
    (hs : names.scopes = r.2.names.scopes)
    (hv : ∀ f ∈ names.viewModels, f ∈ r.2.names.viewModels ∨ r.1 = .ok f.2) :
    Entrusts w { r.2 with names := names } where
  isHeld_of e hheld := by
    rw [IsHeld, he, hs, h.names_eq] at hheld
    exact .inl hheld
  viewModel_eq := h.record_eq
  bindings vm record hrecord := by
    refine (h.holds vm record hrecord).imp_right fun hnew => ⟨hnew.1, fun e hm => ?_, ?_⟩
    · obtain ⟨-, hle, effect, heffect, -⟩ := hnew.2 e hm
      exact ⟨hle, lt_size_of_effect heffect⟩
    · intro e hheld
      rw [IsHeld, he, hs, h.names_eq] at hheld
      exact hheld
  isViewModelAlive_of f hf := by
    rcases hv f hf with hf | hid
    · exact .inl (isViewModelAlive_of_mem (h.names_eq ▸ hf))
    · exact .inr (Array.getElem?_eq_none_iff.1 (h.viewModel_eq _ hid))

/-- The new name of a view model is the only one. -/
theorem mem_or_eq_of_nameViewModel {names : Names} {name : String} {id : ViewModelId}
    {f : String × ViewModelId} (h : f ∈ names.viewModels.put name id) :
    f ∈ names.viewModels ∨ (.ok id : Except Fault ViewModelId) = .ok f.2 := by
  rcases Fields.eq_or_mem_of_mem_put h with rfl | h
  · exact .inr rfl
  · exact .inl h

/-- A view model that was prepared gets a name, and its model another one. -/
theorem Prepares.constructs_nameViewModel {w w' : World σ} {id : ViewModelId}
    (h : Prepares w (.ok id, w')) (name : String) (models : Fields MappingId) :
    Constructs w { w' with names := { w'.names with
      viewModels := w'.names.viewModels.put name id
      models := models } } := by
  have halive (e : EffectId) (he : ({ w' with names := { w'.names with
      viewModels := w'.names.viewModels.put name id, models := models } } : World σ).isAlive e =
        true) :
      w.isAlive e = true ∨
        w.effects.size ≤ e ∧ ∃ effect, w'.effects[e]? = some effect ∧ effect.values ≠ [] :=
    h.isAlive_of he rfl rfl (fun _ => mem_or_eq_of_nameViewModel) fun vm record hrecord hm =>
      (h.holds vm record hrecord).imp_right fun hnew => (hnew.2 e hm).2
  have hnames : w'.names = w.names := h.names_eq
  refine ⟨h.grows.rename fun e he h' => ?_, .inl ?_, halive, fun f hf => .inl (hnames ▸ hf),
    h.entrusts rfl rfl fun _ => mem_or_eq_of_nameViewModel⟩
  · exact (halive e h').resolve_right fun hnew => absurd he (Nat.not_lt.2 hnew.1)
  · exact (h.shown id rfl).keep rfl (.refl _) (documentsKeep_of_eq rfl)

/-- A view model that could not be made keeps nothing. -/
theorem Prepares.constructs_of_fault {w w' : World σ} {f : Fault}
    (h : Prepares w (.error f, w')) : Constructs w w' := by
  refine World.constructs_of_fault h.grows h.names_eq (fun e he => ?_)
    (h.entrusts rfl rfl fun _ => .inl)
  refine (h.isAlive_of (P := False) he rfl rfl (fun _ => .inl) fun vm record hrecord hm => ?_).elim
    id False.elim
  refine (h.holds vm record hrecord).imp_right fun hnew => ?_
  obtain ⟨⟨_, hok⟩, -⟩ := hnew.2 e hm
  cases hok

end World

end LiveBinding
