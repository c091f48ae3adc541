import LiveBinding.Proofs.Lifetime.Owned
import LiveBinding.Proofs.Subscription

/-!
# What is left of an owner that was dropped

An effect has owners: its name, scopes, and the view models in use whose bindings it belongs to.
When the last of them is dropped, only a pass that visits the effect can keep it alive. Such a pass
took its list before the drop, and it holds what is on it until it has ended. An update that user
code asks for holds its effect in the same way: it is listed as a pass over this effect.

So an effect without an owner is alive exactly as long as a pass that was running at the drop and
visits it goes on. As long as it is alive, it has not been taken off its cells, and a pass that
begins meanwhile visits it again. Afterwards it is silent for ever.

What else watches the cells keeps its place, whatever is dropped.

## Key definitions

- `Owner`, `World.Owns`: owners of effects
- `World.Drops`: a move that drops an owner
- `World.Lingers`: a pass from an earlier moment goes on
- `World.IsSilent`: an effect will never react again

## Key results

- `Move.unowned`: an effect without an owner never gets one
- `World.Unowned.isAlive_iff_lingers`: what keeps it alive
- `liveWatchers_of_moves`: watchers keep their places
- `dropped_owner_silent`: the law of runs
- `dropped_scope_runs_again`: a pass within a pass
-/

namespace LiveBinding

open Act World Relation

variable {σ : Type}

/-! ### Owners -/

/-- What owns effects: a name, a scope with a name, or a view model. -/
inductive Owner where
  | name (name : String)
  | scope (name : String)
  | viewModel (vm : ViewModelId)
  deriving DecidableEq, Repr

namespace World

/-- An owner holds an effect. A view model holds its bindings as long as it is in use. -/
def Owns (w : World σ) : Owner → EffectId → Prop
  | .name name, e => (name, e) ∈ w.names.effects
  | .scope name, e => ∃ scope, (name, scope) ∈ w.names.scopes ∧ e ∈ scope.effects
  | .viewModel vm, e => w.isViewModelAlive vm = true ∧
      ∃ record, w.viewModels[vm]? = some record ∧ e ∈ record.bindings.effects

variable {w w' u : World σ} {o : Owner} {e : EffectId}

/-- What is alive has an owner, or a running pass visits it. -/
theorem isAlive_iff_owns :
    w.isAlive e = true ↔ (∃ o, w.Owns o e) ∨ ∃ visited ∈ w.passes, e ∈ visited := by
  rw [isAlive_iff]
  constructor
  · rintro (⟨⟨name, _⟩, hf, rfl⟩ | ⟨⟨name, scope⟩, hf, he⟩ | ⟨vm, record, hvm, hr, he⟩ | hpass)
    · exact .inl ⟨.name name, hf⟩
    · exact .inl ⟨.scope name, scope, hf, he⟩
    · exact .inl ⟨.viewModel vm, hvm, record, hr, he⟩
    · exact .inr hpass
  · rintro (⟨o, ho⟩ | hpass)
    · cases o with
      | name name => exact .inl ⟨(name, e), ho, rfl⟩
      | scope name =>
        obtain ⟨scope, hf, he⟩ := ho
        exact .inr (.inl ⟨(name, scope), hf, he⟩)
      | viewModel vm =>
        obtain ⟨hvm, record, hr, he⟩ := ho
        exact .inr (.inr (.inl ⟨vm, record, hvm, hr, he⟩))
    · exact .inr (.inr (.inr hpass))

theorem Owns.isAlive (h : w.Owns o e) : w.isAlive e = true := isAlive_iff_owns.2 (.inl ⟨o, h⟩)

/-- A name or a scope owns what is held. -/
theorem IsHeld.exists_owns (h : w.IsHeld e) : ∃ o, w.Owns o e := by
  rcases h with ⟨⟨name, _⟩, hf, rfl⟩ | ⟨⟨name, scope⟩, hf, he⟩
  · exact ⟨.name name, hf⟩
  · exact ⟨.scope name, scope, hf, he⟩

/-- An effect that was constructed and that nothing owns. -/
structure Unowned (w : World σ) (e : EffectId) : Prop where
  lt_size : e < w.effects.size
  not_owns : ∀ o, ¬ w.Owns o e

/-- A running pass keeps an effect without an owner alive, and nothing else does. -/
theorem Unowned.isAlive_iff (h : w.Unowned e) :
    w.isAlive e = true ↔ ∃ visited ∈ w.passes, e ∈ visited := by
  rw [isAlive_iff_owns, or_iff_right]
  rintro ⟨o, ho⟩
  exact h.not_owns o ho

end World

/-- What has an owner after a move and was constructed before had one before. -/
theorem Move.exists_owns {w w' : World σ} (h : Move w w') {o : Owner} {e : EffectId}
    (he : e < w.effects.size) (ho : w'.Owns o e) : ∃ o', w.Owns o' e := by
  have hheld (hw' : w'.IsHeld e) : ∃ o', w.Owns o' e :=
    ((h.entrusts.isHeld_of e hw').resolve_right (Nat.not_le.2 he)).exists_owns
  cases o with
  | name name => exact hheld (.inl ⟨(name, e), ho, rfl⟩)
  | scope name =>
    obtain ⟨scope, hf, hmem⟩ := ho
    exact hheld (.inr ⟨(name, scope), hf, hmem⟩)
  | viewModel vm =>
    obtain ⟨hvm, record, hr, hmem⟩ := ho
    rcases h.entrusts.bindings vm record hr with hold | ⟨-, hnew, -⟩
    -- A view model that was in use before has kept its bindings.
    · exact ⟨.viewModel vm, h.isViewModelAlive_of hold hvm, record, hold, hmem⟩
    · exact absurd he (Nat.not_lt.2 (hnew e hmem).1)

/-- An effect without an owner does not get one. -/
theorem Move.unowned {w w' : World σ} (h : Move w w') {e : EffectId} (he : w.Unowned e) :
    w'.Unowned e where
  lt_size := Nat.lt_of_lt_of_le he.lt_size h.later.size_le
  not_owns o ho := by
    obtain ⟨o', ho'⟩ := h.exists_owns he.lt_size ho
    exact he.not_owns o' ho'

theorem World.Unowned.of_moves {w u : World σ} {e : EffectId} (he : w.Unowned e)
    (h : ReflTransGen Move w u) : u.Unowned e := by
  induction h with
  | refl => exact he
  | tail _ hmove ih => exact hmove.unowned ih

/-! ### Passes that go on -/

/-- A move begins a pass or an update, ends the innermost one, or leaves the passes as they are. -/
theorem Move.passes_cases {w w' : World σ} (h : Move w w') :
    w'.passes = w.passes ∨ (∃ visited, w'.passes = visited :: w.passes) ∨
      w'.passes = w.passes.tail := by
  cases h with
  | change h => exact .inl h.sameFrames.passes_eq
  | startPass => exact .inr (.inl ⟨_, rfl⟩)
  | hold => exact .inr (.inl ⟨_, rfl⟩)
  | endPass => exact .inr (.inr rfl)
  | abortPass => exact .inr (.inr rfl)
  | _ => exact .inl rfl

/-- A move after which too few passes are running for one of them to go on has ended this one. -/
theorem Move.passes_eq_of_ends {w w' : World σ} (h : Move w w') {visited : List EffectId}
    {outer : List (List EffectId)} (hw : visited :: outer <:+ w.passes)
    (hlt : ¬ outer.length + 1 ≤ w'.passes.length) : w'.passes = outer := by
  have hle : outer.length + 1 ≤ w.passes.length := hw.length_le
  rcases h.passes_cases with heq | ⟨c, heq⟩ | heq
  · rw [heq] at hlt
    omega
  · rw [heq, List.length_cons] at hlt
    omega
  · rw [heq, List.length_tail] at hlt
    have hall : visited :: outer = w.passes :=
      hw.eq_of_length_le (by rw [List.length_cons]; omega)
    rw [heq, ← hall, List.tail_cons]

namespace World

/-- Moves on which at least `n` passes are running all the time: the outermost `n` passes go on. -/
def Sustains (n : Nat) : World σ → World σ → Prop :=
  ReflTransGen fun w w' => Move w w' ∧ n ≤ w'.passes.length

/-- A pass that visits the effect, or an update of it, was running at one moment and is still
running at another one. -/
def Lingers (w u : World σ) (e : EffectId) : Prop :=
  ∃ visited outer, visited :: outer <:+ w.passes ∧ e ∈ visited ∧ Sustains (outer.length + 1) w u

variable {w u u' : World σ} {e : EffectId} {n m : Nat}

theorem Sustains.mono (h : Sustains n w u) (hm : m ≤ n) : Sustains m w u := by
  induction h with
  | refl => exact .refl
  | tail _ hstep ih => exact ih.tail ⟨hstep.1, Nat.le_trans hm hstep.2⟩

/-- The passes that go on are the same ones. -/
theorem Sustains.suffix (h : Sustains n w u) {passes : List (List EffectId)}
    (hw : passes <:+ w.passes) (hn : passes.length = n) : passes <:+ u.passes := by
  induction h with
  | refl => exact hw
  | @tail v v' _ hstep ih =>
    obtain ⟨hmove, hlength⟩ := hstep
    rcases hmove.passes_cases with heq | ⟨c, heq⟩ | heq
    · rwa [heq]
    · rw [heq]
      exact ih.trans (List.suffix_cons _ _)
    -- The pass that ends is not one of them, because enough passes are left.
    · rw [heq] at hlength ⊢
      cases hpasses : v.passes with
      | nil => rwa [hpasses] at ih
      | cons visited outer =>
        rw [hpasses] at ih hlength
        rcases List.suffix_cons_iff.1 ih with hall | hsuffix
        · rw [List.tail_cons] at hlength
          rw [hall, List.length_cons] at hn
          omega
        · exact hsuffix

/-- What a pass visits that goes on is alive. -/
theorem Lingers.isAlive (h : w.Lingers u e) : u.isAlive e = true := by
  obtain ⟨visited, outer, hw, he, hsustains⟩ := h
  exact isAlive_of_mem_passes ((hsustains.suffix hw rfl).subset (List.mem_cons_self ..)) he

/-- Without an owner, an effect is alive only as long as a pass goes on that visits it and was
running when the last owner went. -/
theorem Unowned.isAlive_iff_lingers (h : w.Unowned e) (hu : ReflTransGen Move w u) :
    u.isAlive e = true ↔ w.Lingers u e := by
  refine ⟨fun halive => ?_, Lingers.isAlive⟩
  induction hu with
  | refl =>
    obtain ⟨visited, hmem, he⟩ := h.isAlive_iff.1 halive
    obtain ⟨inner, outer, hpasses⟩ := List.append_of_mem hmem
    exact ⟨visited, outer, ⟨inner, hpasses.symm⟩, he, .refl⟩
  | @tail u u' hu hmove ih =>
    have hunowned : u.Unowned e := h.of_moves hu
    obtain ⟨visited, outer, hw, he, hsustains⟩ := ih (hmove.isAlive_of hunowned.lt_size halive)
    by_cases hlength : outer.length + 1 ≤ u'.passes.length
    · exact ⟨visited, outer, hw, he, hsustains.tail ⟨hmove, hlength⟩⟩
    -- This pass has just ended. A pass outside of it visits the effect too.
    · have houter : u'.passes = outer :=
        hmove.passes_eq_of_ends (hsustains.suffix hw rfl) hlength
      obtain ⟨visited', hmem, he'⟩ := (hmove.unowned hunowned).isAlive_iff.1 halive
      rw [houter] at hmem
      obtain ⟨inner, outer', rfl⟩ := List.append_of_mem hmem
      refine ⟨visited', outer', ?_, he', (hsustains.mono ?_).tail ⟨hmove, ?_⟩⟩
      · exact List.IsSuffix.trans ⟨visited :: inner, rfl⟩ hw
      · simp only [List.length_append, List.length_cons]
        omega
      · rw [houter]
        simp

/-- From this moment on, an effect reacts to nothing: its record, with all the values that it
reacted to, stays as it is. No pass that begins visits it. -/
def IsSilent (w : World σ) (e : EffectId) : Prop :=
  ∀ u, ReflTransGen Move w u → u.effects[e]? = w.effects[e]? ∧ ∀ c, e ∉ u.liveWatchers c

theorem Dead.isSilent (h : w.Dead e) : w.IsSilent e := by
  intro u hu
  obtain ⟨hdead, heffect⟩ := h.of_moves hu
  exact ⟨heffect, hdead.notMem_liveWatchers⟩

/-- Without an owner and without a pass that goes on, an effect is silent. -/
theorem Unowned.isSilent (h : w.Unowned e) (hu : ReflTransGen Move w u) (hl : ¬ w.Lingers u e) :
    u.IsSilent e := by
  refine Dead.isSilent ⟨(h.of_moves hu).lt_size, Bool.eq_false_iff.2 fun halive => ?_⟩
  exact hl ((h.isAlive_iff_lingers hu).1 halive)

/-- A pass that begins visits the effect if it watches the cell and one of the older passes goes
on. -/
theorem Unowned.mem_liveWatchers_iff (h : w.Unowned e) (hu : ReflTransGen Move w u) (c : CellId) :
    e ∈ u.liveWatchers c ↔ e ∈ u.store.watchers c ∧ w.Lingers u e := by
  rw [liveWatchers, List.mem_filter, h.isAlive_iff_lingers hu]

end World

/-! ### Places -/

/-- Watchers that are alive after a move have kept their places, and others came behind them. -/
theorem Move.watchers_append {w w' : World σ} (h : Move w w') (hw : w.Sound) (c : CellId) :
    ∃ new, w'.liveWatchers c = (w.store.watchers c).filter w'.isAlive ++ new := by
  have hsame (hc : w'.store.watchers c = w.store.watchers c) :
      ∃ new, w'.liveWatchers c = (w.store.watchers c).filter w'.isAlive ++ new :=
    ⟨[], by rw [liveWatchers, hc, List.append_nil]⟩
  cases h with
  | change h =>
    cases h with
    | read cells => exact hsame (by rw [hw.registerReads_eq])
    | extend hext => exact hsame (hext.watchers_eq c)
    | construct h =>
      by_cases hc : c < w.store.cells.size
      · exact ⟨_, by rw [liveWatchers, h.grows.watchers_eq c hc, List.filter_append]⟩
      · have hsize := h.grows.sameData.size_eq
        have hle := Nat.le_of_not_lt hc
        exact hsame (by rw [Store.watchers_eq_nil_of_le hle,
          Store.watchers_eq_nil_of_le (Nat.le_trans (Nat.le_of_eq hsize) hle)])
    | @enlist d f hf =>
      rcases Store.watchers_watch_cases w.store d c f.2 with heq | heq
      · exact hsame heq
      · exact ⟨_, by rw [liveWatchers, heq, List.filter_append]⟩
    | _ => exact hsame rfl
  | assign d v => exact hsame (Store.watchers_assign w.store d c v)
  | startPass d =>
    refine ⟨[], ?_⟩
    rw [liveWatchers, World.startPass, Store.watchers_prune, List.append_nil]
    split
    -- What the pass takes off was not alive.
    · exact filter_filter_of_imp fun e _ => isAlive_of_startPass
    · rfl
  | _ => exact hsame rfl

/-- At every later moment, the watchers that are still alive are in front, in the order and as often
as they were. -/
theorem liveWatchers_of_moves {w u : World σ} (h : ReflTransGen Move w u) (hw : w.Sound)
    (c : CellId) : ∃ new, u.liveWatchers c = (w.store.watchers c).filter u.isAlive ++ new := by
  induction h with
  | refl => exact ⟨[], (List.append_nil _).symm⟩
  | @tail u u' hu hmove ih =>
    have hsound : u.Sound := hw.of_moves hu
    obtain ⟨new, hnew⟩ := ih
    obtain ⟨new', hnew'⟩ := hmove.watchers_append hsound c
    -- What is alive after the move was alive before it.
    have hwatchers : (u.store.watchers c).filter u'.isAlive =
        (u.liveWatchers c).filter u'.isAlive :=
      (filter_filter_of_imp fun e he => hmove.isAlive_of (hsound.watchers_lt c e he)).symm
    have hold : ((w.store.watchers c).filter u.isAlive).filter u'.isAlive =
        (w.store.watchers c).filter u'.isAlive :=
      filter_filter_of_imp fun e he => hmove.isAlive_of
        (Nat.lt_of_lt_of_le (hw.watchers_lt c e he) (later_of_moves hu).size_le)
    refine ⟨new.filter u'.isAlive ++ new', ?_⟩
    rw [hnew', hwatchers, hnew, List.filter_append, hold, List.append_assoc]

/-! ### Dropping an owner -/

namespace World

/-- A move that drops an owner, and no more than that. -/
structure Drops (w : World σ) (o : Owner) (w' : World σ) : Prop where
  move : Move w w'
  owns_iff : ∀ o' e, w'.Owns o' e ↔ w.Owns o' e ∧ o' ≠ o
  store_eq : w'.store = w.store
  effects_eq : w'.effects = w.effects
  passes_eq : w'.passes = w.passes

namespace Drops

variable {w w' u : World σ} {o : Owner} {e : EffectId}

/-- What had no other owner has none. -/
theorem unowned (h : w.Drops o w') (hw : w.Sound) (ho : w.Owns o e)
    (hsole : ∀ o', w.Owns o' e → o' = o) : w'.Unowned e where
  lt_size := h.effects_eq ▸ hw.lt_size ho.isAlive
  not_owns o' ho' := by
    obtain ⟨hold, hne⟩ := (h.owns_iff o' e).1 ho'
    exact hne (hsole o' hold)

/-- What the owner did not hold, or something else holds too, is as alive as before. -/
theorem isAlive_eq (h : w.Drops o w') (ho : ¬ w.Owns o e ∨ ∃ o', o' ≠ o ∧ w.Owns o' e) :
    w'.isAlive e = w.isAlive e := by
  refine Bool.eq_iff_iff.2 ?_
  rw [isAlive_iff_owns, isAlive_iff_owns, h.passes_eq]
  refine or_congr_left ⟨?_, ?_⟩
  · rintro ⟨o', ho'⟩
    exact ⟨o', ((h.owns_iff o' e).1 ho').1⟩
  · rintro ⟨o', ho'⟩
    rcases ho with hnot | ⟨o'', hne, ho''⟩
    · refine ⟨o', (h.owns_iff o' e).2 ⟨ho', ?_⟩⟩
      rintro rfl
      exact hnot ho'
    · exact ⟨o'', (h.owns_iff o'' e).2 ⟨ho'', hne⟩⟩

/-- A cell goes on with those of its watchers that are left. -/
theorem liveWatchers_eq (h : w.Drops o w') (hw : w.Sound) (c : CellId) :
    w'.liveWatchers c = (w.liveWatchers c).filter w'.isAlive := by
  rw [liveWatchers, liveWatchers, h.store_eq]
  exact (filter_filter_of_imp fun e he => h.move.isAlive_of (hw.watchers_lt c e he)).symm

end Drops

/-- A scope is dropped with its name. -/
theorem drops_scope (w : World σ) (name : String) :
    w.Drops (.scope name)
      { w with names := { w.names with scopes := w.names.scopes.erase name } } where
  move := .change <| change_rename w (fun _ hf => hf)
    (fun _ hf _ hm => isHeld_of_mem_scope (Fields.mem_of_mem_erase hf) hm)
    fun _ hf => isViewModelAlive_of_mem hf
  owns_iff o' e := by
    cases o' with
    | name name' => simp [Owns]
    | scope name' =>
      simp only [Owns, Fields.erase, List.mem_filter, bne_iff_ne, ne_eq, Owner.scope.injEq]
      constructor
      · rintro ⟨scope, ⟨hf, hne⟩, he⟩
        exact ⟨⟨scope, hf, he⟩, hne⟩
      · rintro ⟨⟨scope, hf, he⟩, hne⟩
        exact ⟨scope, ⟨hf, hne⟩, he⟩
    | viewModel vm => simp [Owns, isViewModelAlive]
  store_eq := rfl
  effects_eq := rfl
  passes_eq := rfl

/-- A view model is dropped if it is no longer in use and nothing else changes. -/
theorem drops_of_isViewModelAlive {w w' : World σ} {vm : ViewModelId} (hmove : Move w w')
    (heffects : w'.names.effects = w.names.effects) (hscopes : w'.names.scopes = w.names.scopes)
    (hrecords : w'.viewModels = w.viewModels) (hstore : w'.store = w.store)
    (hsame : w'.effects = w.effects) (hpasses : w'.passes = w.passes)
    (halive : ∀ vm', w'.isViewModelAlive vm' = true ↔ w.isViewModelAlive vm' = true ∧ vm' ≠ vm) :
    w.Drops (.viewModel vm) w' where
  move := hmove
  owns_iff o' e := by
    cases o' with
    | name name => simp [Owns, heffects]
    | scope name => simp [Owns, hscopes]
    | viewModel vm' =>
      simp only [Owns, halive, hrecords, ne_eq, Owner.viewModel.injEq]
      exact and_right_comm
  store_eq := hstore
  effects_eq := hsame
  passes_eq := hpasses

/-- A view model that only one name leads to, and no method of which is running, is dropped with
this name. -/
theorem drops_viewModel {w : World σ} {name : String} {vm : ViewModelId}
    (hnames : ∀ f ∈ w.names.viewModels, f.2 = vm ↔ f.1 = name) (hreceivers : vm ∉ w.receivers) :
    w.Drops (.viewModel vm)
      { w with names := { w.names with viewModels := w.names.viewModels.erase name } } := by
  have hmove : Change w
      { w with names := { w.names with viewModels := w.names.viewModels.erase name } } :=
    change_rename w (fun _ hf => hf) (fun _ hf _ hm => isHeld_of_mem_scope hf hm)
      fun _ hf => isViewModelAlive_of_mem (Fields.mem_of_mem_erase hf)
  refine drops_of_isViewModelAlive (.change hmove) rfl rfl rfl rfl rfl rfl fun vm' => ?_
  rw [isViewModelAlive_iff, isViewModelAlive_iff]
  constructor
  · rintro (⟨f, hf, rfl⟩ | hreceiver)
    · obtain ⟨hf, hne⟩ := List.mem_filter.1 hf
      rw [bne_iff_ne] at hne
      exact ⟨.inl ⟨f, hf, rfl⟩, fun heq => hne ((hnames f hf).1 heq)⟩
    · refine ⟨.inr hreceiver, ?_⟩
      rintro rfl
      exact hreceivers hreceiver
  · rintro ⟨⟨f, hf, rfl⟩ | hreceiver, hne⟩
    · refine .inl ⟨f, List.mem_filter.2 ⟨hf, ?_⟩, rfl⟩
      rw [bne_iff_ne]
      exact fun heq => hne ((hnames f hf).2 heq)
    · exact .inr hreceiver

/-- A view model without a name is dropped when the last of its methods ends. -/
theorem drops_leaveMethod {w : World σ} {vm : ViewModelId} {outer : List ViewModelId}
    (hreceivers : w.receivers = vm :: outer) (houter : vm ∉ outer)
    (hnames : ∀ f ∈ w.names.viewModels, f.2 ≠ vm) : w.Drops (.viewModel vm) w.leaveMethod := by
  refine drops_of_isViewModelAlive (.leaveMethod w) rfl rfl rfl rfl rfl rfl fun vm' => ?_
  rw [isViewModelAlive_iff, isViewModelAlive_iff, leaveMethod, hreceivers]
  constructor
  · rintro (⟨f, hf, rfl⟩ | hreceiver)
    · exact ⟨.inl ⟨f, hf, rfl⟩, hnames f hf⟩
    · refine ⟨.inr (List.mem_cons_of_mem _ hreceiver), ?_⟩
      rintro rfl
      exact houter hreceiver
  · rintro ⟨hname | hreceiver, hne⟩
    · exact .inl hname
    · exact .inr ((List.mem_cons.1 hreceiver).resolve_left hne)

end World

/-! ### Runs -/

/-- Dropped scopes fall silent. Let `w` be any moment of a run, also one in the middle of a step,
where scripts, passes and methods are running; between the steps, no pass is. An update on request
counts as a pass over its effect, and an assignment through a view model as a method. Requests and
scripts lead to later moments only. The request to drop a scope drops this scope; the request to
drop a view model does so if it takes the last name of one none of whose methods is running; the end
of a method does so if the view model has no name. Whenever an owner is dropped:

* of the effects that it alone owned, those that no running pass visits are silent at once. The
  others are alive, and passes that begin on their cells visit them, exactly as long as a pass goes
  on that was running at the drop and visits them; then they are silent. Nothing owns them again;
* effects that it did not own, or not alone, are as alive as before; every cell goes on with those
  of its watchers that are left, in the same order, and at every later moment those that are still
  alive come first, in this order and as often. -/
theorem dropped_owner_silent (source : String) (w : SceneWorld)
    (hw : ReflTransGen Move (Scene.start source) w) :
    (∀ depth steps, w = Scene.after depth (Scene.start source) steps → w.passes = []) ∧
    (∀ depth env, (∀ vm, env.receiver = some vm → vm ∈ w.receivers) →
      (∀ s : Step, ReflTransGen Move w ((s.perform (Script.invoke depth) env).runOn w).2) ∧
      ∀ code, ReflTransGen Move w ((Script.invoke depth code env).runOn w).2) ∧
    (∀ depth env name, w.Drops (.scope name)
      (((Step.effect (.dropScope name)).perform (Script.invoke depth) env).runOn w).2) ∧
    (∀ depth env name vm, (∀ f ∈ w.names.viewModels, f.2 = vm ↔ f.1 = name) → vm ∉ w.receivers →
      w.Drops (.viewModel vm)
        (((Step.template (.drop name)).perform (Script.invoke depth) env).runOn w).2) ∧
    (∀ vm outer, w.receivers = vm :: outer → vm ∉ outer →
      (∀ f ∈ w.names.viewModels, f.2 ≠ vm) → w.Drops (.viewModel vm) w.leaveMethod) ∧
    ∀ o w₁, w.Drops o w₁ →
      (∀ e, w.Owns o e → (∀ o', w.Owns o' e → o' = o) →
        ((∀ visited ∈ w.passes, e ∉ visited) → w₁.IsSilent e) ∧
        ∀ u, ReflTransGen Move w₁ u →
          (∀ o', ¬ u.Owns o' e) ∧
          (u.isAlive e = true ↔ w₁.Lingers u e) ∧
          (∀ c, e ∈ u.liveWatchers c ↔ e ∈ u.store.watchers c ∧ w₁.Lingers u e) ∧
          (¬ w₁.Lingers u e → u.IsSilent e)) ∧
      (∀ e, (¬ w.Owns o e ∨ ∃ o', o' ≠ o ∧ w.Owns o' e) → w₁.isAlive e = w.isAlive e) ∧
      (∀ c, w₁.liveWatchers c = (w.liveWatchers c).filter w₁.isAlive) ∧
      ∀ u, ReflTransGen Move w₁ u → ∀ c, ∃ new,
        u.liveWatchers c = (w.store.watchers c).filter u.isAlive ++ new := by
  have hsound : w.Sound := (sound_ofDocument _).of_moves hw
  refine ⟨?_, fun depth env henv => ⟨fun s => ?_, fun code => ?_⟩,
    fun _ _ name => w.drops_scope name, fun _ _ name vm => drops_viewModel,
    fun vm outer => drops_leaveMethod, fun o w₁ hdrop => ?_⟩
  · rintro depth steps rfl
    exact (Scene.evolves_after depth _ steps).sameFrames.passes_eq
  · exact (follows_perform (invoke_evolves depth) env s w henv).moves
  · exact (invoke_evolves depth code env w henv).moves
  refine ⟨fun e ho hsole => ?_, fun e => hdrop.isAlive_eq, hdrop.liveWatchers_eq hsound,
    fun u hu c => ?_⟩
  · have hunowned : w₁.Unowned e := hdrop.unowned hsound ho hsole
    refine ⟨fun hpasses => hunowned.isSilent .refl fun hlingers => ?_, fun u hu =>
      ⟨(hunowned.of_moves hu).not_owns, hunowned.isAlive_iff_lingers hu,
        hunowned.mem_liveWatchers_iff hu, hunowned.isSilent hu⟩⟩
    -- The pass that would go on was running at the drop.
    obtain ⟨visited, outer, hsuffix, he, -⟩ := hlingers
    rw [hdrop.passes_eq] at hsuffix
    exact hpasses visited (hsuffix.subset (List.mem_cons_self ..)) he
  · rw [← hdrop.store_eq]
    exact liveWatchers_of_moves hu (hdrop.move.sound hsound) c

/-- A scope is dropped while a pass visits its effect, which is alive until the pass has ended and
silent afterwards. -/
theorem dropped_owner_silent_pass :
    let w := (Scene.after callDepth (Scene.start "") [
      .model (.create "m" (.object [("a", .text "0")])),
      .effect (.createScope "s"),
      .effect (.create "e" "m" ⟨"a"⟩ false .done),
      .effect (.hold "s" "e")]).startPass 0
    let w₁ := (((Step.effect (.dropScope "s")).perform (Script.invoke callDepth)
      ⟨.null, none⟩).runOn w).2
    w₁.isAlive 0 = true ∧ w₁.endPass.IsSilent 0 := by
  intro w w₁
  have hw : ReflTransGen Move (Scene.start "") w :=
    (Scene.evolves_after callDepth _ _).moves.tail (.startPass _ 0)
  obtain ⟨-, -, hscope, -, -, hlaw⟩ := dropped_owner_silent "" w hw
  obtain ⟨hsilent, -⟩ := hlaw (.scope "s") w₁ (hscope callDepth ⟨.null, none⟩ "s")
  -- Nothing but the scope owns the effect.
  have hnames : w.names.effects = [] ∧ w.names.scopes = [("s", ⟨[0], 0⟩)] ∧
      w.viewModels = #[] := by decide +kernel
  obtain ⟨heffects, hscopes, hviewModels⟩ := hnames
  have howns : w.Owns (.scope "s") 0 := ⟨⟨[0], 0⟩, by simp [hscopes], by simp⟩
  have hsole (o : Owner) (ho : w.Owns o 0) : o = .scope "s" := by
    cases o with
    | name name => simp [Owns, heffects] at ho
    | scope name =>
      obtain ⟨scope, hf, -⟩ := ho
      simp [hscopes] at hf
      rw [hf.1]
    | viewModel vm =>
      obtain ⟨-, record, hr, -⟩ := ho
      simp [hviewModels] at hr
  obtain ⟨-, hlater⟩ := hsilent 0 howns hsole
  obtain ⟨-, halive, -, hends⟩ := hlater w₁.endPass (.single (.endPass w₁))
  refine ⟨by decide +kernel, hends fun hlingers => ?_⟩
  have hdead : w₁.endPass.isAlive 0 = false := by decide +kernel
  exact absurd ((halive.2 hlingers).symm.trans hdead) (by simp)

/-- A scope is dropped by a callback that runs in the same pass as the effect of the scope, but
after it. Then a write within the callback runs the effect again. -/
theorem dropped_scope_runs_again :
    let w := Scene.after callDepth (Scene.start "") [
      .model (.create "m" (.object [("a", .text "0")])),
      .effect (.createScope "s"),
      .effect (.create "e" "m" ⟨"a"⟩ false (.log "e" .done)),
      .effect (.hold "s" "e"),
      .effect (.create "d" "m" ⟨"a"⟩ false (.run (.effect (.dropScope "s"))
        (.note "dropped" (.run (.model (.set "m" ⟨"a"⟩ (.plain (.text "2")))) .done))))]
    w.names.effects = [("d", 1)] ∧ w.names.scopes = [("s", ⟨[0], 0⟩)] ∧ w.viewModels = #[] ∧
      w.store.watchers 0 = [0, 1] ∧
      (Scene.step callDepth w (.model (.set "m" ⟨"a"⟩ (.plain (.text "1"))))).1.log =
        ["e:1", "dropped", "e:2", "dropped"] := by
  decide +kernel

end LiveBinding
