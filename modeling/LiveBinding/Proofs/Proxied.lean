import LiveBinding.Proofs.Advance.Scene
import Mathlib.Data.List.Induction

/-!
# Access through a view model

A view model hands out the keys that its data had when it was made. Getting and setting such a key
through the view model is reading and writing it in the model, with everything that follows from
that. Other keys cannot be reached, also if the model has got them since.

## Key definitions

- `World.KeepsViewModels`: view models stay as they are, up to their bindings
- `World.ProxiesKeys`: the proxied keys are keys of the models

## Key results

- `newViewModel_proxies`: the proxied keys are those of the data
- `Advances.keepsViewModels`, `Advances.proxiesKeys`: they stay, and so do the keys of the model
- `runOn_getProxied`, `runOn_setProxied`: access to a proxied key is access to the model
- `Scene.proxied_access`: in a run
-/

namespace LiveBinding

variable {σ : Type} {w w' : World σ}

/-! ### Keys of data -/

/-- Putting fields one after the other gives each name the place where it comes first. -/
theorem Fields.keys_foldl_put {α : Type} (fs : Fields α) :
    keys (fs.foldl (fun gs f => put gs f.1 f.2) []) = (keys fs).eraseDups := by
  -- By induction from the right, because the last field is put last.
  induction fs using List.reverseRecOn with
  | nil => rfl
  | append_singleton fs f ih =>
    rw [List.foldl_append, keys_append, List.eraseDups_append, List.foldl_cons, List.foldl_nil]
    by_cases hmem : f.1 ∈ keys fs
    · rw [keys_put_of_mem (by rwa [ih, List.mem_eraseDups]), ih]
      simp [List.removeAll, hmem]
    · rw [keys_put_of_not_mem (by rwa [ih, List.mem_eraseDups]), ih]
      simp [List.removeAll, hmem, List.eraseDups_cons]

namespace Store

theorem keys_interceptFields (s : Store) (fields : Fields Plain) :
    Fields.keys (s.interceptFields fields).2 = Fields.keys fields := by
  induction fields generalizing s with
  | nil => rfl
  | cons f fields ih => rw [interceptFields, Fields.keys_cons, Fields.keys_cons, ih]

/-- The root of a model has the keys of the object that it is built from. -/
theorem keys_of_interceptRoot {s : Store} {data : Plain} {built : Store × MappingId}
    (h : s.interceptRoot data = .ok built) :
    ∃ fields, data = .object fields ∧ built.1.keys built.2 = (Fields.keys fields).eraseDups := by
  cases data with
  | object fields =>
    simp only [interceptRoot, intercept] at h
    cases h
    refine ⟨fields, rfl, ?_⟩
    have hkeys := keys_addMapping (s.interceptFields fields).1 (s.interceptFields fields).2
      (s.interceptFields fields).1.mappings.size
    rwa [if_pos rfl, Fields.keys_foldl_put, keys_interceptFields] at hkeys
  | _ =>
    simp only [interceptRoot, intercept] at h
    cases h

end Store

/-! ### View models stay -/

namespace World

/-- Reading nothing changes nothing. -/
theorem registerReads_nil (w : World σ) : w.registerReads [] = w := by
  unfold registerReads
  split <;> rfl

/-- Every view model stays where it is, with all but its bindings. -/
def KeepsViewModels (w w' : World σ) : Prop :=
  ∀ (id : ViewModelId) (vm : ViewModel), w.viewModels[id]? = some vm →
    ∃ scope, w'.viewModels[id]? = some { vm with bindings := scope }

/-- The proxied keys of every view model are keys of its model. -/
def ProxiesKeys (w : World σ) : Prop :=
  ∀ (id : ViewModelId) (vm : ViewModel), w.viewModels[id]? = some vm →
    ∀ key ∈ vm.proxied, key ∈ w.store.keys vm.model

theorem KeepsViewModels.of_eq (h : w'.viewModels = w.viewModels) : w.KeepsViewModels w' :=
  fun _ vm hvm => ⟨vm.bindings, h ▸ hvm⟩

theorem KeepsViewModels.trans {w₁ w₂ w₃ : World σ} (h : w₁.KeepsViewModels w₂)
    (h' : w₂.KeepsViewModels w₃) : w₁.KeepsViewModels w₃ := fun id vm hvm => by
  obtain ⟨scope, hscope⟩ := h id vm hvm
  obtain ⟨scope', hscope'⟩ := h' id _ hscope
  exact ⟨scope', hscope'⟩

end World

namespace Advances

open World

/-- A run changes nothing about a view model but its bindings. -/
theorem keepsViewModels (h : Advances w w') : w.KeepsViewModels w' := by
  induction h with
  | refl w => exact .of_eq rfl
  | trans _ _ ih ih' => exact ih.trans ih'
  | other _ _ hv _ => exact .of_eq hv
  | store w _ => exact .of_eq rfl
  | edit w i op => exact .of_eq rfl
  | load w source => exact .of_eq rfl
  | enroll w _ => exact fun id vm hvm => ⟨vm.bindings, getElem?_push_of_eq_some hvm _⟩
  | bind w i scope =>
    intro id vm hvm
    rw [Array.getElem?_modify, hvm]
    split
    · exact ⟨scope, rfl⟩
    · exact ⟨vm.bindings, rfl⟩
  | suspended _ ih => exact ih

/-- Keys stay, and new view models proxy keys of their models. -/
theorem proxiesKeys (h : Advances w w') (hw : w.ProxiesKeys) : w'.ProxiesKeys := by
  induction h with
  | refl w => exact hw
  | trans _ _ ih ih' => exact ih' (ih hw)
  | other hs _ hv _ =>
    rw [ProxiesKeys, hs, hv]
    exact hw
  | store w h =>
    exact fun id vm hvm key hkey => (h.lasts.keys_prefix _).subset (hw id vm hvm key hkey)
  | edit w i op => exact hw
  | load w source => exact hw
  | enroll w h =>
    intro id vm hvm
    rcases eq_or_eq_of_getElem?_push hvm with hvm | ⟨-, rfl⟩
    · exact hw id vm hvm
    · exact h
  | bind w i scope =>
    intro id vm hvm
    rw [Array.getElem?_modify] at hvm
    split at hvm
    · obtain ⟨vm₀, hvm₀, rfl⟩ := Option.map_eq_some_iff.1 hvm
      exact hw id vm₀ hvm₀
    · exact hw id vm hvm
  | suspended _ ih => exact ih hw

end Advances

/-- View models stay and proxy keys of their models, as long as those that there are do. -/
theorem stable_proxiesKeys (w : World σ) :
    Stable fun u : World σ => w.KeepsViewModels u ∧ u.ProxiesKeys where
  of_advances h hu := ⟨hu.1.trans h.keepsViewModels, h.proxiesKeys hu.2⟩
  suspend hu := hu

namespace Act

/-! ### Making a view model -/

/-- When its template is compiled, a new view model gets bindings and stays what it is. -/
theorem record_of_compile {vm : ViewModel} {t : Setting σ} {root : NodeId} {id : ViewModelId}
    (h : Act.runOn (do
      let scope ← t.instantiate root
      modify fun w' => { w' with
        viewModels := w'.viewModels.modify w.viewModels.size fun vm =>
          { vm with bindings := scope } }
      return w.viewModels.size) { w with viewModels := w.viewModels.push vm } = (.ok id, w')) :
    ∃ scope, w'.viewModels[id]? = some { vm with bindings := scope } := by
  have hcompile := Setting.advances_instantiate t root { w with viewModels := w.viewModels.push vm }
  rw [runOn_bind] at h
  rcases hrun : (t.instantiate root).runOn { w with viewModels := w.viewModels.push vm }
    with ⟨f | scope, w₁⟩
  · rw [hrun] at h
    cases h
  · rw [hrun] at h hcompile
    obtain ⟨⟨⟩, rfl⟩ := Prod.mk.inj h
    obtain ⟨scope', hscope'⟩ := hcompile.keepsViewModels _ vm Array.getElem?_push_size
    refine ⟨scope, ?_⟩
    dsimp only at hscope' ⊢
    rw [Array.getElem?_modify, if_pos rfl, hscope']
    rfl

/-- A view model has the model that is built from its data. It proxies the keys of the data if it is
mounted and its configuration says so, and no keys otherwise. -/
theorem newViewModel_proxies {document : DocumentId} {b : Blueprint σ} {id : ViewModelId}
    (h : (newViewModel document b).runOn w = (.ok id, w')) :
    ∃ fields built vm, b.data = .object fields ∧ w.store.interceptRoot b.data = .ok built ∧
      w'.viewModels[id]? = some vm ∧ vm.model = built.2 ∧
      vm.proxied =
        if b.mount.isSome && b.config.proxyData then (Fields.keys fields).eraseDups else [] := by
  rw [newViewModel, runOn_bind, runOn_intercept] at h
  cases hbuilt : w.store.interceptRoot b.data with
  | error f =>
    rw [hbuilt] at h
    cases h
  | ok built =>
    rw [hbuilt] at h
    obtain ⟨fields, hdata, hkeys⟩ := Store.keys_of_interceptRoot hbuilt
    dsimp only at h
    cases hmount : b.mount with
    | none =>
      rw [hmount] at h
      obtain ⟨⟨⟩, rfl⟩ := Prod.mk.inj h
      exact ⟨fields, built, _, hdata, rfl, Array.getElem?_push_size, rfl, rfl⟩
    | some mount =>
      rw [hmount] at h
      dsimp only at h
      rw [runOn_bind, runOn_get] at h
      dsimp only at h
      rw [runOn_bind, runOn_ofExcept] at h
      cases hroot : mount.resolve ((w.turn built.1).document document) with
      | error f =>
        rw [hroot] at h
        cases h
      | ok root =>
        rw [hroot] at h
        dsimp only at h
        rw [runOn_bind, runOn_get] at h
        dsimp only at h
        rw [runOn_bind, runOn_addViewModel] at h
        dsimp only [World.store_turn] at h
        -- The keys of the model are those of the data when they are looked up.
        rw [hkeys] at h
        obtain ⟨scope, hscope⟩ := record_of_compile (w := w.turn built.1) h
        exact ⟨fields, built, _, hdata, rfl, hscope, rfl, rfl⟩

/-! ### Reading -/

theorem runOn_checkProxied (vm : ViewModel) (key : String) (w : World σ) :
    (checkProxied vm key).runOn w =
      if key ∈ vm.proxied then (.ok (), w) else (.error (.unknownProperty key), w) := by
  rw [checkProxied]
  by_cases h : key ∈ vm.proxied
  · rw [if_pos h, if_pos (List.contains_iff_mem.2 h)]
    rfl
  · rw [if_neg h, if_neg (fun h' => h (List.contains_iff_mem.1 h'))]
    rfl

/-- A key that is defined has the value of its cell, which is registered. -/
theorem runOn_readKey {m : MappingId} {key : String} {c : CellId}
    (hc : w.store.cellOf? m key = some c) :
    (readKey m key).runOn w = (.ok (some (w.store.value c)), w.registerReads [c]) := by
  obtain ⟨s, hs, hsame⟩ := w.registerReads_eq [c]
  rw [readKey, runOn_bind, runOn_get]
  dsimp only
  rw [hc]
  dsimp only
  rw [runOn_map, readCell, runOn_bind, runOn_modify]
  dsimp only
  rw [runOn_bind, runOn_get, hs]
  dsimp only
  rw [runOn_pure, hsame.value_eq]
  rfl

/-- Getting a proxied key is reading it in the model. -/
theorem runOn_getProxied {vm : ViewModel} {key : String} (h : key ∈ vm.proxied) (w : World σ) :
    (getProxied vm key).runOn w =
      (((readKey vm.model key).runOn w).1.map (·.getD .null),
        ((readKey vm.model key).runOn w).2) := by
  rw [getProxied, runOn_bind, runOn_checkProxied, if_pos h]
  dsimp only
  rw [bind_pure_comp, runOn_map]

/-! ### Writing -/

variable (call : Call σ)

/-- Writing a key puts the value in the cell of the key, or defines the key. -/
theorem runOn_writeKey (m : MappingId) (key : String) (v : Value) (w : World σ) :
    (writeKey call m key v).runOn w =
      match w.store.cellOf? m key with
      | some c => (put call (.cell c) v).runOn w
      | none => (put call (.newKey m key) v).runOn w := by
  rw [writeKey, runOn_bind, runOn_get]
  dsimp only
  cases w.store.cellOf? m key <;> rfl

/-- Setting a proxied key is writing it in the model: where the value is there already, writing it
does nothing either. -/
theorem runOn_setProxied {vm : ViewModel} {key : String} (h : key ∈ vm.proxied) (v : Value)
    (w : World σ) :
    (setProxied call vm key v).runOn w = (writeKey call vm.model key v).runOn w := by
  rw [setProxied, runOn_bind, runOn_checkProxied, if_pos h]
  dsimp only
  rw [runOn_bind, runOn_get]
  dsimp only
  cases hc : w.store.cellOf? vm.model key with
  | none => rfl
  | some c =>
    rw [Option.map_some, Option.any_some]
    split
    -- The cell makes the same test as the view model.
    · rename_i hsame
      rw [runOn_writeKey, hc]
      dsimp only
      rw [runOn_put_cell, runOn_setCell, if_pos hsame]
      rfl
    · rfl

/-! ### Keys as paths -/

/-- Reading a key as a path is reading the key; one that is not defined reads as `null`. -/
theorem runOn_read_key {key : String} (hsegments : (KeyPath.mk key).segments = [key])
    (m : MappingId) (w : World σ) :
    (read ⟨key⟩ m).runOn w =
      (((readKey m key).runOn w).1.map (·.getD .null), ((readKey m key).runOn w).2) := by
  rw [read, hsegments, runOn_readAlong]
  simp only [Store.walk, Store.step?]
  cases hc : w.store.cellOf? m key with
  | some c =>
    rw [runOn_readKey hc]
    rfl
  | none =>
    have hread : (readKey m key).runOn w = (.ok none, w) := by
      rw [readKey, runOn_bind, runOn_get]
      dsimp only
      rw [hc]
      rfl
    rw [hread]
    exact congrArg _ w.registerReads_nil

/-- Assigning to a key as a path is writing the key. -/
theorem runOn_write_key {key : String} (hsegments : (KeyPath.mk key).segments = [key])
    (m : MappingId) (v : Value) (w : World σ) :
    (write call ⟨key⟩ m v).runOn w = (writeKey call m key v).runOn w := by
  have hparents : (KeyPath.mk key).parents = [] := by
    rw [KeyPath.parents, hsegments]
    rfl
  have hlast : (KeyPath.mk key).last = key := by
    simp only [KeyPath.last, hsegments, List.getLast_singleton]
  rw [runOn_write, runOn_writeKey, hparents, hlast, Store.walk]
  simp only [Store.place, World.registerReads_nil]
  cases w.store.cellOf? m key <;> rfl

end Act

namespace Scene

open Act

/-- Access through a view model is access to its model.

A new view model proxies the keys of its data, if it is mounted and its configuration says so, and
no keys otherwise. It stays what it is, up to its bindings, and the proxied keys stay keys of its
model: while a run advances, which every step and script does, between the steps, and where a script
starts.

So getting a proxied key has the result of reading the key in the model, and registers what that
registers. Setting a proxied key does whatever writing it in the model does: it has the same result,
also if that is a fault, and leaves the same world, with all that was notified. A key without points
and without blanks around it can be read and written as a path instead. Any other key is unknown and
nothing happens, whatever keys the model has. -/
theorem proxied_access (depth : Nat) (source : String) (steps : List Step) :
    let w := after depth (start source) steps
    (∀ (document : DocumentId) (b : Blueprint Script) (u u' : SceneWorld) (id : ViewModelId),
      (newViewModel document b).runOn u = (.ok id, u') → Advances u u' ∧
      ∃ fields built vm, b.data = .object fields ∧ u.store.interceptRoot b.data = .ok built ∧
        u'.viewModels[id]? = some vm ∧ vm.model = built.2 ∧
        vm.proxied =
          if b.mount.isSome && b.config.proxyData then (Fields.keys fields).eraseDups else []) ∧
    (∀ u u' : SceneWorld, Advances u u' →
      u.KeepsViewModels u' ∧ (u.ProxiesKeys → u'.ProxiesKeys)) ∧
    (∀ (limit : Nat) (env : Received) (s : Step),
      Follows Advances (s.perform (Script.invoke limit) env)) ∧
    (∀ (limit : Nat) (code : Script) (env : Received),
      Follows Advances (Script.invoke limit code env)) ∧
    (w.ProxiesKeys ∧ ∀ later, w.KeepsViewModels (after depth w later)) ∧
    (∀ (other : Call Script) (limit : Nat) (env : Received) (s : Step),
      (s.perform
        (Script.runWhere (fun u => w.KeepsViewModels u ∧ u.ProxiesKeys) other limit) env).runOn w =
        (s.perform (Script.invoke limit) env).runOn w) ∧
    (∀ (call : Call Script) (u : SceneWorld) (vm : ViewModel) (key : String) (v : Value),
      key ∈ vm.proxied →
      (key ∈ u.store.keys vm.model → ∃ x u₁,
        (readKey vm.model key).runOn u = (.ok (some x), u₁) ∧
        (getProxied vm key).runOn u = (.ok x, u₁)) ∧
      (setProxied call vm key v).runOn u = (writeKey call vm.model key v).runOn u ∧
      (Text.trim key = key → '.' ∉ key.toList →
        (read ⟨key⟩ vm.model).runOn u = (getProxied vm key).runOn u ∧
        (write call ⟨key⟩ vm.model v).runOn u = (setProxied call vm key v).runOn u)) ∧
    ∀ (call : Call Script) (u : SceneWorld) (vm : ViewModel) (key : String) (v : Value),
      key ∉ vm.proxied →
      (getProxied vm key).runOn u = (.error (.unknownProperty key), u) ∧
        (setProxied call vm key v).runOn u = (.error (.unknownProperty key), u) := by
  intro w
  have hw : w.ProxiesKeys :=
    (advances_after depth (start source) steps).proxiesKeys fun _ _ h => by cases h
  refine ⟨fun document b u u' id h => ⟨?_, newViewModel_proxies h⟩,
    fun _ _ h => ⟨h.keepsViewModels, h.proxiesKeys⟩, Step.advances_perform, Script.advances_invoke,
    ⟨hw, fun later => (advances_after depth w later).keepsViewModels⟩, fun other limit env s => ?_,
    fun call u vm key v hkey => ⟨fun hdefined => ?_, runOn_setProxied call hkey v u,
      fun htrim hpoint => ?_⟩, fun call u vm key v hkey => ⟨?_, ?_⟩⟩
  · have hadvances := advances_newViewModel document b u
    rwa [h] at hadvances
  · exact Step.perform_runWhere (stable_proxiesKeys w) other limit env s ⟨.of_eq rfl, hw⟩
  · obtain ⟨c, hc⟩ : ∃ c, u.store.cellOf? vm.model key = some c :=
      Option.ne_none_iff_exists'.1 fun hnone => Fields.get?_eq_none_iff.1 hnone hdefined
    have hread := runOn_readKey hc
    refine ⟨_, _, hread, ?_⟩
    rw [runOn_getProxied hkey, hread]
    rfl
  · have hsegments := KeyPath.segments_eq_singleton hpoint
    rw [htrim] at hsegments
    exact ⟨(runOn_read_key hsegments vm.model u).trans (runOn_getProxied hkey u).symm,
      (runOn_write_key call hsegments vm.model v u).trans (runOn_setProxied call hkey v u).symm⟩
  · rw [getProxied, runOn_bind, runOn_checkProxied, if_neg hkey]
  · rw [setProxied, runOn_bind, runOn_checkProxied, if_neg hkey]

/-- A model gains a key. The view model does not know it, and its own key is read as before. -/
theorem proxied_access_gained :
    let w := after callDepth (start "<div id=r></div>") [
      .template (.create "v" (some (.node ⟨false, "#r", []⟩)) (.object [("a", .text "x")]) [] {}
        false),
      .template (.write (some "v") ⟨"b"⟩ (.plain (.text "y")))]
    w.store.keys 0 = ["a", "b"] ∧
      ∃ vm, w.viewModels[0]? = some vm ∧ vm.proxied = ["a"] ∧
        (∃ x w', (getProxied vm "a").runOn w = (.ok x, w')) ∧
        (read ⟨"a"⟩ vm.model).runOn w = (getProxied vm "a").runOn w ∧
        (getProxied vm "b").runOn w = (.error (.unknownProperty "b"), w) := by
  intro w
  obtain ⟨-, -, -, -, -, -, haccess, hother⟩ := proxied_access callDepth "<div id=r></div>" [
      .template (.create "v" (some (.node ⟨false, "#r", []⟩)) (.object [("a", .text "x")]) [] {}
        false),
      .template (.write (some "v") ⟨"b"⟩ (.plain (.text "y")))]
  have hrecord : w.viewModels[0]? = some ⟨0, some 1, 0, ["a"], {}, .empty⟩ := by decide +kernel
  let call := Script.invoke callDepth
  have ha := haccess call w ⟨0, some 1, 0, ["a"], {}, .empty⟩ "a" .null (by decide)
  have hkeys : w.store.keys 0 = ["a", "b"] := by decide +kernel
  obtain ⟨x, w', -, hget⟩ := ha.1 (by rw [hkeys]; decide)
  exact ⟨hkeys, _, hrecord, rfl, ⟨x, w', hget⟩, (ha.2.2 (by decide) (by decide)).1,
    (hother call w _ "b" .null (by decide)).1⟩

end Scene

end LiveBinding
