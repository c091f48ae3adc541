import LiveBinding.Proofs.Evolution.Pass
import LiveBinding.Proofs.Evolution.Scene
import LiveBinding.Proofs.Refinement.Assign

/-!
# A model refines plain data

A model that was built from an object goes on looking like plain data, whatever is assigned to it:
after each assignment its snapshot is the object on which the same assignments were made. Effects
may watch it, and their code may do anything but change the model.

## Key definitions

- `Store.SameBelow`: what lies below a value is the same in two stores
- `Act.assignPlain`: building containers for plain data and assigning them to a path
- `Course`: assignments to a model, one after the other

## Key results

- `Act.models_notify`: a pass keeps what a model holds, if the code that it runs does
- `Act.models_assignPlain`: one assignment
- `model_refines_plain`: a run of assignments
-/

namespace LiveBinding

variable {σ : Type}

namespace Store

variable {s s' : Store}

/-! ### What lies below a value -/

/-- Following a value leads to a spot. -/
inductive Reach (s : Store) : Value → Spot → Prop
  | here {v : Value} {x : Spot} (h : x ∈ s.spotsOf v) : Reach s v x
  | inside {v : Value} {c : CellId} {x : Spot} (hc : c ∈ s.cellsOf v)
      (h : Reach s (s.value c) x) : Reach s v x

/-- Every value, key list and length below a value is the same in both stores. -/
def SameBelow (s s' : Store) (v : Value) : Prop := ∀ x, s.Reach v x → SameAt s s' x

theorem HoldsAll.reach {vs : List Value} {ps : List Plain} {fp : List Spot}
    (h : s.HoldsAll vs ps fp) {x : Spot} (hx : x ∈ fp) : ∃ v ∈ vs, s.Reach v x := by
  induction h with
  | nil => cases hx
  | @cons v p vs ps inner fp hshape hinner hrest ih ih' =>
    rcases List.mem_append.1 hx with hx | hx
    · exact ⟨v, List.mem_cons_self .., .here hx⟩
    · rcases List.mem_append.1 hx with hx | hx
      · obtain ⟨u, hu, hreach⟩ := ih hx
        obtain ⟨c, hc, rfl⟩ := List.mem_map.1 hu
        exact ⟨v, List.mem_cons_self .., .inside hc hreach⟩
      · obtain ⟨u, hu, hreach⟩ := ih' hx
        exact ⟨u, List.mem_cons_of_mem _ hu, hreach⟩

theorem Holds.mem_of_reach {v : Value} {p : Plain} {fp : List Spot} (h : s.Holds v p fp) {x : Spot}
    (hx : s.Reach v x) : x ∈ fp := by
  induction hx generalizing p fp with
  | here hx =>
    obtain ⟨inner, -, -, rfl⟩ := holds_iff.1 h
    exact List.mem_append_left _ hx
  | @inside v c x hc _ ih =>
    obtain ⟨inner, -, hinner, rfl⟩ := holds_iff.1 h
    obtain ⟨i, hi, hget⟩ := List.getElem_of_mem (List.mem_map_of_mem (f := s.value) hc)
    have hq : i < p.children.length := hinner.length_eq ▸ hi
    obtain ⟨fpw, rest, hw, hperm, -⟩ := hinner.focus
      (List.getElem?_eq_some_iff.2 ⟨hi, hget⟩) (List.getElem?_eq_getElem hq)
    exact List.mem_append_right _ (hperm.mem_iff.2 (List.mem_append_left _ (ih hw)))

/-- The store has everything below a model. -/
theorem Models.has_of_reach {root : MappingId} {d : Plain} (h : s.Models root d) {x : Spot}
    (hx : s.Reach (.mapping root) x) : s.Has x := by
  obtain ⟨fp, hholds, -, hhas⟩ := h
  exact hhas x (hholds.mem_of_reach hx)

/-- A model holds its data as long as nothing below its root changes. -/
theorem Models.of_sameBelow {root : MappingId} {d : Plain} (h : s.Models root d)
    (hsame : s.SameBelow s' (.mapping root)) : s'.Models root d := by
  obtain ⟨fp, hholds, hnodup, hhas⟩ := h
  refine .of_sameAt hholds hnodup hhas fun x hx => hsame x ?_
  obtain ⟨v, hv, hreach⟩ := hholds.reach hx
  exact List.mem_singleton.1 hv ▸ hreach

/-- Who watches the cells does not matter. -/
theorem Models.of_sameData {root : MappingId} {d : Plain} (h : s.Models root d)
    (hd : SameData s s') : s'.Models root d :=
  h.of_sameBelow fun x _ => hd.sameAt x

end Store

namespace Act

open World

variable {call : Call σ} {root : MappingId} {d : Plain}

/-! ### The code that a pass runs -/

/-- The code leaves a model as it is, where a pass runs it. -/
def PassSpares (call : Call σ) (root : MappingId) (es : List EffectId) (w : World σ) : Prop :=
  ∀ code v w', Runs call es w code v w' →
    w'.store.SameBelow ((call code ⟨v, none⟩).runOn w').2.store (.mapping root)

/-- Apart from user code, a pass keeps what a model holds. -/
theorem passKeeps_models (es : List EffectId) :
    PassKeeps (fun w : World σ => w.store.Models root d) es where
  startPass _ c h := h.of_sameData (Store.sameData_prune _ c _)
  endPass _ h := h
  abortPass _ h := h
  deliver _ _ _ h := h
  display _ _ _ _ _ _ _ _ _ _ h := h

/-- Notifying the watchers of a cell keeps what a model holds. -/
theorem models_notify {c : CellId} {w : World σ}
    (hspares : PassSpares call root (w.liveWatchers c) (w.startPass c))
    (h : w.store.Models root d) : ((notify call c).runOn w).2.store.Models root d :=
  keeps_notify (passKeeps_models _)
    (fun code v u hr hu => hu.of_sameBelow (hspares code v u hr)) h

/-- A cell gets a value: a model holds then what it would hold with this value, if the code that the
pass runs leaves it as it is. -/
theorem models_setCell {c : CellId} {u : Value} {w : World σ}
    (hsame : (w.store.value c).same u = true → w.store.Models root d)
    (hassign : (w.store.assign c u).Models root d)
    (hspares : (w.store.value c).same u = false →
      PassSpares call root ((w.assign c u).liveWatchers c) ((w.assign c u).startPass c)) :
    ((setCell call c u).runOn w).2.store.Models root d := by
  rw [runOn_setCell_snd]
  split
  · exact hsame ‹_›
  · rename_i hv
    rw [Bool.not_eq_true] at hv
    have hassigned : (w.assign c u).store.Models root d := hassign
    exact models_notify (hspares hv) hassigned

/-! ### Assigning plain data -/

/-- Build containers for plain data, and assign what was built to a path. -/
def assignPlain (call : Call σ) (path : KeyPath) (root : MappingId) (p : Plain) : Act σ Unit := do
  let built := (← get).store.intercept p
  modify fun w => w.turn built.1
  write call path root built.2

/-- The code that an assignment runs leaves the model as it is. Only an assignment to a cell runs
code: the cell's pass does, unless the value is the same. -/
def AssignSpares (call : Call σ) (path : KeyPath) (root : MappingId) (p : Plain) (w : World σ) :
    Prop :=
  ∀ t u c, w.store.intercept p = (t, u) →
    t.placeBehind path path.last (.mapping root) path.parents = .ok (.cell c) →
    (t.value c).same u = false →
    let written :=
      ((w.turn t).registerReads (t.walk path (.mapping root) path.parents).1).assign c u
    PassSpares call root (written.liveWatchers c) (written.startPass c)

theorem runOn_write_eq (path : KeyPath) (root : MappingId) (v : Value) (w : World σ) :
    (write call path root v).runOn w =
      match w.store.placeBehind path path.last (.mapping root) path.parents with
      | .error f => (.error f, w.registerReads (w.store.walk path (.mapping root) path.parents).1)
      | .ok place => (put call place v).runOn
          (w.registerReads (w.store.walk path (.mapping root) path.parents).1) := by
  rw [runOn_write, Store.placeBehind]
  cases (w.store.walk path (.mapping root) path.parents).2 <;> rfl

/-- An assignment of plain data does to a model what it does to the data, and faults if that
faults. -/
theorem models_assignPlain {w : World σ} (h : w.store.Models root d) (path : KeyPath) (p : Plain) :
    (∀ f, d.assign path p.distinct = .error f →
      ∃ w', (assignPlain call path root p).runOn w = (.error f, w') ∧
        w.store.SameBelow w'.store (.mapping root)) ∧
      ∀ d', d.assign path p.distinct = .ok d' → AssignSpares call path root p w →
        ((assignPlain call path root p).runOn w).2.store.Models root d' := by
  obtain ⟨hadds, fpu, hu, hnew⟩ := Store.intercept_holds w.store p
  rcases hbuilt : w.store.intercept p with ⟨t₀, u⟩
  rw [hbuilt] at hadds hu hnew
  let w₀ : World σ := w.turn t₀
  let cells := (t₀.walk path (.mapping root) path.parents).1
  have hrun : (assignPlain call path root p).runOn w = (write call path root u).runOn w₀ := by
    rw [assignPlain, runOn_bind, runOn_get]
    dsimp only
    rw [runOn_bind, runOn_modify, hbuilt]
  rw [hrun, runOn_write_eq]
  -- The reads of the parents only register effects.
  obtain ⟨t, ht, hd⟩ := w₀.registerReads_eq cells
  have hadds' : w.store.Adds t := hadds.trans fun x _ => hd.sameAt x
  have hu' : t.Holds u p.distinct fpu := hu.of_sameAt fun x _ => hd.sameAt x
  have hnew' : w.store.New t fpu :=
    ⟨hnew.nodup, hnew.absent, fun x hx => (hd.sameAt x).has (hnew.has x hx)⟩
  have hplaceBehind := hd.placeBehind_eq path path.last (.mapping root) path.parents
  -- The plain assignment faults exactly if no place is found for the value.
  rcases h.assign hadds' hu' hnew' path with
    ⟨f, hplace, hassign⟩ | ⟨place, d', hplace, hassign, hput, hsame⟩
  · rw [hplaceBehind] at hplace
    rw [hplace]
    refine ⟨fun f' hf' => ?_, fun d' hd' => ?_⟩
    · obtain rfl : f = f' := Except.error.inj (hassign.symm.trans hf')
      refine ⟨_, rfl, fun x hx => ?_⟩
      show Store.SameAt w.store (w₀.registerReads cells).store x
      rw [ht]
      exact hadds' x (h.has_of_reach hx)
    · rw [hassign] at hd'
      cases hd'
  · rw [hplaceBehind] at hplace
    refine ⟨fun f' hf' => ?_, fun d'' hd'' hspares => ?_⟩
    · rw [hassign] at hf'
      cases hf'
    obtain rfl : d' = d'' := Except.ok.inj (hassign.symm.trans hd'')
    rw [hplace]
    show ((put call place u).runOn (w₀.registerReads cells)).2.store.Models root d'
    -- Only an assignment to a cell notifies anyone.
    cases place with
    | newKey m key =>
      rw [ht]
      exact hput
    | newItem q =>
      rw [ht]
      exact hput
    | cell c =>
      have hcell : ((put call (.cell c) u).runOn (w₀.registerReads cells)).2 =
          ((setCell call c u).runOn (w₀.registerReads cells)).2 := by
        rw [put]
        exact congrArg Prod.snd (runOn_map _ _ _)
      rw [hcell]
      refine models_setCell ?_ (by rw [ht]; exact hput) fun hv => hspares t₀ u c hbuilt hplace ?_
      · rw [ht]
        exact hsame c rfl
      · rw [ht] at hv
        exact (hd.value_eq c) ▸ hv

end Act

/-! ### Runs -/

/-- Plain data is assigned to a model, once for each member of the list. In between anything may
happen that leaves the model as it is. -/
inductive Course (call : Call σ) (root : MappingId) (w : World σ) :
    List (KeyPath × Plain) → World σ → Prop
  | start : Course call root w [] w
  | other {w₁ w₂ : World σ} {calls : List (KeyPath × Plain)} (h : Course call root w calls w₁)
      (hsame : w₁.store.SameBelow w₂.store (.mapping root)) : Course call root w calls w₂
  | assign {w₁ : World σ} {calls : List (KeyPath × Plain)} (h : Course call root w calls w₁)
      (path : KeyPath) (p : Plain) (hspares : Act.AssignSpares call path root p w₁) :
      Course call root w (calls ++ [(path, p)]) ((Act.assignPlain call path root p).runOn w₁).2

/-- What a model holds after a run of assignments. -/
theorem Course.models {call : Call σ} {root : MappingId} {w w' : World σ}
    {calls : List (KeyPath × Plain)} (h : Course call root w calls w') {d : Plain}
    (hd : w.store.Models root d) : w'.store.Models root (d.assignAll calls) := by
  induction h with
  | start => exact hd
  | other _ hsame ih => exact ih.of_sameBelow hsame
  | @assign w₁ calls _ path p hspares ih =>
    rw [Plain.assignAll_concat]
    cases hassign : (d.assignAll calls).assign path p.distinct with
    | ok d' => exact (Act.models_assignPlain ih path p).2 d' hassign hspares
    | error f =>
      obtain ⟨w', hrun, hsame⟩ := (Act.models_assignPlain ih path p).1 f hassign
      rw [hrun]
      exact ih.of_sameBelow hsame

/-- A model refines plain data. It can be built from every object; and after every run of
assignments its snapshot is the object on which the same assignments were made, each path reads what
it reads in that object, and an assignment that faults there faults in the same way and leaves the
model as it is. -/
theorem model_refines_plain (call : Call σ) (w₀ : World σ) (fields : List (String × Plain)) :
    ∃ root w, (Act.intercept (.object fields)).runOn w₀ = (.ok root, w) ∧
      ∀ calls w', Course call root w calls w' →
        let d := (Plain.object fields).distinct.assignAll calls
        w'.store.toPlain (.mapping root) = d.rounded ∧
          (∀ path, ((Act.read path root).runOn w').1.map w'.store.toPlain =
            (d.get path).map Plain.rounded) ∧
          ∀ path p f, d.assign path p.distinct = .error f →
            ∃ w'', (Act.assignPlain call path root p).runOn w' = (.error f, w'') ∧
              w'.store.SameBelow w''.store (.mapping root) := by
  obtain ⟨s, root, hbuilt, hmodels⟩ := w₀.store.models_interceptRoot fields
  refine ⟨root, w₀.turn s, ?_, fun calls w' hcourse => ?_⟩
  · rw [Act.intercept, Act.runOn_bind, Act.runOn_get]
    dsimp only
    rw [Act.runOn_bind, Act.runOn_ofExcept, hbuilt]
    rfl
  · have hafter := hcourse.models hmodels
    refine ⟨hafter.toPlain_eq, fun path => ?_,
      fun path p => (Act.models_assignPlain hafter path p).1⟩
    rw [Act.read, Act.runOn_readAlong]
    exact hafter.get_eq path

/-- A model with an effect that notes what it receives. The first assignment runs its code, the
second one adds an item. -/
theorem model_refines_plain_noted :
    let call := Script.invoke callDepth
    let built := (Act.intercept (.object [("a", .number (.integer 1)),
      ("b", .array [.text "x"])])).runOn (Scene.start "")
    let w : SceneWorld :=
      { built.2.construct ⟨"a"⟩ 0 false (.run (.log "t" .done)) with
        names := ⟨[], [("t", 0)], [], [], []⟩ }
    let w₁ := ((Act.assignPlain call ⟨"a"⟩ 0 (.number (.integer 2))).runOn w).2
    let w₂ := ((Act.assignPlain call ⟨"b.1"⟩ 0 (.text "y")).runOn w₁).2
    w₂.log = ["t:2"] ∧ w₂.store.toPlain (.mapping 0) =
      .object [("a", .number (.integer 2)), ("b", .array [.text "x", .text "y"])] := by
  intro call built w w₁ w₂
  obtain ⟨root, w', hbuilt, hlaw⟩ := model_refines_plain call (Scene.start "")
    [("a", .number (.integer 1)), ("b", .array [.text "x"])]
  obtain rfl : 0 = root := Except.ok.inj (congrArg Prod.fst hbuilt)
  obtain rfl : built.2 = w' := congrArg Prod.snd hbuilt
  -- The watcher of the cell is the effect, and its code only notes something.
  have hfirst : Act.AssignSpares call ⟨"a"⟩ 0 (.number (.integer 2)) w := by
    intro t u c hvalue hplace _ written code v w' hruns
    obtain ⟨rfl, rfl⟩ := Prod.mk.inj hvalue
    obtain rfl : 1 = c := Place.cell.inj (Except.ok.inj hplace)
    have hlive : written.liveWatchers 1 = [0] := by decide +kernel
    rw [hlive] at hruns
    cases hruns with
    | here he hcode _ _ =>
      obtain rfl := Option.some.inj he
      obtain rfl := Reaction.run.inj hcode
      exact fun x _ => .refl _ x
    | later _ h => cases h
  have hsecond : Act.AssignSpares call ⟨"b.1"⟩ 0 (.text "y") w₁ := by
    intro t u c hvalue hplace
    obtain ⟨rfl, rfl⟩ := Prod.mk.inj hvalue
    have hitem : w₁.store.placeBehind ⟨"b.1"⟩ "1" (.mapping 0) ["b"] = .ok (.newItem 0) := by
      decide +kernel
    rw [show KeyPath.last ⟨"b.1"⟩ = "1" from rfl, show KeyPath.parents ⟨"b.1"⟩ = ["b"] from rfl,
      hitem] at hplace
    cases hplace
  have hwatched : built.2.store.SameBelow w.store (.mapping 0) :=
    fun x _ => (Store.sameData_foldl_watch _ _ _).sameAt x
  obtain ⟨hplain, -, -⟩ := hlaw _ w₂
    (((Course.start.other hwatched).assign _ _ hfirst).assign _ _ hsecond)
  exact ⟨by decide +kernel, hplain⟩

end LiveBinding
