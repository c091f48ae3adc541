import LiveBinding.Proofs.Intact.Scene

/-!
# What an assignment to a path changes

An assignment changes at most one place of the heap, however containers are shared, and also if they
contain themselves. If it finds no place it changes nothing. A new key or a new item notifies
nobody. A cell that exists notifies its watchers, and what the heap holds then depends on the user
code that they run; if that code leaves everything that is there as it is, the cell holds the value,
even if a watcher faults.

Reading the path again gives the value, as long as the cell that was assigned is none of those that
were read on the way to it: an assignment to `self.self`, where `self` leads back to the root,
changes where the path leads.

## Key definitions

- `Act.WriteAdds`: the code that an assignment runs leaves the heap as it is, apart from new parts

## Key results

- `Act.adds_setCell`: a cell gets a value
- `Act.write_one_place`: the law of an assignment
-/

namespace LiveBinding.Act

open World Store

variable {σ : Type} {call : Call σ}

/-! ### User code that does not write -/

/-- The code that a pass over some effects runs leaves everything as it is that the heap has. It may
build containers of its own. -/
def PassAdds (call : Call σ) (es : List EffectId) (w : World σ) : Prop :=
  ∀ code v u, Runs call es w code v u → u.store.Adds ((call code ⟨v, none⟩).runOn u).2.store

/-- The code that an assignment to a place runs leaves everything as it is that the heap has. Only
an assignment to a cell runs code: the cell's pass does, unless the value is the same. -/
def WriteAdds (call : Call σ) (place : Place) (v : Value) (w : World σ) : Prop :=
  ∀ c, place = .cell c → (w.store.value c).same v = false →
    PassAdds call ((w.assign c v).liveWatchers c) ((w.assign c v).startPass c)

/-- Apart from user code, a pass leaves everything as it is that the heap has. -/
theorem passKeeps_adds (s : Store) (es : List EffectId) :
    PassKeeps (fun w : World σ => s.Adds w.store) es where
  startPass w c h := h.trans fun x _ => (sameData_prune w.store c _).sameAt x
  endPass _ h := h
  abortPass _ h := h
  deliver _ _ _ h := h
  display _ _ _ _ _ _ _ _ _ _ h := h

/-- A cell gets a value, and what its watchers do adds to the heap. This does not depend on whether
one of them faults. -/
theorem adds_setCell {c : CellId} {v : Value} {w : World σ}
    (hruns : PassAdds call ((w.assign c v).liveWatchers c) ((w.assign c v).startPass c))
    (hv : (w.store.value c).same v = false) :
    (w.store.assign c v).Adds ((setCell call c v).runOn w).2.store := by
  have hnotify : (w.store.assign c v).Adds ((notify call c).runOn (w.assign c v)).2.store :=
    keeps_notify (passKeeps_adds _ _) (fun code x u hr hu => hu.trans (hruns code x u hr))
      (Adds.refl _)
  rwa [runOn_setCell_snd, if_neg (by simp [hv])]

/-- A place that exists gets a value, unless it has the same one. -/
theorem puts_put {place : Place} {v : Value} {w : World σ} (hspot : w.store.Has place.spot)
    (hvacant : w.store.Vacant place) (hruns : WriteAdds call place v w) :
    w.store.Puts ((put call place v).runOn w).2.store place (w.store.kept place v) := by
  cases place with
  | cell c =>
    rw [runOn_put_cell, kept]
    split
    · rename_i hv
      rw [runOn_setCell, if_pos hv]
      exact puts_value w.store c
    · rename_i hv
      rw [Bool.not_eq_true] at hv
      exact (puts_putAt hspot hvacant v).trans_adds (putAt_takes hspot hvacant v).2.1
        (adds_setCell (hruns c rfl hv) hv)
  | newKey m key => exact puts_putAt hspot hvacant v
  | newItem q => exact puts_putAt hspot hvacant v

end LiveBinding.Act

namespace LiveBinding

open Store

variable {σ : Type}

/-- The law of an assignment, on every closed heap, such as that of an intact world. If no place is
found, the assignment faults and at most registers who collects the reads. Otherwise one place
changes and nothing else, whatever the assignment returns; a new key or item is all that happens,
and a cell keeps a value that is the same. What was assigned is read back unless it was read on the
way. -/
theorem Act.write_one_place (call : Call σ) (path : KeyPath) (root : MappingId) (v : Value)
    {w : World σ} (hclosed : w.store.Closed) (hroot : w.store.Has (.mapping root)) :
    let onTheWay := (w.store.walk path (.mapping root) path.parents).1
    let begun := w.registerReads onTheWay
    let found := w.store.placeBehind path path.last (.mapping root) path.parents
    let ended := (write call path root v).runOn w
    (∀ f, found = .error f → f.OfPath path ∧ ended = (.error f, begun) ∧
      w.store.SameData begun.store ∧ begun.effects = w.effects) ∧
    ∀ place, found = .ok place → WriteAdds call place v begun →
      w.store.Puts ended.2.store place (w.store.kept place v) ∧
      ((∀ c, place ≠ .cell c) →
        ended = (.ok ⟨⟩, begun.turn (begun.store.putAt place v))) ∧
      ((∀ c, place = .cell c → c ∉ onTheWay) →
        ((read path root).runOn ended.2).1 = .ok (w.store.kept place v)) := by
  intro onTheWay begun found ended
  obtain ⟨s, hs, hd⟩ := w.registerReads_eq onTheWay
  have hwrite : (write call path root v).runOn w = _ := runOn_write_eq path root v w
  constructor
  · intro f hf
    have hended : ended = (.error f, begun) := by
      rw [show w.store.placeBehind path path.last (.mapping root) path.parents = _ from hf]
        at hwrite
      exact hwrite
    refine ⟨ofPath_of_placeBehind hf, hended, ?_, ?_⟩
    · show w.store.SameData begun.store
      rw [show begun = { w with store := s } from hs]
      exact hd
    · rw [show begun = { w with store := s } from hs]
  · intro place hplace hruns
    have hended : ended = (put call place v).runOn begun := by
      rw [show w.store.placeBehind path path.last (.mapping root) path.parents = _ from hplace]
        at hwrite
      exact hwrite
    -- The reads on the way register effects, but the data that they find is as it was.
    have hdata : w.store.SameData begun.store := by
      rw [show begun = { w with store := s } from hs]
      exact hd
    have hspot : begun.store.Has place.spot :=
      (hdata.has_iff _).2 (hclosed.has_spot (v := .mapping root) hroot hplace)
    have hkept : begun.store.kept place v = w.store.kept place v := by
      cases place with
      | cell c => simp only [kept, hdata.value_eq]
      | _ => rfl
    have hvacant : begun.store.Vacant place :=
      vacant_of_placeBehind ((hdata.placeBehind_eq _ _ _ _).trans hplace)
    have hputs : w.store.Puts ended.2.store place (w.store.kept place v) := by
      rw [hended, ← hkept]
      exact (puts_put hspot hvacant hruns).of_sameData hdata
    refine ⟨hputs, fun hnew => ?_, fun hfree => ?_⟩
    · rw [hended]
      cases place with
      | cell c => exact absurd rfl (hnew c)
      | newKey m key => rfl
      | newItem q => rfl
    · rw [read, runOn_readAlong]
      exact hputs.get_eq hclosed.inRange hplace hfree

/-- A mapping that contains itself, with a watcher whose code fails. The assignment runs through the
mapping twice and returns the failure, and the text is there. -/
theorem Act.write_one_place_cyclic :
    let call := Script.invoke callDepth
    let w := Scene.after callDepth (Scene.start "") [
      .model (.create "m" (.object [("self", .null), ("n", .null)])),
      .model (.set "m" ⟨"self"⟩ (.model "m" none)),
      .effect (.create "e" "m" ⟨"n"⟩ false (.fail (.handler "no")))]
    let ended := (write call ⟨"self.self.n"⟩ 0 (.text "x")).runOn w
    w.store.value 0 = .mapping 0 ∧ ended.1 = .error (.handler "no") ∧
      w.store.Puts ended.2.store (.cell 1) (.text "x") ∧
      ((read ⟨"self.self.n"⟩ 0).runOn ended.2).1 = .ok (.text "x") := by
  intro call w ended
  have hclosed : w.store.Closed := (Scene.intact_after callDepth _ _).closed
  have hroot : w.store.Has (.mapping 0) := by
    show 0 < w.store.mappings.size
    decide +kernel
  have hplace : w.store.placeBehind ⟨"self.self.n"⟩ "n" (.mapping 0) ["self", "self"] =
      .ok (.cell 1) := by decide +kernel
  -- The code of the watcher fails at once.
  have hruns : WriteAdds call (.cell 1) (.text "x")
      (w.registerReads (w.store.walk ⟨"self.self.n"⟩ (.mapping 0) ["self", "self"]).1) := by
    rintro c hc - code v u hruns
    obtain rfl := Place.cell.inj hc
    rw [liveWatchers_assign, show (w.registerReads _).liveWatchers 1 = [0] by decide +kernel]
      at hruns
    cases hruns with
    | here he hcode _ _ =>
      obtain rfl := Option.some.inj he
      obtain rfl := Reaction.run.inj hcode
      exact .refl _
    | later _ h => cases h
  obtain ⟨hputs, -, hread⟩ :=
    (write_one_place call ⟨"self.self.n"⟩ 0 (.text "x") hclosed hroot).2 _ hplace hruns
  have hkept : w.store.kept (.cell 1) (.text "x") = .text "x" := by decide +kernel
  rw [hkept] at hputs hread
  exact ⟨by decide +kernel, by decide +kernel, hputs, hread fun c hc => by
    obtain rfl := Place.cell.inj hc
    decide +kernel⟩

end LiveBinding
