import LiveBinding.World

/-!
# Acts

An act changes a world and gives a result or a fault. A fault ends the act, but keeps the changes
made before it: an act is a function from worlds to a result and a world.

`Act.within` brackets an act between two changes of the world; the second one is made whether the
act faults or not. `Act.collecting` is the bracket that reads of cells depend on; `Act.holding` and
`Act.serving` keep effects and a view model in use.

The lemmas `runOn_pure`, `runOn_bind`, `runOn_get`, `runOn_modify`, … say what each way to build an
act does to a world. A statement about an act is proved by rewriting with them.
-/

namespace LiveBinding

/-- A computation over a world that can fault. -/
abbrev Act (σ α : Type) := ExceptT Fault (StateM (World σ)) α

namespace Act

variable {σ α β : Type}

/-- Run an act on a world. -/
def runOn (act : Act σ α) (w : World σ) : Except Fault α × World σ :=
  StateT.run (ExceptT.run act) w

/-- The act that a function describes. -/
def ofFun (f : World σ → Except Fault α × World σ) : Act σ α :=
  ExceptT.mk (m := StateM (World σ)) f

/-- A result that does not depend on the world. -/
def ofExcept (r : Except Fault α) : Act σ α := ofFun fun w => (r, w)

/-- Make one change, run an act, and make another change, also when the act faults. -/
def within (enter leave : World σ → World σ) (act : Act σ α) : Act σ α :=
  ofFun fun w =>
    let ended := act.runOn (enter w)
    (ended.1, leave ended.2)

/-- Make a change after an act that faults. -/
def onFault (change : World σ → World σ) (act : Act σ α) : Act σ α :=
  ofFun fun w =>
    match act.runOn w with
    | (.error f, w) => (.error f, change w)
    | (.ok a, w) => (.ok a, w)

/-- Run an act and give its fault as a result. That user code called itself too deeply is passed
on. -/
def attempt (act : Act σ α) : Act σ (Except Fault α) :=
  ofFun fun w =>
    match act.runOn w with
    | (.error .exhausted, w) => (.error .exhausted, w)
    | (r, w) => (.ok r, w)

/-- Run an act with a collector of its reads, or, with `none`, with collection suspended. -/
def collecting (collector : Option EffectId) (act : Act σ α) : Act σ α :=
  act.within (fun w => { w with collectors := collector :: w.collectors })
    (fun w => { w with collectors := w.collectors.tail })

/-- Run an act about effects, which stay in use meanwhile. -/
def holding (es : List EffectId) (act : Act σ α) : Act σ α :=
  act.within (fun w => { w with passes := es :: w.passes })
    (fun w => { w with passes := w.passes.tail })

/-- Run an act on a view model, which stays in use meanwhile. -/
def serving (vm : ViewModelId) (act : Act σ α) : Act σ α :=
  act.within (fun w => { w with receivers := vm :: w.receivers })
    (fun w => { w with receivers := w.receivers.tail })

/-! ### What acts do to a world -/

@[simp] theorem runOn_pure (a : α) (w : World σ) : (pure a : Act σ α).runOn w = (.ok a, w) := rfl

@[simp] theorem runOn_throw (f : Fault) (w : World σ) :
    (throw f : Act σ α).runOn w = (.error f, w) := rfl

@[simp] theorem runOn_get (w : World σ) : (get : Act σ (World σ)).runOn w = (.ok w, w) := rfl

@[simp] theorem runOn_modify (f : World σ → World σ) (w : World σ) :
    (modify f : Act σ PUnit).runOn w = (.ok ⟨⟩, f w) := rfl

@[simp] theorem runOn_ofFun (f : World σ → Except Fault α × World σ) (w : World σ) :
    (ofFun f).runOn w = f w := rfl

@[simp] theorem runOn_ofExcept (r : Except Fault α) (w : World σ) :
    (ofExcept r).runOn w = (r, w) := rfl

theorem runOn_bind (x : Act σ α) (f : α → Act σ β) (w : World σ) :
    (x >>= f).runOn w =
      match x.runOn w with
      | (.ok a, w) => (f a).runOn w
      | (.error e, w) => (.error e, w) := by
  simp only [runOn, ExceptT.run, StateT.run, Bind.bind, ExceptT.bind, ExceptT.mk, StateT.bind]
  generalize x w = r
  obtain ⟨r, w⟩ := r
  cases r <;> rfl

theorem runOn_map (f : α → β) (x : Act σ α) (w : World σ) :
    (f <$> x).runOn w = ((x.runOn w).1.map f, (x.runOn w).2) := by
  rw [← bind_pure_comp, runOn_bind]
  generalize x.runOn w = r
  obtain ⟨r, w⟩ := r
  cases r <;> rfl

@[simp] theorem runOn_within (enter leave : World σ → World σ) (act : Act σ α) (w : World σ) :
    (act.within enter leave).runOn w =
      ((act.runOn (enter w)).1, leave (act.runOn (enter w)).2) := rfl

@[simp] theorem runOn_collecting (collector : Option EffectId) (act : Act σ α) (w : World σ) :
    (collecting collector act).runOn w =
      ((act.runOn { w with collectors := collector :: w.collectors }).1,
        { (act.runOn { w with collectors := collector :: w.collectors }).2 with
          collectors :=
            (act.runOn { w with collectors := collector :: w.collectors }).2.collectors.tail }) :=
  rfl

theorem runOn_onFault (change : World σ → World σ) (act : Act σ α) (w : World σ) :
    (act.onFault change).runOn w =
      match act.runOn w with
      | (.error f, w) => (.error f, change w)
      | (.ok a, w) => (.ok a, w) := rfl

theorem runOn_attempt (act : Act σ α) (w : World σ) :
    act.attempt.runOn w =
      match act.runOn w with
      | (.error .exhausted, w) => (.error .exhausted, w)
      | (r, w) => (.ok r, w) := rfl

end Act

end LiveBinding
