import LiveBinding.Proofs.Assignment
import LiveBinding.Proofs.Intact.Scene
import LiveBinding.Proofs.Lifetime.Dropped
import LiveBinding.Proofs.View.Current

/-!
# Typing into an input

Typing sets the input value first. Then the listener of the compiled directive assigns the text to
its path, which is resolved now, and the pass that follows updates the effects of the cell. One of
them shows the value in the same input again: it shows the text that was typed, because the path
reads it back.

A fault of the path changes nothing but the input value. A fault of the pass comes too late to
change anything: the input and the model have the text already.

Every world of a run is intact, so the only listener of an input writes back to what all effects in
the input show, and its model is there.

## Key results

- `Act.runOn_typeInto`: typing into an input with one listener
- `Act.displays_put`: a pass leaves the typed text in the input
- `typed_text_arrives`: the law of typing
-/

namespace LiveBinding

open World Store

variable {σ : Type} {call : Call σ} {w : World σ} {node : NodeRef} {path : KeyPath}
  {root : MappingId} {s : String}

/-- All live effects in the input of a node show one path of a model. -/
def World.InputShows (w : World σ) (node : NodeRef) (path : KeyPath) (root : MappingId) : Prop :=
  ∀ e effect, w.isAlive e = true → w.effects[e]? = some effect →
    effect.place? = some (.input, node) → effect.path = path ∧ effect.root = root

/-- An effect in an input has its listener there. If there is only one listener, then the effects
show what it writes back to. -/
theorem World.Intact.inputShows (hw : w.Intact)
    (hl : (w.document node.document).listenersFor node.node "input" = [.writeBack path root]) :
    w.InputShows node path root := by
  intro e effect halive he hp
  have hmem := (hw.backs e halive effect node he hp).mem_listenersFor
  rw [hl, List.mem_singleton] at hmem
  exact Listener.writeBack.inj hmem

/-- If the path reads a text, then that is what the live effects in the input show. -/
theorem World.InputShows.shown_eq (h : w.InputShows node path root) (hw : w.Sound) {e : EffectId}
    (halive : w.isAlive e = true) {u : World σ} (hl : w.Later u) {effect : Effect σ}
    (he : u.effects[e]? = some effect) (hp : effect.place? = some (.input, node))
    (hget : u.store.get path root = .ok (.text s)) : effect.shown u.store = .ok s := by
  obtain ⟨effect₀, heffect₀, -⟩ := hw.exists_effect e halive
  obtain ⟨m, hm⟩ := hl.effects_eq e effect₀ heffect₀
  obtain rfl := Option.some.inj (he.symm.trans hm)
  obtain ⟨hpath, hroot⟩ := h e effect₀ halive heffect₀ hp
  rw [Effect.place?] at hp
  rw [Effect.shown]
  split at hp
  · cases hp
  · simp only [hpath, hroot, hget]
    rfl
  · cases hp

/-- A text is stored as it is, also where there is the same one already. -/
theorem Store.kept_text (h : Store) (place : Place) (s : String) :
    h.kept place (.text s) = .text s := by
  cases place with
  | cell c =>
    rw [kept]
    split
    · rename_i hsame
      exact Value.eq_text_of_same hsame
    · rfl
  | newKey m key => rfl
  | newItem q => rfl

namespace Act

/-- The code that an assignment to a place runs leaves the input value of a node as it is. -/
def WriteSpares (call : Call σ) (place : Place) (v : Value) (node : NodeRef) (w : World σ) : Prop :=
  ∀ c, place = .cell c → (w.store.value c).same v = false → ∀ code x u,
    Runs call ((w.assign c v).liveWatchers c) ((w.assign c v).startPass c) code x u →
    ∀ t, u.Displays .input node t → ((call code ⟨x, none⟩).runOn u).2.Displays .input node t

/-- If a compiled listener is the only one of an input, then typing assigns the text, and the
dispatch returns what the assignment does. -/
theorem runOn_typeInto
    (hl : (w.document node.document).listenersFor node.node "input" = [.writeBack path root])
    (call : Call σ) (s : String) :
    let assigned := (write call path root (.text s)).runOn (w.writeSink .input node s)
    (∀ f, assigned.1 = .error f →
      (typeInto call node s).runOn w = (.error f, assigned.2.abortDispatch)) ∧
    (assigned.1 = .ok ⟨⟩ → (typeInto call node s).runOn w = (.ok 1, assigned.2)) := by
  intro assigned
  -- Setting the input value does not change the listeners.
  have hlisteners : ((w.writeSink .input node s).document node.document).listenersFor node.node
      (Event.input s).kind = [.writeBack path root] :=
    (w.listenersFor_writeSink_input node s "input").trans hl
  have hfire : (fire call node (.input s) (.writeBack path root)).runOn
      (w.writeSink .input node s) = assigned := by
    rw [fire, runOn_bind, runOn_get]
    rfl
  have hfired : ([Listener.writeBack path root].forM (fire call node (.input s))).runOn
      (w.writeSink .input node s) = assigned := by
    rw [runOn_forM_cons, hfire]
    rcases assigned with ⟨_ | ⟨⟨⟩⟩, _⟩ <;> rfl
  have htype : (typeInto call node s).runOn w =
      (dispatch call node (.input s)).runOn (w.writeSink .input node s) := by
    rw [typeInto, runOn_bind, runOn_modify]
  rw [htype, runOn_dispatch, hlisteners, hfired]
  clear_value assigned
  obtain ⟨f | ⟨⟨⟩⟩, w'⟩ := assigned
  · exact ⟨fun _ h => by cases h; rfl, fun h => by cases h⟩
  · exact ⟨fun _ h => (by cases h), fun _ => rfl⟩

/-- From one moment of a pass to a later one the heap only gets new parts, and the input of a node
shows a text. -/
structure GoesOn (node : NodeRef) (s : String) (w u : World σ) : Prop where
  adds : w.store.Adds u.store
  later : w.Later u
  displays : u.Displays .input node s

/-- The pass after a text was assigned leaves it in the input into which it was typed: what the pass
shows there is what the path reads, and that is the text. -/
theorem passKeeps_goesOn (hw : w.Sound) {c : CellId} (hspot : w.store.Has (Place.cell c).spot)
    (hplace : w.store.placeBehind path path.last (.mapping root) path.parents = .ok (.cell c))
    (hfree : c ∉ (w.store.walk path (.mapping root) path.parents).1)
    (hinput : w.InputShows node path root) :
    PassKeeps (GoesOn node s (w.assign c (.text s))) ((w.assign c (.text s)).liveWatchers c) where
  startPass u d h :=
    ⟨h.adds.trans fun x _ => (sameData_prune u.store d _).sameAt x,
      h.later.trans (later_startPass u d), h.displays⟩
  endPass u h := ⟨h.adds, h.later.trans (later_endPass u), h.displays⟩
  abortPass u h := ⟨h.adds, h.later.trans (later_abortPass u), h.displays⟩
  deliver u e v h := ⟨h.adds, h.later.trans (later_deliver u e v), h.displays⟩
  display u e he effect sink node' t heffect hp ht h := by
    refine ⟨h.adds, h.later.trans (later_writeSink u sink node' t), ?_⟩
    by_cases hsink : sink = .input ∧ node' = node
    · obtain ⟨rfl, rfl⟩ := hsink
      have hputs : w.store.Puts u.store (.cell c) (.text s) :=
        (puts_putAt hspot trivial (.text s)).trans_adds
          (putAt_takes hspot trivial (.text s)).2.1 h.adds
      have hget : u.store.get path root = .ok (.text s) :=
        hputs.get_eq hw.inRange hplace fun d hd => by
          obtain rfl := Place.cell.inj hd
          exact hfree
      have hshown : effect.shown u.store = .ok s :=
        hinput.shown_eq hw (List.mem_filter.1 he).2 ((later_assign w c _).trans h.later) heffect hp
          hget
      obtain rfl := Except.ok.inj (hshown.symm.trans ht)
      exact displays_writeSink h.displays s
    · -- What is shown in another place does not matter.
      have hkeep : u.DocumentsKeep (fun k m => k = sink ∧ m = node') (u.writeSink sink node' t) :=
        documentsKeep_writeSink u t ⟨rfl, rfl⟩
      exact hkeep.displays (fun ⟨hk, hm⟩ => hsink ⟨hk.symm, hm.symm⟩) h.displays

/-- A text that is put in a place stays in the input into which it was typed. -/
theorem displays_put (hcall : call.Evolves) {place : Place} (hw : w.Sound)
    (hspot : w.store.Has place.spot)
    (hplace : w.store.placeBehind path path.last (.mapping root) path.parents = .ok place)
    (hfree : ∀ c, place = .cell c → c ∉ (w.store.walk path (.mapping root) path.parents).1)
    (hadds : WriteAdds call place (.text s) w) (hspares : WriteSpares call place (.text s) node w)
    (hinput : w.InputShows node path root) (hshow : w.Displays .input node s) :
    ((put call place (.text s)).runOn w).2.Displays .input node s := by
  cases place with
  | newKey m key => exact hshow
  | newItem q => exact hshow
  | cell c =>
    rw [runOn_put_cell, runOn_setCell_snd]
    split
    · exact hshow
    · rename_i hsame
      rw [Bool.not_eq_true] at hsame
      have hnotify : GoesOn node s (w.assign c (.text s))
          ((notify call c).runOn (w.assign c (.text s))).2 :=
        keeps_notify (passKeeps_goesOn hw hspot hplace (hfree c rfl) hinput)
          (fun code x u hr h => ⟨h.adds.trans (hadds c rfl hsame code x u hr),
            h.later.trans (hcall code ⟨x, none⟩ u (by simp)).later,
            hspares c rfl hsame code x u hr s h.displays⟩)
          ⟨.refl _, .refl _, hshow⟩
      exact hnotify.displays

/-- A node with a listener is an element. -/
theorem isElement_of_mem_listenersFor {l : Listener σ} {event : String}
    (h : l ∈ (w.document node.document).listenersFor node.node event) : w.IsElement node := by
  rw [document] at h
  cases hd : w.documents[node.document]? with
  | none =>
    -- The body of the empty document has no listeners.
    have hnone : (Document.empty : Document (Listener σ)).listenersFor node.node event = [] := by
      cases node.node <;> rfl
    rw [hd, Option.getD_none, hnone] at h
    cases h
  | some d =>
    rw [hd, Option.getD_some, Document.listenersFor] at h
    cases hel : d.element? node.node with
    | none =>
      rw [hel] at h
      cases h
    | some el => exact ⟨d, el, hd, Document.element?_eq_some_iff.1 hel⟩

end Act

open Act

/-- The law of typing into an input whose only listener for it is a compiled one, in any intact
world. Every run starts in one, and its requests lead from one to the next, also those in the middle
of a script.

If the path finds no place now, the dispatch returns the fault of the path, and nothing changes but
the input value. If it finds one that is not read on the way, and the code that the assignment runs
neither writes what the heap has nor changes the input value, then the path reads the text as it was
typed and the input shows it, whatever the watchers return. A new key or item cannot fault at
all. -/
theorem typed_text_arrives :
    (∀ depth source steps, (Scene.after depth (Scene.start source) steps).Intact) ∧
    ∀ w : SceneWorld, w.Intact →
    (∀ depth env, w.Admits env →
      ∀ s : Step, w.Onward ((s.perform (Script.invoke depth) env).runOn w).2) ∧
    ∀ depth node path root s,
      let call := Script.invoke depth
      let typed := w.writeSink .input node s
      let onTheWay := (w.store.walk path (.mapping root) path.parents).1
      let found := w.store.placeBehind path path.last (.mapping root) path.parents
      let ended := (typeInto call node s).runOn w
      (w.document node.document).listenersFor node.node "input" = [.writeBack path root] →
        (∀ f, found = .error f → f.OfPath path ∧ ended = (.error f, typed.abortDispatch) ∧
          (ended.2.document node.document).inputValue node.node = s) ∧
        ∀ place, found = .ok place → (∀ c, place = .cell c → c ∉ onTheWay) →
          WriteAdds call place (.text s) typed → WriteSpares call place (.text s) node typed →
            ((Act.read path root).runOn ended.2).1 = .ok (.text s) ∧
            (ended.2.document node.document).inputValue node.node = s ∧
            ((∀ c, place ≠ .cell c) → ended.1 = .ok 1) := by
  refine ⟨Scene.intact_after, fun w hw => ⟨fun depth env henv s =>
    upholds_perform (invoke_onward depth) (invoke_evolves depth) env s w hw henv, ?_⟩⟩
  intro depth node path root s call typed onTheWay found ended hl
  have htyped : typed.Sound := (Move.type w node s).sound hw.sound
  have hlistener : .writeBack path root ∈
      (w.document node.document).listenersFor node.node "input" :=
    hl ▸ List.mem_singleton_self _
  have hshow : typed.Displays .input node s :=
    displays_writeSink_of_isElement (isElement_of_mem_listenersFor hlistener) .input s
  have hwrite : (write call path root (.text s)).runOn typed = _ :=
    runOn_write_eq path root (.text s) typed
  rw [htyped.registerReads_eq] at hwrite
  obtain ⟨hfault, hdone⟩ := runOn_typeInto hl call s
  constructor
  · intro f hf
    rw [show typed.store.placeBehind path path.last (.mapping root) path.parents = _ from hf]
      at hwrite
    have hended : ended = (.error f, typed.abortDispatch) := by
      rw [hwrite] at hfault
      exact hfault f rfl
    refine ⟨ofPath_of_placeBehind hf, hended, ?_⟩
    rw [hended]
    exact hshow.inputValue_eq
  · intro place hplace hfree hadds hspares
    have hput : (write call path root (.text s)).runOn typed =
        (put call place (.text s)).runOn typed := by
      rw [show typed.store.placeBehind path path.last (.mapping root) path.parents = _ from hplace]
        at hwrite
      exact hwrite
    have hroot : w.store.Has (.mapping root) :=
      hw.has_root root (.inr (.inr ⟨node, path, hlistener⟩))
    have hspot : typed.store.Has place.spot :=
      hw.closed.has_spot (v := .mapping root) hroot hplace
    have hvacant : typed.store.Vacant place := Store.vacant_of_placeBehind hplace
    have hputs := puts_put hspot hvacant hadds
    rw [kept_text] at hputs
    have hdisplay : ((put call place (.text s)).runOn typed).2.Displays .input node s :=
      displays_put (invoke_evolves depth) htyped hspot hplace hfree hadds hspares
        (hw.inputShows hl) hshow
    have hget : ((put call place (.text s)).runOn typed).2.store.get path root = .ok (.text s) :=
      hputs.get_eq hw.closed.inRange hplace hfree
    rw [hput] at hfault hdone
    rw [Act.read, runOn_readAlong]
    rcases hr : (put call place (.text s)).runOn typed with ⟨f | ⟨⟨⟩⟩, w'⟩
    · rw [hr] at hfault hdisplay hget
      rw [show ended = (.error f, w'.abortDispatch) from hfault f rfl]
      refine ⟨hget, World.Displays.inputValue_eq hdisplay, fun hnew => ?_⟩
      -- Only an assignment to a cell can fault.
      cases place with
      | cell c => exact absurd rfl (hnew c)
      | newKey m key => cases congrArg Prod.fst hr
      | newItem q => cases congrArg Prod.fst hr
    · rw [hr] at hdone hdisplay hget
      rw [show ended = (.ok 1, w') from hdone rfl]
      exact ⟨hget, hdisplay.inputValue_eq, fun _ => rfl⟩

/-! ### Two scenes -/

/-- The place to which a listener writes back what is typed. -/
def Listener.target? : Listener σ → Option (KeyPath × MappingId)
  | .writeBack path root => some (path, root)
  | _ => none

/-- A node whose only listener writes back. -/
theorem Listener.eq_singleton_of_target? {ls : List (Listener σ)}
    (h : ls.map Listener.target? = [some (path, root)]) : ls = [.writeBack path root] := by
  obtain ⟨l, rfl, hl⟩ := List.map_eq_singleton_iff.1 h
  cases l with
  | writeBack path' root' =>
    obtain ⟨rfl, rfl⟩ := Prod.mk.inj (Option.some.inj hl)
    rfl
  | _ => cases hl

/-- A scene creates an effect that runs user code. If all others have a place, then this code is the
only one that a pass runs. -/
theorem Act.Runs.eq_of_created {call : Call Script} {es : List EffectId} {w w₀ u : SceneWorld}
    {code code' : Script} {x v : Value} (h : Runs call es w₀ code' x u) (hcall : call.Evolves)
    (hlt : ∀ e ∈ es, e < w₀.effects.size) {name model : String} {gated : Bool} {depth : Nat}
    (heffects : w₀.effects =
      (Scene.after depth w [.effect (.create name model path gated code)]).effects)
    (hroot : w.names.models.get? model = some root) (hv : w.store.get path root = .ok v)
    (hplaces : ∀ e < w.effects.size, ∀ effect ∈ w.effects[e]?, effect.place?.isSome) :
    code' = code := by
  have hmodel : (SceneAct.modelNamed model).runOn w = (.ok root, w) := by
    rw [SceneAct.modelNamed, runOn_bind, runOn_get]
    dsimp only
    rw [hroot]
    rfl
  have hcreated : (Scene.after depth w [.effect (.create name model path gated code)]).effects =
      w.effects.push (w.record path root gated (.run code)) := by
    change ((SceneAct.performEffect (Script.invoke depth)
      (.create name model path gated code)).runOn w).2.effects = _
    rw [SceneAct.performEffect, runOn_bind, hmodel]
    dsimp only
    rw [runOn_bind, runOn_newEffect, hv]
    rfl
  obtain ⟨e, -, effect, heffect, hreaction⟩ := h.exists_effect hcall hlt
  rw [heffects, hcreated] at heffect
  rcases Array.mem_push.1 (Array.mem_of_getElem? heffect) with hold | rfl
  · obtain ⟨e, he, hget⟩ := Array.mem_iff_getElem.1 hold
    have hplace := hplaces e he effect (Array.getElem?_eq_some_iff.2 ⟨he, hget⟩)
    rw [Effect.place?, hreaction] at hplace
    cases hplace
  · exact (Reaction.run.inj hreaction).symm

/-- A text that looks like a number, typed into an input while a watcher fails. The dispatch returns
the failure, and the model and the input have the text. -/
theorem typed_text_arrives_number :
    let call := Script.invoke callDepth
    let w := Scene.after callDepth (Scene.start "<div id=r><input v-model=a.n></div>") [
      .model (.create "m" (.object [("a", .object [("n", .text "x")])])),
      .template (.compile "s" ⟨false, "#r", []⟩ "m" [] false),
      .effect (.create "e" "m" ⟨"a.n"⟩ false (.fail (.handler "no")))]
    let ended := (typeInto call ⟨0, 2⟩ "42").runOn w
    ended.1 = .error (.handler "no") ∧
      ((Act.read ⟨"a.n"⟩ 1).runOn ended.2).1 = .ok (.text "42") ∧
      (ended.2.document 0).inputValue 2 = "42" := by
  intro call w ended
  let before := Scene.after callDepth (Scene.start "<div id=r><input v-model=a.n></div>") [
    .model (.create "m" (.object [("a", .object [("n", .text "x")])])),
    .template (.compile "s" ⟨false, "#r", []⟩ "m" [] false)]
  let typed := w.writeSink .input ⟨0, 2⟩ "42"
  have heffects : w.effects = (Scene.after callDepth before [.effect (.create "e" "m" ⟨"a.n"⟩ false
      (.fail (.handler "no")))]).effects :=
    congrArg World.effects (Scene.after_append callDepth _ [_, _] [_])
  obtain ⟨hmodel, hx, hplaces⟩ : before.names.models.get? "m" = some 1 ∧
      before.store.get ⟨"a.n"⟩ 1 = .ok (.text "x") ∧
      ∀ e < before.effects.size, ∀ effect ∈ before.effects[e]?, effect.place?.isSome := by
    decide +kernel
  have hl : (w.document 0).listenersFor 2 "input" = [.writeBack ⟨"a.n"⟩ 1] :=
    Listener.eq_singleton_of_target? (by decide +kernel)
  obtain ⟨hplace, hfree, hwatchers⟩ :
      w.store.placeBehind ⟨"a.n"⟩ "n" (.mapping 1) ["a"] = .ok (.cell 0) ∧
      0 ∉ (w.store.walk ⟨"a.n"⟩ (.mapping 1) ["a"]).1 ∧ typed.liveWatchers 0 = [0, 1] := by
    decide +kernel
  -- The only code that the pass runs fails at once.
  have hcode : ∀ c, Place.cell 0 = .cell c → ∀ code x (u : SceneWorld),
      Runs call ((typed.assign c (.text "42")).liveWatchers c)
        ((typed.assign c (.text "42")).startPass c) code x u →
      ((call code ⟨x, none⟩).runOn u).2 = u := by
    rintro c hc code x u h
    obtain rfl := Place.cell.inj hc
    rw [liveWatchers_assign, hwatchers] at h
    obtain rfl : code = .fail (.handler "no") :=
      h.eq_of_created (invoke_evolves callDepth) (by decide +kernel) heffects hmodel hx hplaces
    rfl
  obtain ⟨hread, hshown, -⟩ :=
    ((typed_text_arrives.2 w (typed_text_arrives.1 callDepth _ _)).2
      callDepth ⟨0, 2⟩ ⟨"a.n"⟩ 1 "42" hl).2 _ hplace
      (fun c hc => by obtain rfl := Place.cell.inj hc; exact hfree)
      (fun c hc _ code x u h => by rw [hcode c hc code x u h]; exact .refl _)
      (fun c hc _ code x u h t ht => by rwa [hcode c hc code x u h])
  exact ⟨by decide +kernel, hread, hshown⟩

/-- The heap does not change. -/
def World.SameStore (w w' : World σ) : Prop := w'.store = w.store

instance : IsPreorder (World σ) World.SameStore where
  refl _ := rfl
  trans _ _ _ h h' := h'.trans h

/-- A script that changes an input by hand leaves the heap alone. -/
theorem follows_setInputValue {call : Call Script} {env : Received} (node : NodeExpr) (s : String) :
    Follows World.SameStore
      (Script.exec call env (.step (.document (.setInputValue node s)) fun _ => .done)) := by
  have hstep : Follows World.SameStore
      (Step.perform call env (.document (.setInputValue node s))) :=
    follows_bind (SceneAct.looks_nodeAt node).follows fun n =>
      follows_bind (follows_modify fun _ => rfl) fun _ => follows_pure _
  exact follows_bind (follows_attempt hstep) fun _ => follows_pure _

/-- A watcher that changes the input by hand. The model has the text that was typed, and the input
shows another one. -/
theorem typed_text_replaced :
    let call := Script.invoke callDepth
    let w := Scene.after callDepth (Scene.start "<div id=r><input v-model=a></div>") [
      .model (.create "m" (.object [("a", .text "x")])),
      .template (.compile "s" ⟨false, "#r", []⟩ "m" [] false),
      .effect (.create "e" "m" ⟨"a"⟩ false
        (.step (.document (.setInputValue ⟨false, "#r", [0]⟩ "z")) fun _ => .done))]
    let typed := w.writeSink .input ⟨0, 2⟩ "y"
    let ended := (typeInto call ⟨0, 2⟩ "y").runOn w
    (w.document 0).listenersFor 2 "input" = [.writeBack ⟨"a"⟩ 0] ∧
      w.store.placeBehind ⟨"a"⟩ "a" (.mapping 0) [] = .ok (.cell 0) ∧
      0 ∉ (w.store.walk ⟨"a"⟩ (.mapping 0) []).1 ∧ WriteAdds call (.cell 0) (.text "y") typed ∧
      ended.1 = .ok 1 ∧ ((Act.read ⟨"a"⟩ 0).runOn ended.2).1 = .ok (.text "y") ∧
      (ended.2.document 0).inputValue 2 = "z" := by
  intro call w typed ended
  let before := Scene.after callDepth (Scene.start "<div id=r><input v-model=a></div>") [
    .model (.create "m" (.object [("a", .text "x")])),
    .template (.compile "s" ⟨false, "#r", []⟩ "m" [] false)]
  have heffects : w.effects = (Scene.after callDepth before [.effect (.create "e" "m" ⟨"a"⟩ false
      (.step (.document (.setInputValue ⟨false, "#r", [0]⟩ "z")) fun _ => .done))]).effects :=
    congrArg World.effects (Scene.after_append callDepth _ [_, _] [_])
  obtain ⟨hmodel, hx, hplaces⟩ : before.names.models.get? "m" = some 0 ∧
      before.store.get ⟨"a"⟩ 0 = .ok (.text "x") ∧
      ∀ e < before.effects.size, ∀ effect ∈ before.effects[e]?, effect.place?.isSome := by
    decide +kernel
  have hwatchers : typed.liveWatchers 0 = [0, 1] := by decide +kernel
  refine ⟨Listener.eq_singleton_of_target? (by decide +kernel), by decide +kernel,
    by decide +kernel, ?_, by decide +kernel, by decide +kernel, by decide +kernel⟩
  rintro c hc - code x u h
  obtain rfl := Place.cell.inj hc
  rw [liveWatchers_assign, hwatchers] at h
  obtain rfl : code = .step (.document (.setInputValue ⟨false, "#r", [0]⟩ "z")) fun _ => .done :=
    h.eq_of_created (invoke_evolves callDepth) (by decide +kernel) heffects hmodel hx hplaces
  have hstore : World.SameStore u ((call _ ⟨x, none⟩).runOn u).2 :=
    follows_setInputValue ⟨false, "#r", [0]⟩ "z" u
  rw [show ((call _ ⟨x, none⟩).runOn u).2.store = u.store from hstore]
  exact .refl _

end LiveBinding
