import LiveBinding.Proofs.Lifetime.Listeners
import LiveBinding.Proofs.Lifetime.Owned
import LiveBinding.Proofs.Subscription

/-!
# What is left of a view model that was dropped

The nodes of a template outlive the view model. What the view model has left behind there is of
three kinds: effects, which nothing keeps alive any more, listeners that call its methods, which do
nothing any more, and the listeners of inputs. The last ones know the model and not the view model,
so they go on writing what is typed.

Apart from inputs, a view model that was dropped has no part in anything that happens later.

## Key results

- `World.Dropped.runOn_setCell`, `World.Dropped.documents_write`: writes of its model
- `World.Dropped.runOn_forM_fire`: events on its nodes
- `dropped_viewModel_inert`: the law of runs
- `dropped_viewModel_typed`: an input goes on writing
-/

namespace LiveBinding

open Act World

variable {σ : Type} {call : Call σ}

/-! ### Writes -/

/-- A new value that nobody watches is stored, and that is all. -/
theorem Act.runOn_setCell_of_liveWatchers_eq_nil {w : World σ} {c : CellId}
    (h : w.liveWatchers c = []) (v : Value) :
    ∃ b w', (setCell call c v).runOn w = (.ok b, w') ∧ w'.documents = w.documents := by
  rw [runOn_setCell]
  split
  · exact ⟨false, w, rfl, rfl⟩
  · rw [runOn_notify, liveWatchers_assign, h]
    exact ⟨true, _, rfl, rfl⟩

namespace World.Dropped

variable {w : World σ} {id : ViewModelId} {vm : ViewModel}

/-- A pass visits no effect of a view model that was dropped. -/
theorem notMem_liveWatchers (h : w.Dropped id vm) (c : CellId) :
    ∀ e ∈ w.liveWatchers c, e ∉ vm.bindings.effects := by
  intro e he hm
  have halive : w.isAlive e = true := (List.mem_filter.1 he).2
  rw [h.isAlive_eq e hm] at halive
  cases halive

/-- A cell that only effects of the view model watched has no live watchers any more. -/
theorem liveWatchers_eq_nil (h : w.Dropped id vm) {c : CellId}
    (hc : ∀ e ∈ w.liveWatchers c, e ∈ vm.bindings.effects) : w.liveWatchers c = [] :=
  List.eq_nil_iff_forall_not_mem.2 fun e he => h.notMem_liveWatchers c e he (hc e he)

/-- A write of a cell that only the view model bound changes no document. -/
theorem runOn_setCell (h : w.Dropped id vm) {c : CellId}
    (hc : ∀ e ∈ w.liveWatchers c, e ∈ vm.bindings.effects) (v : Value) :
    ∃ b w', (setCell call c v).runOn w = (.ok b, w') ∧ w'.documents = w.documents :=
  runOn_setCell_of_liveWatchers_eq_nil (h.liveWatchers_eq_nil hc) v

/-- A write to a path changes no document if only the view model bound the cells. -/
theorem documents_write (h : w.Dropped id vm) (hw : w.Sound)
    (hc : ∀ c, ∀ e ∈ w.liveWatchers c, e ∈ vm.bindings.effects) (path : KeyPath)
    (root : MappingId) (v : Value) :
    ((write call path root v).runOn w).2.documents = w.documents := by
  rw [runOn_write, hw.registerReads_eq]
  split
  · rfl
  · split
    · rfl
    · rename_i place _
      -- Only a place that is a cell has watchers.
      cases place with
      | cell c =>
        obtain ⟨b, w', hset, hdocuments⟩ :
            ∃ b w', (setCell call c v).runOn w = (.ok b, w') ∧ w'.documents = w.documents :=
          h.runOn_setCell (hc c) v
        rw [runOn_put_cell, hset, hdocuments]
      | newKey m key => rfl
      | newItem q => rfl

/-! ### Events -/

/-- A method of the view model is not called any more. -/
theorem runOn_fire (h : w.Dropped id vm) {l : Listener σ} (hl : l.IsMethodOf id = true)
    (node : NodeRef) (event : Event) : (fire call node event l).runOn w = (.ok ⟨⟩, w) := by
  obtain ⟨code, rfl⟩ := Listener.IsMethodOf.exists_eq hl
  rw [fire, runOn_bind, runOn_get]
  dsimp only
  rw [h.isViewModelAlive_eq]
  rfl

/-- An event runs the listeners of its node without the methods of the view model. -/
theorem runOn_forM_fire (hcall : call.Evolves) (node : NodeRef) (event : Event)
    (ls : List (Listener σ)) (h : w.Dropped id vm) :
    (ls.forM (fire call node event)).runOn w =
      ((ls.filter fun l => !l.IsMethodOf id).forM (fire call node event)).runOn w := by
  -- By induction on the listeners: wherever one of them leads, the view model stays dropped.
  induction ls generalizing w with
  | nil => rfl
  | cons l ls ih =>
    rw [runOn_forM_cons]
    cases hl : l.IsMethodOf id with
    | true =>
      rw [h.runOn_fire hl, List.filter_cons_of_neg (by simp [hl])]
      exact ih h
    | false =>
      rw [List.filter_cons_of_pos (by simp [hl]), runOn_forM_cons]
      have hfired := follows_fire hcall node event l w
      rcases hr : (fire call node event l).runOn w with ⟨f | ⟨⟨⟩⟩, w'⟩
      · rfl
      · rw [hr] at hfired
        exact ih (hfired.dropped h)

/-- An event that only methods of the view model wait for changes nothing at all. -/
theorem runOn_dispatch (hcall : call.Evolves) (h : w.Dropped id vm) {node : NodeRef} {event : Event}
    (hl : ∀ l ∈ (w.document node.document).listenersFor node.node event.kind,
      l.IsMethodOf id = true) :
    (dispatch call node event).runOn w =
      (.ok ((w.document node.document).listenersFor node.node event.kind).length, w) := by
  have hnone : ((w.document node.document).listenersFor node.node event.kind).filter
      (fun l => !l.IsMethodOf id) = [] :=
    List.filter_eq_nil_iff.2 fun l hmem => by simp [hl l hmem]
  rw [Act.runOn_dispatch, h.runOn_forM_fire hcall, hnone]
  rfl

end World.Dropped

/-- Typing into an input leaves the listeners of every node as they are. -/
theorem World.listenersFor_writeSink_input (w : World σ) (node : NodeRef) (s : String)
    (event : String) :
    ((w.writeSink .input node s).document node.document).listenersFor node.node event =
      (w.document node.document).listenersFor node.node event := by
  rw [document, document, writeSink, documents_modifyDocument, if_pos rfl]
  cases w.documents[node.document]? with
  | none => rfl
  | some d =>
    simp only [Option.map_some, Option.getD_some, Document.listenersFor, Document.setInputValue,
      Document.element?_modifyElement, if_pos]
    cases d.element? node.node <;> rfl

/-- A text that only methods of the view model hear of is in the input and nowhere else. -/
theorem World.Dropped.runOn_typeInto (hcall : call.Evolves) {w : World σ} {id : ViewModelId}
    {vm : ViewModel} (h : w.Dropped id vm) {node : NodeRef} (s : String)
    (hl : ∀ l ∈ (w.document node.document).listenersFor node.node "input",
      l.IsMethodOf id = true) :
    (typeInto call node s).runOn w =
      (.ok ((w.document node.document).listenersFor node.node "input").length,
        w.writeSink .input node s) := by
  have htyped : (w.writeSink .input node s).Dropped id vm := (Move.type w node s).dropped h
  have hlisteners := w.listenersFor_writeSink_input node s "input"
  have hinput : ∀ l ∈ ((w.writeSink .input node s).document node.document).listenersFor node.node
      (Event.input s).kind, l.IsMethodOf id = true :=
    fun l hmem => hl l (hlisteners ▸ hmem)
  rw [typeInto, runOn_bind, runOn_modify]
  dsimp only
  rw [htyped.runOn_dispatch hcall hinput, show (Event.input s).kind = "input" from rfl, hlisteners]

/-! ### Runs -/

/-- What a view model attaches to the nodes of its template are its methods and the listeners of
its inputs. Once it is no longer in use, and whatever happens then: its record stays as it is, it
never comes back into use, and none of its effects is alive. A write to cells that only it bound
changes no document. An event runs the listeners of its node without the methods of the view model,
so that an event or a typed text that only its methods wait for changes nothing else. -/
theorem dropped_viewModel_inert (depth : Nat) (source : String) (before later : List Step) :
    let w₀ := Scene.after depth (Scene.start source) before
    let w := Scene.after depth w₀ later
    (∀ document (b : Blueprint Script) (u u' : SceneWorld) id,
      (newViewModel document b).runOn u = (.ok id, u') →
        ∃ vm, u'.viewModels[id]? = some vm ∧ ∀ (node : NodeRef) event,
          ∀ l ∈ (u'.document node.document).listenersFor node.node event,
            l ∈ (u.document node.document).listenersFor node.node event ∨
              l.IsMethodOf id = true ∨ event = "input" ∧ ∃ path, l = .writeBack path vm.model) ∧
    ∀ (id : ViewModelId) vm, w₀.viewModels[id]? = some vm → w₀.isViewModelAlive id = false →
      w.viewModels[id]? = some vm ∧ w.isViewModelAlive id = false ∧
      (∀ e ∈ vm.bindings.effects, w.isAlive e = false) ∧
      ∀ limit, let call := Script.invoke limit
        (∀ c v, (∀ e ∈ w.liveWatchers c, e ∈ vm.bindings.effects) →
          ∃ b w', (setCell call c v).runOn w = (.ok b, w') ∧ w'.documents = w.documents) ∧
        (∀ path root v, (∀ c, ∀ e ∈ w.liveWatchers c, e ∈ vm.bindings.effects) →
          ((write call path root v).runOn w).2.documents = w.documents) ∧
        (∀ node event (ls : List (Listener Script)), (ls.forM (fire call node event)).runOn w =
          ((ls.filter fun l => !l.IsMethodOf id).forM (fire call node event)).runOn w) ∧
        (∀ node event,
          let ls := (w.document node.document).listenersFor node.node event.kind
          (∀ l ∈ ls, l.IsMethodOf id = true) →
            (dispatch call node event).runOn w = (.ok ls.length, w)) ∧
        ∀ node s,
          let ls := (w.document node.document).listenersFor node.node "input"
          (∀ l ∈ ls, l.IsMethodOf id = true) →
            (typeInto call node s).runOn w = (.ok ls.length, w.writeSink .input node s) := by
  intro w₀ w
  constructor
  · intro document b u u' id h
    obtain ⟨vm, hvm, hattaches⟩ := attaches_newViewModel h
    refine ⟨vm, hvm, fun node event l hl => ?_⟩
    refine ((hattaches node.document).listenersFor hl).imp_right (.imp_right ?_)
    rintro ⟨path, hpath⟩
    obtain ⟨rfl, rfl⟩ := Prod.mk.inj hpath
    exact ⟨rfl, path, rfl⟩
  · intro id vm hr hdead
    -- At the drop no pass is running, because the scene is between two steps.
    have hrun : Evolves .free (Scene.start source) w₀ := Scene.evolves_after depth _ before
    have howned : w₀.Owned := hrun.owned (sound_ofDocument _) (owned_ofDocument _)
    have hpasses : w₀.passes = [] := hrun.sameFrames.passes_eq
    have hdropped : w.Dropped id vm :=
      (Scene.evolves_after depth w₀ later).dropped (howned.dropped hpasses hr hdead)
    have hsound : w.Sound :=
      (Scene.evolves_after depth w₀ later).sound (hrun.sound (sound_ofDocument _))
    refine ⟨hdropped.record_eq, hdropped.isViewModelAlive_eq, hdropped.isAlive_eq, ?_⟩
    intro limit call
    have hcall : call.Evolves := invoke_evolves limit
    exact ⟨fun c v hc => hdropped.runOn_setCell hc v,
      fun path root v hc => hdropped.documents_write hsound hc path root v,
      fun node event ls => hdropped.runOn_forM_fire hcall node event ls,
      fun node event hl => hdropped.runOn_dispatch hcall hl,
      fun node s hl => hdropped.runOn_typeInto hcall s hl⟩

/-- A view model with a text and a button. After the drop the button does nothing, and a write does
not reach the text. -/
theorem dropped_viewModel_button :
    let w := Scene.after callDepth (Scene.start "<div id=r><p>{{a}}</p><i @click=m></i></div>") [
      .template (.create "v" (some (.node ⟨false, "#r", []⟩)) (.object [("a", .text "x")])
        [("m", .step (.template (.set none "a" (.plain (.text "z")))) fun _ => .done)] {} false),
      .template (.drop "v")]
    let call := Script.invoke callDepth
    w.store.watchers 0 = [0] ∧ (dispatch call ⟨0, 4⟩ ⟨"click", none⟩).runOn w = (.ok 1, w) ∧
      ∃ b w', (setCell call 0 (.text "y")).runOn w = (.ok b, w') ∧ w'.documents = w.documents := by
  intro w call
  obtain ⟨-, hlaw⟩ := dropped_viewModel_inert callDepth
    "<div id=r><p>{{a}}</p><i @click=m></i></div>" [
      .template (.create "v" (some (.node ⟨false, "#r", []⟩)) (.object [("a", .text "x")])
        [("m", .step (.template (.set none "a" (.plain (.text "z")))) fun _ => .done)] {} false),
      .template (.drop "v")] []
  obtain ⟨hrecord, hdead⟩ :
      w.viewModels[0]? = some ⟨0, some 1, 0, ["a"], {}, ⟨[0], 1⟩⟩ ∧
        w.isViewModelAlive 0 = false := by
    decide +kernel
  obtain ⟨-, -, -, hwrites⟩ := hlaw 0 _ hrecord hdead
  obtain ⟨hset, -, -, hdispatch, -⟩ := hwrites callDepth
  -- The button has one listener, a method, and only the text watches the cell.
  have hlisteners : ∀ l ∈ (w.document 0).listenersFor 4 "click", l.IsMethodOf 0 = true := by
    decide +kernel
  have hcount : ((w.document 0).listenersFor 4 "click").length = 1 := by decide +kernel
  refine ⟨by decide +kernel, ?_, hset 0 (.text "y") (by decide +kernel)⟩
  have hclick : (dispatch call ⟨0, 4⟩ ⟨"click", none⟩).runOn w =
      (.ok ((w.document 0).listenersFor 4 "click").length, w) :=
    hdispatch ⟨0, 4⟩ ⟨"click", none⟩ hlisteners
  rw [hclick, hcount]

/-- An input of a view model that was dropped goes on writing to the model. -/
theorem dropped_viewModel_typed :
    let w := Scene.after callDepth (Scene.start "<div id=r><input v-model=a><p>{{a}}</p></div>") [
      .template (.create "v" (some (.node ⟨false, "#r", []⟩)) (.object [("a", .text "x")]) [] {}
        false),
      .template (.drop "v")]
    let w' := Scene.after callDepth w [.document (.typeInto ⟨false, "#r", [0]⟩ "y")]
    ∃ vm, w.viewModels[0]? = some vm ∧ w.isViewModelAlive 0 = false ∧
      w.store.get ⟨"a"⟩ vm.model = .ok (.text "x") ∧
        w'.store.get ⟨"a"⟩ vm.model = .ok (.text "y") := by
  intro w w'
  exact ⟨⟨0, some 1, 0, ["a"], {}, ⟨[0, 1], 1⟩⟩, by decide +kernel⟩

end LiveBinding
