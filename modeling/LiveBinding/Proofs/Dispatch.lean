import LiveBinding.Proofs.Act.InTurn
import LiveBinding.Proofs.Advance.Scene
import LiveBinding.Proofs.Document.Relinks

/-!
# What a dispatch runs

A dispatch runs the listeners that its node has when it starts, one after the other, each in the
world that the one before it left. The first fault ends it. A listener may do what it likes, and
dispatch events to the same node too: nothing takes a listener away, and one that is added comes
behind those that are there, and is not run by the dispatch that is going on.

## Key results

- `Document.listenersFor_apply`: what an operation does to the listeners of a node
- `Advances.listenersFor`: the same for a run
- `fire_exact`: what one listener does
- `dispatch_exact`: the law of a dispatch
-/

namespace LiveBinding

variable {κ σ : Type}

/-! ### Operations on documents -/

namespace Document

variable {d d' : Document κ} {n : NodeId} {event : String}

theorem listenersFor_of_element? {e : Element κ} (he : d.element? n = some e) :
    d.listenersFor n event = (e.listeners.filter (·.1 == event)).map Prod.snd := by
  rw [listenersFor, he]
  rfl

/-- The listeners of a node that keeps those that it has are still there, before all others. -/
theorem listenersFor_of_append
    (h : ∀ e, d.element? n = some e →
      ∃ e' ls, d'.element? n = some e' ∧ e'.listeners = e.listeners ++ ls) :
    ∃ more, d'.listenersFor n event = d.listenersFor n event ++ more := by
  cases he : d.element? n with
  | none =>
    have hnil : d.listenersFor n event = [] := by
      rw [listenersFor, he]
      rfl
    exact ⟨_, by rw [hnil, List.nil_append]⟩
  | some e =>
    obtain ⟨e', ls, he', hlisteners⟩ := h e he
    rw [listenersFor_of_element? he, listenersFor_of_element? he', hlisteners, List.filter_append,
      List.map_append]
    exact ⟨_, rfl⟩

theorem Relinks.listenersFor (h : d.Relinks d') :
    ∃ more, d'.listenersFor n event = d.listenersFor n event ++ more :=
  listenersFor_of_append fun e he => by
    obtain ⟨e', he', hlisteners⟩ := h.listeners_eq he
    exact ⟨e', [], he', by rw [hlisteners, List.append_nil]⟩

theorem listenersFor_modifyElement (d : Document κ) (m : NodeId) {f : Element κ → Element κ}
    (hf : ∀ e, ∃ ls, (f e).listeners = e.listeners ++ ls) :
    ∃ more, (d.modifyElement m f).listenersFor n event = d.listenersFor n event ++ more :=
  listenersFor_of_append fun e he => by
    rw [element?_modifyElement, he]
    split
    · obtain ⟨ls, hls⟩ := hf e
      exact ⟨_, ls, rfl, hls⟩
    · exact ⟨e, [], rfl, (List.append_nil _).symm⟩

/-- A node that is no element has no listeners to lose. -/
theorem listenersFor_modifyContent (d : Document κ) {m : NodeId} (f : Content κ → Content κ)
    (hm : d.element? m = none) :
    ∃ more, (d.modifyContent m f).listenersFor n event = d.listenersFor n event ++ more :=
  listenersFor_of_append fun e he => by
    have hne : n ≠ m := by
      rintro rfl
      rw [hm] at he
      cases he
    refine ⟨e, [], ?_, (List.append_nil _).symm⟩
    rw [element?, content?_modifyContent, if_neg hne.symm, ← element?, he]

theorem listenersFor_setText (d : Document κ) (m : NodeId) (s : String) :
    ∃ more, (d.setText m s).listenersFor n event = d.listenersFor n event ++ more := by
  cases hm : d.content? m with
  | none =>
    rw [setText, hm]
    exact ⟨[], (List.append_nil _).symm⟩
  | some c =>
    cases c with
    | element e => exact (relinks_setText hm s).listenersFor
    | text t =>
      rw [setText, hm]
      exact listenersFor_modifyContent d _ (by rw [element?, hm])
    | comment t =>
      rw [setText, hm]
      exact listenersFor_modifyContent d _ (by rw [element?, hm])

/-- An operation keeps the listeners of every node in their order. -/
theorem listenersFor_apply (d : Document κ) (op : Operation κ) (n : NodeId) (event : String) :
    ∃ more, (op.apply d).listenersFor n event = d.listenersFor n event ++ more := by
  cases op with
  | createElement tag => exact (Relinks.add d none fun e he => by cases he; rfl).listenersFor
  | createText s => exact (Relinks.add d none fun e he => by cases he).listenersFor
  | append m children => exact (relinks_appendChildren d m children).listenersFor
  | take m => exact (relinks_detachChildren d m).listenersFor
  | setAttribute m name value =>
    exact listenersFor_modifyElement d m fun _ => ⟨[], (List.append_nil _).symm⟩
  | removeAttribute m name =>
    exact listenersFor_modifyElement d m fun _ => ⟨[], (List.append_nil _).symm⟩
  | setText m s => exact listenersFor_setText d m s
  | setMarkup m source => exact (relinks_setMarkup d m source).listenersFor
  | setInputValue m value =>
    exact listenersFor_modifyElement d m fun _ => ⟨[], (List.append_nil _).symm⟩
  | listen m event' listener => exact listenersFor_modifyElement d m fun _ => ⟨_, rfl⟩

end Document

/-! ### Runs -/

/-- The listeners that a node has for a kind of event. -/
def World.listenersAt (w : World σ) (node : NodeRef) (kind : String) : List (Listener σ) :=
  (w.document node.document).listenersFor node.node kind

/-- A run keeps the listeners of every node in their order; new ones come behind them. -/
theorem Advances.listenersAt {w w' : World σ} (h : Advances w w') (node : NodeRef)
    (kind : String) : ∃ more, w'.listenersAt node kind = w.listenersAt node kind ++ more := by
  induction h with
  | refl w => exact ⟨[], (List.append_nil _).symm⟩
  | trans _ _ ih ih' =>
    obtain ⟨more, hmore⟩ := ih
    obtain ⟨more', hmore'⟩ := ih'
    exact ⟨more ++ more', by rw [hmore', hmore, List.append_assoc]⟩
  | other _ hd _ _ =>
    refine ⟨[], ?_⟩
    rw [List.append_nil, World.listenersAt, World.listenersAt, World.document, World.document, hd]
  | store w _ => exact ⟨[], (List.append_nil _).symm⟩
  | edit w i op =>
    simp only [World.listenersAt, World.document, World.modifyDocument, Array.getElem?_modify]
    split
    · cases w.documents[node.document]? with
      | none => exact ⟨[], (List.append_nil _).symm⟩
      | some d => exact d.listenersFor_apply op node.node kind
    · exact ⟨[], (List.append_nil _).symm⟩
  | load w source =>
    simp only [World.listenersAt, World.document, Array.getElem?_push]
    split
    -- The world had no document there, and a new document is the empty one, filled in.
    · rename_i hsize
      rw [Array.getElem?_eq_none (Nat.le_of_eq hsize.symm)]
      exact (Document.relinks_setMarkup .empty Document.body source).listenersFor
    · exact ⟨[], (List.append_nil _).symm⟩
  | enroll w _ => exact ⟨[], (List.append_nil _).symm⟩
  | bind w id scope => exact ⟨[], (List.append_nil _).symm⟩
  | suspended _ ih => exact ih

/-! ### Dispatches -/

namespace Act

variable {call : Call σ} {node : NodeRef} {event : Event} {w w' : World σ}

/-- A dispatch succeeds exactly if the listeners that its node has all do, and counts them. -/
theorem dispatch_ok_iff {count : Nat} :
    (dispatch call node event).runOn w = (.ok count, w') ↔
      count = (w.listenersAt node event.kind).length ∧
        InTurn (fire call node event) (w.listenersAt node event.kind) w w' := by
  rw [runOn_dispatch, ← World.listenersAt, ← inTurn_iff]
  rcases ((w.listenersAt node event.kind).forM (fire call node event)).runOn w with
    ⟨f | ⟨⟨⟩⟩, w₁⟩
  · constructor
    · intro h
      cases h
    · rintro ⟨-, h⟩
      cases h
  · simp only [Prod.mk.injEq, Except.ok.injEq, true_and, eq_comm]

/-- A dispatch faults exactly if one of the listeners that its node has does, after those before it
have succeeded. -/
theorem dispatch_error_iff {f : Fault} :
    (dispatch call node event).runOn w = (.error f, w') ↔
      ∃ done l rest w₁ w₂, w.listenersAt node event.kind = done ++ l :: rest ∧
        InTurn (fire call node event) done w w₁ ∧
        (fire call node event l).runOn w₁ = (.error f, w₂) ∧ w' = w₂.abortDispatch := by
  rw [runOn_dispatch, ← World.listenersAt]
  constructor
  · intro h
    rcases hloop : ((w.listenersAt node event.kind).forM (fire call node event)).runOn w with
      ⟨g | _, w₂⟩
    · rw [hloop] at h
      obtain ⟨⟨⟩, rfl⟩ := Prod.mk.inj h
      obtain ⟨done, l, rest, w₁, hlist, hdone, hfault⟩ := inTurn_error_iff.1 hloop
      exact ⟨done, l, rest, w₁, w₂, hlist, hdone, hfault, rfl⟩
    · rw [hloop] at h
      cases h
  · rintro ⟨done, l, rest, w₁, w₂, hlist, hdone, hfault, rfl⟩
    rw [inTurn_error_iff.2 ⟨done, l, rest, w₁, hlist, hdone, hfault⟩]

/-- What a listener does with an event. User code runs with what the event carries. A listener of an
input writes the text of the event to its path, or the value of the input if the event carries none.
A method runs on its view model, which is kept in use meanwhile, and does nothing if that is no
longer in use. -/
theorem fire_exact (call : Call σ) (w : World σ) (node : NodeRef) (event : Event) :
    (∀ code, (fire call node event (.run code)).runOn w =
      (call code ⟨event.received, none⟩).runOn w) ∧
    (∀ path root, (fire call node event (.writeBack path root)).runOn w =
      (write call path root
        (.text (event.value.getD ((w.document node.document).inputValue node.node)))).runOn w) ∧
    ∀ vm code, (fire call node event (.method vm code)).runOn w =
      if w.isViewModelAlive vm then
        (((call code ⟨event.received, some vm⟩).runOn (w.enterMethod vm)).1,
          ((call code ⟨event.received, some vm⟩).runOn (w.enterMethod vm)).2.leaveMethod)
      else (.ok (), w) := by
  refine ⟨fun code => rfl, fun path root => ?_, fun vm code => ?_⟩
  · rw [fire, runOn_bind, runOn_get]
  · rw [fire, runOn_bind, runOn_get]
    dsimp only
    split <;> rfl

end Act

open Act

/-- The law of a dispatch. It runs the listeners that the node has for this kind of event when it
starts, in order of registration and each once. If all of them succeed, their number is the result;
the first fault ends it and is its fault, and what is behind is not run. Wherever the dispatch
stands, also at its end, the node has these listeners first, and those that were added meanwhile
behind them. -/
theorem dispatch_exact (depth : Nat) (w : SceneWorld) (node : NodeRef) (event : Event) :
    let fired := fire (Script.invoke depth) node event
    let present := w.listenersAt node event.kind
    let ended := (dispatch (Script.invoke depth) node event).runOn w
    (∀ count w', ended = (.ok count, w') ↔
      count = present.length ∧ InTurn fired present w w') ∧
    (∀ f w', ended = (.error f, w') ↔
      ∃ done l rest w₁ w₂, present = done ++ l :: rest ∧ InTurn fired done w w₁ ∧
        (fired l).runOn w₁ = (.error f, w₂) ∧ w' = w₂.abortDispatch) ∧
    (∀ done rest w₁, present = done ++ rest → InTurn fired done w w₁ →
      ∃ added, w₁.listenersAt node event.kind = present ++ added) ∧
    ∃ added, ended.2.listenersAt node event.kind = present ++ added := by
  intro fired present ended
  have hcall : Call.Agrees (fun w : SceneWorld => w.isCollecting = false) (Script.invoke depth)
      (Script.invoke depth) := fun code env => (Script.advances_invoke depth code env).agree
  have hfired : ∀ l, Follows Advances (fired l) := fun l =>
    (agree_fire stable_isCollecting hcall node event l).follows
  have hended : Advances w ended.2 :=
    (agree_dispatch stable_isCollecting hcall node event).follows w
  exact ⟨fun _ _ => dispatch_ok_iff, fun _ _ => dispatch_error_iff,
    fun _ _ _ _ hdone => (hdone.follows hfired).listenersAt node event.kind,
    hended.listenersAt node event.kind⟩

/-- A listener that adds another one: the first click runs one listener, the second one two. -/
example :
    let target : NodeExpr := ⟨false, "body", []⟩
    let adding : Script := .step (.document (.listen target "click" .done)) fun _ => .done
    let w := Scene.after callDepth (Scene.start "") [.document (.listen target "click" adding)]
    let click := dispatch (Script.invoke callDepth) ⟨0, Document.body⟩ ⟨"click", none⟩
    (click.runOn w).1.toOption = some 1 ∧
      (click.runOn (click.runOn w).2).1.toOption = some 2 := by
  decide +kernel

end LiveBinding
