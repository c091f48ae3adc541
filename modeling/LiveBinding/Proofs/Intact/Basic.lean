import LiveBinding.Proofs.Document.Forest
import LiveBinding.Proofs.Evolution.Sound
import LiveBinding.Proofs.Lifetime.Listeners
import LiveBinding.Proofs.Store.Widens

/-!
# Intact worlds

A world is intact if it is sound, its heap is closed, every model that something refers to exists,
and every live effect in an input has a listener there that writes back to what the effect shows.
`Onward w w'` says that a world is intact and still has what another one had. Both are needed to
follow values through a run: a value that user code has received is good as long as the world goes
onward, and a good value keeps the heap closed when it is stored.

## Key definitions

- `World.RefersTo`: the models of names, view models and inputs
- `World.Intact`, `World.Onward`

## Key results

- `Intact.onward`: what a step has to keep
- `Intact.onward_assign`, `Intact.onward_writeSink`, …: the steps of a run
-/

namespace LiveBinding

variable {σ κ : Type}

/-! ### Operations on documents -/

namespace Document

/-- Only listening attaches a listener. -/
theorem attaches_apply {P : String × κ → Prop} (d : Document κ) (op : Operation κ)
    (h : ∀ n event listener, op = .listen n event listener → P (event, listener)) :
    Attaches P d (op.apply d) := by
  cases op with
  | createElement tag => exact attaches_add d _ fun e he => by cases he; rfl
  | createText s => exact attaches_add d _ fun e he => by cases he
  | append n children => exact attaches_appendChildren d n children
  | take n => exact attaches_detachChildren d n
  | setAttribute n name value => exact attaches_modifyElement d n fun _ _ => .inl
  | removeAttribute n name => exact attaches_modifyElement d n fun _ _ => .inl
  | setText n s => exact attaches_setText d n s
  | setMarkup n source => exact attaches_setMarkup d n source
  | setInputValue n value => exact attaches_modifyElement d n fun _ _ => .inl
  | listen n event listener => exact attaches_addListener d n (h n event listener rfl)

/-- A new document has no listeners. -/
theorem attaches_ofMarkup {P : String × κ → Prop} (source : String) :
    Attaches P empty (ofMarkup source) :=
  attaches_setMarkup empty body source

theorem listenersFor_ofMarkup (source : String) (n : NodeId) (event : String) :
    (ofMarkup source : Document κ).listenersFor n event = [] := by
  refine List.eq_nil_iff_forall_not_mem.2 fun l hl => ?_
  rcases (attaches_ofMarkup (P := fun _ => False) source).listenersFor hl with hl | hl
  · cases n <;> cases hl
  · exact hl

end Document

namespace World

/-! ### References to models -/

/-- A name or a view model is that of a model, or an input writes back to the model. -/
def RefersTo (w : World σ) (root : MappingId) : Prop :=
  (∃ f ∈ w.names.models, f.2 = root) ∨ (∃ vm ∈ w.viewModels, vm.model = root) ∨
    ∃ (node : NodeRef) (path : KeyPath),
      .writeBack path root ∈ (w.document node.document).listenersFor node.node "input"

/-- Nothing refers to another model than before, except to the given ones. -/
def RefersOnly (P : MappingId → Prop) (w w' : World σ) : Prop :=
  ∀ root, w'.RefersTo root → w.RefersTo root ∨ P root

variable {P : MappingId → Prop} {w w' : World σ}

instance : IsPreorder (World σ) (RefersOnly P) where
  refl _ _ h := .inl h
  trans _ _ _ h h' root hroot := (h' root hroot).elim (h root) .inr

theorem refersOnly_of_eq (hn : w'.names.models = w.names.models)
    (hv : w'.viewModels = w.viewModels) (hd : w'.documents = w.documents) :
    RefersOnly P w w' := by
  intro root h
  simp only [RefersTo, document, hn, hv, hd] at h
  exact .inl h

/-- Names and view models stay, and the listeners that are attached write back to given models. -/
theorem refersOnly_of_attaches {Q : String × Listener σ → Prop} (h : Attaches Q w w')
    (hQ : ∀ path root, Q ("input", .writeBack path root) → P root)
    (hn : w'.names.models = w.names.models) (hv : w'.viewModels = w.viewModels) :
    RefersOnly P w w' := by
  rintro root (hname | hvm | ⟨node, path, hl⟩)
  · exact .inl (.inl (hn ▸ hname))
  · exact .inl (.inr (.inl (hv ▸ hvm)))
  · exact ((h node.document).listenersFor hl).imp (fun hl => .inr (.inr ⟨node, path, hl⟩))
      (hQ path root)

theorem refersOnly_writeSink (w : World σ) (sink : Sink) (node : NodeRef) (s : String) :
    RefersOnly P w (w.writeSink sink node s) :=
  refersOnly_of_attaches (attaches_writeSink (P := fun _ => False) w sink node s)
    (fun _ _ => False.elim) rfl rfl

/-! ### Intact worlds -/

/-- Every reference leads to something, and no effect in an input is without its listener. -/
structure Intact (w : World σ) : Prop where
  sound : w.Sound
  closed : w.store.Closed
  has_root : ∀ root, w.RefersTo root → w.store.Has (.mapping root)
  backs : ∀ e, w.isAlive e = true → w.Backs e

/-- The second world is intact, its heap has what that of the first one has, and the same methods
are running. -/
structure Onward (w w' : World σ) : Prop where
  intact : w'.Intact
  widens : w.store.Widens w'.store
  receivers_eq : w'.receivers = w.receivers

theorem Intact.onward_self (hw : w.Intact) : w.Onward w := ⟨hw, hw.closed.widens_self, rfl⟩

theorem Onward.trans {u : World σ} (h : w.Onward u) (h' : u.Onward w') : w.Onward w' :=
  ⟨h'.intact, h.widens.trans h'.widens, h'.receivers_eq.trans h.receivers_eq⟩

/-- What keeps a world intact. An effect that becomes alive has its listener. -/
theorem Intact.onward_of_alive (hw : w.Intact) (hs : w'.Sound) (hl : w.Later w')
    (hd : w.DocumentsKeep (fun _ _ => True) w') (hwidens : w.store.Widens w'.store)
    (halive : ∀ e, w'.isAlive e = true → w.isAlive e = true ∨ w'.Backs e)
    (hrefers : RefersOnly (fun root => w'.store.Has (.mapping root)) w w')
    (hr : w'.receivers = w.receivers) : w.Onward w' where
  intact.sound := hs
  intact.closed := hwidens.closed
  intact.has_root root h :=
    (hrefers root h).elim (fun hold => hwidens.knows (.mapping root) (hw.has_root root hold)) id
  intact.backs e he := by
    rcases halive e he with hold | hback
    · exact (hw.backs e hold).of_later (hw.sound.lt_size hold) hl hd
    · exact hback
  widens := hwidens
  receivers_eq := hr

/-- What keeps a world intact in which no effect becomes alive. -/
theorem Intact.onward (hw : w.Intact) (hs : w'.Sound) (hl : w.Later w')
    (hd : w.DocumentsKeep (fun _ _ => True) w') (hwidens : w.store.Widens w'.store)
    (halive : ∀ e, w'.isAlive e = true → w.isAlive e = true)
    (hrefers : RefersOnly (fun root => w'.store.Has (.mapping root)) w w')
    (hr : w'.receivers = w.receivers) : w.Onward w' :=
  hw.onward_of_alive hs hl hd hwidens (fun e he => .inl (halive e he)) hrefers hr

/-- A move that constructs nothing and leaves models, view models and documents alone. -/
theorem Intact.onward_of_move (hw : w.Intact) (hm : Move w w')
    (hsize : w'.effects.size = w.effects.size) (hwidens : w.store.Widens w'.store)
    (hn : w'.names.models = w.names.models) (hv : w'.viewModels = w.viewModels)
    (hd : w'.documents = w.documents) (hr : w'.receivers = w.receivers) : w.Onward w' := by
  have hs := hm.sound hw.sound
  exact hw.onward hs hm.later (documentsKeep_of_eq hd) hwidens
    (fun e he => hm.isAlive_of (hsize ▸ hs.lt_size he) he) (refersOnly_of_eq hn hv hd) hr

/-- The same for a whole evolution. -/
theorem Intact.onward_of_evolves (hw : w.Intact) (he : Evolves .free w w')
    (hsize : w'.effects.size = w.effects.size) (hwidens : w.store.Widens w'.store)
    (hn : w'.names.models = w.names.models) (hv : w'.viewModels = w.viewModels)
    (hd : w'.documents = w.documents) : w.Onward w' := by
  have hs := he.sound hw.sound
  refine hw.onward hs he.later (documentsKeep_of_eq hd) hwidens (fun e halive => ?_)
    (refersOnly_of_eq hn hv hd) he.sameFrames.receivers_eq
  -- What is dead stays dead.
  rw [← Bool.not_eq_false]
  intro hdead
  have hend := (Dead.of_moves ⟨hsize ▸ hs.lt_size halive, hdead⟩ he.moves).1.isAlive_eq
  exact absurd (halive.symm.trans hend) (by simp)

/-! ### Steps of a run -/

theorem Intact.onward_assign (hw : w.Intact) (c : CellId) {v : Value} (hv : w.store.Knows v) :
    w.Onward (w.assign c v) :=
  hw.onward_of_move (.assign w c v) rfl (hw.closed.widens_assign c hv) rfl rfl rfl rfl

/-- The heap gets new parts. -/
theorem Intact.onward_extend (hw : w.Intact) {s : Store} (hext : w.store.Extends s)
    (hwidens : w.store.Widens s) : w.Onward (w.turn s) :=
  hw.onward_of_move (.change (.extend w hext)) rfl hwidens rfl rfl rfl rfl

theorem Intact.onward_startPass (hw : w.Intact) (c : CellId) : w.Onward (w.startPass c) :=
  hw.onward_of_move (.startPass w c) rfl
    (hw.closed.widens_of_sameData (Store.sameData_prune w.store c _)) rfl rfl rfl rfl

theorem Intact.onward_endPass (hw : w.Intact) : w.Onward w.endPass :=
  hw.onward_of_move (.endPass w) rfl hw.closed.widens_self rfl rfl rfl rfl

theorem Intact.onward_abortPass (hw : w.Intact) : w.Onward w.abortPass :=
  hw.onward_of_move (.abortPass w) rfl hw.closed.widens_self rfl rfl rfl rfl

theorem Intact.onward_abortDispatch (hw : w.Intact) : w.Onward w.abortDispatch :=
  hw.onward_of_move (.change (.abortDispatch w)) rfl hw.closed.widens_self rfl rfl rfl rfl

theorem Intact.onward_note (hw : w.Intact) (log : List String) : w.Onward { w with log := log } :=
  hw.onward_of_move (.change (.note w log)) rfl hw.closed.widens_self rfl rfl rfl rfl

theorem Intact.onward_begin (hw : w.Intact) : w.Onward w.begin :=
  hw.onward_of_move (.change (.begin w)) rfl hw.closed.widens_self rfl rfl rfl rfl

/-- An effect with a name is registered by hand. -/
theorem Intact.onward_enlist (hw : w.Intact) (c : CellId) {f : String × EffectId}
    (hf : f ∈ w.names.effects) :
    w.Onward { w with store := w.store.watch c f.2, enlisted := f.2 :: w.enlisted } :=
  hw.onward_of_move (.change (.enlist w c hf)) rfl
    (hw.closed.widens_of_sameData (Store.sameData_watch w.store c f.2)) rfl rfl rfl rfl

theorem Intact.onward_deliver (hw : w.Intact) (e : EffectId) (v : Value) :
    w.Onward (w.deliver e v) :=
  hw.onward (hw.sound.deliver e v) (later_deliver w e v) (documentsKeep_of_eq rfl)
    hw.closed.widens_self (fun _ he => he) (refersOnly_of_eq rfl rfl rfl) rfl

/-- Documents change, and it may be recorded that this was done by hand. -/
theorem Intact.onward_documents (hw : w.Intact) {documents : Array (Document (Listener σ))}
    (current : DocumentId) (new : List NodeRef)
    (hd : w.DocumentsKeep (fun _ _ => True) { w with documents := documents })
    (hrefers : RefersOnly (fun _ => False) w { w with documents := documents }) :
    w.Onward { w with documents := documents, current := current, touched := new ++ w.touched } :=
  hw.onward ⟨hw.sound.1, hw.sound.2, hw.sound.3, hw.sound.4, hw.sound.5, hw.sound.6⟩
    (later_of_eq (Nat.le_refl _) rfl (Nat.le_refl _) (Nat.le_refl _) (fun _ h => h) ⟨new, rfl⟩
      List.suffix_rfl List.suffix_rfl)
    hd hw.closed.widens_self (fun _ he => he)
    (fun root h => (hrefers root h).imp_right False.elim) rfl

/-- An operation on a document, unless it attaches a listener that writes back. -/
theorem Intact.onward_operate (hw : w.Intact) (i : DocumentId)
    {op : Document.Operation (Listener σ)}
    (hop : ∀ n event path root, op ≠ .listen n event (.writeBack path root)) (new : List NodeRef) :
    w.Onward { w.modifyDocument i op.apply with touched := new ++ w.touched } := by
  have hkeep : w.DocumentsKeep (fun _ _ => True) (w.modifyDocument i op.apply) :=
    documentsKeep_modifyDocument w i fun d => Document.keeps_apply d op
  have hattaches : Attaches (fun l => ∀ path root, l.2 ≠ .writeBack path root) w
      (w.modifyDocument i op.apply) := by
    refine attaches_modifyDocument w i fun d => Document.attaches_apply d op ?_
    rintro n event _ rfl path root rfl
    exact hop n event path root rfl
  exact hw.onward_documents w.current new hkeep
    (refersOnly_of_attaches hattaches (fun path root h => h path root rfl) rfl rfl)

/-- A new document becomes the current one. -/
theorem Intact.onward_load (hw : w.Intact) (source : String) :
    w.Onward { w with
      current := w.documents.size, documents := w.documents.push (.ofMarkup source) } := by
  have hattaches : Attaches (fun _ => False) w
      { w with documents := w.documents.push (.ofMarkup source) } := by
    intro i
    rw [document, document, Array.getElem?_push]
    split
    · rw [Array.getElem?_eq_none (by omega)]
      exact Document.attaches_ofMarkup source
    · exact .refl _ _
  refine hw.onward_documents w.documents.size [] (fun i d hd => ⟨d, ?_, .refl _ d⟩)
    (refersOnly_of_attaches hattaches (fun _ _ => False.elim) rfl rfl)
  rw [Array.getElem?_push, if_neg (Nat.ne_of_lt (Array.getElem?_eq_some_iff.1 hd).1), hd]

theorem Intact.onward_writeSink (hw : w.Intact) (sink : Sink) (node : NodeRef) (s : String) :
    w.Onward (w.writeSink sink node s) :=
  hw.onward_documents w.current [] (documentsKeep_writeSink w s trivial)
    (refersOnly_writeSink w sink node s)

/-- Effects are constructed, and those that become alive have their listeners. -/
theorem Intact.onward_constructs (hw : w.Intact) (h : w.Constructs w')
    (hbacks : ∀ e, w'.isAlive e = true → w.isAlive e = true ∨ w'.Backs e)
    (hrefers : RefersOnly (fun root => w'.store.Has (.mapping root)) w w') : w.Onward w' :=
  hw.onward_of_alive (h.sound hw.sound) h.grows.later (h.grows.documents.mono fun _ _ _ => trivial)
    (hw.closed.widens_of_sameData h.grows.sameData) hbacks hrefers h.grows.receivers_eq

/-! ### Frames -/

theorem Intact.suspend (hw : w.Intact) : w.suspend.Intact :=
  (hw.onward_of_move (.suspend w) rfl hw.closed.widens_self rfl rfl rfl rfl).intact

/-- What goes on while collection is suspended keeps a world intact. -/
theorem Onward.resume (h : w.suspend.Onward w') : w.Onward w'.resume where
  intact :=
    (h.intact.onward_of_move (.resume w') rfl h.intact.closed.widens_self rfl rfl rfl rfl).intact
  widens := h.widens
  receivers_eq := h.receivers_eq

theorem Intact.enterMethod (hw : w.Intact) {vm : ViewModelId}
    (hvm : w.isViewModelAlive vm = true) : (w.enterMethod vm).Intact where
  sound := (Move.enterMethod hvm).sound hw.sound
  closed := hw.closed
  has_root := hw.has_root
  backs e he := hw.backs e (isAlive_of_enterMethod hvm he)

/-- What a method does keeps a world intact. -/
theorem Onward.leaveMethod {vm : ViewModelId} (h : (w.enterMethod vm).Onward w') :
    w.Onward w'.leaveMethod where
  intact :=
    { sound := (Move.leaveMethod w').sound h.intact.sound
      closed := h.intact.closed
      has_root := h.intact.has_root
      backs := fun e he => h.intact.backs e (isAlive_of_leaveMethod he) }
  widens := h.widens
  receivers_eq := by rw [World.leaveMethod, h.receivers_eq]; rfl

theorem Intact.hold (hw : w.Intact) {e : EffectId} (he : w.isAlive e = true) :
    (w.hold e).Intact where
  sound := (Move.hold he).sound hw.sound
  closed := hw.closed
  has_root := hw.has_root
  backs e' he' := hw.backs e' (isAlive_of_hold he he')

/-- What an update does keeps a world intact. -/
theorem Onward.release {e : EffectId} (h : (w.hold e).Onward w') : w.Onward w'.endPass where
  intact := h.intact.onward_endPass.intact
  widens := h.widens
  receivers_eq := h.receivers_eq

/-! ### The start of a run -/

/-- The world in which a run starts is intact. -/
theorem intact_ofDocument {d : Document (Listener σ)}
    (hd : ∀ n event, d.listenersFor n event = []) : (World.ofDocument d).Intact where
  sound := sound_ofDocument d
  closed :=
    { inRange := (sound_ofDocument d).inRange
      knows := fun c => by
        simp [World.ofDocument, Store.empty, Store.value, Store.Knows] }
  has_root := by
    rintro root (⟨_, h, -⟩ | ⟨_, h, -⟩ | ⟨node, path, h⟩)
    · cases h
    · simp [World.ofDocument] at h
    · have hnone : ((World.ofDocument d).document node.document).listenersFor node.node "input" =
          [] := by
        rw [document]
        cases node.document with
        | zero => exact hd node.node "input"
        | succ i => cases node.node <;> rfl
      rw [hnone] at h
      cases h
  backs e he := by
    obtain ⟨effect, heffect, -⟩ := (sound_ofDocument d).exists_effect e he
    simp [World.ofDocument] at heffect

end World

end LiveBinding
