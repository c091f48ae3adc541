import LiveBinding.Proofs.Act.Follows
import LiveBinding.Proofs.Document.Forest
import LiveBinding.Proofs.Evolution.Basic
import LiveBinding.Proofs.Store.Lasting

/-!
# How worlds advance

`Advances w w'` follows four parts of a world through a run: its store, its documents, its view
models and the stack of collectors. The store changes by edits, a document by operations, a view
model is added or gets its bindings, and collection is suspended and resumed; everything else may
change at will. What is said about these parts of a run is said here, once for each way to advance.

`Agree P act act'` compares an act with one that calls other user code. Both do the same in every
world with `P`, and the first advances every world. If the two ways to run user code differ only
where `P` fails, then the acts agree only because user code never starts there.

## Key definitions

- `Advances`: the store, the documents, the view models and the collectors of a run
- `Stable`: properties that last while a world advances and while collection is suspended
- `Act.Agree`: acts that do the same where a property holds

## Key results

- `Advances.collectors_eq`: the stack of collectors is as before
- `Advances.preserves`: what edits of a store keep
- `Advances.lasts`: keys and items stay
- `Advances.reached`: documents come from operations
- `agreeAt_bind`, `agree_within`, …: the ways to build an act
-/

namespace LiveBinding

variable {σ : Type}

/-- A world can become another one, as far as its store, its documents, its view models and its
collectors tell. The keys that a new view model proxies are keys of its model. -/
inductive Advances : World σ → World σ → Prop
  | refl (w : World σ) : Advances w w
  | trans {w₁ w₂ w₃ : World σ} (h : Advances w₁ w₂) (h' : Advances w₂ w₃) : Advances w₁ w₃
  | other {w w' : World σ} (hs : w'.store = w.store) (hd : w'.documents = w.documents)
      (hv : w'.viewModels = w.viewModels) (hc : w'.collectors = w.collectors) : Advances w w'
  | store (w : World σ) {s : Store} (h : w.store.Edit s) : Advances w { w with store := s }
  | edit (w : World σ) (i : DocumentId) (op : Document.Operation (Listener σ)) :
      Advances w (w.modifyDocument i op.apply)
  | load (w : World σ) (source : String) :
      Advances w { w with documents := w.documents.push (.ofMarkup source) }
  | enroll (w : World σ) {vm : ViewModel} (h : ∀ key ∈ vm.proxied, key ∈ w.store.keys vm.model) :
      Advances w { w with viewModels := w.viewModels.push vm }
  | bind (w : World σ) (id : ViewModelId) (scope : Scope) :
      Advances w
        { w with viewModels := w.viewModels.modify id fun vm => { vm with bindings := scope } }
  | suspended {w w' : World σ} (h : Advances w.suspend w') : Advances w w'.resume

instance : IsPreorder (World σ) Advances where
  refl := .refl
  trans _ _ _ := .trans

namespace Advances

variable {w w' : World σ}

/-- An edit of the store is recorded. -/
theorem turn (w : World σ) {s : Store} (h : w.store.Edit s) : Advances w (w.turn s) :=
  (store w h).trans (.other rfl rfl rfl rfl)

/-- What began is ended: the stack of collectors is as before. -/
theorem collectors_eq (h : Advances w w') : w'.collectors = w.collectors := by
  induction h with
  | refl w => rfl
  | trans _ _ ih ih' => exact ih'.trans ih
  | other _ _ _ hc => exact hc
  | store w _ => rfl
  | edit w i op => rfl
  | load w source => rfl
  | enroll w _ => rfl
  | bind w id scope => rfl
  | suspended _ ih => rw [World.resume, ih, World.suspend, List.tail_cons]

/-- What every edit of a store keeps, a run keeps. -/
theorem preserves {P : Store → Prop} (hedit : ∀ {s s' : Store}, s.Edit s' → P s → P s')
    (h : Advances w w') (hw : P w.store) : P w'.store := by
  induction h with
  | refl w => exact hw
  | trans _ _ ih ih' => exact ih' (ih hw)
  | other hs _ _ _ => rwa [hs]
  | store w h => exact hedit h hw
  | edit w i op => exact hw
  | load w source => exact hw
  | enroll w _ => exact hw
  | bind w id scope => exact hw
  | suspended _ ih => exact ih hw

/-- Keys and items stay where they are, with their cells. -/
theorem lasts (h : Advances w w') : w.store.Lasts w'.store :=
  h.preserves (P := w.store.Lasts) (fun hedit hs => hs.trans hedit.lasts) (.refl _)

/-- The documents still come from operations. -/
theorem reached (h : Advances w w') (hw : ∀ d ∈ w.documents, d.Reached) :
    ∀ d ∈ w'.documents, d.Reached := by
  induction h with
  | refl w => exact hw
  | trans _ _ ih ih' => exact ih' (ih hw)
  | other _ hd _ _ => rwa [hd]
  | store w h => exact hw
  | edit w i op =>
    intro d hd
    obtain ⟨j, hj⟩ := Array.mem_iff_getElem?.1 hd
    rw [World.modifyDocument, Array.getElem?_modify] at hj
    split at hj
    · obtain ⟨d₀, hd₀, rfl⟩ := Option.map_eq_some_iff.1 hj
      exact .operate (hw d₀ (Array.mem_of_getElem? hd₀)) op
    · exact hw d (Array.mem_of_getElem? hj)
  | load w source =>
    intro d hd
    rcases Array.mem_push.1 hd with hd | rfl
    · exact hw d hd
    · exact .ofMarkup source
  | enroll w _ => exact hw
  | bind w id scope => exact hw
  | suspended _ ih => exact ih hw

end Advances

/-- Edits of a document that do the same as operations. -/
theorem advances_modifyDocument {w : World σ} {i : DocumentId}
    {f : Document (Listener σ) → Document (Listener σ)} (op : Document.Operation (Listener σ))
    (h : ∀ d, w.documents[i]? = some d → f d = op.apply d) :
    Advances w (w.modifyDocument i f) :=
  World.modifyDocument_congr h ▸ .edit w i op

/-- An effect is registered with some cells. -/
theorem advances_foldl_watch (w : World σ) (cells : List CellId) (e : EffectId) :
    Advances w { w with store := cells.foldl (fun s c => s.watch c e) w.store } := by
  have hwatch : ∀ (cells : List CellId) (s : Store),
      Advances { w with store := s }
        { w with store := cells.foldl (fun s c => s.watch c e) s } := by
    intro cells
    induction cells with
    | nil => exact fun s => .refl _
    | cons c cells ih =>
      exact fun s => (Advances.store { w with store := s } (.watch c e)).trans (ih _)
  exact hwatch cells w.store

theorem advances_registerReads (w : World σ) (cells : List CellId) :
    Advances w (w.registerReads cells) := by
  rw [World.registerReads]
  split
  · exact advances_foldl_watch w cells _
  · exact .refl w

theorem advances_writeSink (w : World σ) (sink : Sink) (node : NodeRef) (s : String) :
    Advances w (w.writeSink sink node s) := by
  rw [World.writeSink]
  cases sink with
  | text => exact .edit w node.document (.setText node.node s)
  | markup => exact .edit w node.document (.setMarkup node.node s)
  | input => exact .edit w node.document (.setInputValue node.node s)
  | attr name => exact .edit w node.document (.setAttribute node.node name s)

/-- A property that lasts while a world advances, and while collection is suspended. -/
structure Stable (P : World σ → Prop) : Prop where
  of_advances : ∀ {w w' : World σ}, Advances w w' → P w → P w'
  suspend : ∀ {w : World σ}, P w → P w.suspend

theorem stable_isCollecting : Stable (σ := σ) fun w => w.isCollecting = false where
  of_advances h hw := by rwa [World.isCollecting, h.collectors_eq]
  suspend _ := rfl

namespace Act

variable {α β : Type} {P : World σ → Prop} {w : World σ}

/-- From one world, an act advances it, and if the world has a property, another act does the
same. -/
def AgreeAt (P : World σ → Prop) (w : World σ) (x x' : Act σ α) : Prop :=
  Advances w (x.runOn w).2 ∧ (P w → x'.runOn w = x.runOn w)

/-- An act advances every world, and another act does the same in those with a property. -/
def Agree (P : World σ → Prop) (x x' : Act σ α) : Prop := ∀ w, AgreeAt P w x x'

/-- An act agrees with itself. -/
theorem Follows.agree {x : Act σ α} (h : Follows Advances x) : Agree P x x :=
  fun w => ⟨h w, fun _ => rfl⟩

theorem Agree.follows {x x' : Act σ α} (h : Agree P x x') : Follows Advances x :=
  fun w => (h w).1

/-- An act and then another one: the second starts where the first ended with a result. -/
theorem agreeAt_bind (hP : Stable P) {x x' : Act σ α} {f f' : α → Act σ β}
    (hx : AgreeAt P w x x')
    (hf : ∀ a w', x.runOn w = (.ok a, w') → AgreeAt P w' (f a) (f' a)) :
    AgreeAt P w (x >>= f) (x' >>= f') := by
  refine ⟨rel_bind hx.1 fun a w' h => (hf a w' h).1, fun hw => ?_⟩
  rw [runOn_bind, runOn_bind, hx.2 hw]
  rcases h : x.runOn w with ⟨_ | a, w'⟩
  · rfl
  · have hadvances := hx.1
    rw [h] at hadvances
    exact (hf a w' h).2 (hP.of_advances hadvances hw)

theorem agree_bind (hP : Stable P) {x x' : Act σ α} {f f' : α → Act σ β} (hx : Agree P x x')
    (hf : ∀ a, Agree P (f a) (f' a)) : Agree P (x >>= f) (x' >>= f') :=
  fun w => agreeAt_bind hP (hx w) fun a w' _ => hf a w'

/-- Looking at the world and then acting on what was seen. -/
theorem agree_bind_get {f f' : World σ → Act σ β} (hf : ∀ w, AgreeAt P w (f w) (f' w)) :
    Agree P (get >>= f) (get >>= f') := fun w => by
  rw [AgreeAt, runOn_bind, runOn_bind, runOn_get]
  exact hf w

theorem agree_map {x x' : Act σ α} (h : Agree P x x') (f : α → β) :
    Agree P (f <$> x) (f <$> x') := fun w => by
  rw [AgreeAt, runOn_map, runOn_map]
  exact ⟨(h w).1, fun hw => by rw [(h w).2 hw]⟩

theorem agree_forM (hP : Stable P) {f f' : β → Act σ PUnit} (hf : ∀ b, Agree P (f b) (f' b))
    (bs : List β) : Agree P (bs.forM f) (bs.forM f') := by
  induction bs with
  | nil => exact Follows.agree (follows_pure _)
  | cons b bs ih => exact agree_bind hP (hf b) fun _ => ih

theorem agree_attempt {x x' : Act σ α} (h : Agree P x x') : Agree P x.attempt x'.attempt :=
  fun w => by
    refine ⟨follows_attempt h.follows w, fun hw => ?_⟩
    rw [runOn_attempt, runOn_attempt, (h w).2 hw]

/-- A change after a fault that advances the world. -/
theorem agree_onFault {change : World σ → World σ} (hchange : ∀ w, Advances w (change w))
    {x x' : Act σ α} (h : Agree P x x') :
    Agree P (x.onFault change) (x'.onFault change) := fun w => by
  have hx := (h w).1
  refine ⟨?_, fun hw => by rw [runOn_onFault, runOn_onFault, (h w).2 hw]⟩
  rw [runOn_onFault]
  rcases hr : x.runOn w with ⟨f | a, w'⟩
  · rw [hr] at hx
    exact hx.trans (hchange w')
  · rwa [hr] at hx

/-- Changes around an act that advance the world. -/
theorem agree_within (hP : Stable P) {enter leave : World σ → World σ}
    (henter : ∀ w, Advances w (enter w)) (hleave : ∀ w, Advances w (leave w)) {x x' : Act σ α}
    (h : Agree P x x') : Agree P (x.within enter leave) (x'.within enter leave) := fun w => by
  rw [AgreeAt, runOn_within, runOn_within]
  exact ⟨((henter w).trans (h (enter w)).1).trans (hleave _),
    fun hw => by rw [(h (enter w)).2 (hP.of_advances (henter w) hw)]⟩

/-- What happens while collection is suspended. -/
theorem agree_suspended (hP : Stable P) {x x' : Act σ α} (h : Agree P x x') :
    Agree P (collecting none x) (collecting none x') := fun w => by
  rw [AgreeAt, runOn_collecting, runOn_collecting]
  have hx := h w.suspend
  exact ⟨.suspended hx.1, fun hw => by
    have heq : x'.runOn w.suspend = x.runOn w.suspend := hx.2 (hP.suspend hw)
    rw [World.suspend] at heq
    rw [heq]⟩

end Act

end LiveBinding
