import LiveBinding.Proofs.Evolution.Moments
import LiveBinding.Proofs.Freshness
import LiveBinding.Proofs.Notification
import LiveBinding.Proofs.Template.Gains
import LiveBinding.Proofs.Template.Root

/-!
# A template is installed in document order

A compilation comes to each node below its root once, in document order. So its effects follow the
paths of the template as they are written, and each element gets the listeners of its directives
behind those that it had. Effects are numbered in the order of their construction, and a cell keeps
its watchers in this order: a later pass over the cell updates those of one template in document
order.

## Key definitions

- `Setting.Furnishes`: nodes that depict a template have got its effects and listeners

## Key results

- `Setting.Walks.furnishes`: a walk over nodes
- `World.Registered.liveWatchers_filter`: which of the watchers of a cell come from one template
- `Setting.compile_installs`: a whole template, and the passes after it
-/

namespace LiveBinding

variable {σ : Type}

open Relation World

namespace Setting

variable {t : Setting σ} {w w₁ w' : World σ} {d d₁ d' : Document (Listener σ)} {n : NodeId}
  {scope made made' : Scope} {ns fp inner : List NodeId} {ms children : List Markup}

/-! ### One node -/

/-- A node that is no element. -/
theorem gains_compileLeaf {c : Content (Listener σ)} {m : Markup}
    (hd : w.documents[t.document]? = some d) (hn : d.content? n = some c) (hc : c.leaf? = some m)
    (h : (t.compileNode scope n).runOn w = (.ok made, w')) :
    t.Gains scope w m.paths [] made w' := by
  rw [compileNode, Act.runOn_bind, runOn_currentDocument hd] at h
  dsimp only at h
  cases c with
  | element e => cases hc
  | text x =>
    obtain rfl := Option.some.inj hc
    have hsort : d.sort n = .text := by rw [Document.sort, hn]
    rw [hsort, Document.text_of_content? hn] at h
    dsimp only at h
    by_cases hp : containsPlaceholder x.toList = true
    · rw [if_pos hp] at h
      exact gains_bindText hp h
    · rw [if_neg hp] at h
      obtain ⟨⟨⟩, rfl⟩ := Prod.mk.inj h
      rw [Markup.paths_text_of_plain (Bool.eq_false_iff.2 hp)]
      exact .refl t _ w
  | comment x =>
    obtain rfl := Option.some.inj hc
    have hsort : d.sort n = .other := by rw [Document.sort, hn]
    rw [hsort] at h
    obtain ⟨⟨⟩, rfl⟩ := Prod.mk.inj h
    exact .refl t _ w

/-- An element, without the nodes below it. -/
theorem equips_compileElement {e : Element (Listener σ)} (hd : w.documents[t.document]? = some d)
    (hn : d.content? n = some (.element e)) (hfills : ¬ Fields.fills e.attributes)
    (h : (t.compileNode scope n).runOn w = (.ok made, w')) :
    ∃ d', t.Equips n (Fields.directives e.attributes) scope w d made w' d' := by
  have hsort : d.sort n = .element := by rw [Document.sort, hn]
  have hattributes : d.attributes n = e.attributes := by
    rw [Document.attributes, Document.element?_eq_some_iff.2 hn]
    rfl
  rw [compileNode, Act.runOn_bind, runOn_currentDocument hd] at h
  dsimp only at h
  rw [hsort, hattributes] at h
  exact equips_compileAttributes hd hfills h

/-! ### A whole walk -/

/-- The nodes `fp`, which depict the template `ms`, have got its effects and listeners. -/
structure Furnishes (t : Setting σ) (ms : List Markup) (fp : List NodeId) (scope : Scope)
    (w : World σ) (d : Document (Listener σ)) (made : Scope) (w' : World σ)
    (d' : Document (Listener σ)) : Prop where
  gains : t.Gains scope w (Markup.pathsAll ms) ((Markup.elementsAll ms).flatMap Fields.events) made
    w'
  document : w'.documents[t.document]? = some d'
  frames : d.Frames (· ∈ fp) d'
  listeners : ∀ n ∈ fp, ∀ e, d.element? n = some e → ∃ e', d'.element? n = some e' ∧
    e'.listeners = e.listeners ++ t.listenersOf e.attributes
  events_eq : ∀ as ∈ Markup.elementsAll ms, (t.listenersOf as).map Prod.fst = Fields.events as

/-- Nothing has been done to nodes before the walk comes to them, or after it has left them. -/
theorem Furnishes.cons {ms₁ : List Markup} {fp₁ : List NodeId}
    (h : t.Furnishes ms₁ fp₁ made w₁ d₁ made' w' d') (hframes : d.Frames (· = n) d₁)
    (hn : n < d.size) (hnot : n ∉ fp₁)
    (hgains : t.Gains scope w (Markup.pathsAll ms)
      ((Markup.elementsAll ms).flatMap Fields.events) made' w')
    (hlisteners : ∀ e, d.element? n = some e → ∃ e', d₁.element? n = some e' ∧
      e'.listeners = e.listeners ++ t.listenersOf e.attributes)
    (hevents : ∀ as ∈ Markup.elementsAll ms, as ∈ Markup.elementsAll ms₁ ∨
      (t.listenersOf as).map Prod.fst = Fields.events as) :
    t.Furnishes ms (n :: fp₁) scope w d made' w' d' where
  gains := hgains
  document := h.document
  frames := by
    refine (hframes.mono fun m _ hm => ?_).trans (h.frames.mono fun m _ hm => ?_)
    · exact hm ▸ List.mem_cons_self ..
    · exact List.mem_cons_of_mem _ hm
  listeners m hm e he := by
    rcases List.mem_cons.1 hm with rfl | hm
    · obtain ⟨e', he', hlisteners⟩ := hlisteners e he
      refine ⟨e', ?_, hlisteners⟩
      rw [h.frames.element?_eq (Nat.lt_of_lt_of_le hn hframes.size_le) hnot, he']
    · refine h.listeners m hm e ?_
      rw [hframes.element?_eq (Document.lt_size_of_element? he) fun heq => hnot (heq ▸ hm), he]
  events_eq as has := (hevents as has).elim (h.events_eq as) id

/-- A walk comes to each node once, in document order. -/
theorem Walks.furnishes {visited : List NodeId} {r : Except Fault Scope}
    (h : t.Walks w scope ns visited r w') (hr : r = .ok made)
    (hd : w.documents[t.document]? = some d) (hdepicts : d.Depicts ns ms fp) (hnodup : fp.Nodup)
    (hfills : ∀ as ∈ Markup.elementsAll ms, ¬ Fields.fills as) :
    ∃ d', t.Furnishes ms fp scope w d made w' d' := by
  -- No directive replaces what is below its element, so the nodes that are still to come depict
  -- their part of the template as they did at the start.
  induction h generalizing d ms fp with
  | done w scope =>
    cases hdepicts
    obtain rfl := Except.ok.inj hr
    exact ⟨d, .refl t scope w, hd, .refl _ d, nofun, nofun⟩
  | fault => cases hr
  | @node w w₁ w' scope made' n ns visited r h hrest ih =>
    cases hdepicts with
    | @leaf _ c m _ fp ms hn hc hbehind =>
      obtain ⟨hnot, hnodup⟩ := List.nodup_cons.1 hnodup
      have hgains := gains_compileLeaf hd hn hc h
      rcases compileLeaf_cases scope (.refl w.store) hd hn hc with
        ⟨_, _, hrun, -⟩ | ⟨_, _, d₁, c', m', hrun, hyields, hworked, hn', hc', -⟩
      · cases h.symm.trans hrun
      obtain ⟨-, rfl⟩ := Prod.mk.inj (h.symm.trans hrun)
      have hframes : d.Frames (· = n) d₁ :=
        hworked.frames.mono fun _ _ hm => List.mem_singleton.1 hm
      -- Nothing is below the node.
      have hnone : d₁.children n = [] :=
        Document.children_eq_nil_of_element?_eq_none (Document.element?_eq_none_of_leaf hn' hc')
      have helements : Markup.elementsAll (m :: ms) = Markup.elementsAll ms := by
        cases c with
        | element e => cases hc
        | text x =>
          obtain rfl := Option.some.inj hc
          rfl
        | comment x =>
          obtain rfl := Option.some.inj hc
          rfl
      rw [document_eq hyields.document, hnone, List.nil_append] at ih
      obtain ⟨d', hfurnishes⟩ := ih hr hyields.document
        (hbehind.of_frames hframes fun k hk (heq : k = n) => hnot (heq ▸ hk)) hnodup
        (helements ▸ hfills)
      refine ⟨d', hfurnishes.cons hframes (Document.lt_size_of_content? hn) hnot ?_
        (fun e he => ?_) fun as has => .inl (helements ▸ has)⟩
      · rw [helements]
        exact hgains.trans hfurnishes.gains
      · rw [Document.element?_eq_none_of_leaf hn hc] at he
        cases he
    | @element _ e _ inner fp children ms hn hinside hbehind =>
      obtain ⟨hnot, hnodup⟩ := List.nodup_cons.1 hnodup
      have helements : Markup.elementsAll (.element e.tag e.attributes children :: ms) =
          e.attributes :: Markup.elementsAll (children ++ ms) := by
        rw [Markup.elementsAll_append]
        rfl
      have hpaths : Markup.pathsAll (.element e.tag e.attributes children :: ms) =
          Fields.boundPaths e.attributes ++ Markup.pathsAll (children ++ ms) := by
        rw [Markup.pathsAll_append, ← List.append_assoc]
        rfl
      rw [helements] at hfills
      obtain ⟨hfirst, hfills⟩ := List.forall_mem_cons.1 hfills
      obtain ⟨d₁, hequips⟩ := equips_compileElement hd hn hfirst h
      obtain ⟨e', he', hchildren, hlisteners⟩ :=
        hequips.hears.element e (Document.element?_eq_some_iff.2 hn)
      rw [document_eq hequips.document,
        Document.children_of_content? (Document.element?_eq_some_iff.1 he'), hchildren] at ih
      have hdepicts := (hinside.append hbehind).of_frames hequips.hears.frames
        fun k hk (heq : k = n) => hnot (heq ▸ hk)
      obtain ⟨d', hfurnishes⟩ := ih hr hequips.document hdepicts hnodup hfills
      refine ⟨d', hfurnishes.cons hequips.hears.frames (Document.lt_size_of_content? hn) hnot ?_
        (fun e₀ he₀ => ?_) fun as has => ?_⟩
      · rw [helements, hpaths]
        exact hequips.gains.trans hfurnishes.gains
      · obtain rfl := Option.some.inj ((Document.element?_eq_some_iff.2 hn).symm.trans he₀)
        exact ⟨e', he', hlisteners⟩
      · rw [helements] at has
        rcases List.mem_cons.1 has with rfl | has
        · exact .inr hequips.events_eq
        · exact .inl has

/-- The nodes of a compilation are those below its root. -/
theorem Staged.mem_iff {root : NodeId} {r : Except Fault Scope}
    (h : t.Staged w d root r w' fp w₁ d₁) : n ∈ fp ↔ TransGen d.HasChild root n := by
  have hdetached := Document.frames_detachChildren d root
  have hback : (d.detachChildren root).Frames (· = root) d := by
    refine ⟨Nat.le_of_eq (Document.size_detachChildren d root), fun m hm hne => ?_⟩
    rw [Document.size_detachChildren] at hm
    exact (hdetached.content?_eq m hm hne).symm
  exact (h.depicts.of_frames hback fun m hm heq => h.notMem (heq ▸ hm)).mem_iff_transGen

/-- Compiling what is below a root: the root's children are taken out for the walk and put back. -/
theorem Staged.furnishes {root : NodeId} (h : t.Staged w d root (.ok made) w' fp w₁ d₁)
    (hfills : ∀ as ∈ Markup.elementsAll (d.innerMarkup root), ¬ Fields.fills as) :
    t.Furnishes (d.innerMarkup root) fp .empty w d made w'
      (d₁.appendChildren root (d.children root)) := by
  obtain ⟨visited, hwalks⟩ := h.walks
  obtain ⟨d₂, hfurnishes⟩ := hwalks.furnishes rfl h.start h.depicts h.nodup hfills
  obtain rfl := Option.some.inj (h.yields.document.symm.trans hfurnishes.document)
  have hdetached := Document.frames_detachChildren d root
  have hne : ∀ m ∈ fp, m ≠ root := fun m hm heq => h.notMem (heq ▸ hm)
  obtain rfl := h.world_eq
  refine ⟨hfurnishes.gains.of_eq rfl rfl, ?_, ⟨?_, fun m hm hnot => ?_⟩, fun n hn e he => ?_,
    hfurnishes.events_eq⟩
  · rw [documents_modifyDocument, if_pos rfl, hfurnishes.document]
    rfl
  · rw [h.reattached.size_eq, ← Document.size_detachChildren d root]
    exact hfurnishes.frames.size_le
  · by_cases heq : m = root
    · rw [heq, h.worked.self]
    · rw [h.reattached.others m heq, hfurnishes.frames.content?_eq m
        (Nat.lt_of_lt_of_le hm hdetached.size_le) hnot, hdetached.content?_eq m hm heq]
  · rw [← hdetached.element?_eq (Document.lt_size_of_element? he) (hne n hn)] at he
    obtain ⟨e', he', hlisteners⟩ := hfurnishes.listeners n hn e he
    refine ⟨e', ?_, hlisteners⟩
    rw [Document.element?, h.reattached.others n (hne n hn), ← Document.element?, he']

end Setting

/-! ### Later passes -/

/-- A pass over a cell updates its watchers one after the other, all of them or those before the
first one that faults. -/
theorem Act.updates_of_notify {call : Call σ} {c : CellId} {w w' : World σ} {r : Except Fault Unit}
    (h : (notify call c).runOn w = (r, w')) :
    ∃ done rest w₁, w.liveWatchers c = done ++ rest ∧ Updates call done (w.startPass c) w₁ ∧
      (r = .ok ⟨⟩ → rest = []) ∧ ∀ f, r = .error f →
        ∃ e rest' w₂, rest = e :: rest' ∧ (update call e).runOn w₁ = (.error f, w₂) := by
  rw [runOn_notify] at h
  rcases hloop : ((w.liveWatchers c).forM (update call)).runOn (w.startPass c) with
    ⟨f | ⟨⟨⟩⟩, w₁⟩
  · rw [hloop] at h
    obtain ⟨rfl, -⟩ := Prod.mk.inj h
    obtain ⟨done, e, rest, w₂, hlive, hdone, hfault⟩ := updates_error_iff.1 hloop
    refine ⟨done, e :: rest, w₂, hlive, hdone, nofun, ?_⟩
    rintro _ ⟨⟩
    exact ⟨e, rest, w₁, rfl, hfault⟩
  · rw [hloop] at h
    obtain ⟨rfl, -⟩ := Prod.mk.inj h
    exact ⟨_, [], w₁, (List.append_nil _).symm, updates_iff.1 hloop, fun _ => rfl, nofun⟩

namespace World

variable {w u : World σ} {k n : Nat} {c : CellId}

/-- Whatever moves the first world of a run, the law of runs holds, and effects with a place were
not registered by hand. -/
theorem reached_of_moves {d : Document (Listener σ)} (h : ReflTransGen Move (ofDocument d) u) :
    u.Sound ∧ u.Registered ∧ u.EnlistsPlaceless := by
  induction h with
  | refl => exact ⟨sound_ofDocument d, registered_ofDocument d, nofun⟩
  | tail _ hmove ih =>
    obtain ⟨hsound, hregistered, hplaceless⟩ := ih
    exact ⟨hmove.sound hsound, hmove.registered hsound hregistered,
      hmove.enlistsPlaceless hsound hplaceless⟩

/-- What an effect read is recorded once and for all. -/
theorem Later.readsOf_eq (h : w.Later u) {e : EffectId} (he : e < w.effects.size) (c : CellId) :
    u.readsOf e c = w.readsOf e c := by
  have heffect : w.effects[e]? = some w.effects[e] := Array.getElem?_eq_getElem he
  obtain ⟨m, hm⟩ := h.effects_eq e _ heffect
  rw [readsOf, readsOf, hm, heffect]
  rfl

/-- The registrations of effects with consecutive numbers are in the order of these numbers. -/
theorem registrationsFrom_filter (hn : k + n ≤ u.effects.size) (c : CellId) :
    (u.registrationsFrom 0 c).filter (· ∈ List.range' k n) =
      (List.range' k n).flatMap fun e => List.replicate (u.readsOf e c) e := by
  have hfront : List.range' 0 (u.effects.size - 0) =
      List.range' 0 k ++ List.range' k (u.effects.size - k) := by
    have happend := List.range'_append_1 (s := 0) (m := k) (n := u.effects.size - k)
    rw [Nat.zero_add] at happend
    rw [happend]
    congr 1
    omega
  have hback : List.range' k (u.effects.size - k) =
      List.range' k n ++ List.range' (k + n) (u.effects.size - k - n) := by
    rw [List.range'_append_1]
    congr 1
    omega
  -- The effects of a list of numbers are registered with these numbers only.
  have hmem : ∀ es : List EffectId, ∀ e ∈ es.flatMap fun e => List.replicate (u.readsOf e c) e,
      e ∈ es := by
    intro es e he
    obtain ⟨e', he', he⟩ := List.mem_flatMap.1 he
    exact List.eq_of_mem_replicate he ▸ he'
  have houtside : ∀ es : List EffectId, (∀ e ∈ es, e ∉ List.range' k n) →
      (es.flatMap fun e => List.replicate (u.readsOf e c) e).filter (· ∈ List.range' k n) = [] :=
    fun es hes => List.filter_eq_nil_iff.2 fun e he => by simpa using hes e (hmem es e he)
  have hbefore := houtside (List.range' 0 k) fun e he => by
    rw [List.mem_range'_1] at he ⊢
    omega
  have hafter := houtside (List.range' (k + n) (u.effects.size - k - n)) fun e he => by
    rw [List.mem_range'_1] at he ⊢
    omega
  rw [registrationsFrom, hfront, hback, List.flatMap_append, List.flatMap_append,
    List.filter_append, List.filter_append, hbefore, hafter, List.nil_append, List.append_nil]
  exact List.filter_eq_self.2 fun e he => by simpa using hmem _ e he

/-- The watchers of a cell that have consecutive numbers and a place are in the order of these
numbers, each as often as its construction read the cell, as far as they are alive. -/
theorem Registered.liveWatchers_filter (hr : u.Registered) (hp : u.EnlistsPlaceless)
    (hn : k + n ≤ u.effects.size)
    (hplaces : ∀ e ∈ List.range' k n, ∀ effect, u.effects[e]? = some effect → effect.place?.isSome)
    (c : CellId) :
    (u.liveWatchers c).filter (· ∈ List.range' k n) =
      ((List.range' k n).flatMap fun e => List.replicate (u.readsOf e c) e).filter u.isAlive := by
  -- An effect with a place was not registered by hand, so it is tracked as long as it is alive.
  have htracked : ∀ e ∈ List.range' k n, u.isTracked e = u.isAlive e := by
    intro e he
    have hnot : e ∉ u.enlisted := by
      intro hmem
      obtain ⟨effect, heffect, hplace⟩ := hp e hmem
      have hsome := hplaces e he effect heffect
      rw [hplace] at hsome
      cases hsome
    rw [isTracked]
    simp [hnot]
  have hcongr : ∀ es : List EffectId, (es.filter u.isAlive).filter (· ∈ List.range' k n) =
      (es.filter u.isTracked).filter (· ∈ List.range' k n) := by
    intro es
    rw [List.filter_filter, List.filter_filter]
    refine List.filter_congr fun e _ => ?_
    by_cases he : e ∈ List.range' k n
    · rw [htracked e he]
    · simp [he]
  calc (u.liveWatchers c).filter (· ∈ List.range' k n)
      = ((u.store.watchers c).filter u.isTracked).filter (· ∈ List.range' k n) := hcongr _
    _ = ((u.registrationsFrom 0 c).filter u.isTracked).filter (· ∈ List.range' k n) := by
      rw [hr c]
    _ = ((u.registrationsFrom 0 c).filter u.isAlive).filter (· ∈ List.range' k n) :=
      (hcongr _).symm
    _ = ((u.registrationsFrom 0 c).filter (· ∈ List.range' k n)).filter u.isAlive :=
      List.filter_comm ..
    _ = _ := by rw [registrationsFrom_filter hn c]

end World

namespace Setting

variable {t : Setting σ} {scope made : Scope} {w w' : World σ} {paths : List KeyPath}
  {events : List String}

/-- The new effects have the paths. -/
theorem Gains.map_path (h : t.Gains scope w paths events made w') :
    (List.range' w.effects.size paths.length).map (fun e => (w'.effects[e]?).map Effect.path) =
      paths.map some := by
  obtain ⟨new, hnew, rfl, -⟩ := h.new
  refine List.ext_getElem (by simp) fun i hi _ => ?_
  have hi' : i < new.length := by simpa using hi
  simp [hnew, Array.getElem?_append_right, List.getElem?_eq_getElem hi']

/-- The new effects belong to the setting, and have a place. -/
theorem Gains.exists_effect (h : t.Gains scope w paths events made w') {e : EffectId}
    (he : e ∈ List.range' w.effects.size paths.length) :
    ∃ effect, w'.effects[e]? = some effect ∧ effect.root = t.model ∧ effect.gated = t.gated ∧
      effect.place?.isSome := by
  obtain ⟨new, hnew, rfl, hplaces⟩ := h.new
  obtain ⟨hle, hlt⟩ := List.mem_range'_1.1 he
  rw [List.length_map] at hlt
  have hi : e - w.effects.size < new.length := Nat.sub_lt_left_of_lt_add hle hlt
  refine ⟨new[e - w.effects.size], ?_, hplaces _ (List.getElem_mem hi)⟩
  rw [hnew, Array.getElem?_append_right hle, List.getElem?_toArray, List.getElem?_eq_getElem hi]

/-- A template whose directives do not replace what is below their elements is installed in document
order. The effects of the scope are new and numbered in their order. They follow the paths of the
template as they are written: those of the directives of each element in the order of its
attributes, and of each text the first path of each list of segments. Each element below the root
gets a listener for each event of its directives, in the order of its attributes and behind the
listeners that it had; other nodes get none. The scope counts these listeners. Wherever a run gets
in which these effects are constructed, a cell has those of them as watchers that are alive and read
it when they were constructed, in document order, and a pass over the cell updates its watchers one
after the other. -/
theorem compile_installs (t : Setting σ) (root : NodeId) (w w' : World σ)
    (d : Document (Listener σ)) (scope : Scope) (hd : w.documents[t.document]? = some d)
    (hc : d.Consistent) (ha : d.AcyclicBelow root)
    (hfills : ∀ as ∈ Markup.elementsAll (d.innerMarkup root), ¬ Fields.fills as)
    (h : (t.compile root).runOn w = (.ok scope, w')) :
    scope.effects.map (fun e => (w'.effects[e]?).map Effect.path) =
      (Markup.pathsAll (d.innerMarkup root)).map some ∧
    (∀ s, Interpolation.IsFirsts (Interpolation.parse s).paths
      (Interpolation.parse s).placeholders) ∧
    scope.effects.Pairwise (· < ·) ∧
    (∀ e ∈ scope.effects, w.effects.size ≤ e ∧ ∃ effect, w'.effects[e]? = some effect ∧
      effect.root = t.model ∧ effect.gated = t.gated) ∧
    (∃ d', w'.documents[t.document]? = some d' ∧
      (∀ n e, TransGen d.HasChild root n → d.element? n = some e →
        (t.listenersOf e.attributes).map Prod.fst = Fields.events e.attributes ∧
        ∃ e', d'.element? n = some e' ∧
          e'.listeners = e.listeners ++ t.listenersOf e.attributes) ∧
      ∀ n, n < d.size → ¬ TransGen d.HasChild root n → d'.nodes[n]? = d.nodes[n]?) ∧
    scope.listeners = ((Markup.elementsAll (d.innerMarkup root)).flatMap Fields.events).length ∧
    ∀ (d₀ : Document (Listener σ)) (u : World σ), ReflTransGen Move (World.ofDocument d₀) u →
      w'.Later u → ∀ c,
        (u.liveWatchers c).filter (· ∈ scope.effects) =
          (scope.effects.flatMap fun e => List.replicate (w'.readsOf e c) e).filter u.isAlive ∧
        ∀ (call : Call σ) r u', (Act.notify call c).runOn u = (r, u') →
          ∃ done rest u₁, u.liveWatchers c = done ++ rest ∧
            Act.Updates call done (u.startPass c) u₁ ∧ (r = .ok ⟨⟩ → rest = []) ∧
            ∀ f, r = .error f → ∃ e rest' u₂, rest = e :: rest' ∧
              (Act.update call e).runOn u₁ = (.error f, u₂) := by
  obtain ⟨fp, w₁, d₁, hstaged⟩ := exists_staged_of_acyclicBelow hd hc ha h (by simp)
  have hfurnishes := hstaged.furnishes hfills
  have hgains := hfurnishes.gains
  have heffects : scope.effects =
      List.range' w.effects.size (Markup.pathsAll (d.innerMarkup root)).length :=
    hgains.effects_eq
  refine ⟨?_, fun s => Interpolation.isFirsts_placeholders _, ?_, fun e he => ?_,
    ⟨_, hfurnishes.document, fun n e hn he => ?_, hstaged.worked.outside⟩, ?_,
    fun d₀ u hmoves hlater c => ⟨?_, fun call r u' hnotify => Act.updates_of_notify hnotify⟩⟩
  · rw [heffects]
    exact hgains.map_path
  · rw [heffects]
    exact List.pairwise_lt_range'
  · rw [heffects] at he
    obtain ⟨effect, heffect, hroot, hgated, -⟩ := hgains.exists_effect he
    exact ⟨(List.mem_range'_1.1 he).1, effect, heffect, hroot, hgated⟩
  · have hmem : n ∈ fp := hstaged.mem_iff.2 hn
    refine ⟨hfurnishes.events_eq _ ?_, hfurnishes.listeners n hmem e he⟩
    rw [← (Document.frames_detachChildren d root).element?_eq (Document.lt_size_of_element? he)
      fun heq => hstaged.notMem (heq ▸ hmem)] at he
    exact hstaged.depicts.attributes_mem hmem he
  · rw [hgains.listeners_eq]
    exact Nat.zero_add _
  · obtain ⟨-, hregistered, hplaceless⟩ := reached_of_moves hmoves
    have hle := Nat.le_trans (Nat.le_of_eq hgains.size_eq.symm) hlater.size_le
    rw [heffects, hregistered.liveWatchers_filter hplaceless hle (fun e he effect heffect => ?_) c]
    · refine congrArg (List.filter u.isAlive) (List.flatMap_congr fun e he => ?_)
      rw [hlater.readsOf_eq
        ((List.mem_range'_1.1 he).2.trans_le (Nat.le_of_eq hgains.size_eq.symm))]
    · obtain ⟨effect', heffect', -, -, hplace⟩ := hgains.exists_effect he
      obtain ⟨m, hm⟩ := hlater.effects_eq e effect' heffect'
      obtain rfl := Option.some.inj (hm.symm.trans heffect)
      exact hplace

/-- Two elements and two texts, three of which read one cell. -/
theorem compile_installs_shared :
    let w := Scene.after callDepth (Scene.start
      "<div id=r><p :title=a v-model=b>{{b}} {{ a }} {{b}}</p><i @click=go>{{a}}</i></div>") [
      .model (.create "m" (.object [("a", .text "x"), ("b", .text "y")]))]
    let t : Setting Script := ⟨0, 0, .ofList [("go", .run .done)], false⟩
    let made : Scope := ⟨[0, 1, 2, 3, 4], 2⟩
    let w' := ((t.compile 1).runOn w).2
    let u := { w' with names := { w'.names with scopes := w'.names.scopes.put "s" made } }
    (made.effects.map fun e => (w'.effects[e]?).map Effect.path) =
        [some ⟨"a"⟩, some ⟨"b"⟩, some ⟨"b"⟩, some ⟨" a "⟩, some ⟨"a"⟩] ∧
      (u.liveWatchers 0).filter (· ∈ made.effects) = [0, 3, 4] := by
  intro w t made w' u
  have hmarkup : (w.document 0).innerMarkup 1 =
      [.element "p" [(":title", "a"), ("v-model", "b")] [.text "{{b}} {{ a }} {{b}}"],
        .element "i" [("@click", "go")] [.text "{{a}}"]] := by decide +kernel
  have hfills : ∀ as ∈ Markup.elementsAll ((w.document 0).innerMarkup 1), ¬ Fields.fills as := by
    rw [hmarkup]
    decide +kernel
  have hrun : (t.compile 1).runOn w = (.ok made, w') := Prod.ext (by decide +kernel) rfl
  have hbuilds := builds_compile (t := t) w.effects.size 1 (Nat.le_refl _)
  rw [hrun] at hbuilds
  have hacyclic : (w.document 0).Acyclic := .of_forall_lt (by decide +kernel)
  obtain ⟨hpaths, -, -, -, -, -, hlater⟩ := compile_installs t 1 w w' (w.document 0) made rfl
    (.of_forall_lt (by decide +kernel) (by decide +kernel)) (hacyclic.below 1) hfills hrun
  obtain ⟨hwatchers, -⟩ := hlater _ u ((Scene.evolves_after callDepth (Scene.start _) _).moves.tail
    (.change (.construct (hbuilds.constructs_nameScope "s"))))
    (later_of_eq (Nat.le_refl _) rfl (Nat.le_refl _) (Nat.le_refl _) (fun _ h => h) ⟨[], rfl⟩
      List.suffix_rfl List.suffix_rfl) 0
  refine ⟨?_, ?_⟩
  · rw [hpaths, hmarkup]
    decide +kernel
  · rw [hwatchers]
    decide +kernel

end Setting

end LiveBinding
