import LiveBinding.Proofs.Template.FirstRender

/-!
# What a template asks for

A template can be read without a model. Its elements follow the paths of their `v-model` and bind
directives and wait for the events of their `v-model` and `on` directives, and its texts follow the
paths of their placeholders. Compiling an element or a text adds an effect for each path and a
listener for each event, in the order in which they are written.

## Key definitions

- `Fields.boundPaths`, `Fields.events`: what the directives of an element ask for
- `Markup.paths`: what is asked for below a node, in document order
- `Setting.listenersOf`: the listeners for the events of an element
- `Setting.Gains`: effects and listeners are added to a scope
- `Setting.Equips`: the directives of an element are installed

## Key results

- `Setting.gains_bindText`: the effects of a text
- `Setting.equips_compileAttributes`: the effects and listeners of an element
-/

namespace LiveBinding

variable {σ : Type}

open World

/-! ### Reading a template -/

namespace Directive

/-- The path that a directive follows without replacing what is below its element. -/
def bound? (expression : String) : Directive → Option KeyPath
  | .model | .bind _ => some ⟨expression⟩
  | _ => none

/-- The event that a directive waits for. -/
def event? : Directive → Option String
  | .model => some "input"
  | .on event => some event
  | _ => none

end Directive

namespace Fields

/-- The directives among the attributes of an element, in order, with their expressions. -/
def directives (as : Fields String) : List (Directive × String) :=
  as.filterMap fun a =>
    match Directive.parse? a.1 with
    | .ok (some directive) => some (directive, a.2)
    | _ => none

/-- The paths that an element follows, in the order of its attributes. -/
def boundPaths (as : Fields String) : List KeyPath :=
  as.directives.filterMap fun x => x.1.bound? x.2

/-- The events that an element waits for, in the order of its attributes. -/
def events (as : Fields String) : List String := as.directives.filterMap fun x => x.1.event?

theorem directives_append (as as' : Fields String) :
    directives (as ++ as') = as.directives ++ as'.directives :=
  List.filterMap_append

theorem directives_of_plain {a : String × String} (h : Directive.parse? a.1 = .ok none) :
    directives [a] = [] := by
  rw [directives, List.filterMap_cons, h]
  rfl

theorem directives_of_marked {a : String × String} {directive : Directive}
    (h : Directive.parse? a.1 = .ok (some directive)) : directives [a] = [(directive, a.2)] := by
  rw [directives, List.filterMap_cons, h]
  rfl

end Fields

namespace Markup

mutual

/-- The paths that are followed at a node and below it, in document order: an element comes before
its children, and a text follows the first path of each list of segments among its placeholders. -/
def paths : Markup → List KeyPath
  | .element _ attributes children => Fields.boundPaths attributes ++ pathsAll children
  | .text s => (Interpolation.parse s).placeholders
  | .comment _ => []

/-- The paths that are followed by several nodes, one after the other. -/
def pathsAll : List Markup → List KeyPath
  | [] => []
  | m :: ms => m.paths ++ pathsAll ms

end

variable {ms ms' : List Markup}

theorem pathsAll_append : pathsAll (ms ++ ms') = pathsAll ms ++ pathsAll ms' := by
  induction ms with
  | nil => rfl
  | cons m ms ih => rw [List.cons_append, pathsAll, pathsAll, ih, List.append_assoc]

theorem elementsAll_append : elementsAll (ms ++ ms') = elementsAll ms ++ elementsAll ms' := by
  induction ms with
  | nil => rfl
  | cons m ms ih => rw [List.cons_append, elementsAll, elementsAll, ih, List.append_assoc]

/-- A text without placeholders follows no path. -/
theorem paths_text_of_plain {s : String} (h : containsPlaceholder s.toList = false) :
    paths (.text s) = [] := by
  rw [← Interpolation.hasPlaceholders_parse, Interpolation.hasPlaceholders, Bool.not_eq_false',
    List.isEmpty_iff] at h
  rw [paths, Interpolation.placeholders, h]
  rfl

end Markup

namespace Setting

/-- The listener of a directive, with its event. -/
def listener? (t : Setting σ) (expression : String) : Directive → Option (String × Listener σ)
  | .model => some ("input", .writeBack ⟨expression⟩ t.model)
  | .on event => (t.methods.get? expression).map fun listener => (event, listener)
  | _ => none

/-- The listeners of an element, in the order of its attributes. -/
def listenersOf (t : Setting σ) (as : Fields String) : List (String × Listener σ) :=
  as.directives.filterMap fun x => t.listener? x.2 x.1

/-! ### Effects and listeners of a scope -/

/-- A scope has got an effect for each path, in order, and a listener for each event. -/
structure Gains (t : Setting σ) (scope : Scope) (w : World σ) (paths : List KeyPath)
    (events : List String) (made : Scope) (w' : World σ) : Prop where
  new : ∃ new : List (Effect σ), w'.effects = w.effects ++ new.toArray ∧
    new.map Effect.path = paths ∧
    ∀ effect ∈ new, effect.root = t.model ∧ effect.gated = t.gated ∧ effect.place?.isSome
  effects_eq : made.effects = scope.effects ++ List.range' w.effects.size paths.length
  listeners_eq : made.listeners = scope.listeners + events.length

variable {t : Setting σ} {scope made made' : Scope} {w w₁ w' : World σ} {n : NodeId}
  {paths paths' : List KeyPath} {events events' : List String} {directive : Directive}
  {expression : String}

namespace Gains

theorem refl (t : Setting σ) (scope : Scope) (w : World σ) : t.Gains scope w [] [] scope w where
  new := ⟨[], by simp⟩
  effects_eq := by simp
  listeners_eq := rfl

theorem size_eq (h : t.Gains scope w paths events made w') :
    w'.effects.size = w.effects.size + paths.length := by
  obtain ⟨new, hnew, rfl, -⟩ := h.new
  simp [hnew]

theorem trans (h : t.Gains scope w paths events made w₁)
    (h' : t.Gains made w₁ paths' events' made' w') :
    t.Gains scope w (paths ++ paths') (events ++ events') made' w' where
  new := by
    obtain ⟨new, hnew, hpaths, hplaces⟩ := h.new
    obtain ⟨new', hnew', hpaths', hplaces'⟩ := h'.new
    refine ⟨new ++ new', by simp [hnew', hnew], ?_, List.forall_mem_append.2 ⟨hplaces, hplaces'⟩⟩
    rw [List.map_append, hpaths, hpaths']
  effects_eq := by
    -- The second effects are numbered where the first ones end.
    rw [h'.effects_eq, h.effects_eq, h.size_eq, List.append_assoc, List.range'_append_1,
      List.length_append]
  listeners_eq := by
    rw [h'.listeners_eq, h.listeners_eq, List.length_append, Nat.add_assoc]

/-- Only effects and the scope count. -/
theorem of_eq {w₀ : World σ} (h : t.Gains scope w₀ paths events made w₁)
    (hw : w.effects = w₀.effects) (hw' : w'.effects = w₁.effects) :
    t.Gains scope w paths events made w' where
  new := by
    rw [hw, hw']
    exact h.new
  effects_eq := by rw [hw, h.effects_eq]
  listeners_eq := h.listeners_eq

/-- A listener more. -/
theorem recordListener (h : t.Gains scope w paths [] made w') (event : String) :
    t.Gains scope w paths [event] made.recordListener w' where
  new := h.new
  effects_eq := h.effects_eq
  listeners_eq := congrArg (· + 1) h.listeners_eq

end Gains

/-- A binding has one effect. -/
theorem gains_bindValue {sink : Sink}
    (h : (t.bindValue scope n expression sink).runOn w = (.ok made, w')) :
    t.Gains scope w [⟨expression⟩] [] made w' := by
  rw [runOn_bindValue] at h
  cases hget : w.store.get ⟨expression⟩ t.model with
  | error f =>
    rw [hget] at h
    cases h
  | ok v =>
    rw [hget] at h
    obtain ⟨⟨⟩, rfl⟩ := Prod.mk.inj h
    refine ⟨⟨[w.record ⟨expression⟩ t.model t.gated (.display sink ⟨t.document, n⟩)], ?_, rfl, ?_⟩,
      rfl, rfl⟩
    · show w.effects.push _ = _
      simp
    · exact List.forall_mem_singleton.2 ⟨rfl, rfl, rfl⟩

/-- A text has one effect for each placeholder, which renders the whole text. -/
theorem effects_bindText {content : String} (hp : containsPlaceholder content.toList = true)
    (h : (t.bindText scope n content).runOn w = (.ok made, w')) :
    made = ⟨scope.effects ++
        List.range' w.effects.size (Interpolation.parse content).placeholders.length,
        scope.listeners⟩ ∧
      w'.effects = w.effects ++ ((Interpolation.parse content).placeholders.map fun p =>
        w.record p t.model t.gated (.render (.parse content) ⟨t.document, n⟩)).toArray := by
  rw [← Interpolation.hasPlaceholders_parse] at hp
  obtain ⟨f, w₁, -, hrun⟩ | ⟨bound, w₁, s, -, hbound, -, hrun⟩ :=
    bindText_cases (t := t) 0 scope n w hp
  · cases h.symm.trans hrun
  · obtain ⟨hmade, rfl⟩ := Prod.mk.inj (h.symm.trans hrun)
    obtain rfl := Except.ok.inj hmade
    obtain ⟨-, hpaths, hvalues, -⟩ := collects_bindPlaceholders hbound
    -- All placeholders have resolved, so it is known what was constructed for them.
    have hresolve : ∀ p ∈ (Interpolation.parse content).placeholders,
        ∃ v, w.store.get p t.model = .ok v := by
      intro p hp
      rw [← hpaths] at hp
      obtain ⟨q, hq, rfl⟩ := List.mem_map.1 hp
      exact ⟨q.2, hvalues q hq⟩
    obtain ⟨values, w₂, hrun₂, heffects⟩ :=
      runOn_bindPlaceholders scope n (.parse content) hresolve
    obtain ⟨hbound', rfl⟩ := Prod.mk.inj (hbound.symm.trans hrun₂)
    obtain rfl := Except.ok.inj hbound'
    exact ⟨rfl, heffects⟩

theorem gains_bindText {content : String} (hp : containsPlaceholder content.toList = true)
    (h : (t.bindText scope n content).runOn w = (.ok made, w')) :
    t.Gains scope w (Interpolation.parse content).placeholders [] made w' := by
  obtain ⟨rfl, heffects⟩ := effects_bindText hp h
  refine ⟨⟨_, heffects, ?_, ?_⟩, rfl, rfl⟩
  · rw [List.map_map]
    exact List.map_id _
  · rintro effect heffect
    obtain ⟨p, -, rfl⟩ := List.mem_map.1 heffect
    exact ⟨rfl, rfl, rfl⟩

/-- A directive has an effect for its path and a listener for its event. -/
theorem gains_install (htext : directive ≠ .text) (hhtml : directive ≠ .html)
    (h : (t.install scope n expression directive).runOn w = (.ok made, w')) :
    t.Gains scope w (directive.bound? expression).toList directive.event?.toList made w' := by
  cases directive with
  | text => exact absurd rfl htext
  | html => exact absurd rfl hhtml
  | bind name => exact gains_bindValue h
  | model =>
    rw [install, Act.runOn_bind] at h
    rcases hr : (t.bindValue scope n expression .input).runOn w with ⟨f | scope', w₁⟩
    · rw [hr] at h
      cases h
    · rw [hr] at h
      obtain ⟨⟨⟩, rfl⟩ := Prod.mk.inj h
      exact ((gains_bindValue hr).recordListener "input").of_eq rfl rfl
  | on event =>
    rw [install, Act.runOn_bind, Act.runOn_ofExcept] at h
    cases hresolve : t.methods.resolve expression with
    | error f =>
      rw [hresolve] at h
      cases h
    | ok listener =>
      rw [hresolve] at h
      obtain ⟨⟨⟩, rfl⟩ := Prod.mk.inj h
      exact ((Gains.refl t scope w).recordListener event).of_eq rfl rfl

end Setting

/-! ### Listeners of an element -/

namespace Document

variable {κ : Type} {d d' d'' : Document κ} {n : NodeId} {ls ls' : List (String × κ)}

/-- An element has got listeners behind its old ones. What is below it is as it was, and so is every
other node. -/
structure Hears (d : Document κ) (n : NodeId) (ls : List (String × κ)) (d' : Document κ) :
    Prop where
  frames : d.Frames (· = n) d'
  element : ∀ e, d.element? n = some e → ∃ e', d'.element? n = some e' ∧
    e'.children = e.children ∧ e'.listeners = e.listeners ++ ls

theorem Hears.refl (d : Document κ) (n : NodeId) : d.Hears n [] d :=
  ⟨.refl _ d, fun e he => ⟨e, he, rfl, (List.append_nil _).symm⟩⟩

theorem Hears.trans (h : d.Hears n ls d') (h' : d'.Hears n ls' d'') :
    d.Hears n (ls ++ ls') d'' where
  frames := h.frames.trans h'.frames
  element e he := by
    obtain ⟨e₁, he₁, hchildren, hlisteners⟩ := h.element e he
    obtain ⟨e₂, he₂, hchildren', hlisteners'⟩ := h'.element e₁ he₁
    exact ⟨e₂, he₂, hchildren'.trans hchildren,
      by rw [hlisteners', hlisteners, List.append_assoc]⟩

theorem hears_modifyElement (d : Document κ) (n : NodeId) {f : Element κ → Element κ}
    (hchildren : ∀ e, (f e).children = e.children)
    (hlisteners : ∀ e, (f e).listeners = e.listeners ++ ls) :
    d.Hears n ls (d.modifyElement n f) where
  frames := frames_modifyElement d n f
  element e he := by
    refine ⟨f e, ?_, hchildren e, hlisteners e⟩
    rw [element?_modifyElement, if_pos rfl, he]
    rfl

/-- A change that is not about children and listeners. -/
theorem hears_modifyElement_nil (d : Document κ) (n : NodeId) {f : Element κ → Element κ}
    (hchildren : ∀ e, (f e).children = e.children)
    (hlisteners : ∀ e, (f e).listeners = e.listeners) : d.Hears n [] (d.modifyElement n f) :=
  hears_modifyElement d n hchildren fun e => by rw [hlisteners, List.append_nil]

theorem hears_removeAttribute (d : Document κ) (n : NodeId) (name : String) :
    d.Hears n [] (d.removeAttribute n name) :=
  hears_modifyElement_nil d n (fun _ => rfl) fun _ => rfl

/-- A binding that does not replace what is below its element. -/
theorem hears_bound (d : Document (Listener σ)) (n : NodeId) {b : ElementBinding σ}
    (hb : ¬ b.fills) : d.Hears n b.listener.toList (d.bound n b) := by
  obtain ⟨shown, listener⟩ := b
  -- What is shown comes first.
  have hshown : d.Hears n [] (d.bound n ⟨shown, none⟩) := by
    rcases shown with _ | ⟨sink, x⟩
    · exact .refl d n
    · cases sink with
      | text => exact absurd trivial hb
      | markup => exact absurd trivial hb
      | input => exact hears_modifyElement_nil d n (fun _ => rfl) fun _ => rfl
      | attr name => exact hears_modifyElement_nil d n (fun _ => rfl) fun _ => rfl
  cases listener with
  | none => exact hshown
  | some l => exact hshown.trans (hears_modifyElement _ n (fun _ => rfl) fun _ => rfl)

end Document

namespace Setting

variable {t : Setting σ} {scope made made' : Scope} {s : Store} {w w₁ w' : World σ} {n : NodeId}
  {d d₁ d' : Document (Listener σ)} {as as' : Fields String} {a : String × String}
  {directive : Directive} {expression : String} {b : ElementBinding σ}

/-- The binding of a directive has its listener. -/
theorem listener_of_binding (h : t.binding s expression directive = .ok b) :
    b.listener = t.listener? expression directive ∧
      (t.listener? expression directive).map Prod.fst = directive.event? := by
  have hmap {γ : Type} {e : Except Fault γ} {f : γ → ElementBinding σ} (h : e.map f = .ok b) :
      ∃ x, e = .ok x ∧ b = f x := by
    cases e with
    | error f => cases h
    | ok x => exact ⟨x, rfl, (Except.ok.inj h).symm⟩
  cases directive with
  | on event =>
    obtain ⟨l, hresolve, rfl⟩ := hmap h
    have hget : t.methods.get? expression = some l := by
      rw [Methods.resolve] at hresolve
      split at hresolve
      · rename_i method hmethod
        rw [hmethod, Except.ok.inj hresolve]
      · cases hresolve
    rw [listener?, hget]
    exact ⟨rfl, rfl⟩
  | _ =>
    obtain ⟨x, -, rfl⟩ := hmap h
    exact ⟨rfl, rfl⟩

/-- Directives of an element have been installed: there is an effect for each of their paths and a
listener for each of their events. -/
structure Equips (t : Setting σ) (n : NodeId) (ds : List (Directive × String)) (scope : Scope)
    (w : World σ) (d : Document (Listener σ)) (made : Scope) (w' : World σ)
    (d' : Document (Listener σ)) : Prop where
  gains : t.Gains scope w (ds.filterMap fun x => x.1.bound? x.2)
    (ds.filterMap fun x => x.1.event?) made w'
  document : w'.documents[t.document]? = some d'
  hears : d.Hears n (ds.filterMap fun x => t.listener? x.2 x.1) d'
  events_eq : (ds.filterMap fun x => t.listener? x.2 x.1).map Prod.fst =
    ds.filterMap fun x => x.1.event?

theorem Equips.refl (n : NodeId) (scope : Scope) (hd : w.documents[t.document]? = some d) :
    t.Equips n [] scope w d scope w d :=
  ⟨.refl t scope w, hd, .refl d n, rfl⟩

theorem Equips.trans {ds ds' : List (Directive × String)}
    (h : t.Equips n ds scope w d made w₁ d₁) (h' : t.Equips n ds' made w₁ d₁ made' w' d') :
    t.Equips n (ds ++ ds') scope w d made' w' d' where
  gains := by
    rw [List.filterMap_append, List.filterMap_append]
    exact h.gains.trans h'.gains
  document := h'.document
  hears := by
    rw [List.filterMap_append]
    exact h.hears.trans h'.hears
  events_eq := by
    rw [List.filterMap_append, List.filterMap_append, List.map_append, h.events_eq, h'.events_eq]

/-- One directive. -/
theorem Equips.single {x : Directive × String}
    (hgains : t.Gains scope w (x.1.bound? x.2).toList x.1.event?.toList made w')
    (hd : w'.documents[t.document]? = some d')
    (hhears : d.Hears n (t.listener? x.2 x.1).toList d')
    (hevent : (t.listener? x.2 x.1).map Prod.fst = x.1.event?) :
    t.Equips n [x] scope w d made w' d' := by
  have hone {β : Type} (f : Directive × String → Option β) : [x].filterMap f = (f x).toList := by
    rw [List.filterMap_cons]
    cases f x <;> rfl
  refine ⟨?_, hd, ?_, ?_⟩
  · rw [hone, hone]
    exact hgains
  · rw [hone]
    exact hhears
  · rw [hone, hone, ← Option.toList_map, hevent]

/-- An attribute that is no directive is passed over, and a directive is installed. -/
theorem equips_compileAttribute (hd : w.documents[t.document]? = some d)
    (hfills : ¬ Fields.fills [a])
    (h : (t.compileAttribute n scope a).runOn w = (.ok made, w')) :
    ∃ d', t.Equips n (Fields.directives [a]) scope w d made w' d' := by
  have hdraws := (draws_compileAttribute scope n a w).cases hd
  rw [h] at hdraws
  rcases hdraws with ⟨_, _, hrun, -⟩ | ⟨_, g, _, hrun, hchange, hyields⟩
  · cases hrun
  obtain ⟨-, rfl⟩ := Prod.mk.inj hrun
  rw [compileAttribute, Act.runOn_bind, Act.runOn_ofExcept] at h
  cases hparse : Directive.parse? a.1 with
  | error f =>
    rw [hparse] at h
    cases h
  | ok parsed =>
    rw [hparse] at h
    cases parsed with
    | none =>
      obtain ⟨⟨⟩, rfl⟩ := Prod.mk.inj h
      exact ⟨d, by rw [Fields.directives_of_plain hparse]; exact .refl n scope hd⟩
    | some directive =>
      have hbinding : t.binding? w.store a = (t.binding w.store a.2 directive).map some := by
        rw [binding?, hparse]
      rw [hbinding] at hchange
      cases hb : t.binding w.store a.2 directive with
      | error f =>
        rw [hb] at hchange
        cases hchange
      | ok b =>
        rw [hb] at hchange hbinding
        obtain rfl := (Except.ok.inj hchange).symm
        obtain ⟨hlistener, hevent⟩ := listener_of_binding hb
        have hhears : d.Hears n b.listener.toList ((d.bound n b).removeAttribute n a.1) := by
          have hbound := d.hears_bound n (mt (fills_of_binding? hbinding) hfills)
          rw [← List.append_nil b.listener.toList]
          exact hbound.trans (Document.hears_removeAttribute _ n a.1)
        change (t.install scope n a.2 directive >>= fun scope => do
          t.edit fun d => d.removeAttribute n a.1
          return scope).runOn w = _ at h
        rw [Act.runOn_bind] at h
        rcases hr : (t.install scope n a.2 directive).runOn w with ⟨f | scope', w₁⟩
        · rw [hr] at h
          cases h
        · rw [hr] at h
          obtain ⟨⟨⟩, rfl⟩ := Prod.mk.inj h
          have hgains : t.Gains scope w (directive.bound? a.2).toList directive.event?.toList made
              w₁ := by
            refine gains_install ?_ ?_ hr
            · rintro rfl
              exact hfills ⟨a, List.mem_singleton_self a, .inl hparse⟩
            · rintro rfl
              exact hfills ⟨a, List.mem_singleton_self a, .inr hparse⟩
          rw [hlistener] at hhears
          rw [Fields.directives_of_marked hparse]
          exact ⟨_, .single (hgains.of_eq rfl rfl) hyields.document hhears hevent⟩

/-- The attributes of an element. -/
theorem equips_compileAttributes (hd : w.documents[t.document]? = some d) (hfills : ¬ as.fills)
    (h : (as.foldlM (t.compileAttribute n) scope).runOn w = (.ok made, w')) :
    ∃ d', t.Equips n as.directives scope w d made w' d' := by
  -- The list of attributes was read before the first directive was removed.
  induction as generalizing scope w d with
  | nil =>
    obtain ⟨⟨⟩, rfl⟩ := Prod.mk.inj h
    exact ⟨d, .refl n made hd⟩
  | cons a as ih =>
    have hfirst : ¬ Fields.fills [a] := by
      rintro ⟨a', ha', hparse⟩
      exact hfills ⟨a', List.mem_singleton.1 ha' ▸ List.mem_cons_self .., hparse⟩
    have hrest : ¬ Fields.fills as := by
      rintro ⟨a', ha', hparse⟩
      exact hfills ⟨a', List.mem_cons_of_mem _ ha', hparse⟩
    rw [List.foldlM_cons, Act.runOn_bind] at h
    rcases hr : (t.compileAttribute n scope a).runOn w with ⟨f | scope', w₁⟩
    · rw [hr] at h
      cases h
    · rw [hr] at h
      obtain ⟨d₁, hequips⟩ := equips_compileAttribute hd hfirst hr
      obtain ⟨d', hequips'⟩ := ih hequips.document hrest h
      refine ⟨d', ?_⟩
      rw [← List.singleton_append, Fields.directives_append]
      exact hequips.trans hequips'

end Setting

end LiveBinding
