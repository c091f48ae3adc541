import LiveBinding.Proofs.View.Compiled
import LiveBinding.Proofs.View.Gate

/-!
# Views with a gate

A gate saves the updates that would show the same value again. In the place of a single path it
saves nothing else: the view is that of templates without a gate. So it is in a place that several
effects share, or an effect and the user, exactly if nothing disturbs the place: the value that an
effect got last may not come back while the place shows something else, unless something is shown
there afterwards. This happens where user code takes a value back while it is being shown, or where
a container is put back.

## Key results

- `Binding.undisturbed_of_forall`: a criterion that can be evaluated, for the places of a given run
- `gated_view_follows_model`: views show the values of now exactly if nothing disturbs them
- `gated_view_stays_behind`: the two ways in which they do not
-/

namespace LiveBinding

variable {σ : Type}

open World Binding

/-! ### Deciding -/

/-- The cells on the way are those that the path reads. -/
theorem Store.settles_iff {s : Store} {e : EffectId} {effect : Effect σ} : s.Settles e effect ↔
    ((s.reads effect.path effect.root).length = effect.path.segments.length ∧
      ∀ c ∈ s.reads effect.path effect.root, e ∈ s.watchers c) ∧
        ∃ v ∈ (s.get effect.path effect.root).toOption, v.same effect.last = true := by
  constructor
  · rintro ⟨v, hwatch, hsame⟩
    obtain ⟨hget, hcells⟩ := Store.watches_iff.1 hwatch
    exact ⟨hcells, v, by rw [hget]; rfl, hsame⟩
  · rintro ⟨hcells, v, hv, hsame⟩
    cases hget : s.get effect.path effect.root with
    | error f =>
      rw [hget] at hv
      cases hv
    | ok u =>
      rw [hget] at hv
      obtain rfl : u = v := Option.some.inj hv
      exact ⟨u, Store.watches_iff.2 ⟨hget, hcells⟩, hsame⟩

instance (s : Store) (e : EffectId) (effect : Effect σ) : Decidable (s.Settles e effect) :=
  decidable_of_iff _ Store.settles_iff.symm

instance (x : Turn σ) (e : EffectId) (effect : Effect σ) : Decidable (x.BringsBack e effect) :=
  inferInstanceAs (Decidable (¬ x.store.Settles e effect ∧ x.next.Settles e effect))

/-- The change brings back nothing that an effect in the place got last. -/
def Turn.Keeps (x : Turn σ) (b : Binding) (s : Moment) : Prop :=
  ∀ e, e < x.effects.size → ∀ effect ∈ x.effects[e]?,
    s.size ≤ e → effect.place? = some (b.sink, b.node) → ¬ x.BringsBack e effect

instance (x : Turn σ) (b : Binding) (s : Moment) : Decidable (x.Keeps b s) :=
  inferInstanceAs (Decidable (∀ e, e < x.effects.size → ∀ effect ∈ x.effects[e]?,
    s.size ≤ e → effect.place? = some (b.sink, b.node) → ¬ x.BringsBack e effect))

/-- An effect in the place has got a value after the change. -/
def Turn.IsOvertaken (x : Turn σ) (b : Binding) (s : Moment) (w : World σ) : Prop :=
  ∃ e, e < w.effects.size ∧ ∃ effect ∈ w.effects[e]?, s.size ≤ e ∧
    effect.place? = some (b.sink, b.node) ∧
      (x.effects[e]?).map Effect.memory ≠ some effect.memory

instance (x : Turn σ) (b : Binding) (s : Moment) (w : World σ) : Decidable (x.IsOvertaken b s w) :=
  inferInstanceAs (Decidable (∃ e, e < w.effects.size ∧ ∃ effect ∈ w.effects[e]?, s.size ≤ e ∧
    effect.place? = some (b.sink, b.node) ∧
      (x.effects[e]?).map Effect.memory ≠ some effect.memory))

/-- Nothing disturbs the place if each change of the models brings back nothing, or is overtaken. -/
theorem Binding.undisturbed_of_forall {b : Binding} {s : Moment} {w : World σ}
    (h : ∀ x ∈ w.turnsSince s, x.Keeps b s ∨ x.IsOvertaken b s w) : b.Undisturbed s w := by
  rintro x hx ⟨⟨e, effect, hin, hback⟩, -, hin_iff, -⟩
  rcases h x hx with hkeeps | ⟨f, -, record, hf, hle, hp, hnew⟩
  · exact hkeeps e hin.lt_size effect hin.effect_eq hin.size_le hin.place_eq hback
  · exact hnew (congrArg (Option.map Effect.memory) ((hin_iff f record).1 ⟨hle, hf, hp⟩).effect_eq)

/-! ### The law -/

/-- A text of a single placeholder has one effect. -/
theorem Binding.Bound.alone {template : Interpolation} {node : NodeRef} {root : MappingId}
    {s : Moment} {w : World σ} (h : (text template node root).Bound s w.effects) :
    (text template node root).Alone s w := by
  intro hshares e f effect record hin hinf
  obtain ⟨p, hp⟩ := List.length_eq_one_iff.1 (not_not.1 (not_or.1 hshares).2)
  have hpath {g : EffectId} {got : Effect σ}
      (hing : (text template node root).IsIn s w.effects g got) : got.path = p := by
    have hmem := (h.owns g got hing).path_mem
    rw [hp] at hmem
    exact List.mem_singleton.1 hmem
  exact h.eq_of_path_eq e f effect record hin hinf ((hpath hin).trans (hpath hinf).symm)

/-- The law of runs with a gate. A template was compiled, at any moment of a run, and its scope is
alive. Each of its effects shows something on a node. If nobody else does so in the same place, and
if since the compilation no fault has ended a pass or a dispatch and nobody has changed the node by
hand, then a ready text shows the values of now if it has a single placeholder. A ready text of
several placeholders and a ready input show them exactly if they are undisturbed: no change of the
models since the compilation has brought back what an effect in the place got last, while the place
showed something else than what its effects got last, and nothing has been shown there since. -/
theorem gated_view_follows_model (depth : Nat) (source : String) (steps : List Step) :
    let w := Scene.after depth (Scene.start source) steps
    ∀ (t : Setting Script) (root : NodeId) (d : Document (Listener Script)) (made : Scope)
      (u : SceneWorld), t.Lives root d made u w →
      ∀ e ∈ made.effects, ∃ effect, w.effects[e]? = some effect ∧
        (∀ template node, effect.reaction = .render template node →
          (w.document node.document).sort node.node = .text →
          w.IsLeftTo .text node made.effects u →
            let shown := (w.document node.document).text node.node
            let render := Interpolation.render
              (fun p => (w.store.get p t.model).map w.store.display) template.segments
            (∀ c, d.content? node.node = some (.text c) → template = .parse c) ∧
            (u.moment.Quiet node w → (text template node t.model).Ready u.moment w →
              (render = .ok shown ↔ (text template node t.model).Undisturbed u.moment w) ∧
              (template.placeholders.length = 1 → render = .ok shown))) ∧
        ∀ node, effect.reaction = .display .input node → w.IsLeftTo .input node [e] u →
          u.moment.Quiet node w → (value .input node effect.path t.model).Ready u.moment w →
            ((∃ v, w.store.get effect.path t.model = .ok v ∧
              (w.document node.document).inputValue node.node = w.store.display v) ↔
            (value .input node effect.path t.model).Undisturbed u.moment w) := by
  intro w t root d made u hlives e he
  obtain ⟨-, effect, -, heffect, -⟩ := hlives.exists_effect he
  refine ⟨effect, heffect, fun template node hreaction hsort hleft => ?_,
    fun node hreaction hleft hquiet hready => ?_⟩
  · intro shown render
    obtain ⟨hbound, hne, htemplate⟩ := hlives.text he heffect hreaction hsort hleft
    refine ⟨htemplate, fun hquiet hready => ?_⟩
    have hholds : (text template node t.model).Holds u.moment w :=
      hlives.holds (List.Subset.refl _) hleft hquiet hbound.owns
    -- A text of a single placeholder need not be undisturbed.
    have hrender (hcalm : (text template node t.model).Shares →
        (text template node t.model).Undisturbed u.moment w) : render = .ok shown := by
      obtain ⟨x, hx, hdisplay⟩ := Scene.displays_of_undisturbed (b := text template node t.model)
        trivial hne rfl hholds hbound.alone hcalm hready
      exact hx.trans (congrArg Except.ok (hdisplay.text_eq hsort).symm)
    refine ⟨⟨fun hshown => ?_, fun hcalm => hrender fun _ => hcalm⟩, fun hsingle => ?_⟩
    · exact Scene.undisturbed_of_displays (b := text template node t.model) trivial rfl hholds
        hready hbound.eq_of_path_eq hshown fun t ht => (ht.text_eq hsort).symm
    · exact hrender fun hshares => absurd hsingle (hshares.resolve_left nofun)
  · have hholds := hlives.holds_value he heffect hreaction hleft hquiet
    refine ⟨fun hshown => ?_, fun hcalm => ?_⟩
    · obtain ⟨v, hv, hinput⟩ := hshown
      have hx : (value .input node effect.path t.model).shows w.store =
          .ok (w.store.display v) := congrArg (Except.map w.store.display) hv
      have hone {f record} (hin : (value .input node effect.path t.model).IsIn u.moment w.effects
          f record) : f = e :=
        List.mem_singleton.1 (Setting.Lives.mem_of_isIn hleft hin)
      exact Scene.undisturbed_of_displays trivial rfl hholds hready
        (fun _ _ _ _ hin hing _ => (hone hin).trans (hone hing).symm) hx
        fun t ht => ht.inputValue_eq.symm.trans hinput
    · obtain ⟨x, hx, hdisplay⟩ := Scene.displays_of_undisturbed
        (b := value .input node effect.path t.model) trivial (List.cons_ne_nil _ _) rfl hholds
        (fun hshares => (hshares (.inl rfl)).elim) (fun _ => hcalm) hready
      obtain ⟨v, hv, rfl⟩ := exists_of_shows_value hx
      exact ⟨v, hv, hdisplay.inputValue_eq⟩

/-- User code takes back the value of the first placeholder while it is being shown, which disturbs
the text until the second value is written. It also takes back the value of the other text, and
changes what is typed. -/
theorem gated_view_written_typed :
    let source := "<div id=r>{{a}} {{b}}<p>{{d}}</p><input v-model=c></div>"
    let before : List Step := [
      .model (.create "m" (.object
        [("a", .text "1"), ("b", .text "1"), ("c", .text "x"), ("d", .text "1")])),
      .effect (.create "i" "m" ⟨"a"⟩ false
        (.run (.model (.set "m" ⟨"b"⟩ (.plain (.text "2"))))
          (.run (.model (.set "m" ⟨"a"⟩ (.plain (.text "1")))) .done))),
      .effect (.create "j" "m" ⟨"c"⟩ false
        (.run (.model (.set "m" ⟨"c"⟩ (.plain (.text "n")))) .done)),
      .effect (.create "k" "m" ⟨"d"⟩ false
        (.run (.model (.set "m" ⟨"d"⟩ (.plain (.text "1")))) .done))]
    let later : List Step := [
      .model (.set "m" ⟨"a"⟩ (.plain (.text "2"))),
      .model (.set "m" ⟨"b"⟩ (.plain (.text "3"))),
      .model (.set "m" ⟨"d"⟩ (.plain (.text "5"))),
      .document (.typeInto ⟨false, "#r", [2]⟩ "N")]
    let w := Scene.after callDepth (Scene.start source)
      (before ++ .template (.compile "s" ⟨false, "#r", []⟩ "m" [] true) :: later)
    (w.document 0).text 2 = "1 3" ∧ (w.document 0).text 4 = "1" ∧
      (w.document 0).inputValue 5 = "n" := by
  intro source before later w
  let u := Scene.after callDepth (Scene.start source) before
  let t : Setting Script := ⟨0, 0, .ofList [], true⟩
  let made : Scope := ⟨[3, 4, 5, 6], 1⟩
  let words := Binding.text (.parse "{{a}} {{b}}") ⟨0, 2⟩ 0
  let word := Binding.text (.parse "{{d}}") ⟨0, 4⟩ 0
  let field := Binding.value .input ⟨0, 5⟩ ⟨"c"⟩ 0
  have hlives : t.Lives 1 (u.document 0) made u w :=
    Scene.lives_compile callDepth source before later "s" ⟨false, "#r", []⟩ "m" [] true
      (by decide +kernel) (by decide +kernel) (by decide +kernel) (by decide +kernel)
      (by decide +kernel) (by decide +kernel)
  have hlaw := gated_view_follows_model callDepth source
    (before ++ .template (.compile "s" ⟨false, "#r", []⟩ "m" [] true) :: later)
    t 1 (u.document 0) made u hlives
  refine ⟨?_, ?_, ?_⟩
  · obtain ⟨effect, heffect, htext, -⟩ := hlaw 3 (by decide)
    obtain ⟨howns, hsort, hleft, hquiet, hready, hrender⟩ :
        (∀ effect ∈ w.effects[3]?, words.Owns effect) ∧ (w.document 0).sort 2 = .text ∧
        w.IsLeftTo .text ⟨0, 2⟩ made.effects u ∧ u.moment.Quiet ⟨0, 2⟩ w ∧
        words.Ready u.moment w ∧ words.shows w.store = .ok "1 3" := by decide +kernel
    obtain ⟨hreaction, -, -⟩ := howns effect heffect
    obtain ⟨-, hshown⟩ := htext _ _ hreaction hsort hleft
    -- The first value comes back while another text is shown, but the effect of the second
    -- placeholder gets a value later.
    have hcalm : words.Undisturbed u.moment w :=
      undisturbed_of_forall (by decide +kernel)
    exact Except.ok.inj (((hshown hquiet hready).1.2 hcalm).symm.trans hrender)
  · obtain ⟨effect, heffect, htext, -⟩ := hlaw 5 (by decide)
    obtain ⟨howns, hsort, hleft, hquiet, hready, hsingle, hrender⟩ :
        (∀ effect ∈ w.effects[5]?, word.Owns effect) ∧ (w.document 0).sort 4 = .text ∧
        w.IsLeftTo .text ⟨0, 4⟩ made.effects u ∧ u.moment.Quiet ⟨0, 4⟩ w ∧
        word.Ready u.moment w ∧ word.needs.length = 1 ∧ word.shows w.store = .ok "1" := by
      decide +kernel
    obtain ⟨hreaction, -, -⟩ := howns effect heffect
    obtain ⟨-, hshown⟩ := htext _ _ hreaction hsort hleft
    exact Except.ok.inj (((hshown hquiet hready).2 hsingle).symm.trans hrender)
  · obtain ⟨effect, heffect, -, hinput⟩ := hlaw 6 (by decide)
    obtain ⟨howns, hleft, hquiet, hready, htyped⟩ : (∀ effect ∈ w.effects[6]?, field.Owns effect) ∧
        w.IsLeftTo .input ⟨0, 5⟩ [6] u ∧ u.moment.Quiet ⟨0, 5⟩ w ∧
        field.Ready u.moment w ∧ field.shows w.store = .ok "n" := by decide +kernel
    obtain ⟨hreaction, hpath, -⟩ := howns effect heffect
    rw [hpath] at hinput
    -- Nothing comes back: the typed text and what the callback makes of it are both new.
    have hcalm : field.Undisturbed u.moment w :=
      undisturbed_of_forall (by decide +kernel)
    obtain ⟨v, hv, hshown⟩ := (hinput ⟨0, 5⟩ hreaction hleft hquiet hready).2 hcalm
    obtain ⟨v', hv', hdisplay⟩ := exists_of_shows_value htyped
    obtain rfl := Except.ok.inj (hv.symm.trans hv')
    exact hshown.trans hdisplay

/-- Views that stay behind. First user code that is notified of a new value writes another path of
the text and then takes the value back: the text has been shown with the new value, and the effect
of its path is visited when the old value is there again. A typed text that is taken back stays in
the input for the same reason. Then, without user code, a container is replaced, a value is typed
into the new one, and the old one is put back. -/
theorem gated_view_stays_behind :
    (let source := "<div id=r>{{a}} {{b}}<input v-model=c></div>"
    let before : List Step := [
      .model (.create "m" (.object [("a", .text "1"), ("b", .text "1"), ("c", .text "x")])),
      .effect (.create "i" "m" ⟨"a"⟩ false
        (.run (.model (.set "m" ⟨"b"⟩ (.plain (.text "2"))))
          (.run (.model (.set "m" ⟨"a"⟩ (.plain (.text "1")))) .done))),
      .effect (.create "k" "m" ⟨"c"⟩ false
        (.run (.model (.set "m" ⟨"c"⟩ (.plain (.text "x")))) .done))]
    let later : List Step := [
      .model (.set "m" ⟨"a"⟩ (.plain (.text "2"))),
      .document (.typeInto ⟨false, "#r", [1]⟩ "y")]
    let u := Scene.after callDepth (Scene.start source) before
    let w := Scene.after callDepth (Scene.start source)
      (before ++ .template (.compile "s" ⟨false, "#r", []⟩ "m" [] true) :: later)
    let t : Setting Script := ⟨0, 0, .ofList [], true⟩
    let words := Binding.text (.parse "{{a}} {{b}}") ⟨0, 2⟩ 0
    let field := Binding.value .input ⟨0, 3⟩ ⟨"c"⟩ 0
    t.Lives 1 (u.document 0) ⟨[2, 3, 4], 1⟩ u w ∧
    ((∀ e ∈ [2, 3], ∃ effect ∈ w.effects[e]?, words.Owns effect) ∧
      w.IsLeftTo .text ⟨0, 2⟩ [2, 3, 4] u ∧ u.moment.Quiet ⟨0, 2⟩ w ∧ words.Ready u.moment w ∧
      words.shows w.store = .ok "1 2" ∧ (w.document 0).text 2 = "2 2") ∧
    (∃ effect ∈ w.effects[4]?, field.Owns effect) ∧
      w.IsLeftTo .input ⟨0, 3⟩ [4] u ∧ u.moment.Quiet ⟨0, 3⟩ w ∧ field.Ready u.moment w ∧
      field.shows w.store = .ok "x" ∧ (w.document 0).inputValue 3 = "y") ∧
    (let source := "<div id=r>{{a.x}} {{b}}<input v-model=a.x></div>"
    let before : List Step := [
      .model (.create "m" (.object [("a", .object [("x", .text "1")]), ("b", .text "1")])),
      .model (.create "n" (.object [("a", .null)])),
      .model (.set "n" ⟨"a"⟩ (.model "m" (some ⟨"a"⟩)))]
    let later : List Step := [
      .model (.set "m" ⟨"a"⟩ (.plain (.object [("x", .text "1")]))),
      .document (.typeInto ⟨false, "#r", [1]⟩ "3"),
      .model (.set "m" ⟨"b"⟩ (.plain (.text "4"))),
      .model (.set "m" ⟨"a"⟩ (.model "n" (some ⟨"a"⟩)))]
    let u := Scene.after callDepth (Scene.start source) before
    let w := Scene.after callDepth (Scene.start source)
      (before ++ .template (.compile "s" ⟨false, "#r", []⟩ "m" [] true) :: later)
    let t : Setting Script := ⟨0, 1, .ofList [], true⟩
    let words := Binding.text (.parse "{{a.x}} {{b}}") ⟨0, 2⟩ 1
    let field := Binding.value .input ⟨0, 3⟩ ⟨"a.x"⟩ 1
    t.Lives 1 (u.document 0) ⟨[0, 1, 2], 1⟩ u w ∧
    ((∀ e ∈ [0, 1], ∃ effect ∈ w.effects[e]?, words.Owns effect) ∧
      w.IsLeftTo .text ⟨0, 2⟩ [0, 1, 2] u ∧ u.moment.Quiet ⟨0, 2⟩ w ∧ words.Ready u.moment w ∧
      words.shows w.store = .ok "1 4" ∧ (w.document 0).text 2 = "3 4") ∧
    (∃ effect ∈ w.effects[2]?, field.Owns effect) ∧
      w.IsLeftTo .input ⟨0, 3⟩ [2] u ∧ u.moment.Quiet ⟨0, 3⟩ w ∧ field.Ready u.moment w ∧
      field.shows w.store = .ok "1" ∧ (w.document 0).inputValue 3 = "3") := by
  refine ⟨?_, ?_⟩
  · intro source before later u w t words field
    exact ⟨Scene.lives_compile callDepth source before later "s" ⟨false, "#r", []⟩ "m" [] true
      (by decide +kernel) (by decide +kernel) (by decide +kernel) (by decide +kernel)
      (by decide +kernel) (by decide +kernel), by decide +kernel⟩
  · intro source before later u w t words field
    exact ⟨Scene.lives_compile callDepth source before later "s" ⟨false, "#r", []⟩ "m" [] true
      (by decide +kernel) (by decide +kernel) (by decide +kernel) (by decide +kernel)
      (by decide +kernel) (by decide +kernel), by decide +kernel⟩

end LiveBinding
