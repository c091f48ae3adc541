import LiveBinding.Proofs.View.Compiled
import LiveBinding.Proofs.View.Current

/-!
# The view follows the model

Where a template lives that was compiled without a gate, its texts, attributes and inputs show the
values of now, after every step of every run. What is asked of a place is that nobody else shows
something in it, and of the run since the compilation that no fault has ended a pass or a dispatch
and nobody has changed the node by hand.

## Key results

- `view_follows_model`: the law of runs
-/

namespace LiveBinding

open World Binding

/-- The law of runs without a gate. A template was compiled, at any moment of a run, and its scope
is alive. Each of its effects shows something on a node. If nobody else does so in the same place,
and if since the compilation no fault has ended a pass or a dispatch and nobody has changed the node
by hand, then what is ready shows the values of now: a text is its template with all placeholders
filled in, an attribute and the value of an input are the text of the value. The template of a text
is what the text was before the compilation. -/
theorem view_follows_model (depth : Nat) (source : String) (steps : List Step) :
    let w := Scene.after depth (Scene.start source) steps
    ∀ (t : Setting Script) (root : NodeId) (d : Document (Listener Script)) (made : Scope)
      (u : SceneWorld), t.Lives root d made u w → t.gated = false →
      ∀ e ∈ made.effects, ∃ effect, w.effects[e]? = some effect ∧
        (∀ template node, effect.reaction = .render template node →
          (w.document node.document).sort node.node = .text →
          w.IsLeftTo .text node made.effects u →
            (∀ c, d.content? node.node = some (.text c) → template = .parse c) ∧
            (u.moment.Quiet node w → (text template node t.model).Ready u.moment w →
              Interpolation.render (fun p => (w.store.get p t.model).map w.store.display)
                template.segments = .ok ((w.document node.document).text node.node))) ∧
        (∀ name node, effect.reaction = .display (.attr name) node →
          Directive.parse? name = .ok none → w.IsLeftTo (.attr name) node [e] u →
          u.moment.Quiet node w →
          (value (.attr name) node effect.path t.model).Ready u.moment w →
            ∃ v, w.store.get effect.path t.model = .ok v ∧
              ((w.document node.document).attributes node.node).get? name =
                some (w.store.display v)) ∧
        ∀ node, effect.reaction = .display .input node → w.IsLeftTo .input node [e] u →
          u.moment.Quiet node w → (value .input node effect.path t.model).Ready u.moment w →
            ∃ v, w.store.get effect.path t.model = .ok v ∧
              (w.document node.document).inputValue node.node = w.store.display v := by
  intro w t root d made u hlives hgated e he
  obtain ⟨-, effect, -, heffect, -⟩ := hlives.exists_effect he
  -- The effects in a place that is left to the template have no gate.
  have hungated (b : Binding) (es : List EffectId) (hes : es ⊆ made.effects)
      (hleft : w.IsLeftTo b.sink b.node es u) : b.Ungated u.moment w :=
    fun f record hin => (hlives.gated_eq hes hleft hin).trans hgated
  refine ⟨effect, heffect, fun template node hreaction hsort hleft => ?_,
    fun name node hreaction hname hleft hquiet hready => ?_,
    fun node hreaction hleft hquiet hready => ?_⟩
  · obtain ⟨hbound, hne, htemplate⟩ := hlives.text he heffect hreaction hsort hleft
    refine ⟨htemplate, fun hquiet hready => ?_⟩
    obtain ⟨x, hx, hdisplay⟩ := Scene.displays_of_ungated (b := text template node t.model) trivial
      hne rfl (hlives.holds (List.Subset.refl _) hleft hquiet hbound.owns)
      (hungated _ _ (List.Subset.refl _) hleft) hready
    exact hx.trans (congrArg Except.ok (hdisplay.text_eq hsort).symm)
  · obtain ⟨x, hx, hdisplay⟩ := Scene.displays_of_ungated
      (b := value (.attr name) node effect.path t.model) hname (List.cons_ne_nil _ _) rfl
      (hlives.holds_value he heffect hreaction hleft hquiet)
      (hungated _ _ (by simpa using he) hleft) hready
    obtain ⟨v, hv, rfl⟩ := exists_of_shows_value hx
    exact ⟨v, hv, hdisplay.attribute_eq⟩
  · obtain ⟨x, hx, hdisplay⟩ := Scene.displays_of_ungated
      (b := value .input node effect.path t.model) trivial (List.cons_ne_nil _ _) rfl
      (hlives.holds_value he heffect hreaction hleft hquiet)
      (hungated _ _ (by simpa using he) hleft) hready
    obtain ⟨v, hv, rfl⟩ := exists_of_shows_value hx
    exact ⟨v, hv, hdisplay.inputValue_eq⟩

/-- A template with an attribute, a text of two placeholders and an input. The first compilation
faults, since the attribute has no value yet, and leaves an effect that is dead. The second one
gives a scope, and then values are written and a text is typed. -/
theorem view_written_typed :
    let source := "<div id=r><i :title=a.b></i><p>{{c}} {{e}}</p><input v-model=e></div>"
    let before : List Step := [
      .model (.create "m" (.object [("a", .null), ("c", .text "1"), ("e", .text "2")])),
      .template (.compile "s" ⟨false, "#r", []⟩ "m" [] false),
      .model (.set "m" ⟨"a"⟩ (.plain (.object [("b", .text "x")])))]
    let later : List Step := [
      .model (.set "m" ⟨"a.b"⟩ (.plain (.text "z"))),
      .model (.set "m" ⟨"c"⟩ (.plain (.text "3"))),
      .document (.typeInto ⟨false, "#r", [2]⟩ "4")]
    let u := Scene.after callDepth (Scene.start source) before
    let w := Scene.after callDepth (Scene.start source)
      (before ++ .template (.compile "s" ⟨false, "#r", []⟩ "m" [] false) :: later)
    ((u.effects[0]?).bind Effect.place? = some (.attr "title", ⟨0, 2⟩) ∧ u.isAlive 0 = false) ∧
      ((w.document 0).attributes 2).get? "title" = some "z" ∧ (w.document 0).text 4 = "3 4" ∧
      (w.document 0).inputValue 5 = "4" := by
  intro source before later u w
  let t : Setting Script := ⟨0, 0, .ofList [], false⟩
  let made : Scope := ⟨[1, 2, 3, 4], 1⟩
  have hlives : t.Lives 1 (u.document 0) made u w :=
    Scene.lives_compile callDepth source before later "s" ⟨false, "#r", []⟩ "m" [] false
      (by decide +kernel) (by decide +kernel) (by decide +kernel) (by decide +kernel)
      (by decide +kernel) (by decide +kernel)
  have hlaw := view_follows_model callDepth source
    (before ++ .template (.compile "s" ⟨false, "#r", []⟩ "m" [] false) :: later)
    t 1 (u.document 0) made u hlives rfl
  let title := value (.attr "title") ⟨0, 2⟩ ⟨"a.b"⟩ 0
  let words := Binding.text (.parse "{{c}} {{e}}") ⟨0, 4⟩ 0
  let field := value .input ⟨0, 5⟩ ⟨"e"⟩ 0
  refine ⟨by decide +kernel, ?_, ?_, ?_⟩
  · -- The attribute has a dead effect too, from the first compilation.
    obtain ⟨effect, heffect, -, hattribute, -⟩ := hlaw 1 (by decide)
    obtain ⟨howns, hleft, hquiet, hready, hz⟩ : (∀ effect ∈ w.effects[1]?, title.Owns effect) ∧
        w.IsLeftTo (.attr "title") ⟨0, 2⟩ [1] u ∧ u.moment.Quiet ⟨0, 2⟩ w ∧
        title.Ready u.moment w ∧ title.shows w.store = .ok "z" := by decide +kernel
    obtain ⟨hreaction, hpath, -⟩ := howns effect heffect
    rw [hpath] at hattribute
    obtain ⟨v, hv, hshown⟩ := hattribute "title" ⟨0, 2⟩ hreaction rfl hleft hquiet hready
    obtain ⟨v', hv', hdisplay⟩ := exists_of_shows_value hz
    obtain rfl := Except.ok.inj (hv.symm.trans hv')
    exact hshown.trans (congrArg some hdisplay)
  · obtain ⟨effect, heffect, htext, -, -⟩ := hlaw 2 (by decide)
    obtain ⟨howns, hsort, hleft, hquiet, hready, hrender⟩ :
        (∀ effect ∈ w.effects[2]?, words.Owns effect) ∧ (w.document 0).sort 4 = .text ∧
        w.IsLeftTo .text ⟨0, 4⟩ made.effects u ∧ u.moment.Quiet ⟨0, 4⟩ w ∧
        words.Ready u.moment w ∧ words.shows w.store = .ok "3 4" := by decide +kernel
    obtain ⟨hreaction, -, -⟩ := howns effect heffect
    obtain ⟨-, hshown⟩ := htext _ _ hreaction hsort hleft
    exact Except.ok.inj ((hshown hquiet hready).symm.trans hrender)
  · obtain ⟨effect, heffect, -, -, hinput⟩ := hlaw 4 (by decide)
    obtain ⟨howns, hleft, hquiet, hready, htyped⟩ : (∀ effect ∈ w.effects[4]?, field.Owns effect) ∧
        w.IsLeftTo .input ⟨0, 5⟩ [4] u ∧ u.moment.Quiet ⟨0, 5⟩ w ∧
        field.Ready u.moment w ∧ field.shows w.store = .ok "4" := by decide +kernel
    obtain ⟨hreaction, hpath, -⟩ := howns effect heffect
    rw [hpath] at hinput
    obtain ⟨v, hv, hshown⟩ := hinput ⟨0, 5⟩ hreaction hleft hquiet hready
    obtain ⟨v', hv', hdisplay⟩ := exists_of_shows_value htyped
    obtain rfl := Except.ok.inj (hv.symm.trans hv')
    exact hshown.trans hdisplay

end LiveBinding
