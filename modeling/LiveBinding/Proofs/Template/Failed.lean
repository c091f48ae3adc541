import LiveBinding.Proofs.Lifetime.Dropped
import LiveBinding.Proofs.Template.Root

/-!
# What a failed compilation leaves

A compilation ends with the fault of the first directive or placeholder that fails. By then it may
have taken nodes out, changed attributes and texts, and constructed effects. The nodes are put back
all the same, and nobody gets the effects: they are dead, so they never react to anything.

## Key results

- `Setting.dead_of_compile`: the effects of a failed compilation are dead
- `Setting.compile_fails`: what a failed compilation leaves, now and later
-/

namespace LiveBinding

open Act Relation World

namespace Setting

/-- Nobody keeps the effects that a failed compilation has constructed. -/
theorem dead_of_compile {σ : Type} {t : Setting σ} {w w' : World σ} {root : NodeId} {f : Fault}
    (hw : w.Sound) (h : (t.compile root).runOn w = (.error f, w')) {e : EffectId}
    (hle : w.effects.size ≤ e) (hlt : e < w'.effects.size) : w'.Dead e := by
  have hbuilds : Builds w.effects.size .empty w ((t.compile root).runOn w) :=
    builds_compile w.effects.size root (Nat.le_refl _)
  rw [h] at hbuilds
  -- The owners are those that there were before, and these have nothing but older effects.
  have halive : w'.isAlive e = w.isAlive e := isAlive_of_eq hbuilds.names_eq
    hbuilds.viewModels_eq hbuilds.grows.passes_eq hbuilds.grows.receivers_eq e
  refine ⟨hlt, Bool.eq_false_iff.2 fun h' => ?_⟩
  exact Nat.not_lt.2 hle (hw.lt_size (halive.symm.trans h'))

/-- A failed compilation leaves the nodes in place and nothing alive. No value of the model
changes, and no node but those below the root, which keeps its children. The fault is the first one
on the walk over the template. The effects that were constructed before it are dead, and wherever a
run gets from there, they stay dead and do not receive a value: no write, nor anything else, runs
them. A write to a cell that nothing else watches changes no document. -/
theorem compile_fails (t : Setting Script) (root : NodeId) (w w' : SceneWorld)
    (d : Document (Listener Script)) (f : Fault) (hd : w.documents[t.document]? = some d)
    (hc : d.Consistent) (ha : d.Acyclic) (hw : w.Sound)
    (h : (t.compile root).runOn w = (.error f, w')) (hf : f ≠ .exhausted) :
    w.store.SameData w'.store ∧ (∀ i, i ≠ t.document → w'.documents[i]? = w.documents[i]?) ∧
    (∃ d', w'.documents[t.document]? = some d' ∧
      d'.content? root = d.content? root ∧ d'.children root = d.children root ∧
      (∀ c ∈ d.children root, d'.parent? c = some root) ∧
      ∀ m, m < d.size → ¬ TransGen d.HasChild root m → d'.nodes[m]? = d.nodes[m]?) ∧
    (∀ f', t.Fails w.store (d.innerMarkup root) f' ↔ f' = f) ∧
    ∀ u depth later, ReflTransGen Move w' u → let v := Scene.after depth u later
      (∀ e, w.effects.size ≤ e → e < w'.effects.size →
        v.isAlive e = false ∧ v.effects[e]? = w'.effects[e]?) ∧
      ∀ limit c x, let v' := ((setCell (Script.invoke limit) c x).runOn v).2
        (∀ e, w.effects.size ≤ e → e < w'.effects.size → v'.effects[e]? = w'.effects[e]?) ∧
        ((∀ e ∈ v.store.watchers c, w.effects.size ≤ e ∧ e < w'.effects.size) →
          v'.documents = v.documents) := by
  obtain ⟨d', hyields, hworked, hfails, -⟩ :=
    below_compile hd hc ha h fun heq => hf (Except.error.inj heq)
  have hfault : t.Fails w.store (d.innerMarkup root) f := hfails f rfl
  refine ⟨hyields.sameData, hyields.others, ⟨d', hyields.document, hworked.self,
    hworked.children_eq, hworked.parent_eq, hworked.outside⟩,
    fun f' => ⟨fun hf' => hf'.unique hfault, fun heq => heq ▸ hfault⟩, fun u depth later hu => ?_⟩
  intro v
  have hmoves : ReflTransGen Move w' v := hu.trans (Scene.evolves_after depth u later).moves
  have hdead (e : EffectId) (hle : w.effects.size ≤ e) (hlt : e < w'.effects.size) :
      v.Dead e ∧ v.effects[e]? = w'.effects[e]? :=
    (dead_of_compile hw h hle hlt).of_moves hmoves
  refine ⟨fun e hle hlt => ?_, fun limit c x => ⟨fun e hle hlt => ?_, fun hwatchers => ?_⟩⟩
  · obtain ⟨he, heffect⟩ := hdead e hle hlt
    exact ⟨he.isAlive_eq, heffect⟩
  · obtain ⟨he, heffect⟩ := hdead e hle hlt
    have hwrite := (follows_setCell (invoke_evolves limit) c x v).moves
    exact (he.of_moves hwrite).2.trans heffect
  · have hnone : v.liveWatchers c = [] := by
      refine List.eq_nil_iff_forall_not_mem.2 fun e he => ?_
      obtain ⟨hle, hlt⟩ := hwatchers e (List.mem_filter.1 he).1
      exact (hdead e hle hlt).1.notMem_liveWatchers c he
    obtain ⟨b, v', hset, hdocuments⟩ :
        ∃ b v', (setCell (Script.invoke limit) c x).runOn v = (.ok b, v') ∧
          v'.documents = v.documents := runOn_setCell_of_liveWatchers_eq_nil hnone x
    rw [hset]
    exact hdocuments

/-- An attribute and a text are bound before an unknown directive ends the compilation. They are
not written any more. -/
theorem compile_fails_unknown :
    let w := Scene.after callDepth (Scene.start
      "<div id=r><p :title=a>{{a}}</p><b v-foo=a></b></div>") [
      .model (.create "m" (.object [("a", .text "x")]))]
    let t : Setting Script := ⟨0, 0, .empty, false⟩
    let w' := ((t.compile 1).runOn w).2
    (w'.document 0).innerHtml 1 = "<p title=\"x\">x</p><b v-foo=\"a\"></b>" ∧
      (w'.document 0).children 1 = (w.document 0).children 1 ∧ w'.store.watchers 0 = [0, 1] ∧
      ((setCell (Script.invoke callDepth) 0 (.text "y")).runOn w').2.documents = w'.documents := by
  intro w t w'
  have hrun : (t.compile 1).runOn w = (.error (.unknownDirective "foo"), w') :=
    Prod.ext (by decide +kernel) rfl
  obtain ⟨-, -, ⟨d', hd', -, hchildren, -⟩, -, hlater⟩ := compile_fails t 1 w w' (w.document 0) _
    rfl (.of_forall_lt (by decide +kernel) (by decide +kernel)) (.of_forall_lt (by decide +kernel))
    (Scene.sound_after callDepth _ _) hrun (by simp)
  obtain rfl : w'.document 0 = d' := document_eq hd'
  have hwatchers : w'.store.watchers 0 = [0, 1] := by decide +kernel
  have hmade : ∀ e ∈ w'.store.watchers 0, w.effects.size ≤ e ∧ e < w'.effects.size := by
    decide +kernel
  exact ⟨by decide +kernel, hchildren, hwatchers,
    ((hlater w' callDepth [] .refl).2 callDepth 0 (.text "y")).2 hmade⟩

end Setting

end LiveBinding
