import LiveBinding.Proofs.Act.Compile
import LiveBinding.Proofs.Advance.Scene
import LiveBinding.Proofs.Template.Shown
import LiveBinding.Proofs.View.Place

/-!
# What a compilation binds

A successful compilation constructs effects for nodes below its root, all of them for its model and
with its gate. It visits each node once, so what is constructed for the place of a text is one
effect for each path of one template: that of the text that was there. As long as the scope is alive
and nobody else shows something in such a place, the place is left to this template.

## Key definitions

- `Setting.Serves`: an effect of a compilation
- `Binding.Bound`: the effects in a place are those of a binding, one for each path
- `Setting.Lives`: a template was compiled, and its scope is alive
- `World.IsLeftTo`: nobody else shows something in a place

## Key results

- `Setting.Walks.installs`, `Setting.Walks.mem_or`: what a walk constructs, and where
- `Setting.Walks.bound`: the places of texts are bound
- `Setting.Lives.text`, `Setting.Lives.holds_value`: the places of a template that lives
- `Scene.lives_compile`: a request that compiles a template makes it live
-/

namespace LiveBinding

variable {σ : Type}

open World

/-! ### Effects that are constructed -/

namespace World

/-- Effects that were there stay as they are, and those that are new have a property. -/
structure Installs (P : Effect σ → Prop) (w w' : World σ) : Prop where
  size_le : w.effects.size ≤ w'.effects.size
  effects_eq : ∀ e, e < w.effects.size → w'.effects[e]? = w.effects[e]?
  of_new : ∀ e effect, w.effects.size ≤ e → w'.effects[e]? = some effect → P effect

variable {P Q : Effect σ → Prop} {w w' : World σ}

instance : IsPreorder (World σ) (Installs P) where
  refl w := ⟨Nat.le_refl _, fun _ _ => rfl, fun _ _ hle he =>
    absurd (lt_size_of_effect he) (Nat.not_lt.2 hle)⟩
  trans w w₁ w' h h' := by
    refine ⟨Nat.le_trans h.size_le h'.size_le, fun e he => ?_, fun e effect hle he => ?_⟩
    · rw [h'.effects_eq e (Nat.lt_of_lt_of_le he h.size_le), h.effects_eq e he]
    · by_cases hlt : e < w₁.effects.size
      · rw [h'.effects_eq e hlt] at he
        exact h.of_new e effect hle he
      · exact h'.of_new e effect (Nat.le_of_not_lt hlt) he

theorem Installs.mono (h : w.Installs P w') (hPQ : ∀ effect, P effect → Q effect) :
    w.Installs Q w' :=
  ⟨h.size_le, h.effects_eq, fun e effect hle he => hPQ effect (h.of_new e effect hle he)⟩

theorem installs_of_eq (h : w'.effects = w.effects) : w.Installs P w' := by
  refine ⟨Nat.le_of_eq (by rw [h]), fun e _ => by rw [h], fun e effect hle he => ?_⟩
  rw [h] at he
  exact absurd (lt_size_of_effect he) (Nat.not_lt.2 hle)

/-- A construction. -/
theorem installs_construct {path : KeyPath} {root : MappingId} {gated : Bool}
    {reaction : Reaction σ} (w : World σ) (h : P (w.record path root gated reaction)) :
    w.Installs P (w.construct path root gated reaction) := by
  refine ⟨by simp, fun e he => ?_, fun e effect hle he => ?_⟩
  · rw [effects_construct, if_neg (Nat.ne_of_lt he)]
  · rw [effects_construct] at he
    split at he
    · obtain rfl := Option.some.inj he
      exact h
    · exact absurd (lt_size_of_effect he) (Nat.not_lt.2 hle)

end World

namespace Setting

open Act

/-- The effect shows something of the model on the node. -/
structure Serves (t : Setting σ) (n : NodeId) (effect : Effect σ) : Prop where
  root_eq : effect.root = t.model
  gated_eq : effect.gated = t.gated
  exists_place : ∃ sink, effect.place? = some (sink, ⟨t.document, n⟩)

variable {t : Setting σ} {w w' w₁ : World σ} {d d₁ : Document (Listener σ)}
  {scope made : Scope} {n : NodeId} {ns fp visited : List NodeId} {ms : List Markup}
  {r : Except Fault Scope}

/-- What is constructed for a node serves it. -/
theorem writes_installs {P : Effect σ → Prop} (hP : ∀ effect, t.Serves n effect → P effect) :
    t.Writes (Installs P) n where
  display path sink w := by
    rw [runOn_newEffect]
    exact installs_construct w (hP _ ⟨rfl, rfl, sink, rfl⟩)
  render path template w := by
    rw [runOn_newEffect]
    exact installs_construct w (hP _ ⟨rfl, rfl, .text, rfl⟩)
  shows w sink s := installs_of_eq rfl
  method f _ w event := installs_of_eq rfl
  writeBack w expression := installs_of_eq rfl
  remove w name := installs_of_eq rfl

/-- What is constructed while a node is compiled serves it. -/
theorem installs_compileNode (h : (t.compileNode scope n).runOn w = (r, w')) :
    w.Installs (t.Serves n) w' := by
  have hwrites : t.Writes (Installs (t.Serves n)) n := writes_installs fun _ => id
  have hnode := hwrites.follows_compileNode scope w
  rwa [h] at hnode

/-- What a compilation constructs serves nodes. -/
theorem installs_compile {root : NodeId} (h : (t.compile root).runOn w = (r, w')) :
    w.Installs (fun effect => ∃ n, t.Serves n effect) w' := by
  have hcompile : Follows (Installs fun effect => ∃ n, t.Serves n effect) (t.compile root) :=
    follows_compile (fun n => writes_installs fun _ hserves => ⟨n, hserves⟩)
      (fun _ => installs_of_eq rfl) fun _ _ => installs_of_eq rfl
  have hroot := hcompile w
  rwa [h] at hroot

/-- What a walk constructs serves the nodes that it visits. -/
theorem Walks.installs (h : t.Walks w scope ns visited r w') :
    w.Installs (fun effect => ∃ n ∈ visited, t.Serves n effect) w' := by
  induction h with
  | done w => exact refl w
  | @fault w w' scope n ns f h =>
    exact (installs_compileNode h).mono fun _ hserves => ⟨n, List.mem_singleton_self n, hserves⟩
  | @node w w₁ w' scope made n ns visited r h _ ih =>
    refine IsTrans.trans _ w₁ _
      ((installs_compileNode h).mono fun _ hserves => ⟨n, List.mem_cons_self .., hserves⟩)
      (ih.mono ?_)
    rintro effect ⟨m, hm, hserves⟩
    exact ⟨m, List.mem_cons_of_mem n hm, hserves⟩

/-- A walk visits the nodes of the template and new nodes. -/
theorem Walks.mem_or (h : t.Walks w scope ns visited r w') (hr : r = .ok made)
    (hd : w.documents[t.document]? = some d) (hdepicts : d.Depicts ns ms fp) (hnodup : fp.Nodup) :
    ∀ n ∈ visited, n ∈ fp ∨ d.size ≤ n := by
  induction h generalizing d ms fp with
  | done => exact nofun
  | fault => cases hr
  | @node w w₁ w' scope made₁ first ns visited r hnode hrest ih =>
    obtain ⟨d₁, ms₁, fp₁, hstep, hfp⟩ := stepped_compileNode hd hdepicts hnodup hnode
    have hd₁ := hstep.yields.document
    rw [document_eq hd₁] at ih
    intro n hn
    rcases List.mem_cons.1 hn with rfl | hn
    · exact .inl (hdepicts.mem_of_reflTransGen (List.mem_cons_self ..) .refl)
    · rcases ih hr hd₁ hstep.depicts hstep.nodup n hn with hn | hn
      · exact hfp n hn
      · exact .inr (Nat.le_trans hstep.frames.size_le hn)

/-- A compilation that gives a scope is a walk over nodes that depict a template. -/
theorem exists_walks {root : NodeId} (hd : w.documents[t.document]? = some d) (hc : d.Consistent)
    (h : (t.compile root).runOn w = (.ok made, w')) :
    ∃ w₀ w₁ ms fp visited, w₀ = w.modifyDocument t.document (·.detachChildren root) ∧
      t.Walks w₀ .empty (d.children root) visited (.ok made) w₁ ∧
      w' = w₁.modifyDocument t.document (·.appendChildren root (d.children root)) ∧
      w₀.documents[t.document]? = some (d.detachChildren root) ∧
      (d.detachChildren root).Depicts (d.children root) ms fp ∧ fp.Nodup := by
  rw [runOn_compile hd] at h
  obtain ⟨hmade, rfl⟩ := Prod.mk.inj h
  generalize hwalk : ((d.children root).foldlM (t.walk (rounds w.store)) Scope.empty).runOn
    (w.modifyDocument t.document (·.detachChildren root)) = ended at hmade ⊢
  obtain ⟨r, w₁⟩ := ended
  obtain rfl : r = .ok made := hmade
  obtain ⟨visited, hwalks⟩ := walks_foldlM (isWalk_walk t _) hwalk nofun
  -- The children have no parents now, so there are no cycles below them, wherever the root lies.
  have hlt (c : NodeId) (hmem : c ∈ d.children root) : c < d.size :=
    Document.lt_size_of_parent? (hc.mem_children_iff.1 hmem)
  obtain ⟨fp, htrees, hnodup, -⟩ := (hc.detachChildren root).exists_treeAll_of_orphans
    (hc.nodup_children root) fun c hmem =>
      ⟨by rw [Document.size_detachChildren]; exact hlt c hmem,
        Document.parent?_detachChildren hmem (hlt c hmem)⟩
  obtain ⟨ms, hdepicts⟩ := htrees.exists_depicts
  refine ⟨_, w₁, ms, fp, visited, rfl, hwalks, rfl, ?_, hdepicts, hnodup⟩
  rw [documents_modifyDocument, if_pos rfl, hd]
  rfl

end Setting

/-! ### Places that are bound -/

namespace Binding

/-- Since a moment, the effects that were constructed for the place are those of the binding, one
for each path. -/
structure Bound (b : Binding) (s : Moment) (effects : Array (Effect σ)) : Prop where
  owns : ∀ e effect, b.IsIn s effects e effect → b.Owns effect
  eq_of_path_eq : ∀ e f effect record, b.IsIn s effects e effect → b.IsIn s effects f record →
    effect.path = record.path → e = f

variable {b : Binding} {s s' : Moment} {effects effects' : Array (Effect σ)}

/-- Nothing was constructed. -/
theorem bound_of_size_le (h : effects.size ≤ s.size) : b.Bound s effects := by
  have hnone (e : EffectId) (effect : Effect σ) : ¬ b.IsIn s effects e effect := fun hin =>
    Nat.not_lt.2 (Nat.le_trans h hin.size_le) hin.lt_size
  exact ⟨fun e effect hin => (hnone e effect hin).elim,
    fun e _ effect _ hin => (hnone e effect hin).elim⟩

/-- The place has no other effects, and these remember other values. -/
theorem Bound.of_isIn (h : b.Bound s effects)
    (hin : ∀ e effect, b.IsIn s' effects' e effect →
      ∃ m, b.IsIn s effects e { effect with memory := m }) : b.Bound s' effects' where
  owns e effect he := by
    obtain ⟨m, he'⟩ := hin e effect he
    have howns := h.owns e _ he'
    cases b <;> exact howns
  eq_of_path_eq e f effect record he hf hpath := by
    obtain ⟨m, he'⟩ := hin e effect he
    obtain ⟨m', hf'⟩ := hin f record hf
    exact h.eq_of_path_eq e f _ _ he' hf' hpath

end Binding

namespace Setting

variable {t : Setting σ} {w w' w₁ : World σ} {d d₁ : Document (Listener σ)}
  {scope made : Scope} {n root : NodeId} {ns fp visited : List NodeId} {ms : List Markup}
  {r : Except Fault Scope}

/-- An effect that serves a node is in the place of no other node. -/
theorem Serves.node_eq {b : Binding} {s : Moment} {effects : Array (Effect σ)} {e : EffectId}
    {effect : Effect σ} (h : t.Serves n effect) (hin : b.IsIn s effects e effect) :
    b.node = ⟨t.document, n⟩ := by
  obtain ⟨sink, hplace⟩ := h.exists_place
  exact (Prod.mk.inj (Option.some.inj (hin.place_eq.symm.trans hplace))).2

/-- A text with placeholders gives each of them an effect. -/
theorem bound_bindText {content : String} (hp : containsPlaceholder content.toList = true)
    (h : (t.bindText scope n content).runOn w = (.ok made, w')) :
    (Binding.text (.parse content) ⟨t.document, n⟩ t.model).Bound w.moment w'.effects := by
  obtain ⟨-, heffects⟩ := effects_bindText hp h
  -- The position of an effect gives its placeholder, and placeholders do not repeat.
  have hrecord (e : EffectId) (effect : Effect σ)
      (hin : (Binding.text (.parse content) ⟨t.document, n⟩ t.model).IsIn w.moment w'.effects e
        effect) :
      ∃ i p, e = w.effects.size + i ∧ (Interpolation.parse content).placeholders[i]? = some p ∧
        effect = w.record p t.model t.gated (.render (.parse content) ⟨t.document, n⟩) := by
    obtain ⟨i, rfl⟩ := Nat.exists_eq_add_of_le hin.size_le
    have heffect := hin.effect_eq
    rw [heffects, Array.getElem?_append_right hin.size_le, List.getElem?_toArray, moment,
      Nat.add_sub_cancel_left, List.getElem?_map, Option.map_eq_some_iff] at heffect
    obtain ⟨p, hp, rfl⟩ := heffect
    exact ⟨i, p, rfl, hp, rfl⟩
  refine ⟨fun e effect hin => ?_, fun e f effect record hin hinf hpath => ?_⟩
  · obtain ⟨i, p, -, hp, rfl⟩ := hrecord e effect hin
    exact ⟨rfl, List.mem_of_getElem? hp, rfl⟩
  · obtain ⟨i, p, rfl, hp, rfl⟩ := hrecord e effect hin
    obtain ⟨j, q, rfl, hq, rfl⟩ := hrecord f record hinf
    obtain rfl : p = q := hpath
    rw [(List.getElem?_inj (List.getElem?_eq_some_iff.1 hp).1
      (Interpolation.nodup_placeholders _)).1 (hp.trans hq.symm)]

/-- A node that is no element is bound to its text. -/
theorem bound_compileNode (hd : w.documents[t.document]? = some d)
    (hn : ¬ w.IsElement ⟨t.document, n⟩)
    (h : (t.compileNode scope n).runOn w = (.ok made, w')) :
    (Binding.text (.parse (d.text n)) ⟨t.document, n⟩ t.model).Bound w.moment w'.effects := by
  rw [compileNode, Act.runOn_bind, runOn_currentDocument hd] at h
  dsimp only at h
  split at h
  · rename_i hsort
    cases hc : d.content? n with
    | none => simp [Document.sort, hc] at hsort
    | some c =>
      cases c with
      | element e => exact absurd ⟨d, e, hd, hc⟩ hn
      | text s => simp [Document.sort, hc] at hsort
      | comment s => simp [Document.sort, hc] at hsort
  · split at h
    · rename_i hp
      exact bound_bindText hp h
    · obtain ⟨-, rfl⟩ := Prod.mk.inj h
      exact Binding.bound_of_size_le (Nat.le_refl _)
  · obtain ⟨-, rfl⟩ := Prod.mk.inj h
    exact Binding.bound_of_size_le (Nat.le_refl _)

/-- After a walk, the place of a node that is no element is bound to a template: that of the text of
the node, if this was there before the walk. -/
theorem Walks.bound (h : t.Walks w scope ns visited r w') (hr : r = .ok made)
    (hd : w.documents[t.document]? = some d) (hdepicts : d.Depicts ns ms fp) (hnodup : fp.Nodup)
    (hn : ¬ w'.IsElement ⟨t.document, n⟩) :
    ∃ template, (Binding.text template ⟨t.document, n⟩ t.model).Bound w.moment w'.effects ∧
      ∀ c, d.content? n = some (.text c) → template = .parse c := by
  induction h generalizing d ms fp with
  | done w =>
    exact ⟨.parse (d.text n), Binding.bound_of_size_le (Nat.le_refl _),
      fun c hc => by rw [Document.text_of_content? hc]⟩
  | fault => cases hr
  | @node w w₁ w' scope made₁ first ns visited r hnode hrest ih =>
    obtain ⟨d₁, ms₁, fp₁, hstep, -⟩ := stepped_compileNode hd hdepicts hnodup hnode
    have hd₁ := hstep.yields.document
    have hlater := hrest.installs
    by_cases heq : n = first
    · -- Only the compilation of the node fills its place, since the walk does not come to it again.
      subst heq
      have hwalk : t.Walks w scope (n :: ns) (n :: visited) r w' := .node hnode hrest
      rw [hr] at hwalk
      have hbound :=
        bound_compileNode hd (fun he => hn (hwalk.grows.1.documents.isElement he)) hnode
      refine ⟨_, hbound.of_isIn fun e effect hin => ⟨effect.memory, hin.size_le, ?_, hin.place_eq⟩,
        fun c hc => by rw [Document.text_of_content? hc]⟩
      by_cases hlt : e < w₁.effects.size
      · exact (hlater.effects_eq e hlt).symm.trans hin.effect_eq
      · obtain ⟨m, hm, hserves⟩ := hlater.of_new e effect (Nat.le_of_not_lt hlt) hin.effect_eq
        obtain rfl : n = m := congrArg NodeRef.node (hserves.node_eq hin)
        rw [document_eq hd₁] at hrest
        rcases hrest.mem_or hr hd₁ hstep.depicts hstep.nodup n hm with hfp | hnew
        · exact absurd hfp hstep.notMem
        · have hsize := hdepicts.lt_size n
            (hdepicts.mem_of_reflTransGen (List.mem_cons_self ..) .refl)
          exact absurd (Nat.lt_of_lt_of_le hsize hstep.frames.size_le) (Nat.not_lt.2 hnew)
    · -- The first node has its own place.
      rw [document_eq hd₁] at ih
      obtain ⟨template, hbound, htemplate⟩ := ih hr hd₁ hstep.depicts hstep.nodup hn
      refine ⟨template, hbound.of_isIn fun e effect hin =>
        ⟨effect.memory, Nat.le_of_not_lt fun hlt => ?_, hin.effect_eq, hin.place_eq⟩,
        fun c hc => htemplate c ?_⟩
      · have hserves := (installs_compileNode hnode).of_new e effect hin.size_le
          ((hlater.effects_eq e hlt).symm.trans hin.effect_eq)
        exact heq (congrArg NodeRef.node (hserves.node_eq hin))
      · rw [hstep.frames.content?_eq n (Document.lt_size_of_content? hc) heq, hc]

/-- After a compilation, the place of a node that is no element is bound to a template: that of the
text of the node, if this was there before. -/
theorem bound_compile (hd : w.documents[t.document]? = some d) (hc : d.Consistent)
    (h : (t.compile root).runOn w = (.ok made, w')) (hn : ¬ w'.IsElement ⟨t.document, n⟩) :
    ∃ template, (Binding.text template ⟨t.document, n⟩ t.model).Bound w.moment w'.effects ∧
      ∀ c, d.content? n = some (.text c) → template = .parse c := by
  obtain ⟨w₀, w₁, ms, fp, visited, rfl, hwalks, rfl, hd₀, hdepicts, hnodup⟩ := exists_walks hd hc h
  have happend : w₁.DocumentsKeep (fun _ _ => True)
      (w₁.modifyDocument t.document (·.appendChildren root (d.children root))) :=
    documentsKeep_modifyDocument w₁ _ fun d => Document.keeps_appendChildren d root _
  obtain ⟨template, hbound, htemplate⟩ :=
    hwalks.bound rfl hd₀ hdepicts hnodup fun he => hn (happend.isElement he)
  refine ⟨template, hbound, fun c hc => htemplate c ?_⟩
  -- Taking the children of the root out changes no text.
  have hdetach : d.Keeps (fun _ _ => False) (d.detachChildren root) :=
    Document.keeps_detachChildren d root
  obtain ⟨c', hc', hkeeps⟩ := hdetach n _ hc
  obtain ⟨x, rfl, hx⟩ := hkeeps.exists_text
  rw [hc', hx id]

end Setting

/-! ### Templates that live -/

/-- Every effect in a place is one of these, or was not alive any more in a world. -/
def World.IsLeftTo (w : World σ) (sink : Sink) (node : NodeRef) (es : List EffectId)
    (u : World σ) : Prop :=
  ∀ e effect, w.effects[e]? = some effect → effect.place? = some (sink, node) →
    e ∈ es ∨ u.Dead e

instance (w : World σ) (sink : Sink) (node : NodeRef) (es : List EffectId) (u : World σ) :
    Decidable (w.IsLeftTo sink node es u) :=
  decidable_of_iff
    (∀ e, e < w.effects.size → ∀ effect ∈ w.effects[e]?, effect.place? = some (sink, node) →
      e ∈ es ∨ e < u.effects.size ∧ u.isAlive e = false)
    ⟨fun h e effect he hp => (h e (lt_size_of_effect he) effect he hp).imp_right
        fun hdead => ⟨hdead.1, hdead.2⟩,
      fun h e _ effect he hp => (h e effect he hp).imp_right fun hdead => ⟨hdead.1, hdead.2⟩⟩

/-- The template below a node of a document was compiled in the world `u` and gave a scope. The run
has gone on to the world `w`, where the effects of the scope are alive. -/
structure Setting.Lives (t : Setting σ) (root : NodeId) (d : Document (Listener σ)) (made : Scope)
    (u w : World σ) : Prop where
  document : u.documents[t.document]? = some d
  consistent : d.Consistent
  compiled : ∃ u', (t.instantiate root).runOn u = (.ok made, u') ∧ u'.Continues w
  isAlive : ∀ e ∈ made.effects, w.isAlive e = true

namespace Setting.Lives

variable {t : Setting σ} {root n : NodeId} {d : Document (Listener σ)} {made : Scope}
  {u w : World σ} {e : EffectId} {effect : Effect σ} {b : Binding} {es : List EffectId}

/-- The compilation has noted its moment. -/
theorem mem_moments (h : t.Lives root d made u w) : u.moment ∈ w.moments := by
  obtain ⟨u', hrun, hcontinues⟩ := h.compiled
  have hbuilds := builds_compile (t := t) 0 root (Nat.zero_le u.begin.effects.size)
  rw [← t.runOn_instantiate, hrun] at hbuilds
  refine hcontinues.later.moments_suffix.subset ?_
  rw [hbuilds.grows.moments_eq]
  exact List.mem_cons_self ..

/-- The effects of the scope were constructed by the compilation, and each serves a node. -/
theorem exists_effect (h : t.Lives root d made u w) (he : e ∈ made.effects) :
    u.effects.size ≤ e ∧ ∃ effect n, w.effects[e]? = some effect ∧ t.Serves n effect := by
  obtain ⟨u', hrun, hcontinues⟩ := h.compiled
  rw [t.runOn_instantiate] at hrun
  have hbuilds := builds_compile (t := t) 0 root (Nat.zero_le u.begin.effects.size)
  rw [hrun] at hbuilds
  obtain ⟨hle, effect, heffect, -⟩ := (hbuilds.holds made rfl e he).resolve_left List.not_mem_nil
  obtain ⟨n, hserves⟩ := (installs_compile hrun).of_new e effect hle heffect
  obtain ⟨m, hm⟩ := hcontinues.later.effects_eq e effect heffect
  exact ⟨hle, _, n, hm, hserves.root_eq, hserves.gated_eq, hserves.exists_place⟩

/-- In a place that is left to effects, there are no others that were constructed since. -/
theorem mem_of_isIn (hleft : w.IsLeftTo b.sink b.node es u)
    (hin : b.IsIn u.moment w.effects e effect) : e ∈ es :=
  (hleft e effect hin.effect_eq hin.place_eq).resolve_right fun hdead =>
    Nat.not_lt.2 hin.size_le hdead.lt_size

/-- The gate is that of the compilation. -/
theorem gated_eq (h : t.Lives root d made u w) (hes : es ⊆ made.effects)
    (hleft : w.IsLeftTo b.sink b.node es u) (hin : b.IsIn u.moment w.effects e effect) :
    effect.gated = t.gated := by
  obtain ⟨-, record, n, hrecord, hserves⟩ := h.exists_effect (hes (mem_of_isIn hleft hin))
  rw [hin.eq_of_effect hrecord]
  exact hserves.gated_eq

/-- The place of a node that is no element is bound to a template: that of the text of the node, if
this was there before the compilation. -/
theorem exists_bound (h : t.Lives root d made u w)
    (hleft : w.IsLeftTo .text ⟨t.document, n⟩ made.effects u)
    (hn : ¬ w.IsElement ⟨t.document, n⟩) :
    ∃ template, (Binding.text template ⟨t.document, n⟩ t.model).Bound u.moment w.effects ∧
      ∀ c, d.content? n = some (.text c) → template = .parse c := by
  obtain ⟨u', hrun, hcontinues⟩ := h.compiled
  rw [t.runOn_instantiate] at hrun
  obtain ⟨template, hbound, htemplate⟩ := bound_compile (w := u.begin) h.document h.consistent hrun
    fun he => hn (hcontinues.documentsKeep.isElement he)
  refine ⟨template, hbound.of_isIn fun e effect hin => ?_, htemplate⟩
  -- The effects of the scope were there at the end of the compilation.
  have hbuilds := builds_compile (t := t) 0 root (Nat.zero_le u.begin.effects.size)
  rw [hrun] at hbuilds
  obtain ⟨-, record, hrecord, -⟩ := (hbuilds.holds made rfl e
    (mem_of_isIn (b := .text template _ t.model) hleft hin)).resolve_left List.not_mem_nil
  exact hin.of_later hcontinues.later (lt_size_of_effect hrecord)

/-- A place that is left to effects of the scope is left to their binding. -/
theorem holds (h : t.Lives root d made u w) (hes : es ⊆ made.effects)
    (hleft : w.IsLeftTo b.sink b.node es u) (hquiet : u.moment.Quiet b.node w)
    (howns : ∀ e effect, b.IsIn u.moment w.effects e effect → b.Owns effect) :
    b.Holds u.moment w where
  mem := h.mem_moments
  quiet := hquiet
  apart e he effect heffect hplace := by
    obtain ⟨hlt, halive⟩ := List.mem_filter.1 he
    rcases hleft e effect heffect hplace with hmem | hdead
    · exact Nat.not_lt.2 (h.exists_effect (hes hmem)).1 (List.mem_range.1 hlt)
    · exact absurd (halive.symm.trans hdead.isAlive_eq) (by simp)
  isAlive e effect hin := h.isAlive e (hes (mem_of_isIn hleft hin))
  owns := howns

/-- The effects of a text of the template render one template, which has placeholders. -/
theorem text (h : t.Lives root d made u w) (he : e ∈ made.effects)
    (heffect : w.effects[e]? = some effect) {template : Interpolation} {node : NodeRef}
    (hreaction : effect.reaction = .render template node)
    (hsort : (w.document node.document).sort node.node = .text)
    (hleft : w.IsLeftTo .text node made.effects u) :
    (Binding.text template node t.model).Bound u.moment w.effects ∧
      template.placeholders ≠ [] ∧
      ∀ c, d.content? node.node = some (.text c) → template = .parse c := by
  obtain ⟨hle, record, n, hrecord, hserves⟩ := h.exists_effect he
  obtain rfl := Option.some.inj (hrecord.symm.trans heffect)
  have hplace : record.place? = some (.text, node) := by rw [Effect.place?, hreaction]
  obtain ⟨sink, hnode⟩ := hserves.exists_place
  obtain ⟨-, rfl⟩ := Prod.mk.inj (Option.some.inj (hplace.symm.trans hnode))
  obtain ⟨_, text, hd, htext⟩ := isText_of_sort_eq_text hsort
  obtain ⟨bound, hbound, htemplate⟩ := h.exists_bound hleft <| by
    rintro ⟨_, el, hd', hel⟩
    obtain rfl := Option.some.inj (hd.symm.trans hd')
    cases htext.symm.trans hel
  -- The effect is one of those to which the place is bound.
  obtain ⟨hrender, hpath, -⟩ := hbound.owns e record ⟨hle, heffect, hplace⟩
  obtain rfl : template = bound := by simpa using hreaction.symm.trans hrender
  exact ⟨hbound, List.ne_nil_of_mem hpath, htemplate⟩

/-- A place that is left to one effect, which shows a value, is left to the binding of this
value. -/
theorem holds_value (h : t.Lives root d made u w) (he : e ∈ made.effects)
    (heffect : w.effects[e]? = some effect) {sink : Sink} {node : NodeRef}
    (hreaction : effect.reaction = .display sink node) (hleft : w.IsLeftTo sink node [e] u)
    (hquiet : u.moment.Quiet node w) :
    (Binding.value sink node effect.path t.model).Holds u.moment w := by
  obtain ⟨hle, record, n, hrecord, hserves⟩ := h.exists_effect he
  obtain rfl := Option.some.inj (hrecord.symm.trans heffect)
  refine h.holds (by simpa using he) hleft hquiet fun f other hin => ?_
  obtain rfl := List.mem_singleton.1 (mem_of_isIn hleft hin)
  rw [hin.eq_of_effect heffect]
  exact ⟨hreaction, rfl, hserves.root_eq⟩

end Setting.Lives

/-- A request that compiles a template goes on from the compilation. -/
theorem Scene.continues_compile {depth : Nat} {u u' : SceneWorld} {scope : String}
    {node : NodeExpr} {model : String} {methods : List (String × Script)} {gated : Bool}
    {n : NodeId} {root : MappingId} {made : Scope}
    (hn : ((SceneAct.nodeAt node).runOn u).1 = .ok n)
    (hroot : ((SceneAct.modelNamed model).runOn u).1 = .ok root)
    (h : ((Setting.mk u.current root (.ofList (methods.map fun m => (m.1, .run m.2)))
      gated).instantiate n).runOn u = (.ok made, u')) :
    u'.Continues (step depth u (.template (.compile scope node model methods gated))).2 := by
  have hnode : (SceneAct.nodeAt node).runOn u = (.ok n, u) :=
    Prod.ext hn ((SceneAct.looks_nodeAt node).runOn_snd u)
  have hmodel : (SceneAct.modelNamed model).runOn u = (.ok root, u) :=
    Prod.ext hroot ((SceneAct.looks_modelNamed model).runOn_snd u)
  -- The request names the scope, and then looks at it.
  have hworld : (step depth u (.template (.compile scope node model methods gated))).2 =
      { u' with
        names := { u'.names with scopes := u'.names.scopes.put scope made }
        log := [] } := by
    rw [step, Step.perform, SceneAct.performTemplate, Act.runOn_bind, hnode]
    dsimp only
    rw [Act.runOn_bind, hmodel]
    dsimp only
    rw [Act.runOn_bind, Act.runOn_get]
    dsimp only
    rw [Act.runOn_bind, h]
    dsimp only
    rw [Act.runOn_bind]
    change { ((SceneAct.scopeInfo made).runOn _).2 with log := [] } = _
    rw [(SceneAct.looks_scopeInfo made).runOn_snd]
  rw [hworld]
  exact ⟨later_of_eq (Nat.le_refl _) rfl (Nat.le_refl _) (Nat.le_refl _) (fun _ h => h) ⟨[], rfl⟩
    List.suffix_rfl List.suffix_rfl, documentsKeep_of_eq rfl⟩

/-- A template that a request compiles lives as long as the effects of its scope are alive. -/
theorem Scene.lives_compile (depth : Nat) (source : String) (before later : List Step)
    (scope : String) (node : NodeExpr) (model : String) (methods : List (String × Script))
    (gated : Bool) {document : DocumentId} {n : NodeId} {root : MappingId} {made : Scope} :
    let u := after depth (start source) before
    let w := after depth (start source)
      (before ++ .template (.compile scope node model methods gated) :: later)
    let t : Setting Script :=
      ⟨document, root, .ofList (methods.map fun m => (m.1, .run m.2)), gated⟩
    u.current = document → ((SceneAct.nodeAt node).runOn u).1 = .ok n →
      ((SceneAct.modelNamed model).runOn u).1 = .ok root →
      ((t.instantiate n).runOn u).1 = .ok made → document < u.documents.size →
      (∀ e ∈ made.effects, w.isAlive e = true) → t.Lives n (u.document document) made u w := by
  rintro u w t rfl hn hroot hmade hlt halive
  have hd : u.documents[u.current]? = some (u.document u.current) := by
    rw [World.document, Array.getElem?_eq_getElem hlt, Option.getD_some]
  refine ⟨hd, ?_, ⟨_, Prod.ext hmade rfl, ?_⟩, halive⟩
  · obtain ⟨_, hget⟩ := Array.getElem?_eq_some_iff.1 hd
    exact hget ▸ (reached_after depth source before _ (Array.getElem_mem hlt)).consistent
  · rw [show w = after depth u _ from after_append ..]
    exact (continues_compile hn hroot (Prod.ext hmade rfl)).trans
      (evolves_after depth _ later).continues

end LiveBinding
