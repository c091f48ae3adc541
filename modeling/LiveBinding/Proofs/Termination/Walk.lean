import LiveBinding.Proofs.Evolution.Scene
import LiveBinding.Proofs.Termination.Node

/-!
# Compilation ends

A walk compiles a node, then the nodes that are below it at this moment, then its siblings. Markup
that a directive puts below an element is compiled in the same walk, so the tree grows while it is
walked, and a text that shows itself keeps a walk going forever. Every other walk ends: the rounds
around a node have different texts, and within a round nodes do not come back.

## Key definitions

- `Setting.Walks`: a walk that ends, with the nodes that it visits

## Key results

- `isWalk_walk`: the rounds of a compilation do not change what it does
- `completes_walk`: enough rounds for trees of nodes
- `compile_ends`: a compilation ends unless a text shows itself
- `walks_endless`: one that does not end
-/

namespace LiveBinding

variable {σ : Type}

open Relation World

namespace Setting

/-! ### Walks -/

/-- A walk over nodes that ends: from a world and a scope, the nodes that it visits, its result and
the world at its end. -/
inductive Walks (t : Setting σ) : World σ → Scope → List NodeId → List NodeId →
    Except Fault Scope → World σ → Prop
  | done (w : World σ) (scope : Scope) : Walks t w scope [] [] (.ok scope) w
  | fault {w w' : World σ} {scope : Scope} {n : NodeId} {ns : List NodeId} {f : Fault}
      (h : (t.compileNode scope n).runOn w = (.error f, w')) :
      Walks t w scope (n :: ns) [n] (.error f) w'
  | node {w w₁ w' : World σ} {scope made : Scope} {n : NodeId} {ns visited : List NodeId}
      {r : Except Fault Scope} (h : (t.compileNode scope n).runOn w = (.ok made, w₁))
      (hrest : Walks t w₁ made ((w₁.document t.document).children n ++ ns) visited r w') :
      Walks t w scope (n :: ns) (n :: visited) r w'

variable {t : Setting σ} {w w' w₁ : World σ} {scope made : Scope} {r : Except Fault Scope}
  {n : NodeId} {ns ms visited : List NodeId}

theorem Walks.append_ok {visited' : List NodeId} (h : t.Walks w scope ns visited (.ok made) w₁)
    (h' : t.Walks w₁ made ms visited' r w') :
    t.Walks w scope (ns ++ ms) (visited ++ visited') r w' := by
  generalize hr : Except.ok made = r₁ at h
  induction h with
  | done =>
    obtain rfl := Except.ok.inj hr
    exact h'
  | fault => cases hr
  | node h _ ih =>
    have hrest := ih h' hr
    rw [List.append_assoc] at hrest
    exact .node h hrest

theorem Walks.append_fault {f : Fault} (h : t.Walks w scope ns visited (.error f) w₁)
    (ms : List NodeId) : t.Walks w scope (ns ++ ms) visited (.error f) w₁ := by
  generalize hr : (Except.error f : Except Fault Scope) = r₁ at h
  induction h with
  | done => cases hr
  | fault h => exact .fault h
  | node h _ ih =>
    have hrest := ih hr
    rw [List.append_assoc] at hrest
    exact .node h hrest

/-! ### Rounds do not change a walk -/

/-- Compiling a node and those below it is a walk, unless the rounds run out. -/
def IsWalk (t : Setting σ) (go : Scope → NodeId → Act σ Scope) : Prop :=
  ∀ scope n w r w', (go scope n).runOn w = (r, w') → r ≠ .error .exhausted →
    ∃ visited, t.Walks w scope [n] visited r w'

theorem walks_foldlM {go : Scope → NodeId → Act σ Scope} (hgo : t.IsWalk go)
    (h : (ns.foldlM go scope).runOn w = (r, w')) (hr : r ≠ .error .exhausted) :
    ∃ visited, t.Walks w scope ns visited r w' := by
  induction ns generalizing scope w with
  | nil =>
    obtain ⟨rfl, rfl⟩ := Prod.mk.inj h
    exact ⟨[], .done w scope⟩
  | cons n ns ih =>
    rw [List.foldlM_cons, Act.runOn_bind] at h
    rcases hfirst : (go scope n).runOn w with ⟨f | made, w₁⟩
    · rw [hfirst] at h
      obtain ⟨rfl, rfl⟩ := Prod.mk.inj h
      obtain ⟨visited, hwalk⟩ := hgo scope n w _ _ hfirst hr
      exact ⟨visited, hwalk.append_fault ns⟩
    · rw [hfirst] at h
      obtain ⟨visited, hwalk⟩ := hgo scope n w _ _ hfirst (by simp)
      obtain ⟨visited', hrest⟩ := ih h
      exact ⟨visited ++ visited', hwalk.append_ok hrest⟩

/-- A visit compiles the node, and then the nodes that are below it. -/
theorem runOn_visit (inner : Scope → NodeId → Act σ Scope) (depth : Nat) (scope : Scope)
    (n : NodeId) (w : World σ) :
    (t.visit inner (depth + 1) scope n).runOn w =
      match (t.compileNode scope n).runOn w with
      | (.error f, w₁) => (.error f, w₁)
      | (.ok made, w₁) =>
        (((w₁.document t.document).children n).foldlM
          (if (w₁.document t.document).size = (w.document t.document).size then
            t.visit inner depth else inner) made).runOn w₁ := by
  change (t.compileNode scope n >>= fun made => do
    let d ← t.currentDocument
    if d.size = (w.document t.document).size then (d.children n).foldlM (t.visit inner depth) made
    else (d.children n).foldlM inner made).runOn w = _
  rw [Act.runOn_bind]
  rcases (t.compileNode scope n).runOn w with ⟨f | made, w₁⟩
  · rfl
  · change Act.runOn (if (w₁.document t.document).size = (w.document t.document).size then
        ((w₁.document t.document).children n).foldlM (t.visit inner depth) made
      else ((w₁.document t.document).children n).foldlM inner made) w₁ = _
    dsimp only
    split <;> rfl

theorem isWalk_visit {inner : Scope → NodeId → Act σ Scope} (hinner : t.IsWalk inner)
    (depth : Nat) : t.IsWalk (t.visit inner depth) := by
  induction depth with
  | zero =>
    intro scope n w r w' h hr
    obtain ⟨rfl, -⟩ := Prod.mk.inj h
    exact absurd rfl hr
  | succ depth ih =>
    intro scope n w r w' h hr
    rw [runOn_visit] at h
    rcases hnode : (t.compileNode scope n).runOn w with ⟨f | made, w₁⟩
    · rw [hnode] at h
      obtain ⟨rfl, rfl⟩ := Prod.mk.inj h
      exact ⟨[n], .fault hnode⟩
    · rw [hnode] at h
      dsimp only at h
      have hgo : t.IsWalk (if (w₁.document t.document).size = (w.document t.document).size then
          t.visit inner depth else inner) := by
        split
        · exact ih
        · exact hinner
      obtain ⟨visited, hwalk⟩ := walks_foldlM hgo h hr
      exact ⟨n :: visited, .node hnode (by rwa [List.append_nil])⟩

/-- Whatever the number of rounds: if they do not run out, the result is that of the walk. -/
theorem isWalk_walk (t : Setting σ) (rounds : Nat) : t.IsWalk (t.walk rounds) := by
  induction rounds with
  | zero =>
    intro scope n w r w' h hr
    obtain ⟨rfl, -⟩ := Prod.mk.inj h
    exact absurd rfl hr
  | succ rounds ih =>
    intro scope n w r w' h hr
    exact isWalk_visit ih (w.document t.document).size scope n w r w' h hr

/-! ### Enough rounds -/

/-- What is said of trees of at most `bound` nodes: `P` holds of the attributes of their elements.
Compiling them does not run out of rounds, and other nodes stay as they are. -/
def Completes (t : Setting σ) (s : Store) (P : Fields String → Prop) (bound : Nat)
    (go : Scope → NodeId → Act σ Scope) : Prop :=
  ∀ (scope : Scope) (n : NodeId) (w : World σ) (r : Except Fault Scope) (w' : World σ)
    (d : Document (Listener σ)) (fp : List NodeId),
    (go scope n).runOn w = (r, w') → s.SameData w.store →
    w.documents[t.document]? = some d → d.TreeAll P [n] fp → fp.Nodup → fp.length ≤ bound →
    r ≠ .error .exhausted ∧ ∀ made, r = .ok made → s.SameData w'.store ∧
      ∃ d', w'.documents[t.document]? = some d' ∧ d.Frames (· ∈ fp) d'

theorem completes_foldlM {s : Store} {P : Fields String → Prop} {bound : Nat}
    {go : Scope → NodeId → Act σ Scope} (hgo : t.Completes s P bound go)
    {d : Document (Listener σ)} {fp : List NodeId}
    (h : (ns.foldlM go scope).runOn w = (r, w')) (hs : s.SameData w.store)
    (hd : w.documents[t.document]? = some d) (htrees : d.TreeAll P ns fp) (hnodup : fp.Nodup)
    (hbound : fp.length ≤ bound) :
    r ≠ .error .exhausted ∧ ∀ made, r = .ok made → s.SameData w'.store ∧
      ∃ d', w'.documents[t.document]? = some d' ∧ d.Frames (· ∈ fp) d' := by
  induction ns generalizing scope w d fp with
  | nil =>
    obtain ⟨rfl, rfl⟩ := Prod.mk.inj h
    exact ⟨by simp, fun _ _ => ⟨hs, d, hd, .refl _ d⟩⟩
  | cons n ns ih =>
    cases htrees with
    | @cons _ _ inner rest hn hP hinner hrest =>
      rw [← List.cons_append] at hnodup hbound ⊢
      rw [List.length_append] at hbound
      obtain ⟨hfirst, hnodup', hapart⟩ := List.nodup_append'.1 hnodup
      have htree : d.TreeAll P [n] (n :: inner) := by
        have := Document.TreeAll.cons hn hP hinner .nil
        rwa [List.append_nil] at this
      rw [List.foldlM_cons, Act.runOn_bind] at h
      rcases hr : (go scope n).runOn w with ⟨f | made, w₁⟩
      · rw [hr] at h
        obtain ⟨rfl, rfl⟩ := Prod.mk.inj h
        obtain ⟨hne, -⟩ := hgo scope n w _ _ d _ hr hs hd htree hfirst (by omega)
        exact ⟨hne, fun _ h => by cases h⟩
      · rw [hr] at h
        obtain ⟨-, hok⟩ := hgo scope n w _ _ d _ hr hs hd htree hfirst (by omega)
        obtain ⟨hs₁, d₁, hd₁, hframes⟩ := hok made rfl
        -- The other trees are apart from the first one.
        have hrest' := hrest.of_frames hframes fun m hm hm' => hapart hm' hm
        obtain ⟨hne, hok'⟩ := ih h hs₁ hd₁ hrest' hnodup' (by omega)
        refine ⟨hne, fun made' hmade => ?_⟩
        obtain ⟨hs', d', hd', hframes'⟩ := hok' made' hmade
        refine ⟨hs', d', hd',
          (hframes.mono fun m _ hm => ?_).trans (hframes'.mono fun m _ hm => ?_)⟩
        · exact List.mem_append_left _ hm
        · exact List.mem_append_right _ hm

/-- Nodes that are there lie in trees of at most as many nodes; what is put below an element is left
to `inner`. -/
theorem completes_visit {s : Store} {P Q : Fields String → Prop}
    {inner : Scope → NodeId → Act σ Scope}
    (hinner : (∃ as, P as) → ∀ bound, t.Completes s Q bound inner)
    (hPQ : ∀ as, P as → ∀ text, s.Shows t.model as text →
      ∀ as' ∈ Markup.elementsAll (Markup.parse text), Q as') (depth : Nat) :
    t.Completes s P depth (t.visit inner depth) := by
  induction depth with
  | zero =>
    intro scope n w r w' d fp _ _ _ htree _ hbound
    cases htree with
    | cons => simp at hbound
  | succ depth ih =>
    intro scope n w r w' d fp h hs hd htree hnodup hbound
    cases htree with
    | @cons _ _ below _ hn hP hbelow hnil =>
      cases hnil
      rw [List.append_nil] at hnodup hbound ⊢
      obtain ⟨hnot, hnodup'⟩ := List.nodup_cons.1 hnodup
      rw [List.length_cons] at hbound
      rw [runOn_visit] at h
      have hbuilds := builds_compileNode (t := t) 0 scope n (Nat.zero_le w.effects.size)
      have hsame := hbuilds.grows.sameData
      have hfault := t.unexhausted_compileNode scope n w
      rcases hnode : (t.compileNode scope n).runOn w with ⟨f | made, w₁⟩
      · rw [hnode] at h hfault
        obtain ⟨rfl, rfl⟩ := Prod.mk.inj h
        exact ⟨fun he => hfault (congrArg Except.error (Except.error.inj he)),
          fun _ h => by cases h⟩
      · rw [hnode] at h hsame
        dsimp only at h
        obtain ⟨d₁, hd₁, hframes, hchildren⟩ := compileNode_ok hnode hd hn
        have hs₁ := hs.trans hsame
        rw [document_eq hd₁, document_eq hd] at h
        rcases hchildren with ⟨hsize, hkept⟩ | ⟨hisElement, fp', htrees, hfp', hfresh⟩
        · -- The nodes below are those that were there, and the depth is enough for them.
          rw [if_pos hsize, hkept] at h
          have hbelow' := hbelow.of_frames hframes fun m hm (he : m = n) => hnot (he ▸ hm)
          obtain ⟨hne, hok⟩ := completes_foldlM ih h hs₁ hd₁ hbelow' hnodup' (by omega)
          refine ⟨hne, fun made' hmade => ?_⟩
          obtain ⟨hs', d', hd', hframes'⟩ := hok made' hmade
          refine ⟨hs', d', hd', (hframes.mono fun m _ hm => ?_).trans
            (hframes'.mono fun m _ hm => ?_)⟩
          · exact hm ▸ List.mem_cons_self ..
          · exact List.mem_cons_of_mem _ hm
        · -- The nodes below are new, and what is left of the rounds is enough for them.
          obtain ⟨e, he⟩ := Option.isSome_iff_exists.1 hisElement
          have hPe : P (d.attributes n) := by
            rw [Document.attributes, he]
            exact hP e he
          have htrees' : d₁.TreeAll Q (d₁.children n) fp' := by
            refine htrees.mono ?_
            rintro as ⟨text, htext, has⟩
            exact hPQ _ hPe text (hs.shows_iff.1 htext) as has
          have hgo : (r ≠ .error .exhausted ∧ ∀ made, r = .ok made → s.SameData w'.store ∧
              ∃ d', w'.documents[t.document]? = some d' ∧ d₁.Frames (· ∈ fp') d') := by
            by_cases hsize : d₁.size = d.size
            · -- Without a new node there is none below.
              have hnil : d₁.children n = [] := by
                cases hc : d₁.children n with
                | nil => rfl
                | cons c cs =>
                  rw [hc] at htrees
                  cases htrees with
                  | cons hlt =>
                    have hle := hfresh c (List.mem_cons_self ..)
                    exact absurd (hsize ▸ hlt) (Nat.not_lt.2 hle)
              rw [hnil] at h
              obtain ⟨rfl, rfl⟩ := Prod.mk.inj h
              exact ⟨by simp, fun _ _ => ⟨hs₁, d₁, hd₁, .refl _ d₁⟩⟩
            · rw [if_neg hsize] at h
              exact completes_foldlM (hinner ⟨_, hPe⟩ fp'.length) h hs₁ hd₁ htrees' hfp'
                (Nat.le_refl _)
          refine ⟨hgo.1, fun made' hmade => ?_⟩
          obtain ⟨hs', d', hd', hframes'⟩ := hgo.2 made' hmade
          refine ⟨hs', d', hd', Nat.le_trans hframes.size_le hframes'.size_le, ?_⟩
          intro m hm hfree
          have hold : m ∉ fp' := fun hm' => absurd (hfresh m hm') (Nat.not_le.2 hm)
          rw [hframes'.content?_eq m (Nat.lt_of_lt_of_le hm hframes.size_le) hold]
          exact hframes.content?_eq m hm fun he => hfree (he ▸ List.mem_cons_self ..)

/-- A round visits as deep as there are nodes, and that is enough. -/
theorem completes_round {s : Store} {P Q : Fields String → Prop}
    {inner : Scope → NodeId → Act σ Scope}
    (hinner : (∃ as, P as) → ∀ bound, t.Completes s Q bound inner)
    (hPQ : ∀ as, P as → ∀ text, s.Shows t.model as text →
      ∀ as' ∈ Markup.elementsAll (Markup.parse text), Q as') (bound : Nat) :
    t.Completes s P bound fun scope n => (do
      let size := (← t.currentDocument).size
      t.visit inner size scope n) := by
  intro scope n w r w' d fp h hs hd htree hnodup _
  change (t.visit inner (w.document t.document).size scope n).runOn w = (r, w') at h
  rw [document_eq hd] at h
  exact completes_visit hinner hPQ d.size scope n w r w' d fp h hs hd htree hnodup
    (htree.length_le_size hnodup)

/-- With the rounds that fit the elements there are, trees of any number of nodes are compiled. -/
theorem completes_walk (t : Setting σ) (s : Store) (rounds bound : Nat) :
    t.Completes s (s.Fits t.model rounds) bound (t.walk (rounds + 1)) := by
  -- By induction on the rounds: what an element shows fits one round less.
  induction rounds generalizing bound with
  | zero =>
    have hnone : ∀ as, ¬ s.Fits t.model 0 as := fun as h => absurd h.1 (by omega)
    exact completes_round (Q := fun _ => False) (fun ⟨as, h⟩ => absurd h (hnone as))
      (fun as h => absurd h (hnone as)) bound
  | succ rounds ih =>
    exact completes_round (P := s.Fits t.model (rounds + 1)) (fun _ => ih)
      (fun as h text htext _ has' => Store.fits_of_nests (h.2 text htext) has') bound

/-- A compilation visits finitely many nodes and returns, unless a text that is shown as markup
below the root shows itself again. -/
theorem compile_ends (t : Setting σ) (root : NodeId) (w : World σ) (d : Document (Listener σ))
    (hd : w.documents[t.document]? = some d) (hc : d.Consistent) (ha : d.Acyclic)
    (htexts : ∀ n e text, TransGen d.HasChild root n → d.element? n = some e →
      w.store.Shows t.model e.attributes text →
      ∀ next, ReflTransGen (w.store.ShowsInside t.model) text next →
        ¬ TransGen (w.store.ShowsInside t.model) next next) :
    ∃ r visited w₁, r ≠ .error .exhausted ∧
      t.Walks (w.modifyDocument t.document (·.detachChildren root)) .empty (d.children root)
        visited r w₁ ∧
      (t.compile root).runOn w =
        (r, w₁.modifyDocument t.document (·.appendChildren root (d.children root))) := by
  let w₀ := w.modifyDocument t.document (·.detachChildren root)
  let d₀ := d.detachChildren root
  have hd₀ : w₀.documents[t.document]? = some d₀ := by
    rw [documents_modifyDocument, if_pos rfl, hd]
    rfl
  obtain ⟨fp, htrees, hnodup, hbelow⟩ := Document.exists_treeAll hc ha root
  -- Each element below the root leaves enough rounds.
  have hfits : d.TreeAll (w.store.Fits t.model (w.store.cells.size + 1)) (d.children root) fp := by
    refine htrees.of_forall fun n hn e he => ⟨by omega, fun text htext => ?_⟩
    exact Store.nests_of_acyclic htext (htexts n e text (hbelow n hn) he htext)
  have hfits₀ : d₀.TreeAll (w.store.Fits t.model (w.store.cells.size + 1)) (d.children root) fp :=
    hfits.of_frames (Document.frames_detachChildren d root) fun m hm (he : m = root) =>
      ha root (he ▸ hbelow m hm)
  rcases hr : ((d.children root).foldlM (t.walk (rounds w.store)) Scope.empty).runOn w₀ with ⟨r, w₁⟩
  obtain ⟨hne, -⟩ := completes_foldlM (completes_walk t w.store _ fp.length) hr (.refl _) hd₀
    hfits₀ hnodup (Nat.le_refl _)
  obtain ⟨visited, hwalk⟩ := walks_foldlM (isWalk_walk t _) hr hne
  refine ⟨r, visited, w₁, hne, hwalk, ?_⟩
  change Act.runOn (((w.document t.document).children root).foldlM (t.walk (rounds w.store))
    Scope.empty |>.within (fun w => w.modifyDocument t.document (·.detachChildren root))
      (fun w₁ => w₁.modifyDocument t.document
        (·.appendChildren root ((w.document t.document).children root)))) w = _
  rw [Act.runOn_within, document_eq hd, hr]

/-- A text with an element that shows another text, which has a placeholder. -/
theorem compile_ends_nested :
    let w := Scene.after callDepth (Scene.start "<div id=r><p v-html=h></p></div>") [
      .model (.create "m" (.object [("h", .text "<b v-html=g></b>"),
        ("g", .text "<i>{{x}}</i>"), ("x", .number (.integer 1))]))]
    let t : Setting Script := ⟨0, 0, .empty, false⟩
    ∃ r visited w₁, r ≠ .error .exhausted ∧
      t.Walks (w.modifyDocument 0 (·.detachChildren 1)) .empty ((w.document 0).children 1)
        visited r w₁ ∧
      (t.compile 1).runOn w =
        (r, w₁.modifyDocument 0 (·.appendChildren 1 ((w.document 0).children 1))) := by
  intro w t
  have houter : w.store.Shows 0 [("v-html", "h")] "<b v-html=g></b>" := ⟨"h", by decide +kernel⟩
  have hinner : w.store.Shows 0 [("v-html", "g")] "<i>{{x}}</i>" := ⟨"g", by decide +kernel⟩
  have hnext : ∀ next, w.store.ShowsInside 0 "<b v-html=g></b>" next → next = "<i>{{x}}</i>" := by
    intro next hshows
    have helements :
        Markup.elementsAll (Markup.parse "<b v-html=g></b>") = [[("v-html", "g")]] := by
      decide +kernel
    obtain ⟨as, has, hshows⟩ := hshows
    rw [helements, List.mem_singleton] at has
    exact (has ▸ hshows).unique hinner
  have hlast : ∀ next, ¬ w.store.ShowsInside 0 "<i>{{x}}</i>" next := by
    intro next hshows
    have helements : Markup.elementsAll (Markup.parse "<i>{{x}}</i>") = [[]] := by decide +kernel
    obtain ⟨as, has, expression, hexpression, -⟩ := hshows
    rw [helements, List.mem_singleton] at has
    rw [has] at hexpression
    cases hexpression
  have hacyclic : ∀ next, ReflTransGen (w.store.ShowsInside 0) "<b v-html=g></b>" next →
      ¬ TransGen (w.store.ShowsInside 0) next next := by
    intro next hreach hcycle
    obtain ⟨a, ha, hback⟩ := TransGen.head'_iff.1 hcycle
    rcases hreach.cases_head with rfl | ⟨b, hb, hreach⟩
    · rw [hnext a ha] at hback
      rcases hback.cases_head with heq | ⟨b, hb, -⟩
      · exact absurd heq (by decide)
      · exact hlast b hb
    · rw [hnext b hb] at hreach
      rcases hreach.cases_head with rfl | ⟨c, hc, -⟩
      · exact hlast a ha
      · exact hlast c hc
  refine compile_ends t 1 w (w.document 0) rfl ?_ ?_ ?_
  · exact .of_forall_lt (by decide +kernel) (by decide +kernel)
  · exact .of_forall_lt (by decide +kernel)
  · intro n e text hn he hshows
    obtain ⟨c, hc, hn⟩ := TransGen.head'_iff.1 hn
    have hchildren : (w.document 0).children 1 = [2] := by decide +kernel
    have hleaf : (w.document 0).children 2 = [] := by decide +kernel
    have hattributes : (w.document 0).attributes 2 = [("v-html", "h")] := by decide +kernel
    rw [Document.HasChild, hchildren, List.mem_singleton] at hc
    subst hc
    rcases hn.cases_head with rfl | ⟨m, hm, -⟩
    · rw [Document.attributes, he, Option.map_some, Option.getD_some] at hattributes
      rw [hattributes] at hshows
      rw [hshows.unique houter]
      exact hacyclic
    · rw [Document.HasChild, hleaf] at hm
      cases hm

/-! ### A text that shows itself -/

/-- An element whose only directive shows a value as markup. -/
theorem runOn_compileNode_html {expression : String} {v : Value} {d : Document (Listener σ)}
    {e : Element (Listener σ)} (hd : w.documents[t.document]? = some d)
    (he : d.element? n = some e) (hattributes : e.attributes = [("v-html", expression)])
    (hget : w.store.get ⟨expression⟩ t.model = .ok v) :
    ∃ made w₁, (t.compileNode scope n).runOn w = (.ok made, w₁) ∧
      w.store.SameData w₁.store ∧ w₁.documents[t.document]? =
        some ((d.setMarkup n (w.store.display v)).removeAttribute n "v-html") := by
  have hsort : d.sort n = .element := by
    rw [Document.sort, Document.element?_eq_some_iff.1 he]
  have hall : d.attributes n = [("v-html", expression)] := by
    rw [Document.attributes, he, Option.map_some, Option.getD_some, hattributes]
  let w₀ := (w.construct ⟨expression⟩ t.model t.gated
    (.display .markup ⟨t.document, n⟩)).writeSink .markup ⟨t.document, n⟩ (w.store.display v)
  have hbind : (t.bindValue scope n expression .markup).runOn w =
      (.ok (scope.hold w.effects.size), w₀) := by
    rw [runOn_bindValue, hget]
  have hrun : (t.compileNode scope n).runOn w = (.ok (scope.hold w.effects.size),
      w₀.modifyDocument t.document (·.removeAttribute n "v-html")) := by
    rw [compileNode, Act.runOn_bind, runOn_currentDocument hd]
    dsimp only
    rw [hsort, hall]
    dsimp only
    rw [List.foldlM_cons, Act.runOn_bind, compileAttribute, Act.runOn_bind, Act.runOn_ofExcept,
      show Directive.parse? "v-html" = .ok (some .html) by decide]
    dsimp only
    rw [Act.runOn_bind, install, hbind]
    rfl
  refine ⟨_, _, hrun, ?_, ?_⟩
  · have hbuilds := builds_compileNode (t := t) 0 scope n (Nat.zero_le w.effects.size)
    have hsame := hbuilds.grows.sameData
    rwa [hrun] at hsame
  · have hd₀ := documents_writeSink (w := w.construct ⟨expression⟩ t.model t.gated
      (.display .markup ⟨t.document, n⟩)) hd .markup (n := n) (w.store.display v)
    rw [documents_modifyDocument, if_pos rfl, hd₀]
    rfl

/-- A walk that comes to an element which shows markup of an element like itself does not end. -/
theorem walks_endless {expression source tag : String} {v : Value} {d : Document (Listener σ)}
    {e : Element (Listener σ)}
    (hparse : Markup.parse source = [.element tag [("v-html", expression)] []])
    (hd : w.documents[t.document]? = some d)
    (he : d.element? n = some e) (hattributes : e.attributes = [("v-html", expression)])
    (hget : w.store.get ⟨expression⟩ t.model = .ok v) (hsource : w.store.display v = source) :
    ¬ t.Walks w scope (n :: ns) visited r w' := by
  intro h
  generalize hns : n :: ns = queue at h
  induction h generalizing n ns d e with
  | done => cases hns
  | fault h =>
    obtain ⟨rfl, rfl⟩ := List.cons.inj hns
    obtain ⟨made, w₁, hrun, -⟩ := runOn_compileNode_html hd he hattributes hget
    cases hrun.symm.trans h
  | @node w _ _ _ _ _ _ _ _ h _ ih =>
    obtain ⟨rfl, rfl⟩ := List.cons.inj hns
    obtain ⟨made, w₁, hrun, hsame, hd₁⟩ := runOn_compileNode_html hd he hattributes hget
    obtain ⟨-, rfl⟩ := Prod.mk.inj (hrun.symm.trans h)
    have hisElement : (d.element? n).isSome := by rw [he]; rfl
    have hrefilled := Document.refilled_setMarkup hisElement (w.store.display v)
    rw [hsource, hparse, ← hsource] at hrefilled
    obtain ⟨hchildren, e', hchild, hattributes'⟩ := hrefilled.exists_element
    have hne : d.size ≠ n := Nat.ne_of_gt (Document.lt_size_of_element? he)
    rw [← Document.element?_modifyElement_of_ne _ hne] at hchild
    have hkept := Document.keepsBelow_modifyElement (hrefilled.isElement hisElement)
      (f := fun e => { e with attributes := e.attributes.erase "v-html" }) fun _ => rfl
    have hqueue : d.size :: ns = (w₁.document t.document).children n ++ ns := by
      rw [document_eq hd₁, Document.removeAttribute, hkept.children_eq, hchildren]
      rfl
    -- The walk goes on with the new element.
    exact ih hd₁ hchild hattributes' (by rw [hsame.get_eq, hget])
      (by rw [hsame.display_eq, hsource]) hqueue

/-- A text whose element shows the text: the compilation of an element that shows it visits nodes
without end. -/
theorem compile_endless :
    let w := Scene.after callDepth (Scene.start "<div id=r><p v-html=h></p></div>") [
      .model (.create "m" (.object [("h", .text "<p v-html=h></p>")]))]
    let t : Setting Script := ⟨0, 0, .empty, false⟩
    (w.document 0).Consistent ∧ (w.document 0).Acyclic ∧
      w.store.toPlain (.mapping 0) = .object [("h", .text "<p v-html=h></p>")] ∧
      ∀ visited r w₁, ¬ t.Walks (w.modifyDocument 0 (·.detachChildren 1)) .empty
        ((w.document 0).children 1) visited r w₁ := by
  intro w t
  have hchildren : (w.document 0).children 1 = [2] := by decide +kernel
  refine ⟨.of_forall_lt (by decide +kernel) (by decide +kernel), .of_forall_lt (by decide +kernel),
    by rfl, fun visited r w₁ => ?_⟩
  rw [hchildren]
  have hattributes : (((w.document 0).detachChildren 1).element? 2).map Element.attributes =
      some [("v-html", "h")] := by decide +kernel
  obtain ⟨e, he, hattributes⟩ := Option.map_eq_some_iff.1 hattributes
  have hparse : Markup.parse "<p v-html=h></p>" = [.element "p" [("v-html", "h")] []] := by
    decide +kernel
  have hget : w.store.get ⟨"h"⟩ 0 = .ok (.text "<p v-html=h></p>") := by decide +kernel
  exact walks_endless (t := t) (w := w.modifyDocument 0 (·.detachChildren 1))
    (d := (w.document 0).detachChildren 1) hparse rfl he hattributes hget rfl

end Setting

end LiveBinding
