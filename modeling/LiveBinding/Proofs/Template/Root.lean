import LiveBinding.Proofs.Document.Reattach
import LiveBinding.Proofs.Template.Walk

/-!
# Compiling what is below a root

A compilation takes the children of its root out, walks over them, and puts them back. Nothing
outside the nodes below the root changes, however the walk ends.

## Key definitions

- `Document.WorkedBelow`: what may happen to a document while what is below a node is compiled
- `Setting.Staged`: a compilation as a walk over the children of its root
- `Setting.Below`: what a compilation does to the document of its root

## Key results

- `Document.Worked.below`: the children of the root are put back
- `Setting.exists_staged_of_acyclicBelow`, `Setting.exists_staged`: a compilation without cycles on
  its way is a walk
- `Setting.below_compile`: every compilation that visits finitely many nodes works below its root
-/

namespace LiveBinding

variable {σ : Type}

open Relation World

namespace Document

variable {κ : Type} {d d₁ : Document κ} {root : NodeId} {fp : List NodeId}

/-- What is below a node may have been compiled. -/
structure WorkedBelow (d : Document κ) (root : NodeId) (d' : Document κ) : Prop where
  outside : ∀ m, m < d.size → ¬ TransGen d.HasChild root m → d'.nodes[m]? = d.nodes[m]?
  self : d'.content? root = d.content? root
  parent_eq : ∀ c ∈ d.children root, d'.parent? c = some root
  kept : ∀ n c, d.content? n = some c → ∃ c', d'.content? n = some c' ∧ c.Kept c'
  parents : d.KeepsParents (fun m => ∃ p, TransGen d.HasChild root p ∧ m ∈ d.children p ∧
    Fields.fills (d.attributes p)) d'

theorem WorkedBelow.children_eq (h : d.WorkedBelow root d₁) :
    d₁.children root = d.children root := by
  have helement : d₁.element? root = d.element? root := by rw [element?, h.self, ← element?]
  rw [children, helement, ← children]

/-- A node that is an element afterwards has been one before. -/
theorem WorkedBelow.exists_element (h : d.WorkedBelow root d₁) {n : NodeId} (hn : n < d.size)
    {e : Element κ} (he : d₁.element? n = some e) : ∃ e₀, d.element? n = some e₀ := by
  obtain ⟨c, hc⟩ : ∃ c, d.content? n = some c :=
    ⟨_, by rw [content?, Array.getElem?_eq_getElem hn, Option.map_some]⟩
  obtain ⟨c', hc', hkept⟩ := h.kept n c hc
  rw [element?_eq_some_iff, hc'] at he
  obtain rfl := Option.some.inj he
  cases c with
  | element e₀ => exact ⟨e₀, element?_eq_some_iff.2 hc⟩
  | text s =>
    obtain ⟨_, heq, -⟩ := hkept
    cases heq
  | comment s => cases hkept

/-- A node that is not there has no children. -/
theorem children_eq_nil_of_not_lt (h : ¬ root < d.size) : d.children root = [] := by
  refine children_eq_nil_of_element?_eq_none ?_
  rw [element?, content?_eq_none_of_le (Nat.le_of_not_lt h)]

theorem Consistent.lt_and_ne (hc : d.Consistent) (ha : ¬ TransGen d.HasChild root root)
    {c : NodeId} (hmem : c ∈ d.children root) : c < d.size ∧ c ≠ root := by
  refine ⟨lt_size_of_parent? (hc.mem_children_iff.1 hmem), ?_⟩
  rintro rfl
  exact ha (.single hmem)

/-- The children of the root are put back. -/
theorem Worked.below (h : (d.detachChildren root).Worked fp d₁) (hc : d.Consistent)
    (ha : ¬ TransGen d.HasChild root root) (hbelow : ∀ m ∈ fp, TransGen d.HasChild root m)
    (hself : d₁.content? root = (d.detachChildren root).content? root) :
    d.Reattached root d₁ (d₁.appendChildren root (d.children root)) ∧
      d.WorkedBelow root (d₁.appendChildren root (d.children root)) := by
  have hframes := frames_detachChildren d root
  have hsize := size_detachChildren d root
  -- Below the root, nodes have the children that they had before the root's were taken out.
  have hother : ∀ p ∈ fp, (d.detachChildren root).content? p = d.content? p := by
    intro p hp
    refine hframes.content?_eq p ?_ fun heq => ha (heq ▸ hbelow p hp)
    obtain ⟨q, -, hq⟩ := TransGen.tail'_iff.1 (hbelow p hp)
    exact lt_size_of_parent? (hc.mem_children_iff.1 hq)
  have hparent : ∀ m, m < d.size → (¬ ∃ p, TransGen d.HasChild root p ∧ m ∈ d.children p ∧
      Fields.fills (d.attributes p)) → d₁.parent? m = (d.detachChildren root).parent? m := by
    intro m hm hfree
    refine h.parents m (hsize ▸ hm) ?_
    rintro ⟨p, hp, hchild, hfills⟩
    rw [children, element?, hother p hp] at hchild
    rw [attributes, element?, hother p hp] at hfills
    exact hfree ⟨p, hbelow p hp, hchild, hfills⟩
  have hchildren : ∀ c ∈ d.children root, d₁.parent? c = (d.detachChildren root).parent? c := by
    intro c hmem
    refine hparent c (hc.lt_and_ne ha hmem).1 ?_
    rintro ⟨p, hp, hchild, -⟩
    -- The root is the only parent of its children.
    obtain rfl : root = p := Option.some.inj
      ((hc.mem_children_iff.1 hmem).symm.trans (hc.mem_children_iff.1 hchild))
    exact ha hp
  have hre := reattached (fun _ => hc.lt_and_ne ha) (hc.nodup_children root) hself
    (hsize ▸ h.frames.size_le) hchildren
  have hparents : d.KeepsParents (fun m => ∃ p, TransGen d.HasChild root p ∧ m ∈ d.children p ∧
      Fields.fills (d.attributes p)) (d₁.appendChildren root (d.children root)) := by
    intro m hm hfree
    rw [hre.parents]
    by_cases hmem : m ∈ d.children root
    · rw [if_pos hmem, hc.mem_children_iff.1 hmem]
    · rw [if_neg hmem, hparent m hm hfree, keepsParents_detachChildren d root m hm hmem]
  refine ⟨hre, fun m hm hout => ?_, hre.self, fun c hmem => by rw [hre.parents, if_pos hmem],
    fun n c hn => ?_, hparents⟩
  · have hnot : m ∉ fp := fun hmem => hout (hbelow m hmem)
    have hfree : ¬ ∃ p, TransGen d.HasChild root p ∧ m ∈ d.children p ∧
        Fields.fills (d.attributes p) := by
      rintro ⟨p, hp, hchild, -⟩
      exact hout (hp.tail hchild)
    refine node_eq ?_ (hparents m hm hfree)
    by_cases hne : m = root
    · rw [hne, hre.self]
    · rw [hre.others m hne, h.frames.content?_eq m (hsize ▸ hm) hnot,
        hframes.content?_eq m hm hne]
  · by_cases hne : n = root
    · subst hne
      exact ⟨c, by rw [hre.self, hn], .refl c⟩
    · rw [hre.others n hne]
      exact h.kept n c (by rw [hframes.content?_eq n (lt_size_of_content? hn) hne, hn])

end Document

namespace Setting

variable {t : Setting σ} {w w' : World σ} {s : Store} {d d' : Document (Listener σ)}
  {root : NodeId}

theorem runOn_compile (hd : w.documents[t.document]? = some d) (root : NodeId) :
    (t.compile root).runOn w =
      ((((d.children root).foldlM (t.walk (rounds w.store)) Scope.empty).runOn
          (w.modifyDocument t.document (·.detachChildren root))).1,
        (((d.children root).foldlM (t.walk (rounds w.store)) Scope.empty).runOn
          (w.modifyDocument t.document (·.detachChildren root))).2.modifyDocument t.document
            (·.appendChildren root (d.children root))) := by
  rw [← document_eq hd]
  rfl

/-- A compilation below a root has led from the document `d` to `d'`, with the result `r`. -/
structure Below (t : Setting σ) (s : Store) (d : Document (Listener σ)) (root : NodeId)
    (r : Except Fault Scope) (d' : Document (Listener σ)) : Prop where
  worked : d.WorkedBelow root d'
  fails : ∀ f, r = .error f → t.Fails s (d.innerMarkup root) f
  finished : ∀ made, r = .ok made →
    (∀ as, t.Meets s (d.innerMarkup root) as → Fields.BindsPlain as) →
    ∃ fp fp', (∀ m ∈ fp, TransGen d.HasChild root m) ∧ root ∉ fp' ∧
      t.Finished s d (d.children root) (d.innerMarkup root) fp (d'.innerMarkup root) fp' d'

/-- A compilation that has walked over the nodes `fp` below its root and has led to the document
`d₁` when the children of the root are put back. -/
structure Staged (t : Setting σ) (w : World σ) (d : Document (Listener σ)) (root : NodeId)
    (r : Except Fault Scope) (w' : World σ) (fp : List NodeId) (w₁ : World σ)
    (d₁ : Document (Listener σ)) : Prop where
  depicts : (d.detachChildren root).Depicts (d.children root) (d.innerMarkup root) fp
  nodup : fp.Nodup
  below : ∀ m ∈ fp, TransGen d.HasChild root m
  notMem : root ∉ fp
  start : (w.modifyDocument t.document (·.detachChildren root)).documents[t.document]? =
    some (d.detachChildren root)
  walks : ∃ visited, t.Walks (w.modifyDocument t.document (·.detachChildren root)) .empty
    (d.children root) visited r w₁
  yields : t.Yields (w.modifyDocument t.document (·.detachChildren root)) w₁ d₁
  works : t.Works w.store (d.detachChildren root) (d.children root) (d.innerMarkup root) fp r d₁
  reattached : d.Reattached root d₁ (d₁.appendChildren root (d.children root))
  worked : d.WorkedBelow root (d₁.appendChildren root (d.children root))
  world_eq : w' = w₁.modifyDocument t.document (·.appendChildren root (d.children root))

/-- Every compilation below a root without cycles that visits finitely many nodes is a walk over the
children of its root. -/
theorem exists_staged_of_acyclicBelow {r : Except Fault Scope}
    (hd : w.documents[t.document]? = some d) (hc : d.Consistent) (ha : d.AcyclicBelow root)
    (h : (t.compile root).runOn w = (r, w')) (hr : r ≠ .error .exhausted) :
    ∃ fp w₁ d₁, t.Staged w d root r w' fp w₁ d₁ := by
  have hd₀ : (w.modifyDocument t.document (·.detachChildren root)).documents[t.document]? =
      some (d.detachChildren root) := by
    rw [documents_modifyDocument, if_pos rfl, hd]
    rfl
  obtain ⟨fp, htrees, hnodup, hbelow⟩ := ha.exists_treeAll hc
  have hroot : root ∉ fp := fun hm => ha.not_below (hbelow root hm)
  obtain ⟨ms, hdepicts⟩ := htrees.exists_depicts
  obtain rfl : d.innerMarkup root = ms := hdepicts.filterMap_markup? hnodup
  have hdepicts₀ := hdepicts.of_frames (Document.frames_detachChildren d root)
    fun m hm (heq : m = root) => hroot (heq ▸ hm)
  rw [runOn_compile hd] at h
  obtain ⟨rfl, rfl⟩ := Prod.mk.inj h
  -- The walk, and the document `d₁` after it.
  generalize hwalk : ((d.children root).foldlM (t.walk (rounds w.store)) Scope.empty).runOn
    (w.modifyDocument t.document (·.detachChildren root)) = ended at hr ⊢
  obtain ⟨r, w₁⟩ := ended
  obtain ⟨visited, hwalks⟩ := walks_foldlM (isWalk_walk t _) hwalk hr
  obtain ⟨d₁, hyields, hworks⟩ := hwalks.works (s := w.store) (.refl _) hd₀ hdepicts₀ hnodup
  have hsize := Document.size_detachChildren d root
  have hself : d₁.content? root = (d.detachChildren root).content? root := by
    by_cases hlt : root < d.size
    · exact hworks.worked.frames.content?_eq root (hsize ▸ hlt) hroot
    · -- There is nothing to walk over.
      rw [Document.children_eq_nil_of_not_lt hlt] at hwalks
      cases hwalks
      rw [Option.some.inj (hyields.document.symm.trans hd₀)]
  obtain ⟨hre, hworkedBelow⟩ := hworks.worked.below hc ha.not_below hbelow hself
  exact ⟨fp, w₁, d₁, hdepicts₀, hnodup, hbelow, hroot, hd₀, ⟨visited, hwalks⟩, hyields, hworks, hre,
    hworkedBelow, rfl⟩

/-- Every compilation that visits finitely many nodes is a walk over the children of its root. -/
theorem exists_staged {r : Except Fault Scope} (hd : w.documents[t.document]? = some d)
    (hc : d.Consistent) (ha : d.Acyclic) (h : (t.compile root).runOn w = (r, w'))
    (hr : r ≠ .error .exhausted) : ∃ fp w₁ d₁, t.Staged w d root r w' fp w₁ d₁ :=
  exists_staged_of_acyclicBelow hd hc (ha.below root) h hr

/-- Every compilation that visits finitely many nodes works below its root. -/
theorem below_compile {r : Except Fault Scope} (hd : w.documents[t.document]? = some d)
    (hc : d.Consistent) (ha : d.Acyclic) (h : (t.compile root).runOn w = (r, w'))
    (hr : r ≠ .error .exhausted) :
    ∃ d', t.Yields w w' d' ∧ t.Below w.store d root r d' := by
  obtain ⟨fp, w₁, d₁, hstaged⟩ := exists_staged hd hc ha h hr
  obtain ⟨-, hnodup, hbelow, hroot, -, -, hyields, ⟨hworked, hfails, hfinished⟩, hre, hworkedBelow,
    rfl⟩ := hstaged
  have hsize := Document.size_detachChildren d root
  have hothers : ∀ m, m ≠ root → (d₁.appendChildren root (d.children root)).element? m =
      d₁.element? m := fun m hm => by rw [Document.element?, Document.element?, hre.others m hm]
  refine ⟨d₁.appendChildren root (d.children root), ⟨hyields.sameData, ?_, fun i hi => ?_⟩,
    hworkedBelow, hfails, fun made hmade hplain => ?_⟩
  · rw [documents_modifyDocument, if_pos rfl, hyields.document]
    rfl
  · rw [documents_modifyDocument, if_neg (Ne.symm hi), hyields.others i hi,
      documents_modifyDocument, if_neg (Ne.symm hi)]
  · obtain ⟨ms', fp', hfinished⟩ := hfinished made hmade hplain
    have hroot' : root ∉ fp' := by
      intro hm
      by_cases hlt : root < d.size
      · exact (hfinished.subset root hm).elim hroot fun hle => Nat.not_le.2 hlt (hsize ▸ hle)
      · have hdepicts' := hfinished.depicts
        rw [Document.children_eq_nil_of_not_lt hlt] at hdepicts'
        cases hdepicts'
        cases hm
    have hframes : d₁.Frames (· = root) (d₁.appendChildren root (d.children root)) :=
      ⟨Nat.le_of_eq hre.size_eq.symm, fun m _ hm => hre.others m hm⟩
    have hdepicts' := hfinished.depicts.of_frames hframes
      fun m hm (heq : m = root) => hroot' (heq ▸ hm)
    have hmarkup : (d₁.appendChildren root (d.children root)).innerMarkup root = ms' := by
      rw [Document.innerMarkup, hworkedBelow.children_eq]
      exact hdepicts'.filterMap_markup? hfinished.nodup
    rw [hmarkup]
    refine ⟨fp, fp', hbelow, hroot', hfinished.compiled, hdepicts', hfinished.nodup,
      fun m hm => hsize ▸ hfinished.subset m hm, fun m hm e he => ?_⟩
    have hne : m ≠ root := fun heq => hroot' (heq ▸ hm)
    obtain ⟨hmeets, bs, hbs, hattributes⟩ := hfinished.attributes m hm e (by
      rw [(Document.frames_detachChildren d root).element?_eq (Document.lt_size_of_element? he) hne,
        he])
    exact ⟨hmeets, bs, hbs, by rw [Document.attributes, hothers m hne]; exact hattributes⟩

end Setting

end LiveBinding
