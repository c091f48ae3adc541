import LiveBinding.Proofs.Document.Reattach

/-!
# What edits do to the links of a document

A document is consistent if each link is stored at both of its ends, and once. Every edit keeps it
so, whatever nodes it is given. Cycles are another matter: moving a node below one that is below it
closes a cycle, and the edits still keep both ends of every link in step.

New nodes are described by `Document.Sprouts`: they come after those that are there, their links
lead from a node to a later one, and only their roots are waiting to be put in a list of children.

## Key results

- `Consistent.children_appendChild`, `Consistent.parent?_appendChild`: what moving a node does
- `Consistent.acyclic_appendChild_iff`: when moving a node closes a cycle
- `sprouts_instantiateAll`: the links of new nodes
- `Consistent.detachChildren`, `Consistent.refill`: a content that is taken out and a new one
-/

namespace LiveBinding.Document

open Relation

variable {κ : Type} {d d' d'' : Document κ} {n : NodeId}

/-! ### The same links -/

/-- What leaves all links alone keeps them in step. -/
theorem Consistent.of_eq (h : d.Consistent) (hchildren : ∀ p, d'.children p = d.children p)
    (hparent : ∀ c, d'.parent? c = d.parent? c) : d'.Consistent where
  mem_children_iff {p c} := by rw [hchildren, hparent, h.mem_children_iff]
  nodup_children p := by rw [hchildren]; exact h.nodup_children p

/-- Removing links makes no cycle. -/
theorem Acyclic.mono (h : d.Acyclic) (hsub : ∀ p c, d'.HasChild p c → d.HasChild p c) :
    d'.Acyclic :=
  fun m hm => h m (TransGen.mono hsub m m hm)

theorem Consistent.lt_size (h : d.Consistent) {p c : NodeId} (hc : c ∈ d.children p) :
    p < d.size ∧ c < d.size := by
  refine ⟨Nat.lt_of_not_le fun hp => ?_, lt_size_of_parent? (h.mem_children_iff.1 hc)⟩
  rw [children, element?, content?_eq_none_of_le hp] at hc
  cases hc

/-- Changing an element apart from its children. -/
theorem children_modifyElement (d : Document κ) (n m : NodeId) {f : Element κ → Element κ}
    (hf : ∀ e, (f e).children = e.children) : (d.modifyElement n f).children m = d.children m := by
  rw [children, children, element?_modifyElement]
  split
  · cases d.element? m with
    | none => rfl
    | some e => exact hf e
  · rfl

/-- A node that is no element stays one, and has no children. -/
theorem children_modifyContent (d : Document κ) (n m : NodeId) {f : Content κ → Content κ}
    (hn : d.element? n = none) (hf : ∀ c e, f c ≠ .element e) :
    (d.modifyContent n f).children m = d.children m := by
  by_cases hm : n = m
  · subst hm
    have hnew : (d.modifyContent n f).element? n = none := by
      rw [element?, content?_modifyContent, if_pos rfl]
      cases d.content? n with
      | none => rfl
      | some c =>
        dsimp only [Option.map_some]
        split
        · rename_i e he
          exact absurd (Option.some.inj he) (hf c e)
        · rfl
    rw [children_eq_nil_of_element?_eq_none hn, children_eq_nil_of_element?_eq_none hnew]
  · rw [children, children, element?, element?, content?_modifyContent, if_neg hm]

/-! ### Moving a node -/

/-- Taking a node out of its parent takes it out of every list of children. -/
theorem Consistent.children_detach (h : d.Consistent) (c p : NodeId) :
    (d.detach c).children p = (d.children p).filter (· != c) := by
  -- Only the parent of the node has it in its list, so that a filter keeps all the other lists.
  have hkept (hp : d.parent? c ≠ some p) : (d.children p).filter (· != c) = d.children p :=
    List.filter_eq_self.2 fun x hx =>
      bne_iff_ne.2 fun heq => hp (h.mem_children_iff.1 (heq ▸ hx))
  rw [detach]
  cases hparent : d.parent? c with
  | none => exact (hkept (by simp [hparent])).symm
  | some q =>
    dsimp only
    by_cases hp : p = q
    · subst hp
      rw [children, element?_modifyElement, if_pos rfl, element?_setParent, children]
      cases d.element? p <;> rfl
    · rw [children_modifyElement_of_ne _ hp, children_setParent,
        hkept fun heq => hp (Option.some.inj (hparent.symm.trans heq)).symm]

theorem parent?_detach (d : Document κ) {c m : NodeId} (hm : m ≠ c) :
    (d.detach c).parent? m = d.parent? m := by
  rw [detach]
  split
  · rfl
  · rw [parent?_modifyElement, parent?_setParent_of_ne d hm]

theorem size_detach (d : Document κ) (c : NodeId) : (d.detach c).size = d.size := by
  rw [detach]
  split
  · rfl
  · rw [size_modifyElement, size_setParent]

theorem isSome_element?_detach (d : Document κ) (c : NodeId) :
    ((d.detach c).element? n).isSome = (d.element? n).isSome := by
  rw [detach]
  split
  · rfl
  · rw [element?_modifyElement, element?_setParent]
    split
    · rw [Option.isSome_map]
    · rfl

/-- A node that is moved leaves the list that it was in and comes last in the list of its new
parent. -/
theorem Consistent.children_appendChild (h : d.Consistent) {c : NodeId}
    (hn : (d.element? n).isSome) (hc : c < d.size) (hne : c ≠ n) (p : NodeId) :
    (d.appendChild n c).children p =
      (d.children p).filter (· != c) ++ if p = n then [c] else [] := by
  rw [appendChild, if_pos ⟨hc, hne⟩, ← h.children_detach c p]
  by_cases hp : p = n
  · subst hp
    rw [if_pos rfl, children, element?_modifyElement, if_pos rfl, element?_setParent, children]
    have hdetached := isSome_element?_detach (n := p) d c
    rw [hn] at hdetached
    obtain ⟨e, he⟩ := Option.isSome_iff_exists.1 hdetached
    rw [he]
    rfl
  · rw [if_neg hp, children_modifyElement_of_ne _ hp, children_setParent, List.append_nil]

theorem parent?_appendChild {c : NodeId} (hc : c < d.size) (hne : c ≠ n) (m : NodeId) :
    (d.appendChild n c).parent? m = if m = c then some n else d.parent? m := by
  rw [appendChild, if_pos ⟨hc, hne⟩, parent?_modifyElement]
  by_cases hm : m = c
  · rw [if_pos hm, hm, parent?_setParent_self (by rwa [size_detach])]
  · rw [if_neg hm, parent?_setParent_of_ne _ hm, parent?_detach d hm]

theorem isSome_element?_appendChild (d : Document κ) (n c m : NodeId) :
    ((d.appendChild n c).element? m).isSome = (d.element? m).isSome := by
  rw [appendChild]
  split
  · rw [element?_modifyElement]
    split
    · rw [Option.isSome_map, element?_setParent, isSome_element?_detach]
    · rw [element?_setParent, isSome_element?_detach]
  · rfl

/-- Moving a node keeps the links in step. -/
theorem Consistent.appendChild (h : d.Consistent) (hn : (d.element? n).isSome) (c : NodeId) :
    (d.appendChild n c).Consistent := by
  by_cases hc : c < d.size ∧ c ≠ n
  · obtain ⟨hc, hne⟩ := hc
    refine ⟨fun {p m} => ?_, fun p => ?_⟩
    · rw [h.children_appendChild hn hc hne, parent?_appendChild hc hne, List.mem_append,
        List.mem_filter, bne_iff_ne, h.mem_children_iff]
      by_cases hm : m = c
      · subst hm
        by_cases hp : p = n
        · simp [hp]
        · simp [hp, Ne.symm hp]
      · by_cases hp : p = n <;> simp [hp, hm]
    · rw [h.children_appendChild hn hc hne]
      refine List.Nodup.append ((h.nodup_children p).filter _) ?_ fun m hm hm' => ?_
      · split <;> simp
      · split at hm'
        · rw [List.mem_singleton.1 hm', List.mem_filter, bne_self_eq_false] at hm
          exact Bool.noConfusion hm.2
        · cases hm'
  · rwa [Document.appendChild, if_neg hc]

theorem Consistent.appendChildren (h : d.Consistent) (n : NodeId) (cs : List NodeId) :
    (d.appendChildren n cs).Consistent := by
  rw [Document.appendChildren]
  split
  · rename_i hn
    induction cs generalizing d with
    | nil => exact h
    | cons c cs ih =>
      rw [List.foldl_cons]
      exact ih (h.appendChild hn c) (by rwa [isSome_element?_appendChild])
  · exact h

/-- The links of a node that is moved are those that do not lead to it, and one new link. -/
theorem Consistent.hasChild_appendChild_iff (h : d.Consistent) {c : NodeId}
    (hn : (d.element? n).isSome) (hc : c < d.size) (hne : c ≠ n) {p m : NodeId} :
    (d.appendChild n c).HasChild p m ↔ d.HasChild p m ∧ m ≠ c ∨ p = n ∧ m = c := by
  rw [HasChild, h.children_appendChild hn hc hne, List.mem_append, List.mem_filter, bne_iff_ne]
  refine or_congr Iff.rfl ?_
  split <;> simp [*]

/-- What is below a node stays below it when it is moved: no path from the node comes back to it. -/
theorem Consistent.transGen_appendChild (h : d.Consistent) (ha : d.Acyclic) {c : NodeId}
    (hn : (d.element? n).isSome) (hc : c < d.size) (hne : c ≠ n) {y : NodeId}
    (hy : TransGen d.HasChild c y) : TransGen (d.appendChild n c).HasChild c y := by
  have hstays {x z : NodeId} (hz : TransGen d.HasChild c z) (hm : d.HasChild x z) :
      (d.appendChild n c).HasChild x z :=
    (h.hasChild_appendChild_iff hn hc hne).2 (.inl ⟨hm, fun heq => ha c (heq ▸ hz)⟩)
  induction hy with
  | single hm => exact .single (hstays (.single hm) hm)
  | tail hy hm ih => exact ih.tail (hstays (hy.tail hm) hm)

/-- A path after a move was there before, or it leads to the new parent and on from the node. -/
theorem Consistent.transGen_of_appendChild (h : d.Consistent) {c : NodeId}
    (hn : (d.element? n).isSome) (hc : c < d.size) (hne : c ≠ n) {x y : NodeId}
    (hxy : TransGen (d.appendChild n c).HasChild x y) :
    TransGen d.HasChild x y ∨ ReflTransGen d.HasChild x n ∧ ReflTransGen d.HasChild c y := by
  induction hxy with
  | single hm =>
    rcases (h.hasChild_appendChild_iff hn hc hne).1 hm with ⟨hm, -⟩ | ⟨rfl, rfl⟩
    · exact .inl (.single hm)
    · exact .inr ⟨.refl, .refl⟩
  | tail _ hm ih =>
    rcases (h.hasChild_appendChild_iff hn hc hne).1 hm with ⟨hm, -⟩ | ⟨rfl, rfl⟩
    · exact ih.imp (·.tail hm) fun hi => ⟨hi.1, hi.2.tail hm⟩
    · exact .inr ⟨ih.elim TransGen.to_reflTransGen And.left, .refl⟩

/-- Moving a node below an element closes a cycle exactly if the element is below the node. -/
theorem Consistent.acyclic_appendChild_iff (h : d.Consistent) (ha : d.Acyclic) {c : NodeId}
    (hn : (d.element? n).isSome) :
    (d.appendChild n c).Acyclic ↔ ¬ TransGen d.HasChild c n := by
  by_cases hc : c < d.size ∧ c ≠ n
  · obtain ⟨hc, hne⟩ := hc
    constructor
    · intro hacyclic hbelow
      have hlink : (d.appendChild n c).HasChild n c :=
        (h.hasChild_appendChild_iff hn hc hne).2 (.inr ⟨rfl, rfl⟩)
      exact hacyclic c ((h.transGen_appendChild ha hn hc hne hbelow).tail hlink)
    · intro hnot x hx
      rcases h.transGen_of_appendChild hn hc hne hx with hx | ⟨hxn, hcx⟩
      · exact ha x hx
      · rcases reflTransGen_iff_eq_or_transGen.1 (hcx.trans hxn) with heq | hcn
        · exact hne heq.symm
        · exact hnot hcn
  · -- Nothing is moved; a node that is not there has nothing below it.
    rw [Document.appendChild, if_neg hc]
    refine iff_of_true ha fun hbelow => hc ⟨?_, fun heq => ha n (heq ▸ hbelow)⟩
    obtain ⟨m, hm, -⟩ := TransGen.head'_iff.1 hbelow
    exact (h.lt_size hm).1

/-! ### Taking all children out -/

theorem children_detachChildren (d : Document κ) (n p : NodeId) :
    (d.detachChildren n).children p = if p = n then [] else d.children p := by
  have hset : (d.detachChildren n).children p = (d.setChildren n []).children p := by
    rw [detachChildren]
    generalize d.setChildren n [] = d₁
    induction d.children n generalizing d₁ with
    | nil => rfl
    | cons c cs ih => rw [List.foldl_cons, ih, children_setParent]
  rw [hset]
  split
  · rename_i hp
    subst hp
    rw [children, setChildren, element?_modifyElement, if_pos rfl]
    cases d.element? p <;> rfl
  · rename_i hp
    exact children_modifyElement_of_ne d hp _

theorem Consistent.parent?_detachChildren_iff (h : d.Consistent) {c p : NodeId} :
    (d.detachChildren n).parent? c = some p ↔ p ≠ n ∧ d.parent? c = some p := by
  by_cases hc : d.parent? c = some n
  · rw [parent?_detachChildren (h.mem_children_iff.2 hc) (lt_size_of_parent? hc), hc]
    simp [eq_comm]
  · have hsame : (d.detachChildren n).parent? c = d.parent? c := by
      by_cases hlt : c < d.size
      · exact keepsParents_detachChildren d n c hlt (mt h.mem_children_iff.1 hc)
      · rw [parent?_eq_none_of_le (by rw [size_detachChildren]; exact Nat.le_of_not_lt hlt),
          parent?_eq_none_of_le (Nat.le_of_not_lt hlt)]
    rw [hsame]
    exact ⟨fun hp => ⟨fun heq => hc (heq ▸ hp), hp⟩, And.right⟩

theorem Consistent.detachChildren (h : d.Consistent) (n : NodeId) :
    (d.detachChildren n).Consistent where
  mem_children_iff {p c} := by
    rw [children_detachChildren, h.parent?_detachChildren_iff]
    split
    · simp [*]
    · simp [*, h.mem_children_iff]
  nodup_children p := by
    rw [children_detachChildren]
    split
    · exact List.nodup_nil
    · exact h.nodup_children p

theorem Acyclic.detachChildren (h : d.Acyclic) (n : NodeId) : (d.detachChildren n).Acyclic := by
  refine h.mono fun p c hc => ?_
  rw [HasChild, children_detachChildren] at hc
  split at hc
  · cases hc
  · exact hc

/-! ### New nodes -/

/-- Links from a node to a new node that comes after it make no cycle. -/
theorem Consistent.acyclic_of_new (h : d.Consistent) (ha : d.Acyclic)
    (hlink : ∀ p c, d'.HasChild p c → d.HasChild p c ∨ d.size ≤ c ∧ p < c) : d'.Acyclic := by
  -- A path stays among the old nodes, or it has come to new ones and only goes up.
  have hpath : ∀ x y, TransGen d'.HasChild x y →
      TransGen d.HasChild x y ∨ d.size ≤ y ∧ x < y := by
    intro x y hxy
    induction hxy with
    | single hc => exact (hlink _ _ hc).imp .single id
    | tail _ hc ih =>
      rcases hlink _ _ hc with hc | ⟨hnew, hlt⟩
      · rcases ih with hold | ⟨hnew, -⟩
        · exact .inl (hold.tail hc)
        · exact absurd (h.lt_size hc).1 (Nat.not_lt.2 hnew)
      · rcases ih with hold | ⟨-, hup⟩
        · obtain ⟨m, hm, -⟩ := TransGen.head'_iff.1 hold
          exact .inr ⟨hnew, Nat.lt_of_lt_of_le (h.lt_size hm).1 hnew⟩
        · exact .inr ⟨hnew, Nat.lt_trans hup hlt⟩
  intro x hx
  rcases hpath x x hx with hx | ⟨-, hx⟩
  · exact ha x hx
  · exact Nat.lt_irrefl x hx

/-- A document has new nodes. Their links lead to later nodes and are in step with each other, but
for the roots, which have a parent and are not yet in its list. -/
structure Sprouts (d : Document κ) (parent : NodeId) (roots : List NodeId) (d' : Document κ) :
    Prop where
  grows : d.Extends d'
  nodup_roots : roots.Nodup
  parent?_iff : ∀ p c, d.size ≤ c → (d'.parent? c = some p ↔
    p = parent ∧ c ∈ roots ∨ d.size ≤ p ∧ c ∈ d'.children p)
  le_of_mem : ∀ c ∈ roots, d.size ≤ c
  nodup_children : ∀ p, d.size ≤ p → (d'.children p).Nodup
  lt_of_mem : ∀ p, d.size ≤ p → ∀ c ∈ d'.children p, p < c

theorem Sprouts.lt_size_of_mem {parent : NodeId} {roots : List NodeId}
    (h : d.Sprouts parent roots d') {c : NodeId} (hc : c ∈ roots) : c < d'.size :=
  lt_size_of_parent? ((h.parent?_iff parent c (h.le_of_mem c hc)).2 (.inl ⟨rfl, hc⟩))

theorem children_eq_nil_of_le {p : NodeId} (h : d.size ≤ p) : d.children p = [] := by
  rw [children, element?, content?_eq_none_of_le h]
  rfl

/-- The links of old nodes are as they were. -/
theorem Extends.children_eq (h : d.Extends d') {p : NodeId} (hp : p < d.size) :
    d'.children p = d.children p :=
  h.frames.children_eq hp id

theorem Extends.parent?_eq (h : d.Extends d') {c : NodeId} (hc : c < d.size) :
    d'.parent? c = d.parent? c :=
  h.parents c hc id

/-- A new node that has no children changes no list of children. -/
theorem children_add (d : Document κ) {c : Content κ} (hc : ∀ e, c = .element e → e.children = [])
    (q : Option NodeId) (p : NodeId) : (d.add c q).1.children p = d.children p := by
  by_cases hp : p = d.size
  · rw [children_eq_nil_of_le (Nat.le_of_eq hp.symm), children, element?, content?_add, if_pos hp]
    cases c with
    | element e => exact hc e rfl
    | text s => rfl
    | comment s => rfl
  · rw [children, children, element?, element?, content?_add, if_neg hp]

theorem Sprouts.refl (d : Document κ) (parent : NodeId) : d.Sprouts parent [] d where
  grows := .refl d
  nodup_roots := List.nodup_nil
  parent?_iff p c hc := by
    rw [parent?_eq_none_of_le hc]
    refine iff_of_false nofun ?_
    rintro (⟨-, hmem⟩ | ⟨hp, hmem⟩)
    · cases hmem
    · rw [children_eq_nil_of_le hp] at hmem
      cases hmem
  le_of_mem c hc := nomatch hc
  nodup_children p hp := by
    rw [children_eq_nil_of_le hp]
    exact List.nodup_nil
  lt_of_mem p hp c hc := by
    rw [children_eq_nil_of_le hp] at hc
    cases hc

/-- A single new node. -/
theorem sprouts_add (d : Document κ) {c : Content κ} (parent : NodeId)
    (hc : ∀ e, c = .element e → e.children = []) :
    d.Sprouts parent [d.size] (d.add c (some parent)).1 := by
  have hnone : ∀ p, d.size ≤ p → (d.add c (some parent)).1.children p = [] := fun p hp => by
    rw [children_add d hc, children_eq_nil_of_le hp]
  refine ⟨extends_add d c _, List.nodup_singleton _, fun p m hm => ?_,
    fun m hm => Nat.le_of_eq (List.mem_singleton.1 hm).symm, fun p hp => ?_, fun p hp m hm => ?_⟩
  · rw [parent?_add, List.mem_singleton]
    have hnot : ¬ (d.size ≤ p ∧ m ∈ (d.add c (some parent)).1.children p) := by
      rintro ⟨hp, hmem⟩
      rw [hnone p hp] at hmem
      cases hmem
    rw [or_iff_left hnot]
    split
    · rename_i heq
      simp [heq, eq_comm]
    · rename_i hne
      rw [parent?_eq_none_of_le hm]
      simp [hne]
  · rw [hnone p hp]
    exact List.nodup_nil
  · rw [hnone p hp] at hm
    cases hm

/-- New nodes behind new nodes. -/
theorem Sprouts.append {parent : NodeId} {roots roots' : List NodeId}
    (h : d.Sprouts parent roots d') (h' : d'.Sprouts parent roots' d'') :
    d.Sprouts parent (roots ++ roots') d'' := by
  have hsize := h.grows.frames.size_le
  -- What the first nodes have as children are first nodes.
  have hfirst : ∀ p c, d.size ≤ p → p < d'.size → c ∈ d''.children p → c < d'.size := by
    intro p c hp hlt hc
    rw [h'.grows.children_eq hlt] at hc
    exact lt_size_of_parent? ((h.parent?_iff p c
      (Nat.le_trans hp (Nat.le_of_lt (h.lt_of_mem p hp c hc)))).2 (.inr ⟨hp, hc⟩))
  refine ⟨h.grows.trans h'.grows, ?_, fun p c hc => ?_, ?_, fun p hp => ?_, fun p hp c hc => ?_⟩
  · exact h.nodup_roots.append h'.nodup_roots fun c hc hc' =>
      Nat.not_lt.2 (h'.le_of_mem c hc') (h.lt_size_of_mem hc)
  · rw [List.mem_append]
    by_cases hlt : c < d'.size
    · have hnot : c ∉ roots' := fun hmem => Nat.not_lt.2 (h'.le_of_mem c hmem) hlt
      rw [h'.grows.parent?_eq hlt, h.parent?_iff p c hc, or_iff_left hnot]
      refine or_congr Iff.rfl (and_congr_right fun hp => ?_)
      by_cases hp' : p < d'.size
      · rw [h'.grows.children_eq hp']
      · refine iff_of_false (fun hmem => ?_) fun hmem => ?_
        · rw [children_eq_nil_of_le (Nat.le_of_not_lt hp')] at hmem
          cases hmem
        · exact absurd (Nat.lt_trans (h'.lt_of_mem p (Nat.le_of_not_lt hp') c hmem) hlt) hp'
    · have hle : d'.size ≤ c := Nat.le_of_not_lt hlt
      have hnot : c ∉ roots := fun hmem => hlt (h.lt_size_of_mem hmem)
      rw [h'.parent?_iff p c hle, or_iff_right hnot]
      refine or_congr Iff.rfl (and_congr_left fun hmem => ⟨fun hp => Nat.le_trans hsize hp,
        fun hp => Nat.le_of_not_lt fun hp' => hlt (hfirst p c hp hp' hmem)⟩)
  · intro c hc
    rcases List.mem_append.1 hc with hc | hc
    · exact h.le_of_mem c hc
    · exact Nat.le_trans hsize (h'.le_of_mem c hc)
  · by_cases hp' : p < d'.size
    · rw [h'.grows.children_eq hp']
      exact h.nodup_children p hp
    · exact h'.nodup_children p (Nat.le_of_not_lt hp')
  · by_cases hp' : p < d'.size
    · rw [h'.grows.children_eq hp'] at hc
      exact h.lt_of_mem p hp c hc
    · exact h'.lt_of_mem p (Nat.le_of_not_lt hp') c hc

/-- The roots are put in the list of their parent. -/
theorem Sprouts.children_setChildren {roots : List NodeId} (h : d.Sprouts n roots d')
    (hn : (d.element? n).isSome) (p : NodeId) :
    (d'.setChildren n roots).children p = if p = n then roots else d'.children p := by
  obtain ⟨e, he⟩ := Option.isSome_iff_exists.1 hn
  split
  · rename_i hp
    subst hp
    refine children_setChildren_self ?_ roots
    rwa [h.grows.frames.element?_eq (lt_size_of_element? he) id]
  · rename_i hp
    exact children_modifyElement_of_ne d' hp _

/-- A new element and then the nodes inside it. -/
theorem Sprouts.element {parent : NodeId} {roots : List NodeId} {e : Element κ}
    (he : e.children = [])
    (h : (d.add (.element e) (some parent)).1.Sprouts d.size roots d') :
    d.Sprouts parent [d.size] (d'.setChildren d.size roots) := by
  have hadd := sprouts_add d parent (c := .element e) fun _ heq => by cases heq; exact he
  have hsize : (d.add (.element e) (some parent)).1.size = d.size + 1 := size_add d _ _
  have hnew : ((d.add (.element e) (some parent)).1.element? d.size).isSome := by
    rw [element?_eq_some_iff.2 ((content?_add d _ _ d.size).trans (if_pos rfl))]
    rfl
  have hchildren := h.children_setChildren hnew
  have hinner {p : NodeId} (hp : d.size ≤ p) (hne : p ≠ d.size) :
      (d.add (.element e) (some parent)).1.size ≤ p :=
    hsize ▸ Nat.lt_of_le_of_ne hp (Ne.symm hne)
  have hlt : ∀ p, d.size ≤ p → ∀ c ∈ (d'.setChildren d.size roots).children p, p < c := by
    intro p hp c hc
    rw [hchildren] at hc
    split at hc
    · rename_i heq
      have hle := h.le_of_mem c hc
      rw [hsize] at hle
      exact heq ▸ hle
    · rename_i hne
      exact h.lt_of_mem p (hinner hp hne) c hc
  refine ⟨(hadd.grows.trans h.grows).setChildren (Nat.le_refl _) roots, List.nodup_singleton _,
    fun p c hc => ?_, hadd.le_of_mem, fun p hp => ?_, hlt⟩
  · by_cases hroot : c = d.size
    · -- The element itself is the root, and no new node comes before it.
      subst hroot
      have hparent : (d'.setChildren d.size roots).parent? d.size = some parent := by
        rw [setChildren, parent?_modifyElement,
          h.grows.parent?_eq (by rw [hsize]; exact Nat.lt_succ_self _), parent?_add, if_pos rfl]
      rw [hparent, or_iff_left fun hmem => Nat.lt_irrefl p
        (Nat.lt_of_lt_of_le (hlt p hmem.1 d.size hmem.2) hmem.1)]
      simp [eq_comm]
    · have hnot : ¬ (p = parent ∧ c ∈ [d.size]) := fun hmem => hroot (List.mem_singleton.1 hmem.2)
      rw [or_iff_right hnot, hchildren, setChildren, parent?_modifyElement,
        h.parent?_iff p c (hinner hc hroot)]
      split
      · rename_i hp
        simp [hp, hsize]
      · rename_i hp
        rw [or_iff_right fun hmem => hp hmem.1]
        refine and_congr_left fun _ => ⟨fun hle => ?_, fun hle => hinner hle hp⟩
        rw [hsize] at hle
        exact Nat.le_of_succ_le hle
  · rw [hchildren]
    split
    · exact h.nodup_roots
    · rename_i hne
      exact h.nodup_children p (hinner hp hne)

mutual

/-- The nodes that are made for markup. -/
theorem sprouts_instantiate (d : Document κ) (parent : NodeId) : (m : Markup) →
    d.Sprouts parent [(d.instantiate parent m).2] (d.instantiate parent m).1
  | .text s => by
    simp only [instantiate]
    exact sprouts_add d parent nofun
  | .comment s => by
    simp only [instantiate]
    exact sprouts_add d parent nofun
  | .element tag attributes children => by
    simp only [instantiate]
    exact .element rfl (sprouts_instantiateAll _ _ children)

/-- The nodes that are made for several markup nodes. -/
theorem sprouts_instantiateAll (d : Document κ) (parent : NodeId) : (ms : List Markup) →
    d.Sprouts parent (d.instantiateAll parent ms).2 (d.instantiateAll parent ms).1
  | [] => by
    simp only [instantiateAll]
    exact .refl d parent
  | m :: ms => by
    simp only [instantiateAll]
    exact (sprouts_instantiate d parent m).append (sprouts_instantiateAll _ parent ms)

end

/-! ### A new content -/

/-- An element without children gets new nodes as its children. -/
theorem Consistent.refill (hd : d.Consistent) {roots : List NodeId} (h : d.Sprouts n roots d')
    (hn : (d.element? n).isSome) (hnil : d.children n = []) :
    (d'.setChildren n roots).Consistent where
  mem_children_iff {p c} := by
    obtain ⟨e, he⟩ := Option.isSome_iff_exists.1 hn
    have hlt := lt_size_of_element? he
    rw [h.children_setChildren hn, setChildren, parent?_modifyElement]
    by_cases hc : c < d.size
    · -- The parents of old nodes are as they were, and no list of a new node has an old one.
      rw [h.grows.parent?_eq hc, ← hd.mem_children_iff]
      split
      · rename_i hp
        rw [hp, hnil]
        exact iff_of_false (fun hmem => Nat.not_lt.2 (h.le_of_mem c hmem) hc) nofun
      · by_cases hp : p < d.size
        · rw [h.grows.children_eq hp]
        · have hp := Nat.le_of_not_lt hp
          rw [children_eq_nil_of_le hp]
          exact iff_of_false (fun hmem => Nat.not_lt.2 hp
            (Nat.lt_trans (h.lt_of_mem p hp c hmem) hc)) nofun
    · rw [h.parent?_iff p c (Nat.le_of_not_lt hc)]
      split
      · rename_i hp
        subst hp
        simp [Nat.not_le.2 hlt]
      · rename_i hp
        rw [or_iff_right fun hmem => hp hmem.1]
        refine (and_iff_right_of_imp fun hmem => Nat.le_of_not_lt fun hp => hc ?_).symm
        rw [h.grows.children_eq hp] at hmem
        exact (hd.lt_size hmem).2
  nodup_children p := by
    rw [h.children_setChildren hn]
    split
    · exact h.nodup_roots
    · by_cases hp : p < d.size
      · rw [h.grows.children_eq hp]
        exact hd.nodup_children p
      · exact h.nodup_children p (Nat.le_of_not_lt hp)

theorem Consistent.acyclic_refill (hd : d.Consistent) (ha : d.Acyclic) {roots : List NodeId}
    (h : d.Sprouts n roots d') (hn : (d.element? n).isSome) :
    (d'.setChildren n roots).Acyclic := by
  obtain ⟨e, he⟩ := Option.isSome_iff_exists.1 hn
  refine hd.acyclic_of_new ha fun p c hc => ?_
  rw [HasChild, h.children_setChildren hn] at hc
  split at hc
  · rename_i hp
    exact .inr ⟨h.le_of_mem c hc,
      hp ▸ Nat.lt_of_lt_of_le (lt_size_of_element? he) (h.le_of_mem c hc)⟩
  · by_cases hp : p < d.size
    · rw [h.grows.children_eq hp] at hc
      exact .inl hc
    · have hp := Nat.le_of_not_lt hp
      have hlt := h.lt_of_mem p hp c hc
      exact .inr ⟨Nat.le_trans hp (Nat.le_of_lt hlt), hlt⟩

theorem isSome_element?_detachChildren (hn : (d.element? n).isSome) :
    ((d.detachChildren n).element? n).isSome := by
  obtain ⟨e, he⟩ := Option.isSome_iff_exists.1 hn
  rw [element?_detachChildren he]
  rfl

theorem Consistent.setMarkup (h : d.Consistent) (n : NodeId) (source : String) :
    (d.setMarkup n source).Consistent := by
  rw [Document.setMarkup]
  split
  · rename_i hn
    exact (h.detachChildren n).refill (sprouts_instantiateAll _ n _)
      (isSome_element?_detachChildren hn) (by rw [children_detachChildren, if_pos rfl])
  · exact h

theorem Consistent.acyclic_setMarkup (h : d.Consistent) (ha : d.Acyclic) (n : NodeId)
    (source : String) : (d.setMarkup n source).Acyclic := by
  rw [Document.setMarkup]
  split
  · rename_i hn
    exact (h.detachChildren n).acyclic_refill (ha.detachChildren n) (sprouts_instantiateAll _ n _)
      (isSome_element?_detachChildren hn)
  · exact ha

/-- A text is given to a node that is none, is no element, is an empty element now, or has the text
as its only child. -/
theorem setText_cases (d : Document κ) (n : NodeId) (s : String) :
    (∀ p, (d.setText n s).children p = d.children p) ∧
        (∀ c, (d.setText n s).parent? c = d.parent? c) ∨
      (d.element? n).isSome ∧ (d.setText n s = d.detachChildren n ∨
        ∃ d' roots, (d.detachChildren n).Sprouts n roots d' ∧
          d.setText n s = d'.setChildren n roots) := by
  rw [setText]
  cases hc : d.content? n with
  | none => exact .inl ⟨fun _ => rfl, fun _ => rfl⟩
  | some c =>
    cases c with
    | element e =>
      refine .inr ⟨by rw [element?_eq_some_iff.2 hc]; rfl, ?_⟩
      dsimp only
      split
      · exact .inl rfl
      · exact .inr ⟨_, _, sprouts_add (d.detachChildren n) n (fun _ he => by cases he), rfl⟩
    | text t =>
      have hnone : d.element? n = none := by rw [element?, hc]
      exact .inl ⟨fun p => children_modifyContent d n p hnone (fun _ _ he => by cases he),
        fun c => parent?_modifyContent d n c _⟩
    | comment t =>
      have hnone : d.element? n = none := by rw [element?, hc]
      exact .inl ⟨fun p => children_modifyContent d n p hnone (fun _ _ he => by cases he),
        fun c => parent?_modifyContent d n c _⟩

theorem Consistent.setText (h : d.Consistent) (n : NodeId) (s : String) :
    (d.setText n s).Consistent := by
  rcases d.setText_cases n s with ⟨hchildren, hparent⟩ | ⟨hn, heq | ⟨d', roots, hs, heq⟩⟩
  · exact h.of_eq hchildren hparent
  · rw [heq]
    exact h.detachChildren n
  · rw [heq]
    exact (h.detachChildren n).refill hs (isSome_element?_detachChildren hn)
      (by rw [children_detachChildren, if_pos rfl])

theorem Consistent.acyclic_setText (h : d.Consistent) (ha : d.Acyclic) (n : NodeId) (s : String) :
    (d.setText n s).Acyclic := by
  rcases d.setText_cases n s with ⟨hchildren, -⟩ | ⟨hn, heq | ⟨d', roots, hs, heq⟩⟩
  · exact ha.mono fun p c hc => by rwa [HasChild, hchildren] at hc
  · rw [heq]
    exact ha.detachChildren n
  · rw [heq]
    exact (h.detachChildren n).acyclic_refill (ha.detachChildren n) hs
      (isSome_element?_detachChildren hn)

end LiveBinding.Document
