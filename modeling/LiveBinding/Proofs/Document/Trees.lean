import LiveBinding.Document.Lemmas
import Mathlib.Data.Finset.Card
import Mathlib.Data.List.Nodup
import Mathlib.Logic.Relation

/-!
# Trees of a document

Nodes, together with all those below them, form trees if no node is met twice. `Document.TreeAll`
lists the nodes that are met, so that an edit of one node leaves every tree alone that it is not a
part of.

## Key definitions

- `Document.Consistent`, `Document.Acyclic`: every link is stored at both ends, and no node is below
  itself
- `Document.AcyclicBelow`: the same of a node and those below it
- `Document.TreeAll`: the nodes below some nodes, with what is known of the attributes of elements
- `Document.Frames`: nodes keep their content

## Key results

- `exists_rank`: an acyclic relation with finitely many values goes downwards
- `Document.AcyclicBelow.exists_treeAll`, `Document.exists_treeAll`: below a node there are trees if
  there are no cycles
- `Document.TreeAll.of_frames`: edits of other nodes
-/

namespace LiveBinding

open Relation

/-- An acyclic relation with finitely many values goes downwards: count the values that are still
ahead. -/
theorem exists_rank {α : Type} {R : α → α → Prop} (values : Finset α)
    (hacyclic : ∀ x, ¬ TransGen R x x) :
    ∃ rank : α → Nat, (∀ x ∈ values, rank x < values.card) ∧
      ∀ x y, R x y → y ∈ values → rank y < rank x := by
  classical
  let ahead (x : α) : Finset α := values.filter (TransGen R x)
  refine ⟨fun x => (ahead x).card, fun x hx => ?_, fun x y hxy hy => ?_⟩
  · refine Finset.card_lt_card (Finset.filter_ssubset.2 ⟨x, hx, hacyclic x⟩)
  · refine Finset.card_lt_card ((Finset.ssubset_iff_of_subset ?_).2 ⟨y, ?_, ?_⟩)
    · intro z hz
      obtain ⟨hz, hyz⟩ := Finset.mem_filter.1 hz
      exact Finset.mem_filter.2 ⟨hz, hyz.head hxy⟩
    · exact Finset.mem_filter.2 ⟨hy, .single hxy⟩
    · exact fun h => hacyclic y (Finset.mem_filter.1 h).2

namespace Markup

mutual

/-- The attributes of each element of a markup node. -/
def elements : Markup → List (List (String × String))
  | .element _ attributes children => attributes :: elementsAll children
  | .text _ => []
  | .comment _ => []

/-- The attributes of each element of several markup nodes. -/
def elementsAll : List Markup → List (List (String × String))
  | [] => []
  | m :: ms => m.elements ++ elementsAll ms

end

end Markup

namespace Document

variable {κ : Type} {d d' d'' : Document κ}

/-! ### Edits -/

/-- No node goes, and the nodes that are not free keep their content. -/
structure Frames (free : NodeId → Prop) (d d' : Document κ) : Prop where
  size_le : d.size ≤ d'.size
  content?_eq : ∀ n, n < d.size → ¬ free n → d'.content? n = d.content? n

variable {free free' : NodeId → Prop}

theorem Frames.refl (free : NodeId → Prop) (d : Document κ) : Frames free d d :=
  ⟨Nat.le_refl _, fun _ _ _ => rfl⟩

theorem Frames.trans (h : Frames free d d') (h' : Frames free d' d'') : Frames free d d'' where
  size_le := Nat.le_trans h.size_le h'.size_le
  content?_eq n hn hfree :=
    (h'.content?_eq n (Nat.lt_of_lt_of_le hn h.size_le) hfree).trans (h.content?_eq n hn hfree)

/-- Only nodes that are there count. -/
theorem Frames.mono (h : Frames free d d') (hfree : ∀ n, n < d.size → free n → free' n) :
    Frames free' d d' :=
  ⟨h.size_le, fun n hn hn' => h.content?_eq n hn fun hf => hn' (hfree n hn hf)⟩

theorem Frames.element?_eq (h : Frames free d d') {n : NodeId} (hn : n < d.size)
    (hfree : ¬ free n) : d'.element? n = d.element? n := by
  rw [element?, element?, h.content?_eq n hn hfree]

theorem Frames.children_eq (h : Frames free d d') {n : NodeId} (hn : n < d.size)
    (hfree : ¬ free n) : d'.children n = d.children n := by
  rw [children, children, h.element?_eq hn hfree]

theorem frames_modifyContent (d : Document κ) (n : NodeId) (f : Content κ → Content κ) :
    Frames (· = n) d (d.modifyContent n f) where
  size_le := Nat.le_of_eq (size_modifyContent d n f).symm
  content?_eq m _ hm := by rw [content?_modifyContent, if_neg (Ne.symm hm)]

theorem frames_setParent (d : Document κ) (n : NodeId) (p : Option NodeId) :
    Frames free d (d.setParent n p) where
  size_le := Nat.le_of_eq (size_setParent d n p).symm
  content?_eq m _ _ := content?_setParent d n m p

theorem frames_add (d : Document κ) (c : Content κ) (p : Option NodeId) :
    Frames free d (d.add c p).1 where
  size_le := Nat.le_of_lt (Nat.lt_of_lt_of_eq (Nat.lt_succ_self _) (size_add d c p).symm)
  content?_eq m hm _ := by rw [content?_add, if_neg (Nat.ne_of_lt hm)]

theorem frames_modifyElement (d : Document κ) (n : NodeId) (f : Element κ → Element κ) :
    Frames (· = n) d (d.modifyElement n f) := by
  rw [modifyElement]
  exact frames_modifyContent d n _

theorem frames_setChildren (d : Document κ) (n : NodeId) (children : List NodeId) :
    Frames (· = n) d (d.setChildren n children) :=
  frames_modifyElement d n _

theorem frames_foldl_setParent (d : Document κ) (cs : List NodeId) (p : Option NodeId) :
    Frames free d (cs.foldl (fun d c => d.setParent c p) d) := by
  induction cs generalizing d with
  | nil => exact .refl free d
  | cons c cs ih => exact (frames_setParent d c p).trans (ih _)

theorem size_foldl_setParent (d : Document κ) (cs : List NodeId) (p : Option NodeId) :
    (cs.foldl (fun d c => d.setParent c p) d).size = d.size := by
  induction cs generalizing d with
  | nil => rfl
  | cons c cs ih => rw [List.foldl_cons, ih, size_setParent]

theorem frames_detachChildren (d : Document κ) (n : NodeId) :
    Frames (· = n) d (d.detachChildren n) :=
  (frames_setChildren d n []).trans (frames_foldl_setParent _ _ none)

@[simp] theorem size_detachChildren (d : Document κ) (n : NodeId) :
    (d.detachChildren n).size = d.size := by
  rw [detachChildren, size_foldl_setParent, setChildren, size_modifyElement]

/-- Detaching its children leaves an element without children. -/
theorem element?_detachChildren {n : NodeId} {e : Element κ} (he : d.element? n = some e) :
    (d.detachChildren n).element? n = some { e with children := [] } := by
  have hset : (d.setChildren n []).element? n = some { e with children := [] } := by
    rw [setChildren, element?_modifyElement, if_pos rfl, he]
    rfl
  have hframes : Frames (fun _ => False) (d.setChildren n []) (d.detachChildren n) :=
    frames_foldl_setParent _ _ none
  rw [hframes.element?_eq (lt_size_of_element? hset) id, hset]

/-! ### Trees -/

/-- Nodes and all those below them, each with the nodes that are met on the way; `P` holds of the
attributes of every element among them. -/
inductive TreeAll (d : Document κ) (P : Fields String → Prop) :
    List NodeId → List NodeId → Prop
  | nil : TreeAll d P [] []
  | cons {n : NodeId} {ns inner fp : List NodeId} (hn : n < d.size)
      (hP : ∀ e, d.element? n = some e → P e.attributes)
      (hinner : TreeAll d P (d.children n) inner) (hrest : TreeAll d P ns fp) :
      TreeAll d P (n :: ns) (n :: (inner ++ fp))

variable {P Q : Fields String → Prop} {ns fp : List NodeId}

theorem TreeAll.lt_size (h : d.TreeAll P ns fp) : ∀ n ∈ fp, n < d.size := by
  induction h with
  | nil => simp
  | cons hn _ _ _ ih ih' =>
    intro m hm
    rcases List.mem_cons.1 hm with rfl | hm
    · exact hn
    · exact (List.mem_append.1 hm).elim (ih m) (ih' m)

theorem TreeAll.length_le_size (h : d.TreeAll P ns fp) (hnodup : fp.Nodup) :
    fp.length ≤ d.size := by
  have hsub : fp ⊆ List.range d.size := fun n hn => List.mem_range.2 (h.lt_size n hn)
  have hlen := (List.subperm_of_subset hnodup hsub).length_le
  rwa [List.length_range] at hlen

theorem TreeAll.append {ns' fp' : List NodeId} (h : d.TreeAll P ns fp)
    (h' : d.TreeAll P ns' fp') : d.TreeAll P (ns ++ ns') (fp ++ fp') := by
  induction h with
  | nil => exact h'
  | cons hn hP hinner _ _ ih =>
    rw [List.cons_append, List.cons_append, List.append_assoc]
    exact .cons hn hP hinner ih

/-- What is known of the attributes can be something that holds of all nodes that are met. -/
theorem TreeAll.of_forall (h : d.TreeAll P ns fp)
    (hQ : ∀ n ∈ fp, ∀ e, d.element? n = some e → Q e.attributes) : d.TreeAll Q ns fp := by
  induction h with
  | nil => exact .nil
  | @cons n ns inner fp hn _ _ _ ih ih' =>
    refine .cons hn (hQ n (List.mem_cons_self ..)) (ih fun m hm => hQ m ?_)
      (ih' fun m hm => hQ m ?_)
    · exact List.mem_cons_of_mem _ (List.mem_append_left _ hm)
    · exact List.mem_cons_of_mem _ (List.mem_append_right _ hm)

theorem TreeAll.mono (h : d.TreeAll P ns fp) (hPQ : ∀ as, P as → Q as) : d.TreeAll Q ns fp := by
  induction h with
  | nil => exact .nil
  | cons hn hP _ _ ih ih' => exact .cons hn (fun e he => hPQ _ (hP e he)) ih ih'

/-- Edits of other nodes leave trees as they are. -/
theorem TreeAll.of_frames (h : d.TreeAll P ns fp) (hframes : Frames free d d')
    (hfree : ∀ n ∈ fp, ¬ free n) : d'.TreeAll P ns fp := by
  induction h with
  | nil => exact .nil
  | @cons n ns inner fp hn hP _ _ ih ih' =>
    have hnot : ¬ free n := hfree n (List.mem_cons_self ..)
    have hinner := ih fun m hm => hfree m (List.mem_cons_of_mem _ (List.mem_append_left _ hm))
    have hrest := ih' fun m hm => hfree m (List.mem_cons_of_mem _ (List.mem_append_right _ hm))
    rw [← hframes.children_eq hn hnot] at hinner
    refine .cons (Nat.lt_of_lt_of_le hn hframes.size_le) (fun e he => hP e ?_) hinner hrest
    rwa [hframes.element?_eq hn hnot] at he

/-! ### Acyclic documents -/

/-- Every link is stored at both ends, and once. -/
structure Consistent (d : Document κ) : Prop where
  mem_children_iff : ∀ {p c}, c ∈ d.children p ↔ d.parent? c = some p
  nodup_children : ∀ p, (d.children p).Nodup

/-- A node is a child of another one. -/
def HasChild (d : Document κ) (p c : NodeId) : Prop := c ∈ d.children p

/-- No node is below itself. -/
def Acyclic (d : Document κ) : Prop := ∀ n, ¬ TransGen d.HasChild n n

/-- Neither a node nor any node below it is below itself. -/
def AcyclicBelow (d : Document κ) (n : NodeId) : Prop :=
  ∀ m, ReflTransGen d.HasChild n m → ¬ TransGen d.HasChild m m

theorem Acyclic.below (h : d.Acyclic) (n : NodeId) : d.AcyclicBelow n := fun m _ => h m

theorem AcyclicBelow.not_below {n : NodeId} (h : d.AcyclicBelow n) : ¬ TransGen d.HasChild n n :=
  h n .refl

/-- It is enough to look at the nodes that are there. -/
theorem Consistent.of_forall_lt (hchildren : ∀ p < d.size, (d.children p).Nodup ∧
      ∀ c ∈ d.children p, d.parent? c = some p)
    (hparents : ∀ c < d.size, ∀ p ∈ d.parent? c, c ∈ d.children p) : d.Consistent where
  mem_children_iff {p c} := by
    constructor
    · intro h
      by_cases hp : p < d.size
      · exact (hchildren p hp).2 c h
      · rw [children, element?, content?_eq_none_of_le (Nat.le_of_not_lt hp)] at h
        cases h
    · intro h
      exact hparents c (lt_size_of_parent? h) p h
  nodup_children p := by
    by_cases hp : p < d.size
    · exact (hchildren p hp).1
    · rw [children, element?, content?_eq_none_of_le (Nat.le_of_not_lt hp)]
      exact List.nodup_nil

/-- A document whose nodes come after their parents is acyclic. -/
theorem Acyclic.of_forall_lt (h : ∀ p < d.size, ∀ c ∈ d.children p, p < c) : d.Acyclic := by
  have hstep : ∀ p c, d.HasChild p c → p < c := by
    intro p c hc
    by_cases hp : p < d.size
    · exact h p hp c hc
    · rw [HasChild, children, element?, content?_eq_none_of_le (Nat.le_of_not_lt hp)] at hc
      cases hc
  intro n hn
  -- Whatever is below a node comes after it.
  have hlt : ∀ m, TransGen d.HasChild n m → n < m := by
    intro m hm
    induction hm with
    | single hm => exact hstep n _ hm
    | tail _ hm ih => exact Nat.lt_trans ih (hstep _ _ hm)
  exact Nat.lt_irrefl n (hlt n hn)

/-- A node has one parent. -/
theorem Consistent.eq_of_hasChild (hc : d.Consistent) {p q c : NodeId} (hp : d.HasChild p c)
    (hq : d.HasChild q c) : p = q :=
  Option.some.inj ((hc.mem_children_iff.1 hp).symm.trans (hc.mem_children_iff.1 hq))

/-- Of two nodes that are above a third one, one is above the other. -/
theorem Consistent.above_total (hc : d.Consistent) {a b n : NodeId}
    (ha : ReflTransGen d.HasChild a n) (hb : ReflTransGen d.HasChild b n) :
    ReflTransGen (Function.swap d.HasChild) a b ∨ ReflTransGen (Function.swap d.HasChild) b a :=
  ReflTransGen.total_of_right_unique (fun _ _ _ => hc.eq_of_hasChild) (reflTransGen_swap.2 ha)
    (reflTransGen_swap.2 hb)

/-- Nothing is below two children of one node. -/
theorem Consistent.not_below_siblings (hc : d.Consistent) {p a b n : NodeId}
    (ha : ¬ TransGen d.HasChild p p) (hpa : d.HasChild p a) (hpb : d.HasChild p b) (hne : a ≠ b)
    (han : ReflTransGen d.HasChild a n) (hbn : ReflTransGen d.HasChild b n) : False := by
  -- One of the two would be below the other one, and so `p` below itself.
  have hbelow (x y : NodeId) (hpx : d.HasChild p x) (hpy : d.HasChild p y) (hxy : x ≠ y)
      (h : ReflTransGen (Function.swap d.HasChild) x y) : False := by
    rcases h.cases_head with heq | ⟨q, hq, hqy⟩
    · exact hxy heq
    · obtain rfl : p = q := hc.eq_of_hasChild hpx hq
      exact ha (.head' hpy (reflTransGen_swap.1 hqy))
  rcases hc.above_total han hbn with h | h
  · exact hbelow a b hpa hpb hne h
  · exact hbelow b a hpb hpa (Ne.symm hne) h

/-- Below a node there are trees if there is no cycle. -/
theorem AcyclicBelow.exists_treeAll {root : NodeId} (ha : d.AcyclicBelow root)
    (hc : d.Consistent) :
    ∃ fp, d.TreeAll (fun _ => True) (d.children root) fp ∧ fp.Nodup ∧
      ∀ m ∈ fp, TransGen d.HasChild root m := by
  -- Only the links below the node count, since there may be cycles elsewhere.
  obtain ⟨rank, -, hrank⟩ := exists_rank (Finset.range d.size)
    (R := fun x y => ReflTransGen d.HasChild root x ∧ d.HasChild x y) <| by
      intro x hx
      obtain ⟨_, ⟨hroot, -⟩, -⟩ := TransGen.head'_iff.1 hx
      exact ha x hroot (TransGen.mono (fun _ _ h => h.2) x x hx)
  suffices hbelow : ∀ n, ReflTransGen d.HasChild root n →
      ∃ fp, d.TreeAll (fun _ => True) (d.children n) fp ∧ fp.Nodup ∧
        ∀ m ∈ fp, TransGen d.HasChild n m from hbelow root .refl
  intro n hn
  -- By induction on the number of nodes ahead, and then on the list of children.
  induction hk : rank n using Nat.strong_induction_on generalizing n with
  | _ k ih =>
    have hlist : ∀ cs : List NodeId, cs.Nodup → (∀ c ∈ cs, d.HasChild n c) →
        ∃ fp, d.TreeAll (fun _ => True) cs fp ∧ fp.Nodup ∧
          ∀ m ∈ fp, ∃ c ∈ cs, ReflTransGen d.HasChild c m := by
      intro cs hnodup hcs
      induction cs with
      | nil => exact ⟨[], .nil, List.nodup_nil, by simp⟩
      | cons c cs ihcs =>
        obtain ⟨hnot, hnodup⟩ := List.nodup_cons.1 hnodup
        have hchild : d.HasChild n c := hcs c (List.mem_cons_self ..)
        have hlt : c < d.size := lt_size_of_parent? (hc.mem_children_iff.1 hchild)
        obtain ⟨inner, htree, hinner, hbelow⟩ :=
          ih (rank c) (hk ▸ hrank n c ⟨hn, hchild⟩ (Finset.mem_range.2 hlt)) c (hn.tail hchild) rfl
        obtain ⟨fp, htrees, hfp, hbelow'⟩ :=
          ihcs hnodup fun x hx => hcs x (List.mem_cons_of_mem _ hx)
        -- A node below two siblings would lie on a cycle.
        have hapart : ∀ m, ReflTransGen d.HasChild c m → m ∉ fp := by
          intro m hm hmem
          obtain ⟨x, hx, hxm⟩ := hbelow' m hmem
          have hne : c ≠ x := fun h => hnot (h ▸ hx)
          exact hc.not_below_siblings (ha n hn) hchild (hcs x (List.mem_cons_of_mem _ hx)) hne hm
            hxm
        refine ⟨c :: (inner ++ fp), .cons hlt (fun _ _ => trivial) htree htrees, ?_, ?_⟩
        · refine List.nodup_cons.2 ⟨fun hmem => ?_, hinner.append hfp fun m hm hm' =>
            hapart m (hbelow m hm).to_reflTransGen hm'⟩
          rcases List.mem_append.1 hmem with hmem | hmem
          · exact ha c (hn.tail hchild) (hbelow c hmem)
          · exact hapart c .refl hmem
        · intro m hm
          rcases List.mem_cons.1 hm with rfl | hm
          · exact ⟨m, List.mem_cons_self .., .refl⟩
          · rcases List.mem_append.1 hm with hm | hm
            · exact ⟨c, List.mem_cons_self .., (hbelow m hm).to_reflTransGen⟩
            · obtain ⟨x, hx, hxm⟩ := hbelow' m hm
              exact ⟨x, List.mem_cons_of_mem _ hx, hxm⟩
    obtain ⟨fp, htrees, hfp, hbelow⟩ := hlist (d.children n) (hc.nodup_children n) fun _ h => h
    refine ⟨fp, htrees, hfp, fun m hm => ?_⟩
    obtain ⟨c, hc', hcm⟩ := hbelow m hm
    exact .head' hc' hcm

/-- Below a node of an acyclic document there are trees. -/
theorem exists_treeAll (hc : d.Consistent) (ha : d.Acyclic) (n : NodeId) :
    ∃ fp, d.TreeAll (fun _ => True) (d.children n) fp ∧ fp.Nodup ∧
      ∀ m ∈ fp, TransGen d.HasChild n m :=
  (ha.below n).exists_treeAll hc

/-! ### Orphans -/

/-- There is no cycle below a node without a parent. -/
theorem Consistent.acyclicBelow_of_orphan (hc : d.Consistent) {n : NodeId}
    (hn : d.parent? n = none) : d.AcyclicBelow n := by
  intro m hm
  induction hm with
  | refl =>
    intro hcycle
    obtain ⟨p, -, hp⟩ := TransGen.tail'_iff.1 hcycle
    cases hn.symm.trans (hc.mem_children_iff.1 hp)
  | @tail p m _ hpm ih =>
    intro hcycle
    -- A cycle comes back to a node by its only parent, which lies on the cycle too.
    obtain ⟨q, hq, hqm⟩ := TransGen.tail'_iff.1 hcycle
    obtain rfl := hc.eq_of_hasChild hpm hqm
    exact ih (.head' hpm hq)

/-- Nothing is below two nodes without parents. -/
theorem Consistent.not_below_orphans (hc : d.Consistent) {a b n : NodeId}
    (ha : d.parent? a = none) (hb : d.parent? b = none) (hne : a ≠ b)
    (han : ReflTransGen d.HasChild a n) (hbn : ReflTransGen d.HasChild b n) : False := by
  have horphan (x y : NodeId) (hx : d.parent? x = none) (hxy : x ≠ y)
      (h : ReflTransGen (Function.swap d.HasChild) x y) : False := by
    rcases h.cases_head with heq | ⟨p, hp, -⟩
    · exact hxy heq
    · cases hx.symm.trans (hc.mem_children_iff.1 hp)
  rcases hc.above_total han hbn with h | h
  · exact horphan a b ha hne h
  · exact horphan b a hb (Ne.symm hne) h

/-- Nodes without parents form trees. -/
theorem Consistent.exists_treeAll_of_orphans (hc : d.Consistent) {cs : List NodeId}
    (hnodup : cs.Nodup) (hcs : ∀ c ∈ cs, c < d.size ∧ d.parent? c = none) :
    ∃ fp, d.TreeAll (fun _ => True) cs fp ∧ fp.Nodup ∧
      ∀ m ∈ fp, ∃ c ∈ cs, ReflTransGen d.HasChild c m := by
  induction cs with
  | nil => exact ⟨[], .nil, List.nodup_nil, by simp⟩
  | cons c cs ih =>
    obtain ⟨hnot, hnodup⟩ := List.nodup_cons.1 hnodup
    obtain ⟨⟨hlt, horphan⟩, hcs⟩ := List.forall_mem_cons.1 hcs
    have ha := hc.acyclicBelow_of_orphan horphan
    obtain ⟨inner, htree, hinner, hbelow⟩ := ha.exists_treeAll hc
    obtain ⟨fp, htrees, hfp, hbelow'⟩ := ih hnodup hcs
    have hapart (m : NodeId) (hm : ReflTransGen d.HasChild c m) : m ∉ fp := by
      intro hmem
      obtain ⟨x, hx, hxm⟩ := hbelow' m hmem
      exact hc.not_below_orphans horphan (hcs x hx).2 (fun h => hnot (h ▸ hx)) hm hxm
    refine ⟨c :: (inner ++ fp), .cons hlt (fun _ _ => trivial) htree htrees, ?_, ?_⟩
    · refine List.nodup_cons.2 ⟨fun hmem => ?_, hinner.append hfp fun m hm hm' =>
        hapart m (hbelow m hm).to_reflTransGen hm'⟩
      exact (List.mem_append.1 hmem).elim (fun hmem => ha.not_below (hbelow c hmem))
        (hapart c .refl)
    · intro m hm
      rcases List.mem_cons.1 hm with rfl | hm
      · exact ⟨m, List.mem_cons_self .., .refl⟩
      · rcases List.mem_append.1 hm with hm | hm
        · exact ⟨c, List.mem_cons_self .., (hbelow m hm).to_reflTransGen⟩
        · obtain ⟨x, hx, hxm⟩ := hbelow' m hm
          exact ⟨x, List.mem_cons_of_mem _ hx, hxm⟩

/-! ### New nodes -/

theorem children_eq_nil_of_element?_eq_none {n : NodeId} (h : d.element? n = none) :
    d.children n = [] := by
  rw [children, h]
  rfl

end Document

end LiveBinding
