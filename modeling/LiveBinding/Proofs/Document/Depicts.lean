import LiveBinding.Document.Query
import LiveBinding.Proofs.Document.Trees

/-!
# Nodes that depict markup

`Document.Depicts d ns ms fp` says what the nodes `ns` look like: they are the markup nodes `ms`,
and `fp` lists, in document order, all nodes that are met in looking at them. Like the trees that
they form, depicted nodes are left alone by edits of other nodes. Unlike a snapshot, whose depth is
limited, what is depicted has no limit, and a snapshot shows it completely.

## Key definitions

- `Document.Depicts`: nodes and the markup that they depict
- `Document.KeepsParents`: nodes keep their parent
- `Document.Refilled`: an element gets new nodes as its children

## Key results

- `Document.TreeAll.exists_depicts`: nodes that form trees depict something
- `Document.Depicts.filterMap_markup?`: a snapshot shows what is depicted
- `Document.depicts_instantiateAll`: new nodes for markup depict it
- `Document.refilled_setMarkup`, `Document.refilled_setText`: an element with a new content
-/

namespace LiveBinding

open Relation

/-- The nodes of a text: one, or none for the empty text. -/
def Markup.ofText (s : String) : List Markup := if s = "" then [] else [.text s]

theorem Markup.elementsAll_ofText (s : String) : elementsAll (ofText s) = [] := by
  rw [ofText]
  split <;> rfl

/-- The markup of a node that is no element. -/
def Content.leaf? {κ : Type} : Content κ → Option Markup
  | .text s => some (.text s)
  | .comment s => some (.comment s)
  | .element _ => none

namespace Document

variable {κ : Type} {d d' d'' : Document κ} {free : NodeId → Prop}
  {ns ns' fp fp' : List NodeId} {ms ms' : List Markup}

theorem children_of_content? {n : NodeId} {e : Element κ} (h : d.content? n = some (.element e)) :
    d.children n = e.children := by
  rw [children, element?_eq_some_iff.2 h]
  rfl

theorem element?_eq_none_of_leaf {n : NodeId} {c : Content κ} {m : Markup}
    (h : d.content? n = some c) (hc : c.leaf? = some m) : d.element? n = none := by
  cases c with
  | element e => cases hc
  | text s => rw [element?, h]
  | comment s => rw [element?, h]

/-- Nodes depict markup nodes; all nodes that are met on the way are listed. -/
inductive Depicts (d : Document κ) : List NodeId → List Markup → List NodeId → Prop
  | nil : Depicts d [] [] []
  | leaf {n : NodeId} {c : Content κ} {m : Markup} {ns fp : List NodeId} {ms : List Markup}
      (h : d.content? n = some c) (hc : c.leaf? = some m) (rest : Depicts d ns ms fp) :
      Depicts d (n :: ns) (m :: ms) (n :: fp)
  | element {n : NodeId} {e : Element κ} {ns inner fp : List NodeId} {children ms : List Markup}
      (h : d.content? n = some (.element e)) (inside : Depicts d e.children children inner)
      (rest : Depicts d ns ms fp) :
      Depicts d (n :: ns) (.element e.tag e.attributes children :: ms) (n :: (inner ++ fp))

namespace Depicts

theorem append (h : d.Depicts ns ms fp) (h' : d.Depicts ns' ms' fp') :
    d.Depicts (ns ++ ns') (ms ++ ms') (fp ++ fp') := by
  induction h with
  | nil => exact h'
  | leaf h hc _ ih => exact .leaf h hc ih
  | element h inside _ _ ih =>
    rw [List.cons_append, List.cons_append, List.cons_append, List.append_assoc]
    exact .element h inside ih

theorem length_eq (h : d.Depicts ns ms fp) : ms.length = ns.length := by
  induction h with
  | nil => rfl
  | leaf _ _ _ ih => rw [List.length_cons, ih, List.length_cons]
  | element _ _ _ _ ih => rw [List.length_cons, ih, List.length_cons]

/-- The first nodes depict the first markup nodes. -/
theorem exists_of_append (h : d.Depicts (ns ++ ns') (ms ++ ms') fp)
    (hlength : ms.length = ns.length) :
    ∃ fp₁ fp₂, fp = fp₁ ++ fp₂ ∧ d.Depicts ns ms fp₁ ∧ d.Depicts ns' ms' fp₂ := by
  -- The split is by number, and what is inside an element goes with it.
  induction ns generalizing ms fp with
  | nil =>
    obtain rfl := List.length_eq_zero_iff.1 hlength
    exact ⟨[], fp, rfl, .nil, h⟩
  | cons n ns ih =>
    obtain ⟨m, ms, rfl⟩ := List.exists_cons_of_length_eq_add_one hlength
    rw [List.length_cons, List.length_cons, Nat.add_right_cancel_iff] at hlength
    cases h with
    | leaf h hc rest =>
      obtain ⟨fp₁, fp₂, rfl, h₁, h₂⟩ := ih rest hlength
      exact ⟨n :: fp₁, fp₂, rfl, .leaf h hc h₁, h₂⟩
    | @element _ e _ inner _ _ _ h inside rest =>
      obtain ⟨fp₁, fp₂, rfl, h₁, h₂⟩ := ih rest hlength
      exact ⟨n :: (inner ++ fp₁), fp₂, by simp, .element h inside h₁, h₂⟩

/-- Edits of other nodes leave what is depicted as it is. -/
theorem of_frames (h : d.Depicts ns ms fp) (hframes : Frames free d d')
    (hfree : ∀ n ∈ fp, ¬ free n) : d'.Depicts ns ms fp := by
  have hkept : ∀ {n : NodeId} {c : Content κ}, d.content? n = some c → ¬ free n →
      d'.content? n = some c := by
    intro n c hc hn
    rw [hframes.content?_eq n (lt_size_of_content? hc) hn, hc]
  induction h with
  | nil => exact .nil
  | leaf h hc _ ih =>
    obtain ⟨hn, hfree⟩ := List.forall_mem_cons.1 hfree
    exact .leaf (hkept h hn) hc (ih hfree)
  | element h _ _ ihinside ih =>
    obtain ⟨hn, hfree⟩ := List.forall_mem_cons.1 hfree
    rw [List.forall_mem_append] at hfree
    exact .element (hkept h hn) (ihinside hfree.1) (ih hfree.2)

theorem lt_size (h : d.Depicts ns ms fp) : ∀ n ∈ fp, n < d.size := by
  induction h with
  | nil => simp
  | leaf h _ _ ih => exact List.forall_mem_cons.2 ⟨lt_size_of_content? h, ih⟩
  | element h _ _ ihinside ih =>
    exact List.forall_mem_cons.2 ⟨lt_size_of_content? h, List.forall_mem_append.2 ⟨ihinside, ih⟩⟩

/-- The nodes that are met are all that there are, with all nodes below them. -/
theorem mem_of_reflTransGen (h : d.Depicts ns ms fp) {n m : NodeId} (hn : n ∈ ns)
    (hm : ReflTransGen d.HasChild n m) : m ∈ fp := by
  -- A path ends where it starts, or goes on to a child, which is met inside the element.
  induction h generalizing n with
  | nil => cases hn
  | leaf h hc _ ih =>
    rcases List.mem_cons.1 hn with rfl | hn
    · rcases hm.cases_head with rfl | ⟨c, hbelow, -⟩
      · exact List.mem_cons_self
      · rw [HasChild, children_eq_nil_of_element?_eq_none (element?_eq_none_of_leaf h hc)] at hbelow
        cases hbelow
    · exact List.mem_cons_of_mem _ (ih hn hm)
  | element h _ _ ihinside ih =>
    rcases List.mem_cons.1 hn with rfl | hn
    · rcases hm.cases_head with rfl | ⟨c, hbelow, hm⟩
      · exact List.mem_cons_self
      · rw [HasChild, children_of_content? h] at hbelow
        exact List.mem_cons_of_mem _ (List.mem_append_left _ (ihinside hbelow hm))
    · exact List.mem_cons_of_mem _ (List.mem_append_right _ (ih hn hm))

theorem subset (h : d.Depicts ns ms fp) : ns ⊆ fp := fun _ hn => h.mem_of_reflTransGen hn .refl

/-- Nothing else is met. -/
theorem exists_below (h : d.Depicts ns ms fp) {n : NodeId} (hn : n ∈ fp) :
    ∃ m ∈ ns, ReflTransGen d.HasChild m n := by
  induction h with
  | nil => cases hn
  | @leaf m _ _ _ _ _ _ _ _ ih =>
    rcases List.mem_cons.1 hn with rfl | hn
    · exact ⟨n, List.mem_cons_self .., .refl⟩
    · obtain ⟨k, hk, hbelow⟩ := ih hn
      exact ⟨k, List.mem_cons_of_mem _ hk, hbelow⟩
  | @element m _ _ _ _ _ _ h _ _ ihinside ih =>
    rcases List.mem_cons.1 hn with rfl | hn
    · exact ⟨n, List.mem_cons_self .., .refl⟩
    · rcases List.mem_append.1 hn with hn | hn
      · obtain ⟨k, hk, hbelow⟩ := ihinside hn
        have hchild : d.HasChild m k := by rwa [HasChild, children_of_content? h]
        exact ⟨m, List.mem_cons_self .., .head hchild hbelow⟩
      · obtain ⟨k, hk, hbelow⟩ := ih hn
        exact ⟨k, List.mem_cons_of_mem _ hk, hbelow⟩

/-- What is met from the children of a node is what is below it. -/
theorem mem_iff_transGen {n m : NodeId} (h : d.Depicts (d.children n) ms fp) :
    m ∈ fp ↔ TransGen d.HasChild n m := by
  constructor
  · intro hm
    obtain ⟨c, hc, hbelow⟩ := h.exists_below hm
    exact .head' hc hbelow
  · intro hm
    obtain ⟨c, hc, hbelow⟩ := TransGen.head'_iff.1 hm
    exact h.mem_of_reflTransGen hc hbelow

/-- With a node that is met, its children are met. -/
theorem mem_of_mem_children (h : d.Depicts ns ms fp) {p c : NodeId} (hp : p ∈ fp)
    (hc : c ∈ d.children p) : c ∈ fp := by
  induction h with
  | nil => cases hp
  | leaf h hleaf _ ih =>
    rcases List.mem_cons.1 hp with rfl | hp
    · rw [children_eq_nil_of_element?_eq_none (element?_eq_none_of_leaf h hleaf)] at hc
      cases hc
    · exact List.mem_cons_of_mem _ (ih hp)
  | element h inside _ ihinside ih =>
    rcases List.mem_cons.1 hp with rfl | hp
    · rw [children_of_content? h] at hc
      exact List.mem_cons_of_mem _ (List.mem_append_left _ (inside.subset hc))
    · rcases List.mem_append.1 hp with hp | hp
      · exact List.mem_cons_of_mem _ (List.mem_append_left _ (ihinside hp))
      · exact List.mem_cons_of_mem _ (List.mem_append_right _ (ih hp))

/-- The attributes of the elements that are met are those of the markup. -/
theorem attributes_mem (h : d.Depicts ns ms fp) {n : NodeId} {e : Element κ} (hn : n ∈ fp)
    (he : d.element? n = some e) : e.attributes ∈ Markup.elementsAll ms := by
  induction h with
  | nil => cases hn
  | leaf h hc _ ih =>
    rcases List.mem_cons.1 hn with rfl | hn
    · rw [element?_eq_none_of_leaf h hc] at he
      cases he
    · exact List.mem_append_right _ (ih hn)
  | element h _ _ ihinside ih =>
    simp only [Markup.elementsAll, Markup.elements, List.cons_append, List.mem_cons,
      List.mem_append]
    rcases List.mem_cons.1 hn with rfl | hn
    · rw [element?_eq_some_iff.2 h] at he
      exact .inl (by rw [Option.some.inj he])
    · rcases List.mem_append.1 hn with hn | hn
      · exact .inr (.inl (ihinside hn))
      · exact .inr (.inr (ih hn))

/-- What depicts markup forms trees, with the attributes of the markup. -/
theorem treeAll (h : d.Depicts ns ms fp) : d.TreeAll (· ∈ Markup.elementsAll ms) ns fp := by
  -- The shape is by induction; the attributes are known for all nodes that are met.
  have htrees : d.TreeAll (fun _ => True) ns fp := by
    induction h with
    | nil => exact .nil
    | @leaf n _ _ ns fp _ h hc _ ih =>
      have hinner : d.TreeAll (fun _ => True) (d.children n) [] := by
        rw [children_eq_nil_of_element?_eq_none (element?_eq_none_of_leaf h hc)]
        exact .nil
      exact .cons (lt_size_of_content? h) (fun _ _ => trivial) hinner ih
    | element h _ _ ihinside ih =>
      rw [← children_of_content? h] at ihinside
      exact .cons (lt_size_of_content? h) (fun _ _ => trivial) ihinside ih
  exact htrees.of_forall fun _ hn _ he => h.attributes_mem hn he

/-- A snapshot that is deep enough shows what is depicted. -/
theorem filterMap_markupTo (h : d.Depicts ns ms fp) {depth : Nat} (hdepth : fp.length ≤ depth) :
    ns.filterMap (d.markupTo depth) = ms := by
  -- Each level takes one node off the list, so its length is a depth that is enough.
  induction h generalizing depth with
  | nil => rfl
  | @leaf n c m ns fp _ h hc _ ih =>
    obtain ⟨depth, rfl⟩ := Nat.exists_eq_add_one.2 (Nat.zero_lt_of_lt hdepth)
    have hrest := ih (Nat.le_trans (Nat.le_succ _) hdepth)
    rw [List.filterMap_cons, hrest, markupTo, h]
    cases c with
    | element e => cases hc
    | text s =>
      obtain rfl := Option.some.inj hc
      rfl
    | comment s =>
      obtain rfl := Option.some.inj hc
      rfl
  | @element n e ns inner fp children ms h _ _ ihinside ih =>
    obtain ⟨depth, rfl⟩ := Nat.exists_eq_add_one.2 (Nat.zero_lt_of_lt hdepth)
    rw [List.length_cons, List.length_append] at hdepth
    have hchildren : e.children.filterMap (d.markupTo depth) = children := ihinside (by omega)
    have hrest : ns.filterMap (d.markupTo (depth + 1)) = ms := ih (by omega)
    rw [List.filterMap_cons, hrest, markupTo, h]
    dsimp only
    rw [hchildren]

/-- A snapshot shows what is depicted. -/
theorem filterMap_markup? (h : d.Depicts ns ms fp) (hnodup : fp.Nodup) :
    ns.filterMap d.markup? = ms :=
  h.filterMap_markupTo (h.treeAll.length_le_size hnodup)

end Depicts

/-- Nodes that form trees depict something. -/
theorem TreeAll.exists_depicts {P : Fields String → Prop} (h : d.TreeAll P ns fp) :
    ∃ ms, d.Depicts ns ms fp := by
  induction h with
  | nil => exact ⟨[], .nil⟩
  | @cons n ns inner fp hn _ hinner _ ihinner ihrest =>
    obtain ⟨cs, hcs⟩ := ihinner
    obtain ⟨ms, hms⟩ := ihrest
    obtain ⟨c, hc⟩ : ∃ c, d.content? n = some c :=
      ⟨_, by rw [content?, Array.getElem?_eq_getElem hn, Option.map_some]⟩
    -- Nothing is below a node that is no element, so its part of the list is empty.
    cases hleaf : c.leaf? with
    | none =>
      cases c with
      | element e =>
        rw [children_of_content? hc] at hcs
        exact ⟨_, .element hc hcs hms⟩
      | text s => cases hleaf
      | comment s => cases hleaf
    | some m =>
      rw [children_eq_nil_of_element?_eq_none (element?_eq_none_of_leaf hc hleaf)] at hcs
      cases hcs
      exact ⟨_, .leaf hc hleaf hms⟩

/-! ### Parents -/

/-- The nodes that are not free keep their parent. -/
def KeepsParents (free : NodeId → Prop) (d d' : Document κ) : Prop :=
  ∀ n, n < d.size → ¬ free n → d'.parent? n = d.parent? n

variable {free' : NodeId → Prop}

theorem KeepsParents.refl (free : NodeId → Prop) (d : Document κ) : KeepsParents free d d :=
  fun _ _ _ => rfl

theorem KeepsParents.trans (h : KeepsParents free d d') (hsize : d.size ≤ d'.size)
    (h' : KeepsParents free d' d'') : KeepsParents free d d'' :=
  fun n hn hfree => (h' n (Nat.lt_of_lt_of_le hn hsize) hfree).trans (h n hn hfree)

/-- Only nodes that are there count. -/
theorem KeepsParents.mono (h : KeepsParents free d d')
    (hfree : ∀ n, n < d.size → free n → free' n) : KeepsParents free' d d' :=
  fun n hn hnot => h n hn fun hf => hnot (hfree n hn hf)

theorem keepsParents_of_eq (h : ∀ n, d'.parent? n = d.parent? n) : KeepsParents free d d' :=
  fun n _ _ => h n

theorem keepsParents_modifyElement (d : Document κ) (n : NodeId) (f : Element κ → Element κ) :
    KeepsParents free d (d.modifyElement n f) :=
  keepsParents_of_eq fun m => parent?_modifyElement d n m f

theorem keepsParents_add (d : Document κ) (c : Content κ) (p : Option NodeId) :
    KeepsParents free d (d.add c p).1 :=
  fun m hm _ => by rw [parent?_add, if_neg (Nat.ne_of_lt hm)]

theorem keepsParents_foldl_setParent (d : Document κ) (cs : List NodeId) (p : Option NodeId) :
    KeepsParents (· ∈ cs) d (cs.foldl (fun d c => d.setParent c p) d) := by
  induction cs generalizing d with
  | nil => exact .refl _ d
  | cons c cs ih =>
    intro n hn hfree
    obtain ⟨hne, hfree⟩ := not_or.1 (mt List.mem_cons.2 hfree)
    rw [List.foldl_cons, ih (d.setParent c p) n (by rwa [size_setParent]) hfree,
      parent?_setParent_of_ne d hne]

/-- Only children lose their parent when they are detached. -/
theorem keepsParents_detachChildren (d : Document κ) (n : NodeId) :
    KeepsParents (· ∈ d.children n) d (d.detachChildren n) :=
  (keepsParents_modifyElement d n _).trans (Nat.le_of_eq (size_modifyElement d n _).symm)
    (keepsParents_foldl_setParent _ _ none)

/-! ### New nodes -/

/-- No node that is there changes. -/
structure Extends (d d' : Document κ) : Prop where
  frames : Frames (fun _ => False) d d'
  parents : KeepsParents (fun _ => False) d d'

theorem Extends.refl (d : Document κ) : d.Extends d := ⟨.refl _ d, .refl _ d⟩

theorem Extends.trans (h : d.Extends d') (h' : d'.Extends d'') : d.Extends d'' :=
  ⟨h.frames.trans h'.frames, h.parents.trans h.frames.size_le h'.parents⟩

theorem extends_add (d : Document κ) (c : Content κ) (p : Option NodeId) :
    d.Extends (d.add c p).1 :=
  ⟨frames_add d c p, keepsParents_add d c p⟩

/-- A new node gets its children. -/
theorem Extends.setChildren (h : d.Extends d') {n : NodeId} (hn : d.size ≤ n)
    (children : List NodeId) : d.Extends (d'.setChildren n children) where
  frames := ((h.frames.mono fun _ _ h => h.elim).trans (frames_setChildren d' n children)).mono
    fun _ hm he => absurd (he ▸ hn) (Nat.not_le.2 hm)
  parents := h.parents.trans h.frames.size_le (keepsParents_modifyElement d' n _)

/-- The nodes that one document has more than another one, in order. -/
def added (d d' : Document κ) : List NodeId := List.range' d.size (d'.size - d.size)

theorem mem_added_iff {n : Nat} : n ∈ added d d' ↔ d.size ≤ n ∧ n < d'.size := by
  rw [added, List.mem_range'_1]
  omega

theorem nodup_added (d d' : Document κ) : (added d d').Nodup := List.nodup_range'

theorem added_append (h : d.size ≤ d'.size) (h' : d'.size ≤ d''.size) :
    added d d' ++ added d' d'' = added d d'' := by
  have hstart : d'.size = d.size + (d'.size - d.size) := by omega
  have hlength : d''.size - d.size = (d'.size - d.size) + (d''.size - d'.size) := by omega
  rw [added, added, added, hlength, ← List.range'_append_1, ← hstart]

theorem added_eq_cons (h : d'.size = d.size + 1) (h' : d'.size ≤ d''.size) :
    added d d'' = d.size :: added d' d'' := by
  have hlength : d''.size - d.size = (d''.size - d'.size) + 1 := by omega
  rw [added, hlength, List.range'_succ, added, h]

/-- A new node that is no element. -/
theorem depicts_add (d : Document κ) {c : Content κ} {m : Markup} (hc : c.leaf? = some m)
    (p : Option NodeId) : (d.add c p).1.Depicts [d.size] [m] (added d (d.add c p).1) := by
  have hnew : (d.add c p).1.content? d.size = some c := by rw [content?_add, if_pos rfl]
  rw [added_eq_cons (size_add d c p) (Nat.le_refl _), added, Nat.sub_self]
  exact .leaf hnew hc .nil

mutual

/-- New nodes for markup depict it; they are numbered in document order. -/
theorem depicts_instantiate (d : Document κ) (parent : NodeId) : (m : Markup) →
    d.Extends (d.instantiate parent m).1 ∧ (d.instantiate parent m).1.Depicts
      [(d.instantiate parent m).2] [m] (added d (d.instantiate parent m).1)
  | .text s => by
    simp only [instantiate]
    exact ⟨extends_add d _ _, depicts_add d rfl _⟩
  | .comment s => by
    simp only [instantiate]
    exact ⟨extends_add d _ _, depicts_add d rfl _⟩
  | .element tag attributes children => by
    simp only [instantiate]
    let element := d.add (.element (Element.new tag attributes)) (some parent)
    let inner := element.1.instantiateAll element.2 children
    obtain ⟨hinner, hdepicts⟩ := depicts_instantiateAll element.1 element.2 children
    have hsize : element.1.size = d.size + 1 := size_add d _ _
    have hnew : element.1.element? element.2 = some (Element.new tag attributes) := by
      rw [element?_eq_some_iff]
      exact (content?_add d _ _ d.size).trans (if_pos rfl)
    -- The new element stands before all nodes inside it, and gets them as its children.
    have hset : (inner.1.setChildren element.2 inner.2).content? element.2 =
        some (.element { Element.new tag attributes with children := inner.2 }) := by
      rw [← element?_eq_some_iff, setChildren, element?_modifyElement, if_pos rfl,
        hinner.frames.element?_eq (lt_size_of_element? hnew) id, hnew]
      rfl
    have hinside := hdepicts.of_frames (frames_setChildren inner.1 element.2 inner.2)
      fun n hn he => by
        obtain rfl : n = d.size := he
        have hle := (mem_added_iff.1 hn).1
        omega
    refine ⟨((extends_add d _ _).trans hinner).setChildren (Nat.le_refl _) _, ?_⟩
    have hsizes : (inner.1.setChildren element.2 inner.2).size = inner.1.size :=
      size_modifyElement _ _ _
    have hadded : added d (inner.1.setChildren element.2 inner.2) =
        element.2 :: (added element.1 inner.1 ++ []) := by
      rw [added, hsizes, ← added, added_eq_cons hsize hinner.frames.size_le, List.append_nil]
      rfl
    rw [hadded]
    exact .element hset hinside .nil

/-- New nodes for several markup nodes depict them. -/
theorem depicts_instantiateAll (d : Document κ) (parent : NodeId) : (ms : List Markup) →
    d.Extends (d.instantiateAll parent ms).1 ∧ (d.instantiateAll parent ms).1.Depicts
      (d.instantiateAll parent ms).2 ms (added d (d.instantiateAll parent ms).1)
  | [] => by
    simp only [instantiateAll]
    rw [added, Nat.sub_self]
    exact ⟨.refl d, .nil⟩
  | m :: ms => by
    simp only [instantiateAll]
    obtain ⟨hfirst, hdepicts⟩ := depicts_instantiate d parent m
    obtain ⟨hrest, hdepicts'⟩ := depicts_instantiateAll (d.instantiate parent m).1 parent ms
    refine ⟨hfirst.trans hrest, ?_⟩
    rw [← added_append hfirst.frames.size_le hrest.frames.size_le]
    exact (hdepicts.of_frames hrest.frames fun _ _ => id).append hdepicts'

end

/-! ### A new content of an element -/

/-- The children of an element are replaced by new nodes that depict `ms`. -/
structure Refilled (d : Document κ) (n : NodeId) (ms : List Markup) (d' : Document κ) : Prop where
  frames : Frames (· = n) d d'
  parents : KeepsParents (· ∈ d.children n) d d'
  element : ∀ e, d.element? n = some e →
    d'.element? n = some { e with children := d'.children n }
  depicts : d'.Depicts (d'.children n) ms (added d d')

/-- What is new becomes the content of an element whose children were detached. -/
theorem refilled_setChildren {n : NodeId} (hn : (d.element? n).isSome)
    (hextends : (d.detachChildren n).Extends d')
    (hdepicts : d'.Depicts ns ms (added (d.detachChildren n) d')) :
    d.Refilled n ms (d'.setChildren n ns) := by
  obtain ⟨e, he⟩ := Option.isSome_iff_exists.1 hn
  have hdetached := element?_detachChildren he
  have he' : d'.element? n = some { e with children := [] } := by
    rw [hextends.frames.element?_eq (lt_size_of_element? hdetached) id, hdetached]
  have hchildren : (d'.setChildren n ns).children n = ns :=
    children_setChildren_self (by rw [he']; rfl) ns
  have hadded : added (d.detachChildren n) d' = added d (d'.setChildren n ns) := by
    rw [added, added, size_detachChildren, setChildren, size_modifyElement]
  have hframes : (d.detachChildren n).Frames (· = n) d' :=
    hextends.frames.mono fun _ _ h => h.elim
  have hparents : (d.detachChildren n).KeepsParents (· ∈ d.children n) d' :=
    hextends.parents.mono fun _ _ h => h.elim
  refine ⟨((frames_detachChildren d n).trans hframes).trans (frames_setChildren d' n ns), ?_, ?_,
    ?_⟩
  · refine ((keepsParents_detachChildren d n).trans (frames_detachChildren d n).size_le
      hparents).trans ?_ (keepsParents_modifyElement d' n _)
    exact ((frames_detachChildren d n).trans hframes).size_le
  · intro e₀ he₀
    obtain rfl := Option.some.inj (he.symm.trans he₀)
    rw [hchildren, setChildren, element?_modifyElement, if_pos rfl, he']
    rfl
  · rw [hchildren, ← hadded]
    refine hdepicts.of_frames (frames_setChildren d' n ns) fun m hm heq => ?_
    have hle := (mem_added_iff.1 hm).1
    rw [size_detachChildren] at hle
    exact absurd (lt_size_of_element? he) (Nat.not_lt.2 (heq ▸ hle))

/-- Markup below an element. -/
theorem refilled_setMarkup {n : NodeId} (hn : (d.element? n).isSome) (source : String) :
    d.Refilled n (Markup.parse source) (d.setMarkup n source) := by
  obtain ⟨hextends, hdepicts⟩ :=
    depicts_instantiateAll (d.detachChildren n) n (Markup.parse source)
  rw [setMarkup, if_pos hn]
  exact refilled_setChildren hn hextends hdepicts

/-- A text below an element. -/
theorem refilled_setText {n : NodeId} (hn : (d.element? n).isSome) (s : String) :
    d.Refilled n (Markup.ofText s) (d.setText n s) := by
  obtain ⟨e, he⟩ := Option.isSome_iff_exists.1 hn
  rw [setText, element?_eq_some_iff.1 he]
  dsimp only
  -- The empty text makes no node.
  by_cases hs : s = ""
  · rw [if_pos hs, Markup.ofText, if_pos hs]
    have hdetached := element?_detachChildren he
    have hchildren : (d.detachChildren n).children n = [] := by
      rw [children, hdetached]
      rfl
    refine ⟨frames_detachChildren d n, keepsParents_detachChildren d n, fun e₀ he₀ => ?_, ?_⟩
    · obtain rfl := Option.some.inj (he.symm.trans he₀)
      rw [hchildren, hdetached]
    · rw [hchildren, added, size_detachChildren, Nat.sub_self]
      exact .nil
  · rw [if_neg hs, Markup.ofText, if_neg hs]
    have hdepicts := depicts_add (d.detachChildren n) (c := .text s) rfl (some n)
    exact refilled_setChildren hn (extends_add _ _ _) hdepicts

namespace Refilled

variable {n : NodeId}

theorem isElement (h : d.Refilled n ms d') (hn : (d.element? n).isSome) :
    (d'.element? n).isSome := by
  obtain ⟨e, he⟩ := Option.isSome_iff_exists.1 hn
  rw [h.element e he]
  rfl

/-- The new nodes are trees. -/
theorem treeAll (h : d.Refilled n ms d') :
    d'.TreeAll (· ∈ Markup.elementsAll ms) (d'.children n) (added d d') :=
  h.depicts.treeAll

/-- Markup of one element gives one new node. -/
theorem exists_element {tag : String} {as : Fields String}
    (h : d.Refilled n [.element tag as []] d') :
    d'.children n = [d.size] ∧ ∃ e, d'.element? d.size = some e ∧ e.attributes = as := by
  have hdepicts := h.depicts
  generalize hadded : added d d' = fp at hdepicts
  generalize d'.children n = ns at hdepicts ⊢
  cases hdepicts with
  | @leaf _ c _ _ _ _ _ hc => cases c <;> cases hc
  | @element m e _ inner _ _ _ hm inside rest =>
    cases rest
    -- The new nodes start behind those that were there.
    obtain rfl : m = d.size := by
      have hfirst := congrArg List.head? hadded
      rw [added, List.head?_range'] at hfirst
      split at hfirst
      · cases hfirst
      · exact (Option.some.inj hfirst).symm
    exact ⟨rfl, e, element?_eq_some_iff.2 hm, rfl⟩

end Refilled

end Document

end LiveBinding
