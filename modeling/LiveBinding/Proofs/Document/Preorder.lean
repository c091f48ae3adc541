import LiveBinding.Document.Query
import LiveBinding.Proofs.Document.Forest

/-!
# Document order

A node comes before those below it, and what is below its children comes child by child. In a
document without cycles `Document.preorder` is deep enough to list all of them, each one once.

## Key results

- `TreeAll.flatMap_preorder`: trees are listed as they are met
- `Consistent.treeAll_preorder`: a node and those below it are a tree
- `Consistent.preorder_eq`, `Consistent.mem_preorder_iff`: the order, and what is listed
-/

namespace LiveBinding.Document

open Relation

variable {κ : Type} {d : Document κ} {P : Fields String → Prop} {ns fp : List NodeId} {n : NodeId}

/-- A depth at which all nodes of some trees are met. -/
theorem TreeAll.flatMap_preorderTo (h : d.TreeAll P ns fp) {depth : Nat}
    (hdepth : fp.length ≤ depth) : ns.flatMap (d.preorderTo depth) = fp := by
  -- Each level takes one node off the list, so its length is a depth that is enough.
  induction h generalizing depth with
  | nil => rfl
  | @cons n ns inner fp _ _ _ _ ihinner ihrest =>
    obtain ⟨depth, rfl⟩ := Nat.exists_eq_add_one.2 (Nat.zero_lt_of_lt hdepth)
    rw [List.length_cons, List.length_append] at hdepth
    have hinner : (d.children n).flatMap (d.preorderTo depth) = inner := ihinner (by omega)
    have hrest : ns.flatMap (d.preorderTo (depth + 1)) = fp := ihrest (by omega)
    rw [List.flatMap_cons, hrest, preorderTo, hinner, List.cons_append]

/-- Trees whose nodes are all different are listed as they are met. -/
theorem TreeAll.flatMap_preorder (h : d.TreeAll P ns fp) (hnodup : fp.Nodup) :
    ns.flatMap d.preorder = fp :=
  h.flatMap_preorderTo (h.length_le_size hnodup)

/-- A node that is not there has nothing below it. -/
theorem preorder_of_le (hpos : 0 < d.size) (hn : d.size ≤ n) : d.preorder n = [n] := by
  obtain ⟨depth, hdepth⟩ := Nat.exists_eq_add_one.2 hpos
  rw [preorder, hdepth, preorderTo, children_eq_nil_of_le hn, List.flatMap_nil]

namespace Consistent

/-- A node and those below it are a tree without repetitions. -/
theorem treeAll_preorder (h : d.Consistent) (ha : d.Acyclic) (hn : n < d.size) :
    d.TreeAll (fun _ => True) [n] (d.preorder n) ∧ (d.preorder n).Nodup := by
  obtain ⟨fp, htrees, hnodup, hbelow⟩ := exists_treeAll h ha n
  have htree : d.TreeAll (fun _ => True) [n] (n :: (fp ++ [])) :=
    .cons hn (fun _ _ => trivial) htrees .nil
  rw [List.append_nil] at htree
  have hnodup : (n :: fp).Nodup := List.nodup_cons.2 ⟨fun hmem => ha n (hbelow n hmem), hnodup⟩
  have hlisted := htree.flatMap_preorder hnodup
  rw [List.flatMap_singleton] at hlisted
  rw [hlisted]
  exact ⟨htree, hnodup⟩

theorem nodup_preorder (h : d.Consistent) (ha : d.Acyclic) (hpos : 0 < d.size) (n : NodeId) :
    (d.preorder n).Nodup := by
  rcases Nat.lt_or_ge n d.size with hn | hn
  · exact (h.treeAll_preorder ha hn).2
  · rw [preorder_of_le hpos hn]
    exact List.nodup_singleton n

/-- A node comes first, and then what its children list, one after the other. -/
theorem preorder_eq (h : d.Consistent) (ha : d.Acyclic) (hpos : 0 < d.size) (n : NodeId) :
    d.preorder n = n :: (d.children n).flatMap d.preorder := by
  rcases Nat.lt_or_ge n d.size with hn | hn
  · obtain ⟨htree, hnodup⟩ := h.treeAll_preorder ha hn
    generalize d.preorder n = fp at htree hnodup ⊢
    cases htree with
    | @cons _ _ inner _ _ _ hinner hrest =>
      cases hrest
      rw [List.append_nil] at hnodup ⊢
      rw [hinner.flatMap_preorder (List.nodup_cons.1 hnodup).2]
  · rw [preorder_of_le hpos hn, children_eq_nil_of_le hn, List.flatMap_nil]

/-- A node lists itself and everything below it, and nothing else. -/
theorem mem_preorder_iff (h : d.Consistent) (ha : d.Acyclic) (hpos : 0 < d.size) {n m : NodeId} :
    m ∈ d.preorder n ↔ ReflTransGen d.HasChild n m := by
  rcases Nat.lt_or_ge n d.size with hn | hn
  · obtain ⟨ms, hdepicts⟩ := (h.treeAll_preorder ha hn).1.exists_depicts
    constructor
    · intro hm
      obtain ⟨k, hk, hbelow⟩ := hdepicts.exists_below hm
      rwa [← List.mem_singleton.1 hk]
    · exact hdepicts.mem_of_reflTransGen (List.mem_singleton_self n)
  · rw [preorder_of_le hpos hn, List.mem_singleton]
    constructor
    · rintro rfl
      exact .refl
    · intro hbelow
      rcases hbelow.cases_head with heq | ⟨c, hc, -⟩
      · exact heq.symm
      · rw [HasChild, children_eq_nil_of_le hn] at hc
        cases hc

end Consistent

end LiveBinding.Document
