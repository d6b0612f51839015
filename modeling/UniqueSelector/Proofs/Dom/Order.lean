/-
  UniqueSelector.Proofs.Dom.Order

  How two nodes of a document lie to each other, said through parents and lists of
  children alone, and the order in which the elements are listed.

    * `Tree.Above`, `Tree.Earlier` — on the way up, and before in one list.
    * `Tree.Precedes` — tree order: a node comes before all that is below it, and
      with all that is below it before its later siblings.
    * `Tree.Linked.pairwise_elements` — the elements are listed in tree order.
-/

import UniqueSelector.Proofs.Dom.Elements
import Mathlib.Logic.Relation

namespace UniqueSelector.Tree

/-! ## Above and earlier -/

/-- The node is the parent of the other, or the parent of its parent, and so on. -/
def Above (t : Tree) (above id : NodeId) : Prop :=
  Relation.TransGen (fun child parent => t.parent? child = some parent) id above

/-- The one node stands before the other in the list of children of some node. -/
def Earlier (t : Tree) (left right : NodeId) : Prop :=
  ∃ parent, [left, right].Sublist (t.children parent)

/-- Two ways to cut a list at a member that stands in it once are one. -/
theorem before_unique {l before before' after after' : List NodeId} {x : NodeId} (hl : l.Nodup)
    (h : l = before ++ x :: after) (h' : l = before' ++ x :: after') : before = before' := by
  have honce : x ∉ before ∧ x ∉ after := by
    have hx := hl
    rw [h, List.nodup_middle, List.nodup_cons, List.mem_append, not_or] at hx
    exact hx.1
  rw [h] at h'
  exact ((List.append_cons_inj_of_notMem honce.1 honce.2).mp h').1

namespace Linked

variable {t : Tree} (ht : t.Linked)

include ht

theorem mem_ancestors_iff (above id : NodeId) : above ∈ t.ancestors id ↔ t.Above above id := by
  constructor
  · intro h
    have hlineage := ht.lineage_ancestors id
    generalize t.ancestors id = l at h hlineage
    induction hlineage with
    | top => cases h
    | @step id parent l hparent hl ih =>
        rcases List.mem_cons.mp h with rfl | h
        · exact Relation.TransGen.single hparent
        · exact Relation.TransGen.head hparent (ih h)
  · intro h
    induction h using Relation.TransGen.head_induction_on with
    | single hparent =>
        rw [ht.ancestors_of_parent? hparent]
        exact List.mem_cons_self
    | head hparent _ ih =>
        rw [ht.ancestors_of_parent? hparent]
        exact List.mem_cons_of_mem _ ih

/-- No node is above itself. -/
theorem acyclic (id : NodeId) : ¬ t.Above id id := by
  intro hcycle
  exact ht.not_mem_ancestors_self id ((ht.mem_ancestors_iff id id).mpr hcycle)

theorem mem_cons_ancestors_iff (above id : NodeId) :
    above ∈ id :: t.ancestors id ↔ id = above ∨ t.Above above id := by
  rw [List.mem_cons, ht.mem_ancestors_iff, eq_comm]

/-- The nodes earlier than a child are those before it in its list. -/
theorem earlier_iff {parent right : NodeId} {before after : List NodeId}
    (hsplit : t.children parent = before ++ right :: after) (left : NodeId) :
    t.Earlier left right ↔ left ∈ before := by
  constructor
  · rintro ⟨parent', hsublist⟩
    obtain ⟨front, back, hcut, hleft, hright⟩ := List.cons_sublist_iff.mp hsublist
    obtain ⟨between, after', hback⟩ := List.append_of_mem (List.singleton_sublist.mp hright)
    rw [hback, ← List.append_assoc] at hcut
    -- Both lists hold the child, so they are the children of its one parent.
    have hparent : parent' = parent := by
      have hmem : right ∈ t.children parent := by rw [hsplit]; simp
      have hmem' : right ∈ t.children parent' := by rw [hcut]; simp
      rw [ht.mem_children_iff] at hmem hmem'
      exact Option.some.inj (hmem'.symm.trans hmem)
    rw [hparent] at hcut
    rw [before_unique (ht.nodup_children parent) hsplit hcut]
    exact List.mem_append_left _ hleft
  · intro hleft
    refine ⟨parent, ?_⟩
    rw [hsplit]
    exact (List.singleton_sublist.mpr hleft).append (List.singleton_sublist.mpr (by simp))

end Linked

/-! ## Tree order -/

/-- The one node comes before the other in tree order. -/
inductive Precedes (t : Tree) (x y : NodeId) : Prop
  | above (h : t.Above x y)
  | beside {left right : NodeId} (h : t.Earlier left right) (hx : x = left ∨ t.Above left x)
      (hy : y = right ∨ t.Above right y)

namespace Linked

variable {t : Tree} (ht : t.Linked)

include ht

theorem pairwise_flatMap_elementsFrom (levels : Nat) (parent : NodeId)
    (heach : ∀ c, (t.elementsFrom levels c).Pairwise t.Precedes) :
    ((t.children parent).flatMap (t.elementsFrom levels)).Pairwise t.Precedes := by
  refine List.pairwise_flatMap.mpr ⟨fun c _ => heach c, ?_⟩
  refine List.pairwise_iff_forall_sublist.mpr fun {left right} hsublist x hx y hy => ?_
  exact .beside ⟨parent, hsublist⟩
    ((ht.mem_cons_ancestors_iff _ _).mp (ht.mem_lineage_of_mem_elementsFrom hx))
    ((ht.mem_cons_ancestors_iff _ _).mp (ht.mem_lineage_of_mem_elementsFrom hy))

theorem pairwise_elementsFrom (levels : Nat) (id : NodeId) :
    (t.elementsFrom levels id).Pairwise t.Precedes := by
  induction levels generalizing id with
  | zero => exact List.Pairwise.nil
  | succ levels ih =>
      rw [elementsFrom]
      split
      · refine List.pairwise_cons.mpr ⟨fun y hy => ?_, ht.pairwise_flatMap_elementsFrom levels id ih⟩
        -- What is met below a node has that node on its way up.
        obtain ⟨c, hc, hy⟩ := List.mem_flatMap.mp hy
        have habove := ht.parent_mem_ancestors (ht.mem_lineage_of_mem_elementsFrom hy)
          ((ht.mem_children_iff id c).mp hc)
        exact .above ((ht.mem_ancestors_iff _ _).mp habove)
      · exact List.Pairwise.nil

theorem pairwise_elements : t.elements.Pairwise t.Precedes := by
  rw [elements_eq]
  exact ht.pairwise_flatMap_elementsFrom t.size root (ht.pairwise_elementsFrom t.size)

end Linked

end UniqueSelector.Tree
