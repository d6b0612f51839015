/-
  UniqueSelector.Proofs.Dom.Traversal

  The elements of a document as an iterator finds them that keeps the nodes to be
  visited on a stack. It is asked for one element after the other and knows nothing
  of how deep the tree is; that it comes to an end, and where, is a matter of the
  links.

    * `Tree.pop?`, `Tree.Yields` — one request, and all requests until the end.
    * `Tree.Linked.down_induction` — what passes from the children of a node to the
      node holds of all nodes.
    * `Tree.subtree` — a node and all below it, by recursion on the lists of
      children (`Tree.Linked.subtree_eq`).
    * `Tree.TreeOrder` — what the iterator yields; `Tree.treeOrder`.

  The numbers of the nodes have no part in it: children may be older than their
  parents, and parts of the tree may have no way up to the document.
-/

import UniqueSelector.Proofs.Dom.Preorder
import Mathlib.Data.List.Flatten

namespace UniqueSelector.Tree

/-! ## Walking with a stack -/

/-- The nodes pushed on a stack from the last to the first, so that the first lies on top. -/
def pushAll (ids stack : List NodeId) : List NodeId :=
  ids.reverse.foldl (fun stack id => id :: stack) stack

theorem pushAll_eq (ids stack : List NodeId) : pushAll ids stack = ids ++ stack := by
  have hfold : ids.reverse.foldl (fun stack id => id :: stack) stack =
      (ids.reverse.map id).reverse ++ stack := List.foldl_flip_cons_eq_append
  rw [pushAll, hfold, List.map_id, List.reverse_reverse]

/-- The next element and the stack that is left. Nodes that are no elements are popped and passed
    over. -/
def pop? (t : Tree) : List NodeId → Option (NodeId × List NodeId)
  | [] => none
  | id :: stack =>
    if t.isElement id then some (id, pushAll (t.children id) stack) else t.pop? stack

/-- The stack that the walk through the document begins with. -/
def firstStack (t : Tree) : List NodeId :=
  pushAll (t.children root) []

/-- From the stack on the elements of the list are yielded one by one, and then no more. -/
inductive Yields (t : Tree) : List NodeId → List NodeId → Prop
  | nil {stack : List NodeId} (h : t.pop? stack = none) : Yields t stack []
  | cons {stack rest l : List NodeId} {id : NodeId} (h : t.pop? stack = some (id, rest))
      (hl : Yields t rest l) : Yields t stack (id :: l)

/-- The one stack is what is left of the other after some requests, or none. -/
def Leaves (t : Tree) (stack rest : List NodeId) : Prop :=
  Relation.ReflTransGen (fun stack rest => ∃ id, t.pop? stack = some (id, rest)) stack rest

section Stack

variable {t : Tree} {id : NodeId} {stack l : List NodeId}

theorem pop?_of_isElement (hid : t.isElement id = true) :
    t.pop? (id :: stack) = some (id, t.children id ++ stack) := by
  rw [pop?, if_pos hid, pushAll_eq]

theorem pop?_of_not_isElement (hid : t.isElement id = false) :
    t.pop? (id :: stack) = t.pop? stack := by
  rw [pop?, if_neg (by rw [hid]; decide)]

theorem Yields.unique (h : t.Yields stack l) {l' : List NodeId} (h' : t.Yields stack l') :
    l = l' := by
  induction h generalizing l' with
  | nil hnone =>
      cases h' with
      | nil => rfl
      | cons hsome => rw [hnone] at hsome; cases hsome
  | cons hsome hl ih =>
      cases h' with
      | nil hnone => rw [hnone] at hsome; cases hsome
      | cons hsome' hl' =>
          rw [hsome] at hsome'
          cases hsome'
          rw [ih hl']

theorem Yields.skip (hid : t.isElement id = false) (h : t.Yields stack l) :
    t.Yields (id :: stack) l := by
  cases h with
  | nil hnone => exact .nil (by rw [pop?_of_not_isElement hid, hnone])
  | cons hsome hl => exact .cons (by rw [pop?_of_not_isElement hid, hsome]) hl

theorem Yields.visit (hid : t.isElement id = true) (h : t.Yields (t.children id ++ stack) l) :
    t.Yields (id :: stack) (id :: l) :=
  .cons (pop?_of_isElement hid) h

/-- What each of the nodes puts in front of the elements below it on the stack, all of them do. -/
theorem Yields.append {f : NodeId → List NodeId} {ids : List NodeId}
    (heach : ∀ c ∈ ids, ∀ stack l, t.Yields stack l → t.Yields (c :: stack) (f c ++ l))
    (h : t.Yields stack l) : t.Yields (ids ++ stack) (ids.flatMap f ++ l) := by
  induction ids with
  | nil => exact h
  | cons c ids ih =>
      rw [List.flatMap_cons, List.append_assoc, List.cons_append]
      refine heach c List.mem_cons_self _ _ (ih fun c' hc' => ?_)
      exact heach c' (List.mem_cons_of_mem _ hc')

/-- One request leaves nodes on the stack that were on it, and children of the element. -/
theorem mem_of_pop? {rest : List NodeId} (h : t.pop? stack = some (id, rest)) {x : NodeId}
    (hx : x ∈ rest) : x ∈ stack ∨ (id ∈ stack ∧ x ∈ t.children id) := by
  induction stack with
  | nil => cases h
  | cons top stack ih =>
      cases htop : t.isElement top with
      | true =>
          rw [pop?_of_isElement htop] at h
          cases h
          rcases List.mem_append.mp hx with hx | hx
          · exact Or.inr ⟨List.mem_cons_self, hx⟩
          · exact Or.inl (List.mem_cons_of_mem _ hx)
      | false =>
          rw [pop?_of_not_isElement htop] at h
          exact (ih h).imp (List.mem_cons_of_mem _) (And.imp_left (List.mem_cons_of_mem _))

end Stack

/-! ## Subtrees -/

/-- A node and all below it in tree order. -/
def subtree (t : Tree) (id : NodeId) : List NodeId :=
  t.preorder t.size id

namespace Linked

variable {t : Tree} (ht : t.Linked)

include ht

theorem down_induction {P : NodeId → Prop} (step : ∀ id, (∀ c ∈ t.children id, P c) → P id)
    (id : NodeId) : P id := by
  -- The way up from a child is longer, and none is as long as the tree has nodes.
  induction hroom : t.size - (t.ancestors id).length using Nat.strongRecOn generalizing id with
  | ind room ih =>
      refine step id fun c hc => ih _ ?_ c rfl
      have hlt := ht.length_ancestors_lt c
      rw [ht.ancestors_of_parent? ((ht.mem_children_iff id c).mp hc), List.length_cons] at hlt ⊢
      omega

/-- So many levels are enough below a node that no node lies further down. -/
theorem preorder_succ {levels : Nat} {id : NodeId}
    (hlevels : t.size ≤ levels + (t.ancestors id).length) :
    t.preorder (levels + 1) id = t.preorder levels id := by
  induction levels generalizing id with
  | zero =>
      have hlt := ht.length_ancestors_lt id
      omega
  | succ levels ih =>
      rw [preorder, preorder.eq_def t (levels + 1)]
      congr 1
      refine List.flatMap_congr fun c hc => ih ?_
      rw [ht.ancestors_of_parent? ((ht.mem_children_iff id c).mp hc), List.length_cons]
      omega

theorem subtree_eq (id : NodeId) : t.subtree id = id :: (t.children id).flatMap t.subtree :=
  (ht.preorder_succ (Nat.le_add_right _ _)).symm

/-- The subtree of a node holds the node and what it is above. -/
theorem mem_subtree_iff (id x : NodeId) : x ∈ t.subtree id ↔ x = id ∨ t.Above id x := by
  induction id using ht.down_induction with
  | step id ih =>
      rw [ht.subtree_eq, List.mem_cons, List.mem_flatMap, Above, Relation.TransGen.tail'_iff]
      -- The last step down from the node is to the child that the rest is below.
      refine or_congr_right (exists_congr fun c => ?_)
      rw [ht.mem_children_iff, Relation.reflTransGen_iff_eq_or_transGen, and_comm]
      refine and_congr_left fun hc => ?_
      rw [ih c ((ht.mem_children_iff id c).mpr hc), eq_comm]
      rfl

theorem subtree_sublist {id x : NodeId} (h : x ∈ t.subtree id) :
    (t.subtree x).Sublist (t.subtree id) := by
  induction id using ht.down_induction with
  | step id ih =>
      have hid := ht.subtree_eq id
      rw [hid] at h
      rcases List.mem_cons.mp h with rfl | hbelow
      · exact List.Sublist.refl _
      · obtain ⟨c, hc, hx⟩ := List.mem_flatMap.mp hbelow
        have hchild := (List.singleton_sublist.mpr hc).flatMap t.subtree
        rw [List.flatMap_singleton] at hchild
        rw [hid]
        exact ((ih c hc hx).trans hchild).trans (List.sublist_cons_self _ _)

/-! ## What the stack yields -/

/-- A node on top of the stack yields the elements of its subtree, then the rest goes on. -/
theorem yields_cons (hnested : t.Nested) {id : NodeId} (hroot : id ≠ root) {stack l : List NodeId}
    (h : t.Yields stack l) :
    t.Yields (id :: stack) ((t.subtree id).filter t.isElement ++ l) := by
  induction id using ht.down_induction generalizing stack l with
  | step id ih =>
      rw [ht.subtree_eq]
      cases hid : t.isElement id with
      | false =>
          -- It is passed over, and there is nothing below it to miss.
          rw [ht.children_eq_nil hnested hroot hid, List.filter_cons_of_neg (by rw [hid]; decide)]
          exact h.skip hid
      | true =>
          rw [List.filter_cons_of_pos hid, List.filter_flatMap]
          refine Yields.visit hid (Yields.append (fun c hc stack l hrest => ?_) h)
          exact ih c hc (ht.ne_root_of_mem_children hc) hrest

theorem elements_eq_filter_subtree (hnested : t.Nested) :
    t.elements = (t.subtree root).filter t.isElement := by
  rw [elements_eq, ht.subtree_eq, List.filter_cons_of_neg (by rw [ht.isElement_root]; decide),
    List.filter_flatMap]
  refine List.flatMap_congr fun c hc => ?_
  exact ht.elementsFrom_eq_filter hnested t.size (ht.ne_root_of_mem_children hc)

theorem yields_elements (hnested : t.Nested) : t.Yields t.firstStack t.elements := by
  have hall : t.Yields (t.children root ++ [])
      ((t.children root).flatMap (fun c => (t.subtree c).filter t.isElement) ++ []) :=
    Yields.append (fun c hc _ _ => ht.yields_cons hnested (ht.ne_root_of_mem_children hc)) (.nil rfl)
  rw [List.append_nil, List.append_nil] at hall
  rw [ht.elements_eq_filter_subtree hnested, ht.subtree_eq,
    List.filter_cons_of_neg (by rw [ht.isElement_root]; decide), List.filter_flatMap, firstStack,
    pushAll_eq, List.append_nil]
  exact hall

/-- All that is ever on the stack has the document above it. -/
theorem above_of_leaves {stack : List NodeId} (h : t.Leaves t.firstStack stack) :
    ∀ x ∈ stack, t.Above root x := by
  induction h with
  | refl =>
      intro x hx
      rw [firstStack, pushAll_eq, List.append_nil, ht.mem_children_iff] at hx
      exact Relation.TransGen.single hx
  | tail _ hpop ih =>
      obtain ⟨id, hpop⟩ := hpop
      intro x hx
      rcases mem_of_pop? hpop hx with hx | ⟨hid, hx⟩
      · exact ih x hx
      · exact Relation.TransGen.head ((ht.mem_children_iff id x).mp hx) (ih id hid)

/-! ## Before and after -/

theorem sublist_of_above {x y : NodeId} (h : t.Above x y) : [x, y].Sublist (t.subtree x) := by
  have hy : y ∈ t.subtree x := (ht.mem_subtree_iff x y).mpr (Or.inr h)
  rw [ht.subtree_eq] at hy ⊢
  rcases List.mem_cons.mp hy with rfl | hbelow
  · exact absurd h (ht.acyclic y)
  · exact (List.singleton_sublist.mpr hbelow).cons_cons x

theorem sublist_of_earlier {parent left right x y : NodeId}
    (h : [left, right].Sublist (t.children parent)) (hx : x ∈ t.subtree left)
    (hy : y ∈ t.subtree right) : [x, y].Sublist (t.subtree parent) := by
  have hpair : [x, y].Sublist ([left, right].flatMap t.subtree) := by
    rw [List.flatMap_cons, List.flatMap_singleton]
    exact (List.singleton_sublist.mpr hx).append (List.singleton_sublist.mpr hy)
  rw [ht.subtree_eq]
  exact (hpair.trans (h.flatMap t.subtree)).trans (List.sublist_cons_self _ _)

/-- Of two nodes above a third one is above the other, and nothing is above the document. -/
theorem mem_subtree_root_of_above {id x : NodeId} (hroot : t.Above root x) (hid : t.Above id x) :
    id ∈ t.subtree root := by
  have hunique : Relator.RightUnique fun child parent => t.parent? child = some parent :=
    fun child parent parent' h h' => Option.some.inj (h.symm.trans h')
  rw [ht.mem_subtree_iff]
  rcases Relation.ReflTransGen.total_of_right_unique hunique hroot.to_reflTransGen
    hid.to_reflTransGen with hup | hdown
  · rcases Relation.ReflTransGen.cases_head hup with heq | ⟨parent, hparent, -⟩
    · exact Or.inl heq.symm
    · rw [ht.parent_root] at hparent
      cases hparent
  · exact (Relation.reflTransGen_iff_eq_or_transGen.mp hdown).imp_left Eq.symm

theorem sublist_subtree_root_of_precedes {x y : NodeId} (hx : t.Above root x)
    (h : t.Precedes x y) : [x, y].Sublist (t.subtree root) := by
  cases h with
  | above habove =>
      have hmem : x ∈ t.subtree root := (ht.mem_subtree_iff root x).mpr (Or.inr hx)
      exact (ht.sublist_of_above habove).trans (ht.subtree_sublist hmem)
  | @beside left right hearlier hleft hright =>
      -- Both lie in the subtree of the parent of the siblings, in this order.
      obtain ⟨parent, hchildren⟩ := hearlier
      have hparent : t.parent? left = some parent :=
        (ht.mem_children_iff parent left).mp (hchildren.subset List.mem_cons_self)
      have habove : t.Above parent x := by
        rcases hleft with rfl | hleft
        · exact Relation.TransGen.single hparent
        · exact Relation.TransGen.tail hleft hparent
      exact (ht.sublist_of_earlier hchildren ((ht.mem_subtree_iff left x).mpr hleft)
        ((ht.mem_subtree_iff right y).mpr hright)).trans
          (ht.subtree_sublist (ht.mem_subtree_root_of_above hx habove))

end Linked

/-! ## Tree order -/

/-- The elements of the document as the stack yields them, and their order. -/
structure TreeOrder (t : Tree) : Prop where
  yields_iff : ∀ l, t.Yields t.firstStack l ↔ l = t.elements
  -- What has no way up to the document is never on the stack.
  attached : ∀ stack, t.Leaves t.firstStack stack → ∀ id ∈ stack, t.Above root id
  mem_elements_iff : ∀ id, id ∈ t.elements ↔ t.isElement id = true ∧ t.Above root id
  nodup_elements : t.elements.Nodup
  elements_eq : t.elements = (t.subtree root).filter t.isElement
  subtree_eq : ∀ id, t.subtree id = id :: (t.children id).flatMap t.subtree
  sublist_elements_iff : ∀ x y, [x, y].Sublist t.elements ↔
    x ∈ t.elements ∧ y ∈ t.elements ∧ t.Precedes x y

theorem Linked.treeOrder_of_nested {t : Tree} (ht : t.Linked) (hnested : t.Nested) : t.TreeOrder where
  yields_iff := by
    intro l
    constructor
    · exact fun h => h.unique (ht.yields_elements hnested)
    · rintro rfl
      exact ht.yields_elements hnested
  attached := fun _ => ht.above_of_leaves
  mem_elements_iff := by
    intro id
    rw [ht.mem_elements_iff hnested, ht.mem_ancestors_iff]
  nodup_elements := ht.nodup_elements
  elements_eq := ht.elements_eq_filter_subtree hnested
  subtree_eq := ht.subtree_eq
  sublist_elements_iff := by
    intro x y
    constructor
    · intro h
      exact ⟨h.subset (by simp), h.subset (by simp),
        List.pairwise_iff_forall_sublist.mp ht.pairwise_elements h⟩
    · rintro ⟨hx, hy, h⟩
      rw [ht.mem_elements_iff hnested, ht.mem_ancestors_iff] at hx hy
      have hpair := (ht.sublist_subtree_root_of_precedes hx.2 h).filter t.isElement
      rw [← ht.elements_eq_filter_subtree hnested, List.filter_cons_of_pos hx.1,
        List.filter_cons_of_pos hy.1] at hpair
      exact hpair

/-- Whatever order fit calls build the document in, the walk with a stack comes to an end and has
    then yielded the elements of the document in tree order. -/
theorem treeOrder {t : Tree} (ht : Grown MayHold t) : t.TreeOrder :=
  ht.linked.treeOrder_of_nested ht.nested

/-- A paragraph that is newer than its content, and an element apart from it that holds another. -/
theorem treeOrder_newest_on_top :
    let apart := ((((((empty .html).push (.element { tag := "b" })).push (.text "one")).push
      (.element { tag := "p" })).push (.element { tag := "i" })).push
        (.element { tag := "b" })).append 4 5
    let t := ((apart.append 3 2).append 3 1).append root 3
    Grown MayHold t ∧ t.TreeOrder ∧ t.elements = [3, 1] := by
  intro apart t
  have hapart : Grown MayHold apart := by
    apply Grown.append ((((((Grown.empty .html).push _).push _).push _).push _).push _)
    · intro _ _
      exact ⟨by decide +kernel, by decide, by decide, by decide +kernel⟩
    · intro _ _
      exact Or.inr (by decide +kernel)
  have hparagraph : Grown MayHold ((apart.append 3 2).append 3 1) := by
    apply Grown.append (Grown.append hapart ?_ ?_)
    all_goals intro _ _
    · exact ⟨by decide +kernel, by decide, by decide, by decide +kernel⟩
    · exact Or.inr (by decide +kernel)
    · exact ⟨by decide +kernel, by decide, by decide, by decide +kernel⟩
    · exact Or.inr (by decide +kernel)
  have hgrown : Grown MayHold t := by
    apply Grown.append hparagraph
    · intro _ _
      exact ⟨by decide +kernel, by decide, by decide, by decide +kernel⟩
    · intro _ _
      exact Or.inl rfl
  exact ⟨hgrown, treeOrder hgrown, by decide +kernel⟩

end UniqueSelector.Tree
