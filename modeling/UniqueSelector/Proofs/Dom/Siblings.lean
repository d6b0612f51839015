/-
  UniqueSelector.Proofs.Dom.Siblings

  The links between neighbours, and the order they stand for. Fit calls keep them
  along the lists of children, so that a walk back among the siblings of a node
  meets the siblings before it, the nearest first.

    * `Tree.Threaded` — the invariant: the links of a child lead to its neighbours
      in the list, and a node without a parent has none.
    * `Tree.Grown.threaded` — the run lemma; the step lemma of the call that links
      nodes is `Tree.Threaded.append`.
    * `Tree.Threaded.precedingSiblings_eq` — the walk back.
-/

import UniqueSelector.Proofs.Dom.Links

namespace UniqueSelector.Tree

/-! ## What the calls do to the links between siblings -/

theorem previous?_eq (t : Tree) (id : NodeId) :
    t.previous? id = ((t.node? id).map Node.previous).getD none := by
  rw [previous?]
  cases t.node? id <;> rfl

theorem next?_eq (t : Tree) (id : NodeId) :
    t.next? id = ((t.node? id).map Node.next).getD none := by
  rw [next?]
  cases t.node? id <;> rfl

theorem previous?_update (t : Tree) {f : Node → Node} (hf : ∀ n, (f n).previous = n.previous)
    (id other : NodeId) : (t.update id f).previous? other = t.previous? other := by
  rw [previous?_eq, previous?_eq, map_node?_update t hf]

theorem next?_update (t : Tree) {f : Node → Node} (hf : ∀ n, (f n).next = n.next)
    (id other : NodeId) : (t.update id f).next? other = t.next? other := by
  rw [next?_eq, next?_eq, map_node?_update t hf]

theorem previous?_push (t : Tree) (kind : NodeKind) (id : NodeId) :
    (t.push kind).previous? id = t.previous? id := by
  rw [previous?, previous?, node?_push]
  by_cases hid : id = t.size
  · rw [if_pos hid, hid, node?_size]
    rfl
  · rw [if_neg hid]

theorem next?_push (t : Tree) (kind : NodeKind) (id : NodeId) :
    (t.push kind).next? id = t.next? id := by
  rw [next?, next?, node?_push]
  by_cases hid : id = t.size
  · rw [if_pos hid, hid, node?_size]
    rfl
  · rw [if_neg hid]

theorem previous?_link (t : Tree) {id : NodeId} (h : id < t.size) (link : Option NodeId)
    (other : NodeId) : (t.update id fun n => { n with previous := link }).previous? other =
      if other = id then link else t.previous? other := by
  by_cases hother : other = id
  · obtain ⟨n, hn⟩ := exists_node? h
    rw [previous?, node?_update, if_pos hother, if_pos hother, hother, hn]
    rfl
  · rw [previous?, node?_update, if_neg hother, if_neg hother, previous?]

theorem next?_link (t : Tree) {id : NodeId} (h : id < t.size) (link : Option NodeId)
    (other : NodeId) : (t.update id fun n => { n with next := link }).next? other =
      if other = id then link else t.next? other := by
  by_cases hother : other = id
  · obtain ⟨n, hn⟩ := exists_node? h
    rw [next?, node?_update, if_pos hother, if_pos hother, hother, hn]
    rfl
  · rw [next?, node?_update, if_neg hother, if_neg hother, next?]

/-- Behind other children the new child is linked to the last of them. -/
theorem previous?_append (t : Tree) {parent child : NodeId}
    (h : parent < t.size ∧ child < t.size) (id : NodeId) :
    (t.append parent child).previous? id =
      if id = child then (t.lastChild? parent).or (t.previous? id) else t.previous? id := by
  rw [append, if_pos h]
  dsimp only
  split
  · rename_i hlast
    rw [previous?_update _ (by intro n; rfl), previous?_update _ (by intro n; rfl), hlast,
      Option.none_or, ite_self]
  · rename_i last hlast
    rw [previous?_link _ (by simpa using h.2), previous?_update _ (by intro n; rfl),
      previous?_update _ (by intro n; rfl), previous?_update _ (by intro n; rfl), hlast,
      Option.some_or]

/-- The last of the other children is linked to the new one, if it is a node. -/
theorem next?_append (t : Tree) {parent child : NodeId} (h : parent < t.size ∧ child < t.size)
    (hlast : ∀ last, t.lastChild? parent = some last → last < t.size) (id : NodeId) :
    (t.append parent child).next? id =
      if t.lastChild? parent = some id then some child else t.next? id := by
  rw [Tree.append, if_pos h]
  dsimp only
  split
  · rename_i hnone
    rw [next?_update _ (by intro n; rfl), next?_update _ (by intro n; rfl), hnone,
      if_neg (by simp)]
  · rename_i last hsome
    rw [next?_update _ (by intro n; rfl), next?_link _ (by simpa using hlast last hsome),
      next?_update _ (by intro n; rfl), next?_update _ (by intro n; rfl), hsome]
    simp only [Option.some.injEq, eq_comm]

theorem Linked.next?_append {t : Tree} (ht : t.Linked) {parent child : NodeId}
    (h : parent < t.size ∧ child < t.size) (id : NodeId) :
    (t.append parent child).next? id =
      if t.lastChild? parent = some id then some child else t.next? id := by
  refine t.next?_append h (fun last hlast => ?_) id
  have hchild := (ht.mem_children_iff parent last).mp (List.mem_of_getLast? hlast)
  exact (ht.lt_of_parent? hchild).1

/-! ## Places in a list of children -/

namespace Linked

variable {t : Tree} (ht : t.Linked)

include ht

theorem parent?_of_split {parent child : NodeId} {before after : List NodeId}
    (h : t.children parent = before ++ child :: after) : t.parent? child = some parent :=
  (ht.mem_children_iff parent child).mp (by rw [h]; simp)

theorem ne_of_free {free : NodeId} (hfree : t.parent? free = none) {parent child : NodeId}
    {before after : List NodeId} (h : t.children parent = before ++ child :: after) :
    child ≠ free := by
  rintro rfl
  rw [ht.parent?_of_split h] at hfree
  cases hfree

theorem lastChild?_ne_of_free {free : NodeId} (hfree : t.parent? free = none) {parent : NodeId} :
    t.lastChild? parent ≠ some free := by
  intro hlast
  exact ht.not_mem_children_of_free hfree parent (List.mem_of_getLast? hlast)

end Linked

/-! ## The invariant -/

/-- A child is linked to its neighbours in the list of children, a free node to none. -/
structure Threaded (t : Tree) : Prop where
  previous?_eq : ∀ parent before child after, t.children parent = before ++ child :: after →
    t.previous? child = before.getLast?
  next?_eq : ∀ parent before child after, t.children parent = before ++ child :: after →
    t.next? child = after.head?
  previous?_free : ∀ id, t.parent? id = none → t.previous? id = none
  next?_free : ∀ id, t.parent? id = none → t.next? id = none

/-- The last place of a list is the new one, or it is a place of the list as it was. -/
theorem split_concat {α : Type} {l before after : List α} {x c : α}
    (h : l ++ [x] = before ++ c :: after) :
    (c = x ∧ before = l ∧ after = []) ∨
      ∃ after', after = after' ++ [x] ∧ l = before ++ c :: after' := by
  rcases List.eq_nil_or_concat after with rfl | ⟨after', y, rfl⟩
  · obtain ⟨hbefore, hx⟩ := List.append_inj' h rfl
    exact Or.inl ⟨(List.cons.inj hx).1.symm, hbefore.symm, rfl⟩
  · rw [List.concat_eq_append, ← List.cons_append, ← List.append_assoc] at h
    obtain ⟨hl, hx⟩ := List.append_inj' h rfl
    exact Or.inr ⟨after', by rw [List.concat_eq_append, (List.cons.inj hx).1], hl⟩

theorem Threaded.append {t : Tree} (ht : t.Linked) (hthreaded : t.Threaded)
    {parent child : NodeId} (hlt : parent < t.size ∧ child < t.size)
    (hfit : t.MayAppend parent child) : (t.append parent child).Threaded where
  previous?_eq := by
    intro p before c after hsplit
    rw [children_append t hlt] at hsplit
    rw [previous?_append t hlt]
    split at hsplit
    · rename_i hp
      rcases split_concat hsplit with ⟨rfl, rfl, rfl⟩ | ⟨after', rfl, hold⟩
      · rw [if_pos rfl, hthreaded.previous?_free _ hfit.free, Option.or_none, lastChild?, hp]
      · have hne := ht.ne_of_free hfit.free hold
        rw [if_neg hne, hthreaded.previous?_eq p before c after' hold]
    · rw [if_neg (ht.ne_of_free hfit.free hsplit), hthreaded.previous?_eq p before c after hsplit]
  next?_eq := by
    intro p before c after hsplit
    rw [children_append t hlt] at hsplit
    rw [ht.next?_append hlt]
    split at hsplit
    · rename_i hp
      rcases split_concat hsplit with ⟨rfl, rfl, rfl⟩ | ⟨after', rfl, hold⟩
      · -- The child is no last child yet, and not linked.
        rw [if_neg (ht.lastChild?_ne_of_free hfit.free), hthreaded.next?_free _ hfit.free]
        rfl
      · rw [← hp, lastChild?, hold, List.getLast?_append_cons]
        cases after' with
        | nil =>
            rw [List.getLast?_singleton, if_pos rfl]
            rfl
        | cons d ds =>
            -- The child at this place is not the last one, since no child stands twice.
            have hnot : (c :: d :: ds).getLast? ≠ some c := by
              have hnodup := ht.nodup_children p
              rw [hold] at hnodup
              have hc := (List.nodup_cons.mp hnodup.of_append_right).1
              intro hlast
              rw [List.getLast?_cons_cons] at hlast
              exact hc (List.mem_of_getLast? hlast)
            rw [if_neg hnot, hthreaded.next?_eq p before c (d :: ds) hold]
            rfl
    · rename_i hp
      have hchild := ht.parent?_of_split hsplit
      have hnot : t.lastChild? parent ≠ some c := by
        intro hlast
        have hlastparent := (ht.mem_children_iff parent c).mp (List.mem_of_getLast? hlast)
        rw [hchild] at hlastparent
        exact hp (Option.some.inj hlastparent)
      rw [if_neg hnot, hthreaded.next?_eq p before c after hsplit]
  previous?_free := by
    intro id hfree
    rw [parent?_append t hlt] at hfree
    rw [previous?_append t hlt]
    split at hfree
    · cases hfree
    · rename_i hid
      rw [if_neg hid, hthreaded.previous?_free id hfree]
  next?_free := by
    intro id hfree
    rw [parent?_append t hlt] at hfree
    rw [ht.next?_append hlt]
    split at hfree
    · cases hfree
    · rw [if_neg (ht.lastChild?_ne_of_free hfree), hthreaded.next?_free id hfree]

/-- A call that leaves all links alone keeps the invariant. -/
theorem Threaded.congr {t t' : Tree} (h : t.Threaded)
    (hparent : ∀ id, t'.parent? id = t.parent? id)
    (hchildren : ∀ id, t'.children id = t.children id)
    (hprevious : ∀ id, t'.previous? id = t.previous? id)
    (hnext : ∀ id, t'.next? id = t.next? id) : t'.Threaded where
  previous?_eq := by
    intro parent before child after hsplit
    rw [hchildren] at hsplit
    rw [hprevious, h.previous?_eq parent before child after hsplit]
  next?_eq := by
    intro parent before child after hsplit
    rw [hchildren] at hsplit
    rw [hnext, h.next?_eq parent before child after hsplit]
  previous?_free := by
    intro id hfree
    rw [hparent] at hfree
    rw [hprevious, h.previous?_free id hfree]
  next?_free := by
    intro id hfree
    rw [hparent] at hfree
    rw [hnext, h.next?_free id hfree]

theorem Threaded.push {t : Tree} (h : t.Threaded) (kind : NodeKind) : (t.push kind).Threaded :=
  h.congr (parent?_push t kind) (children_push t kind) (previous?_push t kind) (next?_push t kind)

theorem Threaded.updateAttributes {t : Tree} (h : t.Threaded) (id : NodeId)
    (f : Attributes → Attributes) : (t.updateAttributes id f).Threaded :=
  h.congr (fun other => (links_updateAttributes t id other f).1)
    (fun other => (links_updateAttributes t id other f).2.1)
    (fun other => (links_updateAttributes t id other f).2.2.2)
    (fun other => (links_updateAttributes t id other f).2.2.1)

theorem threaded_empty (markup : Markup) : (empty markup).Threaded := by
  have hchildren : ∀ id, (empty markup).children id = [] := by
    intro id
    cases id <;> rfl
  have hno : ∀ {parent before child after},
      (empty markup).children parent ≠ before ++ child :: after := by
    intro parent before child after hsplit
    rw [hchildren] at hsplit
    exact absurd hsplit.symm (by simp)
  exact
    { previous?_eq := fun _ _ _ _ hsplit => absurd hsplit hno
      next?_eq := fun _ _ _ _ hsplit => absurd hsplit hno
      previous?_free := fun id _ => by cases id <;> rfl
      next?_free := fun id _ => by cases id <;> rfl }

theorem Grown.threaded {mayHold : Tree → NodeId → Prop} {t : Tree} (h : Grown mayHold t) :
    t.Threaded := by
  induction h with
  | empty markup => exact threaded_empty markup
  | push ht kind ih => exact ih.push kind
  | setAttribute ht id name value ih => exact ih.updateAttributes id _
  | eraseAttribute ht id name ih => exact ih.updateAttributes id _
  | @append t ht parent child hfit hhold ih =>
      by_cases hlt : parent < t.size ∧ child < t.size
      · exact ih.append ht.linked hlt (hfit hlt.1 hlt.2)
      · rw [append_of_not_lt t hlt]
        exact ih

/-! ## The walk back -/

section Walk

variable {t : Tree} (h : t.Threaded)

include h

theorem Threaded.chase_previous? {parent : NodeId} {before : List NodeId} {child : NodeId}
    {after : List NodeId} (hsplit : t.children parent = before ++ child :: after) {bound : Nat}
    (hbound : before.length ≤ bound) : chase t.previous? bound child = before.reverse := by
  -- The list before the child loses its last member with every step back.
  induction before using List.reverseRecOn generalizing child after bound with
  | nil =>
      cases bound with
      | zero => rfl
      | succ bound => rw [chase, h.previous?_eq parent [] child after hsplit]; rfl
  | append_singleton before x ih =>
      rw [List.length_append, List.length_singleton] at hbound
      obtain ⟨bound, rfl⟩ := Nat.exists_eq_succ_of_ne_zero (n := bound) (by omega)
      rw [chase, h.previous?_eq parent _ child after hsplit, List.getLast?_concat,
        List.reverse_append]
      rw [List.append_assoc] at hsplit
      dsimp only
      rw [ih hsplit (by omega)]
      rfl

/-- What stands before a child in the list is what the walk back from it meets. -/
theorem Threaded.precedingSiblings_eq (ht : t.Linked) {parent : NodeId} {before : List NodeId}
    {child : NodeId} {after : List NodeId}
    (hsplit : t.children parent = before ++ child :: after) :
    t.precedingSiblings child = before.reverse := by
  refine h.chase_previous? hsplit ?_
  have hlength := ht.length_children_le parent
  rw [hsplit, List.length_append] at hlength
  omega

theorem Threaded.precedingSiblings_of_free {id : NodeId} (hfree : t.parent? id = none) :
    t.precedingSiblings id = [] := by
  rw [precedingSiblings]
  cases t.size with
  | zero => rfl
  | succ bound => rw [chase, h.previous?_free id hfree]

end Walk

end UniqueSelector.Tree
