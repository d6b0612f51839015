/-
  UniqueSelector.Proofs.Dom.Relinking

  What the links of a document are like if nodes are linked more than once. A node
  that is appended again gets a new parent and stays in the list of the old one,
  so that lists may share members or repeat them, links to neighbours may be out of
  date, and ways up may run in a circle. Two things hold all the same: links lead
  to nodes, and a node stands in the list of the parent that it names.

    * `Tree.Sheltered` — these two.
    * `Tree.Sheltered.linksTo_of_append` — the links that a call makes.
    * `Tree.Sheltered.append`, `Tree.sheltered_after` — the step lemma of the call
      that links nodes, and the run lemma.
    * `Tree.Sheltered.exists_index` — so an element has a place below its parent.
-/

import UniqueSelector.Proofs.Dom.Consistency

namespace UniqueSelector.Tree

/-! ## The invariant -/

/-- Links lead to nodes, and a node stands among the children of its parent. -/
structure Sheltered (t : Tree) : Prop where
  inRange : ∀ id other, t.LinksTo id other → other < t.size
  mem_children : ∀ id parent, t.parent? id = some parent → id ∈ t.children parent

section Links

variable {t : Tree}

/-- What links to another node is a node. -/
theorem LinksTo.lt_size_left {id other : NodeId} (h : t.LinksTo id other) : id < t.size := by
  by_contra hid
  have hnone := (node?_eq_none_iff t id).mpr (Nat.not_lt.mp hid)
  cases h with
  | parent h =>
      rw [parent?, hnone] at h
      cases h
  | child h =>
      rw [children, hnone] at h
      cases h
  | next h =>
      rw [next?, hnone] at h
      cases h
  | previous h =>
      rw [previous?, hnone] at h
      cases h

theorem LinksTo.of_lastChild? {parent last : NodeId} (h : t.lastChild? parent = some last) :
    t.LinksTo parent last :=
  LinksTo.child (List.mem_of_getLast? h)

theorem LinksTo.congr {t' : Tree} (hparent : ∀ id, t'.parent? id = t.parent? id)
    (hchildren : ∀ id, t'.children id = t.children id)
    (hprevious : ∀ id, t'.previous? id = t.previous? id)
    (hnext : ∀ id, t'.next? id = t.next? id) {id other : NodeId} (h : t'.LinksTo id other) :
    t.LinksTo id other := by
  cases h with
  | parent h => exact LinksTo.parent (by rwa [hparent] at h)
  | child h => exact LinksTo.child (by rwa [hchildren] at h)
  | next h => exact LinksTo.next (by rwa [hnext] at h)
  | previous h => exact LinksTo.previous (by rwa [hprevious] at h)

end Links

/-! ## What each call keeps -/

namespace Sheltered

variable {t : Tree} (ht : t.Sheltered)

include ht

theorem lt_of_lastChild? {parent last : NodeId} (h : t.lastChild? parent = some last) :
    last < t.size :=
  ht.inRange parent last (LinksTo.of_lastChild? h)

/-- Each link behind the call was there before, or leads to one of the nodes that the call names,
    or to the last child before. -/
theorem linksTo_of_append {parent child : NodeId} (hlt : parent < t.size ∧ child < t.size)
    {id other : NodeId} (h : (t.append parent child).LinksTo id other) :
    t.LinksTo id other ∨ other = parent ∨ other = child ∨ t.lastChild? parent = some other := by
  cases h with
  | parent h =>
      rw [parent?_append t hlt] at h
      split at h
      · exact Or.inr (Or.inl (Option.some.inj h).symm)
      · exact Or.inl (LinksTo.parent h)
  | child h =>
      rw [children_append t hlt] at h
      split at h
      · rcases List.mem_append.mp h with h | h
        · exact Or.inl (LinksTo.child h)
        · exact Or.inr (Or.inr (Or.inl (List.mem_singleton.mp h)))
      · exact Or.inl (LinksTo.child h)
  | next h =>
      rw [t.next?_append hlt fun _ hlast => ht.lt_of_lastChild? hlast] at h
      split at h
      · exact Or.inr (Or.inr (Or.inl (Option.some.inj h).symm))
      · exact Or.inl (LinksTo.next h)
  | previous h =>
      rw [previous?_append t hlt] at h
      split at h
      · rcases Option.or_eq_some_iff.mp h with hlast | ⟨-, hold⟩
        · exact Or.inr (Or.inr (Or.inr hlast))
        · exact Or.inl (LinksTo.previous hold)
      · exact Or.inl (LinksTo.previous h)

/-- The call puts the child into the list of the parent that it gives it, and takes no node out
    of a list. -/
theorem append (parent child : NodeId) : (t.append parent child).Sheltered := by
  by_cases hlt : parent < t.size ∧ child < t.size
  · constructor
    · intro id other h
      rw [size_append]
      rcases ht.linksTo_of_append hlt h with h | rfl | rfl | h
      · exact ht.inRange id other h
      · exact hlt.1
      · exact hlt.2
      · exact ht.lt_of_lastChild? h
    · intro id p hparent
      rw [parent?_append t hlt] at hparent
      rw [children_append t hlt]
      split at hparent
      · rename_i hid
        cases hparent
        rw [if_pos rfl, hid]
        exact List.mem_append_right _ List.mem_cons_self
      · have hold := ht.mem_children id p hparent
        split
        · exact List.mem_append_left _ hold
        · exact hold
  · rw [append_of_not_lt t hlt]
    exact ht

/-- A call that leaves all links alone. -/
theorem congr {t' : Tree} (hsize : t.size ≤ t'.size)
    (hparent : ∀ id, t'.parent? id = t.parent? id)
    (hchildren : ∀ id, t'.children id = t.children id)
    (hprevious : ∀ id, t'.previous? id = t.previous? id)
    (hnext : ∀ id, t'.next? id = t.next? id) : t'.Sheltered where
  inRange := by
    intro id other h
    exact Nat.lt_of_lt_of_le (ht.inRange id other (h.congr hparent hchildren hprevious hnext)) hsize
  mem_children := by
    intro id parent h
    rw [hparent] at h
    rw [hchildren]
    exact ht.mem_children id parent h

theorem push (kind : NodeKind) : (t.push kind).Sheltered :=
  ht.congr (by simp) (parent?_push t kind) (children_push t kind) (previous?_push t kind)
    (next?_push t kind)

theorem updateAttributes (id : NodeId) (f : Attributes → Attributes) :
    (t.updateAttributes id f).Sheltered :=
  ht.congr (by rw [Tree.updateAttributes, size_update])
    (fun other => (links_updateAttributes t id other f).1)
    (fun other => (links_updateAttributes t id other f).2.1)
    (fun other => (links_updateAttributes t id other f).2.2.2)
    (fun other => (links_updateAttributes t id other f).2.2.1)

theorem call (call : Call) : (call.run t).Sheltered := by
  cases call with
  | push kind => exact ht.push kind
  | addChild parent kind => exact (ht.push kind).append parent t.size
  | append parent child => exact ht.append parent child
  | setAttribute id name value => exact ht.updateAttributes id (·.set name value)
  | eraseAttribute id name => exact ht.updateAttributes id (·.erase name)

theorem after (calls : List Call) : (t.after calls).Sheltered := by
  induction calls generalizing t with
  | nil => exact ht
  | cons call rest ih => exact ih (ht.call call)

end Sheltered

theorem sheltered_empty (markup : Markup) : (empty markup).Sheltered where
  inRange := by
    intro id other h
    cases h with
    | parent h => cases id <;> cases h
    | child h => cases id <;> cases h
    | next h => cases id <;> cases h
    | previous h => cases id <;> cases h
  mem_children := by
    intro id parent h
    cases id <;> cases h

/-- Whatever calls are made, in whatever order. -/
theorem sheltered_after (markup : Markup) (calls : List Call) :
    ((empty markup).after calls).Sheltered :=
  (sheltered_empty markup).after calls

/-! ## Places -/

/-- What stands in a list has a place there. -/
theorem exists_idxOf?_of_mem {id : NodeId} {ids : List NodeId} (h : id ∈ ids) :
    ∃ k, ids.idxOf? id = some k ∧ k < ids.length := by
  obtain ⟨k, hk⟩ := Option.isSome_iff_exists.mp (List.isSome_idxOf?.mpr h)
  exact ⟨k, hk, (List.idxOf?_eq_some_iff.mp hk).1⟩

namespace Sheltered

variable {t : Tree} (ht : t.Sheltered)

include ht

theorem mem_elementChildren {id parent : NodeId} (hid : t.isElement id = true)
    (hparent : t.parent? id = some parent) : id ∈ t.elementChildren parent :=
  (t.mem_elementChildren_iff parent id).mpr ⟨ht.mem_children id parent hparent, hid⟩

theorem exists_index {id parent : NodeId} (hid : t.isElement id = true)
    (hparent : t.parent? id = some parent) :
    ∃ k, (t.elementChildren parent).idxOf? id = some k ∧ k < (t.elementChildren parent).length :=
  exists_idxOf?_of_mem (ht.mem_elementChildren hid hparent)

end Sheltered

end UniqueSelector.Tree
