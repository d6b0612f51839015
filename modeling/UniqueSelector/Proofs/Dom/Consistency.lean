/-
  UniqueSelector.Proofs.Dom.Consistency

  The four kinds of links tell one story, whatever sequence of calls built the
  tree. A node knows its parent, its children and its neighbours; each call
  updates them from part of what they say, so that they agree is an invariant of
  the whole sequence and not of one field.

    * `Tree.Call`, `Tree.after` — the calls, and a sequence of them.
    * `Tree.FitAll` — where a call links a node, it links a free one, and not
      below itself. Calls that name no node are fit: they link nothing.
    * `Tree.Consistent` — how the links agree, and what the walks along them meet.
    * `Tree.consistent_after` — the run lemma, from `Linked` and `Threaded`.

  Subtrees may be built apart and linked to the document later.
-/

import UniqueSelector.Proofs.Dom.Order
import UniqueSelector.Proofs.Dom.Places
import UniqueSelector.Proofs.Dom.Siblings

namespace UniqueSelector.Tree

/-! ## Sequences of calls -/

/-- A call that builds or edits a tree. The numbers in it may be those of nodes or not. -/
inductive Call where
  | push (kind : NodeKind)
  | addChild (parent : NodeId) (kind : NodeKind)
  | append (parent child : NodeId)
  | setAttribute (id : NodeId) (name value : String)
  | eraseAttribute (id : NodeId) (name : String)
  deriving Repr, DecidableEq

/-- The tree after a call. -/
def Call.run (t : Tree) : Call → Tree
  | .push kind => t.push kind
  | .addChild parent kind => t.addChild parent kind
  | .append parent child => t.append parent child
  | .setAttribute id name value => t.setAttribute id name value
  | .eraseAttribute id name => t.eraseAttribute id name

/-- The tree after some calls, made one after the other. -/
def after (t : Tree) (calls : List Call) : Tree :=
  calls.foldl Call.run t

/-- If both numbers are nodes, `child` may be linked below `parent`. -/
def FitAppend (t : Tree) (parent child : NodeId) : Prop :=
  parent < t.size → child < t.size → t.MayAppend parent child

/-- The call links nothing, or what it links it may link. A call that makes a node and links it
    in one step links it as a call of its own would. -/
def Call.Fit (t : Tree) : Call → Prop
  | .append parent child => t.FitAppend parent child
  | .addChild parent kind => (t.push kind).FitAppend parent t.size
  | _ => True

/-- Each of the calls is fit for the tree that it is made on. -/
def FitAll (t : Tree) : List Call → Prop
  | [] => True
  | call :: rest => call.Fit t ∧ (call.run t).FitAll rest

/-- The step lemma. What the nodes are has no part in it, so nothing is asked of their kinds. -/
theorem Grown.call {t : Tree} (ht : Grown (fun _ _ => True) t) {call : Call} (h : call.Fit t) :
    Grown (fun _ _ => True) (call.run t) := by
  cases call with
  | push kind => exact ht.push kind
  | addChild parent kind =>
      apply Grown.append (ht.push kind) h
      intro _ _
      trivial
  | append parent child =>
      apply Grown.append ht h
      intro _ _
      trivial
  | setAttribute id name value => exact ht.setAttribute id name value
  | eraseAttribute id name => exact ht.eraseAttribute id name

theorem Grown.after {t : Tree} (ht : Grown (fun _ _ => True) t) {calls : List Call}
    (h : t.FitAll calls) : Grown (fun _ _ => True) (t.after calls) := by
  induction calls generalizing t with
  | nil => exact ht
  | cons call rest ih => exact ih (ht.call h.1) h.2

/-! ## Links in range -/

section Neighbours

variable {t : Tree} (ht : t.Linked) (hthreaded : t.Threaded)

include ht

theorem Linked.exists_split {id parent : NodeId} (h : t.parent? id = some parent) :
    ∃ before after, t.children parent = before ++ id :: after :=
  List.append_of_mem ((ht.mem_children_iff parent id).mpr h)

include hthreaded

/-- Neighbours have one parent. -/
theorem Threaded.parent?_of_next? {id next : NodeId} (h : t.next? id = some next) :
    ∃ parent, t.parent? id = some parent ∧ t.parent? next = some parent := by
  cases hparent : t.parent? id with
  | none =>
      rw [hthreaded.next?_free id hparent] at h
      cases h
  | some parent =>
      obtain ⟨before, after, hsplit⟩ := ht.exists_split hparent
      rw [hthreaded.next?_eq parent before id after hsplit] at h
      refine ⟨parent, rfl, (ht.mem_children_iff parent next).mp ?_⟩
      rw [hsplit]
      simp [List.mem_of_head? h]

theorem Threaded.parent?_of_previous? {id previous : NodeId} (h : t.previous? id = some previous) :
    ∃ parent, t.parent? id = some parent ∧ t.parent? previous = some parent := by
  cases hparent : t.parent? id with
  | none =>
      rw [hthreaded.previous?_free id hparent] at h
      cases h
  | some parent =>
      obtain ⟨before, after, hsplit⟩ := ht.exists_split hparent
      rw [hthreaded.previous?_eq parent before id after hsplit] at h
      refine ⟨parent, rfl, (ht.mem_children_iff parent previous).mp ?_⟩
      rw [hsplit]
      simp [List.mem_of_getLast? h]

end Neighbours

/-- One node links to the other, in whatever way. -/
inductive LinksTo (t : Tree) (id other : NodeId) : Prop
  | parent (h : t.parent? id = some other)
  | child (h : other ∈ t.children id)
  | next (h : t.next? id = some other)
  | previous (h : t.previous? id = some other)

theorem LinksTo.lt_size {t : Tree} (ht : t.Linked) (hthreaded : t.Threaded) {id other : NodeId}
    (h : t.LinksTo id other) : id < t.size ∧ other < t.size := by
  cases h with
  | parent h => exact ht.lt_of_parent? h
  | child h => exact (ht.lt_of_parent? ((ht.mem_children_iff id other).mp h)).symm
  | next h =>
      obtain ⟨parent, hid, hother⟩ := hthreaded.parent?_of_next? ht h
      exact ⟨(ht.lt_of_parent? hid).1, (ht.lt_of_parent? hother).1⟩
  | previous h =>
      obtain ⟨parent, hid, hother⟩ := hthreaded.parent?_of_previous? ht h
      exact ⟨(ht.lt_of_parent? hid).1, (ht.lt_of_parent? hother).1⟩

/-! ## What the walks meet -/

namespace Linked

variable {t : Tree} (ht : t.Linked)

include ht

/-- What is met on the way up is what leads down to the node through lists of children. -/
theorem isDescendantOf_iff (id ancestor : NodeId) : t.isDescendantOf id ancestor = true ↔
    Relation.TransGen (fun x y => y ∈ t.children x) ancestor id := by
  -- Links to children are links to parents, seen from the other end.
  have hdown : (fun x y => y ∈ t.children x) =
      Function.swap fun child parent => t.parent? child = some parent := by
    funext x y
    exact propext (ht.mem_children_iff x y)
  rw [isDescendantOf, List.contains_iff_mem, ht.mem_ancestors_iff, hdown, Relation.transGen_swap]
  rfl

end Linked

/-! ## Consistent trees -/

/-- All links of the tree agree, and the walks along them meet what the lists of children say. -/
structure Consistent (t : Tree) : Prop where
  inRange : ∀ id other, t.LinksTo id other → id < t.size ∧ other < t.size
  mem_children_iff : ∀ parent child, child ∈ t.children parent ↔ t.parent? child = some parent
  once : ∀ parent, (t.children parent).Nodup
  disjoint : ∀ parent parent', parent ≠ parent' →
    (t.children parent).Disjoint (t.children parent')
  neighbours : ∀ parent before child after, t.children parent = before ++ child :: after →
    t.previous? child = before.getLast? ∧ t.next? child = after.head?
  free : ∀ id, t.parent? id = none → t.previous? id = none ∧ t.next? id = none
  acyclic : ∀ id, ¬ t.Above id id
  -- The way up ends, and the list has all of it.
  ancestors : ∀ id, t.Lineage id (t.ancestors id)
  precedingSiblings : ∀ parent before child after, t.children parent = before ++ child :: after →
    t.precedingSiblings child = before.reverse
  precedingSiblings_free : ∀ id, t.parent? id = none → t.precedingSiblings id = []
  isDescendantOf_iff : ∀ id ancestor, t.isDescendantOf id ancestor = true ↔
    Relation.TransGen (fun x y => y ∈ t.children x) ancestor id
  elementIndex? : ∀ id parent, t.isElement id = true → t.parent? id = some parent →
    ∃ k, t.elementIndex? id = some (k + 1) ∧
      ∀ i, (t.elementChildren parent)[i]? = some id ↔ i = k

theorem consistent_of_links {t : Tree} (ht : t.Linked) (hthreaded : t.Threaded) :
    t.Consistent where
  inRange := fun _ _ h => h.lt_size ht hthreaded
  mem_children_iff := ht.mem_children_iff
  once := ht.nodup_children
  disjoint := by
    intro parent parent' hne child hchild hchild'
    rw [ht.mem_children_iff] at hchild hchild'
    -- A node has one parent.
    exact hne (Option.some.inj (hchild.symm.trans hchild'))
  neighbours := fun parent before child after hsplit =>
    ⟨hthreaded.previous?_eq parent before child after hsplit,
      hthreaded.next?_eq parent before child after hsplit⟩
  free := fun id hfree => ⟨hthreaded.previous?_free id hfree, hthreaded.next?_free id hfree⟩
  acyclic := ht.acyclic
  ancestors := ht.lineage_ancestors
  precedingSiblings := fun _ _ _ _ hsplit => hthreaded.precedingSiblings_eq ht hsplit
  precedingSiblings_free := fun _ hfree => hthreaded.precedingSiblings_of_free hfree
  isDescendantOf_iff := ht.isDescendantOf_iff
  elementIndex? := fun _ _ hid hparent =>
    have ⟨k, hk⟩ := ht.exists_childAt hid hparent
    ⟨k, ht.elementIndex?_of_childAt hk, ht.childAt_iff hk⟩

/-- Fit calls leave all links in agreement, and calls that name no node leave the tree as it is. -/
theorem consistent_after (markup : Markup) (calls : List Call)
    (h : (empty markup).FitAll calls) :
    ((empty markup).after calls).Consistent ∧
      ∀ parent child, ¬ (parent < ((empty markup).after calls).size ∧
          child < ((empty markup).after calls).size) →
        ((empty markup).after calls).append parent child = (empty markup).after calls := by
  have hempty : Grown (fun _ _ => True) (empty markup) := Grown.empty markup
  have hgrown := hempty.after h
  constructor
  · apply consistent_of_links hgrown.linked hgrown.threaded
  · intro parent child hout
    exact append_of_not_lt _ hout

/-- A list is built apart from the document, edited, and linked to it at the end; one call names
    no node. -/
theorem consistent_after_late_link :
    let calls : List Call :=
      [.push (.element { tag := "ul" }), .addChild 1 (.element { tag := "li" }),
        .addChild 1 (.text "and"), .addChild 1 (.element { tag := "li" }),
        .setAttribute 2 "id" "first", .append 9 1, .append root 1]
    (empty .html).FitAll calls ∧ ((empty .html).after calls).Consistent ∧
      ((empty .html).after calls).precedingSiblings 4 = [3, 2] ∧
      ((empty .html).after calls).elementIndex? 4 = some 2 := by
  intro calls
  have hfit : (empty .html).FitAll calls := by
    refine ⟨trivial, fun _ _ => ?_, fun _ _ => ?_, fun _ _ => ?_, trivial, fun h => ?_,
      fun _ _ => ?_, trivial⟩
    · exact ⟨rfl, by decide, by decide, by decide⟩
    · exact ⟨rfl, by decide, by decide, by decide⟩
    · exact ⟨rfl, by decide, by decide, by decide⟩
    · exact absurd h (by decide)
    · exact ⟨rfl, by decide, by decide, by decide⟩
  exact ⟨hfit, (consistent_after .html calls hfit).1, by decide, by decide⟩

end UniqueSelector.Tree
