/-
  UniqueSelector.Proofs.Dom.Places

  Elements by their places. An element that has a parent stands at one place among
  the element children of that parent. The places of the elements on the way up,
  read from the top, lead down to the element again, and nothing else does.

    * `Tree.ChildAt` — the element child at a place.
    * `Tree.address` — the places from below the document element down to a node,
      found on the way up.
    * `Tree.Descends` — places that lead down from a node.
    * `Tree.IsDocument.descends_iff` — in a document the two are one.

  The way up is the one of `Lineage`, so facts on addresses are proved by
  induction on it, one level for each parent.
-/

import UniqueSelector.Proofs.Dom.Loading

namespace UniqueSelector.Tree

/-! ## Places among element children -/

/-- The node is the element child of `parent` with `k` others before it. -/
def ChildAt (t : Tree) (parent : NodeId) (k : Nat) (id : NodeId) : Prop :=
  (t.elementChildren parent)[k]? = some id

section ChildAt

variable {t : Tree} {parent id : NodeId} {k : Nat}

theorem childAt_of_lt (h : k < (t.elementChildren parent).length) : ∃ c, t.ChildAt parent k c :=
  ⟨_, List.getElem?_eq_getElem h⟩

theorem ChildAt.lt_length (h : t.ChildAt parent k id) : k < (t.elementChildren parent).length :=
  (List.getElem?_eq_some_iff.mp h).1

theorem ChildAt.mem (h : t.ChildAt parent k id) : id ∈ t.elementChildren parent :=
  List.mem_of_getElem? h

theorem ChildAt.isElement (h : t.ChildAt parent k id) : t.isElement id = true :=
  ((t.mem_elementChildren_iff parent id).mp h.mem).2

theorem ChildAt.child_unique (h : t.ChildAt parent k id) {id' : NodeId}
    (h' : t.ChildAt parent k id') : id = id' :=
  Option.some.inj (h.symm.trans h')

namespace Linked

variable (ht : t.Linked)

include ht

theorem nodup_elementChildren (parent : NodeId) : (t.elementChildren parent).Nodup :=
  (ht.nodup_children parent).filter _

theorem parent?_of_childAt (h : t.ChildAt parent k id) : t.parent? id = some parent :=
  (ht.mem_children_iff parent id).mp ((t.mem_elementChildren_iff parent id).mp h.mem).1

theorem mem_elementChildren_iff_parent? (parent id : NodeId) :
    id ∈ t.elementChildren parent ↔ t.parent? id = some parent ∧ t.isElement id = true := by
  rw [mem_elementChildren_iff, ht.mem_children_iff]

/-- An element stands at one place among the element children of its parent. -/
theorem childAt_iff (h : t.ChildAt parent k id) (i : Nat) : t.ChildAt parent i id ↔ i = k := by
  rw [ChildAt, ← h, eq_comm, List.getElem?_inj h.lt_length (ht.nodup_elementChildren parent),
    eq_comm]

theorem exists_childAt (hid : t.isElement id = true) (hparent : t.parent? id = some parent) :
    ∃ k, t.ChildAt parent k id :=
  List.getElem?_of_mem ((ht.mem_elementChildren_iff_parent? parent id).mpr ⟨hparent, hid⟩)

theorem idxOf?_eq_some_iff (parent id : NodeId) (k : Nat) :
    (t.elementChildren parent).idxOf? id = some k ↔ t.ChildAt parent k id := by
  have hplace : ∀ {i}, (t.elementChildren parent).idxOf? id = some i → t.ChildAt parent i id := by
    intro i hi
    obtain ⟨hlt, hat, -⟩ := List.idxOf?_eq_some_iff.mp hi
    rw [ChildAt, List.getElem?_eq_getElem hlt, hat]
  refine ⟨hplace, fun h => ?_⟩
  obtain ⟨i, hi⟩ := Option.isSome_iff_exists.mp (List.isSome_idxOf?.mpr h.mem)
  rw [hi, (ht.childAt_iff h i).mp (hplace hi)]

/-- The number of an element among its siblings is one more than its place. -/
theorem elementIndex?_of_childAt (h : t.ChildAt parent k id) : t.elementIndex? id = some (k + 1) := by
  rw [elementIndex?_eq (ht.parent?_of_childAt h), (ht.idxOf?_eq_some_iff parent id k).mpr h]
  rfl

end Linked

end ChildAt

/-! ## Addresses -/

/-- The place of an element among the element children of its parent, counted from zero. -/
def place (t : Tree) (id : NodeId) : Nat :=
  (t.elementIndex? id).getD 1 - 1

/-- The places of the elements from just below the document element down to the node. -/
def address (t : Tree) (id : NodeId) : List Nat :=
  ((id :: t.ancestors id).takeWhile (t.documentElement? != some ·)).reverse.map t.place

/-- The places lead down from the one node to the other, each of them to an element child. -/
def Descends (t : Tree) : NodeId → List Nat → NodeId → Prop
  | id, [], target => id = target
  | id, k :: ks, target => ∃ child, t.ChildAt id k child ∧ t.Descends child ks target

/-- One more place at the end leads one level further down. -/
theorem Descends.concat {t : Tree} {start parent child : NodeId} {ks : List Nat} {k : Nat}
    (h : t.Descends start ks parent) (hk : t.ChildAt parent k child) :
    t.Descends start (ks ++ [k]) child := by
  induction ks generalizing start with
  | nil =>
      obtain rfl : start = parent := h
      exact ⟨child, hk, rfl⟩
  | cons i ks ih =>
      obtain ⟨next, hi, hrest⟩ := h
      exact ⟨next, hi, ih hrest⟩

theorem place_of_childAt {t : Tree} (ht : t.Linked) {parent id : NodeId} {k : Nat}
    (h : t.ChildAt parent k id) : t.place id = k := by
  rw [place, ht.elementIndex?_of_childAt h]
  rfl

theorem isElement_of_documentElement? {t : Tree} {top : NodeId}
    (htop : t.documentElement? = some top) : t.isElement top = true :=
  ((t.mem_elementChildren_iff root top).mp (List.mem_of_head? htop)).2

theorem address_top {t : Tree} {top : NodeId} (htop : t.documentElement? = some top) :
    t.address top = [] := by
  rw [address, List.takeWhile_cons_of_neg (by simp [htop])]
  rfl

/-- Below the document element an address is the one of the parent and one place more. -/
theorem address_of_childAt {t : Tree} (ht : t.Linked) {parent id : NodeId} {k : Nat}
    (h : t.ChildAt parent k id) (hid : t.documentElement? ≠ some id) :
    t.address id = t.address parent ++ [k] := by
  rw [address, List.takeWhile_cons_of_pos (by simpa using hid),
    ht.ancestors_of_parent? (ht.parent?_of_childAt h), List.reverse_cons, List.map_append,
    List.map_singleton, place_of_childAt ht h]
  rfl

namespace IsDocument

variable {t : Tree} (ht : t.IsDocument)

include ht

/-- The document element is the one node with the document for a parent. -/
theorem parent?_eq_root_iff {id : NodeId} : t.parent? id = some root ↔ t.documentElement? = some id := by
  obtain ⟨top, hchildren, htop⟩ := ht.exists_top
  rw [← ht.linked.mem_children_iff, hchildren, List.mem_singleton, htop, Option.some.injEq, eq_comm]

/-- A child of an element is not the document element. -/
theorem ne_top_of_childAt {parent id : NodeId} {k : Nat} (h : t.ChildAt parent k id)
    (hparent : t.isElement parent = true) : t.documentElement? ≠ some id := by
  intro htop
  rw [← ht.parent?_eq_root_iff, ht.linked.parent?_of_childAt h] at htop
  exact ht.linked.ne_root_of_isElement hparent (Option.some.inj htop)

theorem descends_of_lineage {top : NodeId} (htop : t.documentElement? = some top) {id : NodeId}
    {l : List NodeId} (h : t.Lineage id l) (hid : t.isElement id = true) :
    t.Descends top (t.address id) id := by
  induction h with
  | @top id hnone =>
      obtain ⟨parent, hparent⟩ :=
        ht.whole.attached id (lt_size_of_isElement hid) (ht.linked.ne_root_of_isElement hid)
      rw [hnone] at hparent
      cases hparent
  | @step id parent l hparent hl ih =>
      -- The address starts at the document element, and below it goes on from the parent.
      rcases ht.nested id parent hparent with rfl | helement
      · rw [ht.parent?_eq_root_iff, htop] at hparent
        obtain rfl := Option.some.inj hparent
        rw [address_top htop]
        rfl
      · obtain ⟨k, hk⟩ := ht.linked.exists_childAt hid hparent
        rw [address_of_childAt ht.linked hk (ht.ne_top_of_childAt hk helement)]
        exact (ih helement).concat hk

theorem address_of_descends {start target : NodeId} {ks : List Nat} (h : t.Descends start ks target)
    (hstart : t.isElement start = true) :
    t.isElement target = true ∧ t.address target = t.address start ++ ks := by
  induction ks generalizing start with
  | nil =>
      obtain rfl : start = target := h
      exact ⟨hstart, (List.append_nil _).symm⟩
  | cons k ks ih =>
      obtain ⟨child, hk, hrest⟩ := h
      obtain ⟨htarget, haddress⟩ := ih hrest hk.isElement
      rw [haddress, address_of_childAt ht.linked hk (ht.ne_top_of_childAt hk hstart),
        List.append_assoc]
      exact ⟨htarget, rfl⟩

/-- From the document element the address of an element leads to it, and no other places do. -/
theorem descends_iff {top : NodeId} (htop : t.documentElement? = some top) (ks : List Nat)
    (id : NodeId) : t.Descends top ks id ↔ t.isElement id = true ∧ t.address id = ks := by
  constructor
  · intro h
    have hboth := ht.address_of_descends h (isElement_of_documentElement? htop)
    rw [address_top htop, List.nil_append] at hboth
    exact hboth
  · rintro ⟨hid, rfl⟩
    exact ht.descends_of_lineage htop (ht.linked.lineage_ancestors id) hid

end IsDocument

end UniqueSelector.Tree
