/-
  UniqueSelector.Dom.Walk

  The lists of nodes that one meets on the way through a tree: upwards, back
  among the siblings, and down in tree order.

  A way upwards or backwards that does not run in a circle meets each node once
  at most, and a way down has no more levels than there are nodes; so the size of
  the tree bounds every walk here without cutting one short.
-/

import UniqueSelector.Dom.Tree

namespace UniqueSelector.Tree

/-! ## Upwards and backwards -/

/-- The nodes that `next` leads to from a node, one after the other, `bound` at most. -/
def chase (next : NodeId → Option NodeId) : Nat → NodeId → List NodeId
  | 0, _ => []
  | bound + 1, id =>
    match next id with
    | none => []
    | some id => id :: chase next bound id

/-- The parent, its parent and so on. -/
def ancestors (t : Tree) (id : NodeId) : List NodeId :=
  chase t.parent? t.size id

/-- The siblings before a node, the nearest first. -/
def precedingSiblings (t : Tree) (id : NodeId) : List NodeId :=
  chase t.previous? t.size id

/-- `ancestor` is met on the way up from `id`. -/
def isDescendantOf (t : Tree) (id ancestor : NodeId) : Bool :=
  (t.ancestors id).contains ancestor

/-- The elements among the siblings before a node, the nearest first. -/
def precedingElements (t : Tree) (id : NodeId) : List NodeId :=
  (t.precedingSiblings id).filter t.isElement

/-! ## Siblings -/

/-- The element children of the node's parent, the document included as a parent. -/
def inclusiveSiblings (t : Tree) (id : NodeId) : List NodeId :=
  match t.parent? id with
  | none => []
  | some parent => t.elementChildren parent

/-- The element children of the parent element; none where the parent is no element. -/
def elementSiblings (t : Tree) (id : NodeId) : List NodeId :=
  match t.parentElement? id with
  | none => []
  | some parent => t.elementChildren parent

/-- The place of an element among the element children of its parent, counted from one. -/
def elementIndex? (t : Tree) (id : NodeId) : Option Nat :=
  ((t.inclusiveSiblings id).idxOf? id).map (· + 1)

/-! ## Downwards -/

/-- An element and the elements below it in tree order, through `levels` levels. -/
def elementsFrom (t : Tree) : Nat → NodeId → List NodeId
  | 0, _ => []
  | levels + 1, id =>
    if t.isElement id then id :: (t.children id).flatMap (t.elementsFrom levels) else []

/-- The same elements in front of a list, each put there once. -/
def elementsOnto (t : Tree) : Nat → NodeId → List NodeId → List NodeId
  | 0, _, rest => rest
  | levels + 1, id, rest =>
    if t.isElement id then id :: (t.children id).foldr (t.elementsOnto levels) rest else rest

/-- The elements of the document, in tree order. -/
def elements (t : Tree) : List NodeId :=
  (t.children root).foldr (t.elementsOnto t.size) []

/-- The first element child of the document. -/
def documentElement? (t : Tree) : Option NodeId :=
  (t.elementChildren root).head?

/-- The first `body` or `frameset` child of the document element. -/
def body? (t : Tree) : Option NodeId :=
  t.documentElement?.bind fun top =>
    (t.elementChildren top).find? fun id =>
      (t.element? id).any fun e => e.isNamed "body" .html || e.isNamed "frameset" .html

/-! ## Tree order as a list -/

theorem elementsOnto_eq (t : Tree) (levels : Nat) (id : NodeId) (rest : List NodeId) :
    t.elementsOnto levels id rest = t.elementsFrom levels id ++ rest := by
  induction levels generalizing id rest with
  | zero => rfl
  | succ levels ih =>
    have hfold : ∀ ids : List NodeId, ids.foldr (t.elementsOnto levels) rest =
        ids.flatMap (t.elementsFrom levels) ++ rest := by
      intro ids
      induction ids with
      | nil => rfl
      | cons c cs ihcs => simp [ihcs, ih]
    simp only [elementsOnto, elementsFrom]
    split
    · simp [hfold]
    · rfl

/-- The elements are those below the children of the document, child by child. -/
theorem elements_eq (t : Tree) :
    t.elements = (t.children root).flatMap (t.elementsFrom t.size) := by
  simp only [elements]
  induction t.children root with
  | nil => rfl
  | cons c cs ih => simp [elementsOnto_eq, ih]

theorem mem_inclusiveSiblings_iff (t : Tree) (id sibling : NodeId) :
    sibling ∈ t.inclusiveSiblings id ↔
      ∃ parent, t.parent? id = some parent ∧ sibling ∈ t.elementChildren parent := by
  unfold inclusiveSiblings
  split <;> simp_all

theorem elementIndex?_eq {t : Tree} {id parent : NodeId} (h : t.parent? id = some parent) :
    t.elementIndex? id = ((t.elementChildren parent).idxOf? id).map (· + 1) := by
  rw [elementIndex?, inclusiveSiblings, h]

theorem mem_elementChildren_iff (t : Tree) (id child : NodeId) :
    child ∈ t.elementChildren id ↔ child ∈ t.children id ∧ t.isElement child = true := by
  simp [elementChildren]

end UniqueSelector.Tree
