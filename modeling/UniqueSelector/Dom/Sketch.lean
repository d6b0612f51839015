/-
  UniqueSelector.Dom.Sketch

  Content that is not part of a tree yet: a text, a comment, or an element with
  its content. Grafting makes its nodes in preorder, so that a node comes before
  all that is below it, and a sibling with all below it before the next one.
-/

import UniqueSelector.Dom.Tree

namespace UniqueSelector

/-- Content to be put into a tree. -/
inductive Sketch where
  | text (s : String)
  | comment (s : String)
  | element (data : Element) (content : List Sketch)
  deriving Repr, Inhabited

namespace Sketch

mutual

/-- How many nodes a sketch makes. -/
def size : Sketch → Nat
  | .text _ => 1
  | .comment _ => 1
  | .element _ content => 1 + sizeAll content

/-- How many nodes a list of sketches makes. -/
def sizeAll : List Sketch → Nat
  | [] => 0
  | s :: rest => s.size + sizeAll rest

end

theorem size_pos (s : Sketch) : 0 < s.size := by
  cases s with
  | text s => exact Nat.one_pos
  | comment s => exact Nat.one_pos
  | element data content =>
    rw [size]
    omega

end Sketch

namespace Tree

mutual

/-- The tree with a sketch as the last child of `parent`. The number of its top node is the
    former size. -/
def graft (t : Tree) (parent : NodeId) : Sketch → Tree
  | .text s => t.addChild parent (.text s)
  | .comment s => t.addChild parent (.comment s)
  | .element data content => (t.addChild parent (.element data)).graftAll t.size content

/-- The tree with sketches as the last children of `parent`. -/
def graftAll (t : Tree) (parent : NodeId) : List Sketch → Tree
  | [] => t
  | s :: rest => (t.graft parent s).graftAll parent rest

end

mutual

theorem size_graft (t : Tree) (parent : NodeId) :
    ∀ s : Sketch, (t.graft parent s).size = t.size + s.size
  | .text _ => by simp [graft, Sketch.size]
  | .comment _ => by simp [graft, Sketch.size]
  | .element _ content => by
    rw [graft, Sketch.size, size_graftAll _ _ content, size_addChild]
    omega

theorem size_graftAll (t : Tree) (parent : NodeId) :
    ∀ content : List Sketch, (t.graftAll parent content).size = t.size + Sketch.sizeAll content
  | [] => by simp [graftAll, Sketch.sizeAll]
  | s :: rest => by
    rw [graftAll, Sketch.sizeAll, size_graftAll _ _ rest, size_graft _ _ s]
    omega

end

/-- The document with a sketch as its only content. -/
def ofSketch (markup : Markup) (s : Sketch) : Tree :=
  (empty markup).graft root s

end Tree

end UniqueSelector
