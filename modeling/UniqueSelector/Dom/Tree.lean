/-
  UniqueSelector.Dom.Tree

  A document: its nodes, each with a number, a kind, and links to its parent,
  its children and its neighbours. Node 0 is the document itself. A node is
  made without links and is linked when it is appended to a parent.

  * `push`, `append`, `addChild` — growth. Nodes are never taken away, and a
    node that is appended again keeps its place among its former siblings.
  * `setAttribute`, `eraseAttribute` — editing of an element.

  What each operation does to a node is stated through `node?`.
-/

import UniqueSelector.Dom.Element

namespace UniqueSelector

/-- The number of a node: nodes count from zero in the order they are made. -/
abbrev NodeId := Nat

/-- What a node stands for. -/
inductive NodeKind where
  | document
  | element (data : Element)
  | text (s : String)
  | comment (s : String)
  deriving Repr, DecidableEq

/-- A node and its links. -/
structure Node where
  kind : NodeKind
  parent : Option NodeId := none
  children : List NodeId := []
  next : Option NodeId := none
  previous : Option NodeId := none
  deriving Repr, DecidableEq

/-- A document in some kind of markup. -/
structure Tree where
  markup : Markup := .html
  nodes : Array Node := #[{ kind := .document }]
  deriving Repr, DecidableEq

namespace Tree

/-- The number of the document node. -/
def root : NodeId := 0

/-- A document without content. -/
def empty (markup : Markup) : Tree :=
  { markup }

/-- How many nodes there are. -/
def size (t : Tree) : Nat :=
  t.nodes.size

/-! ## Looking at a node -/

/-- The node with a number. -/
def node? (t : Tree) (id : NodeId) : Option Node :=
  t.nodes[id]?

/-- What the node stands for. -/
def kind? (t : Tree) (id : NodeId) : Option NodeKind :=
  (t.node? id).map Node.kind

/-- The element that the node is. -/
def element? (t : Tree) (id : NodeId) : Option Element :=
  match t.kind? id with
  | some (.element data) => some data
  | _ => none

/-- The node is an element. -/
def isElement (t : Tree) (id : NodeId) : Bool :=
  (t.element? id).isSome

/-- The text that the node is. -/
def text? (t : Tree) (id : NodeId) : Option String :=
  match t.kind? id with
  | some (.text s) => some s
  | _ => none

/-- The node that this one was last appended to. -/
def parent? (t : Tree) (id : NodeId) : Option NodeId :=
  (t.node? id).bind Node.parent

/-- The parent, if it is an element. -/
def parentElement? (t : Tree) (id : NodeId) : Option NodeId :=
  (t.parent? id).filter t.isElement

/-- The nodes that were appended to this one, in order. -/
def children (t : Tree) (id : NodeId) : List NodeId :=
  match t.node? id with
  | some node => node.children
  | none => []

/-- The elements among the children. -/
def elementChildren (t : Tree) (id : NodeId) : List NodeId :=
  (t.children id).filter t.isElement

/-- The first child. -/
def firstChild? (t : Tree) (id : NodeId) : Option NodeId :=
  (t.children id).head?

/-- The last child. -/
def lastChild? (t : Tree) (id : NodeId) : Option NodeId :=
  (t.children id).getLast?

/-- The sibling that follows. -/
def next? (t : Tree) (id : NodeId) : Option NodeId :=
  (t.node? id).bind Node.next

/-- The sibling that goes before. -/
def previous? (t : Tree) (id : NodeId) : Option NodeId :=
  (t.node? id).bind Node.previous

/-! ## Growth -/

/-- The tree with the node `id` changed by `f`; nothing changes without such a node. -/
def update (t : Tree) (id : NodeId) (f : Node → Node) : Tree :=
  { t with nodes := t.nodes.modify id f }

/-- The tree with one more node, without links. Its number is the former size. -/
def push (t : Tree) (kind : NodeKind) : Tree :=
  { t with nodes := t.nodes.push { kind } }

/-- The tree with `child` linked as the last child of `parent`. Older links to `child` stay.
    Nothing changes unless both numbers are nodes. -/
def append (t : Tree) (parent child : NodeId) : Tree :=
  if parent < t.size ∧ child < t.size then
    -- The last child is looked up before the new one is linked.
    let linked := (t.update parent fun n => { n with children := n.children ++ [child] }).update
      child fun n => { n with parent := some parent }
    match t.lastChild? parent with
    | none => linked
    | some last =>
      (linked.update last fun n => { n with next := some child }).update
        child fun n => { n with previous := some last }
  else t

/-- The tree with a new node as the last child of `parent`. Its number is the former size. -/
def addChild (t : Tree) (parent : NodeId) (kind : NodeKind) : Tree :=
  (t.push kind).append parent t.size

/-! ## Editing -/

/-- The value of an attribute of an element. -/
def attribute? (t : Tree) (id : NodeId) (name : String) : Option String :=
  (t.element? id).bind (·.attribute? name)

/-- The tree with the attributes of an element changed by `f`; other nodes have none. -/
def updateAttributes (t : Tree) (id : NodeId) (f : Attributes → Attributes) : Tree :=
  t.update id fun n =>
    match n.kind with
    | .element data => { n with kind := .element { data with attributes := f data.attributes } }
    | _ => n

/-- The tree with a value for an attribute of an element. -/
def setAttribute (t : Tree) (id : NodeId) (name value : String) : Tree :=
  t.updateAttributes id (·.set name value)

/-- The tree without an attribute of an element. -/
def eraseAttribute (t : Tree) (id : NodeId) (name : String) : Tree :=
  t.updateAttributes id (·.erase name)

/-! ## What the operations do to a node -/

@[simp] theorem size_update (t : Tree) (id : NodeId) (f : Node → Node) :
    (t.update id f).size = t.size := by
  simp [update, size]

theorem node?_update (t : Tree) (id other : NodeId) (f : Node → Node) :
    (t.update id f).node? other =
      if other = id then (t.node? other).map f else t.node? other := by
  simp only [update, node?, Array.getElem?_modify]
  by_cases h : other = id
  · subst h; simp
  · have : ¬ id = other := fun h' => h h'.symm
    simp [h, this]

@[simp] theorem size_push (t : Tree) (kind : NodeKind) : (t.push kind).size = t.size + 1 := by
  simp [push, size]

theorem node?_push (t : Tree) (kind : NodeKind) (id : NodeId) :
    (t.push kind).node? id = if id = t.size then some { kind } else t.node? id := by
  simp only [push, node?, size, Array.getElem?_push]
  rfl

@[simp] theorem size_append (t : Tree) (parent child : NodeId) :
    (t.append parent child).size = t.size := by
  unfold append
  split
  · dsimp only
    split <;> simp
  · rfl

@[simp] theorem size_addChild (t : Tree) (parent : NodeId) (kind : NodeKind) :
    (t.addChild parent kind).size = t.size + 1 := by
  simp [addChild]

theorem node?_eq_none_iff (t : Tree) (id : NodeId) : t.node? id = none ↔ t.size ≤ id := by
  simp [node?, size]

theorem isElement_iff (t : Tree) (id : NodeId) :
    t.isElement id = true ↔ ∃ data, t.element? id = some data := by
  simp [isElement, Option.isSome_iff_exists]

/-- Editing leaves every link as it is. -/
theorem links_updateAttributes (t : Tree) (id other : NodeId) (f : Attributes → Attributes) :
    (t.updateAttributes id f).parent? other = t.parent? other ∧
      (t.updateAttributes id f).children other = t.children other ∧
      (t.updateAttributes id f).next? other = t.next? other ∧
      (t.updateAttributes id f).previous? other = t.previous? other := by
  simp only [parent?, children, next?, previous?, updateAttributes, node?_update]
  by_cases h : other = id
  · subst h
    cases t.node? other with
    | none => simp
    | some n => simp only [if_true, Option.map_some, Option.bind_some]; split <;> simp
  · simp [h]

end Tree

end UniqueSelector
