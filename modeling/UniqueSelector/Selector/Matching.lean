/-
  UniqueSelector.Selector.Matching

  Which elements of a document a selector picks out. The subject has to meet its
  compound, and for each combinator some element that lies as the combinator
  says has to meet the next compound of the chain, from which the rest of the
  chain goes on. Every candidate is tried.
-/

import UniqueSelector.Dom.Walk
import UniqueSelector.Selector.Basic
import UniqueSelector.Text.Blank
import UniqueSelector.Text.Search

namespace UniqueSelector

open Text

/-! ## Conditions on the element alone -/

/-- A value agrees with the expected one. Nothing begins with, ends with or holds the empty
    text in the sense of the last three operators. -/
def AttributeOperator.agrees (expected value : String) : AttributeOperator → Bool
  | .equals => value == expected
  | .word => (words value).contains expected
  | .dashed => value == expected || beginsWith value (expected ++ "-")
  | .start => expected != "" && beginsWith value expected
  | .finish => expected != "" && endsWith value expected
  | .inside => expected != "" && contains value expected

/-- The condition on an attribute holds. -/
def AttributeTest.holds (test : AttributeTest) (e : Element) : Bool :=
  match test.agreement? with
  | none => e.hasAttribute test.name
  | some (operator, expected) =>
    (e.attribute? test.name).any fun value => operator.agrees expected value

/-- The condition holds of an element on its own; a condition on its place never does. -/
def SimpleSelector.holds (simple : SimpleSelector) (e : Element) (markup : Markup) : Bool :=
  match simple with
  | .typeName name => e.isNamed name markup
  | .universal => true
  | .className name => e.hasClass name
  | .idName name => e.id? == some name
  | .attribute test => test.holds e
  | .pseudo _ => false

namespace Tree

/-! ## Conditions on the place of the element -/

/-- A node is no content of its parent: a comment, or a blank text. -/
def isInsignificant (t : Tree) (id : NodeId) : Bool :=
  match t.kind? id with
  | some (.text s) => isBlank s
  | some (.comment _) => true
  | _ => false

/-- The node's place is as the pseudo-class says. -/
def hasPlace (t : Tree) (id : NodeId) : PseudoClass → Bool
  | .root => t.documentElement? == some id
  | .firstChild => (t.inclusiveSiblings id).head? == some id
  | .lastChild => (t.inclusiveSiblings id).getLast? == some id
  | .onlyChild => t.inclusiveSiblings id == [id]
  | .empty => (t.children id).all t.isInsignificant
  | .nthChild positions =>
    ((t.elementIndex? id).bind fun index => word? index).any positions.selects

/-! ## Compounds and chains -/

/-- An element of the tree meets one condition. -/
def meets (t : Tree) (id : NodeId) (e : Element) : SimpleSelector → Bool
  | .pseudo condition => t.hasPlace id condition
  | simple => simple.holds e t.markup

/-- The node is an element and meets every condition. -/
def meetsAll (t : Tree) (id : NodeId) (compound : Compound) : Bool :=
  match t.element? id with
  | none => false
  | some e => compound.all (t.meets id e)

/-- The nodes that may stand on the left of a combinator when `id` stands on its right. -/
def related (t : Tree) (id : NodeId) : Combinator → List NodeId
  | .descendant => t.ancestors id
  | .child => (t.parent? id).toList
  | .nextSibling => (t.precedingElements id).take 1
  | .subsequentSibling => t.precedingElements id

/-- Elements can be found for all compounds of the chain, one leading to the other. -/
def meetsChain (t : Tree) : List (Combinator × Compound) → NodeId → Bool
  | [], _ => true
  | (combinator, compound) :: rest, id =>
    (t.related id combinator).any fun other => t.meetsAll other compound && t.meetsChain rest other

/-- The selector picks out the node. -/
def picks (t : Tree) (s : Selector) (id : NodeId) : Bool :=
  t.meetsAll id s.subject && t.meetsChain s.chain id

/-- The elements of the document that the selector picks out, in tree order. -/
def select (t : Tree) (s : Selector) : List NodeId :=
  t.elements.filter (t.picks s)

theorem mem_select_iff (t : Tree) (s : Selector) (id : NodeId) :
    id ∈ t.select s ↔ id ∈ t.elements ∧ t.picks s id = true := by
  simp [select]

theorem picks_compound (t : Tree) (c : Compound) (x : NodeId) :
    t.picks { subject := c } x = t.meetsAll x c := by
  rw [picks, meetsChain, Bool.and_true]

theorem meetsAll_pseudo_iff (t : Tree) (id : NodeId) (condition : PseudoClass) :
    t.meetsAll id [.pseudo condition] = true ↔
      t.isElement id = true ∧ t.hasPlace id condition = true := by
  rw [meetsAll, isElement]
  cases t.element? id with
  | none => simp
  | some e => simp [meets]

theorem hasPlace_root_iff (t : Tree) (id : NodeId) :
    t.hasPlace id .root = true ↔ t.documentElement? = some id := by
  rw [hasPlace]
  exact beq_iff_eq

end Tree

end UniqueSelector
