/-
  UniqueSelector.Selector.Basic

  What a selector is: a subject, and a chain of compounds that lead to it. Names
  and values are held unescaped. The chain runs leftwards from the subject: for
  `A > B C` the subject is `C` and the chain is `[(descendant, B), (child, A)]`.
-/

import UniqueSelector.Selector.AnPlusB

namespace UniqueSelector

/-- The ways in which the value of an attribute may agree with a given one. -/
inductive AttributeOperator where
  /-- The whole value. -/
  | equals
  /-- One of the words of the value. -/
  | word
  /-- The whole value, or what stands before a hyphen in it. -/
  | dashed
  /-- The beginning of the value. -/
  | start
  /-- The end of the value. -/
  | finish
  /-- Any part of the value. -/
  | inside
  deriving Repr, DecidableEq

/-- The character in front of `=` that asks for an operator. -/
def AttributeOperator.ofMark? : Char → Option AttributeOperator
  | '~' => some .word
  | '|' => some .dashed
  | '^' => some .start
  | '$' => some .finish
  | '*' => some .inside
  | _ => none

/-- A condition on one attribute: that it is there, or how its value agrees with a given one. -/
structure AttributeTest where
  name : String
  agreement? : Option (AttributeOperator × String) := none
  deriving Repr, DecidableEq

/-- Conditions on the place of an element among its siblings and its children. -/
inductive PseudoClass where
  | root
  | firstChild
  | lastChild
  | onlyChild
  | empty
  | nthChild (positions : AnPlusB)
  deriving Repr, DecidableEq

/-- The pseudo-class without an argument that has this name. -/
def PseudoClass.ofName? : String → Option PseudoClass
  | "root" => some .root
  | "first-child" => some .firstChild
  | "last-child" => some .lastChild
  | "only-child" => some .onlyChild
  | "empty" => some .empty
  | _ => none

/-- One condition on an element. -/
inductive SimpleSelector where
  | typeName (name : String)
  | universal
  | className (name : String)
  | idName (name : String)
  | attribute (test : AttributeTest)
  | pseudo (condition : PseudoClass)
  deriving Repr, DecidableEq

/-- Conditions that one element has to meet all together. -/
abbrev Compound := List SimpleSelector

/-- How the element to the left of a combinator lies to the one on its right. -/
inductive Combinator where
  | descendant
  | child
  | nextSibling
  | subsequentSibling
  deriving Repr, DecidableEq

/-- A subject and the chain of compounds to its left, the nearest first. -/
structure Selector where
  subject : Compound
  chain : List (Combinator × Compound) := []
  deriving Repr, DecidableEq

namespace Selector

/-- No combinator occurs. -/
def isCompound (s : Selector) : Bool :=
  s.chain.isEmpty

/-- The selector with one more compound on its right, which becomes the subject. -/
def extend (s : Selector) (combinator : Combinator) (compound : Compound) : Selector :=
  { subject := compound, chain := (combinator, s.subject) :: s.chain }

end Selector

end UniqueSelector
