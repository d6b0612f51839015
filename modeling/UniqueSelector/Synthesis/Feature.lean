/-
  UniqueSelector.Synthesis.Feature

  The features of an element that a selector can name, from the most to the
  least recognisable, and the compound made of the first few of them.

  * `Profile` — what the features of one element are read off.
  * `Feature.fragment?` — the text that names a feature, if the element has it.
  * `Profile.describe` — the first features, so many as asked for, as one
    compound: a type selector leads, the others follow in their order.
-/

import UniqueSelector.Dom.Walk
import UniqueSelector.Identifier.Escape
import UniqueSelector.Synthesis.Vocabulary
import UniqueSelector.Uri.Friendly
import UniqueSelector.Uri.Percent

namespace UniqueSelector

open Identifier Text

namespace Tree

/-- The telling classes of an element that no other element sibling has. -/
def distinctClasses (t : Tree) (id : NodeId) (e : Element) : List String :=
  let others := ((t.elementSiblings id).filter (· != id)).filterMap t.element?
  (e.classes.filter Synthesis.isTellingClass).filter fun name => !others.any (·.hasClass name)

end Tree

namespace Synthesis

/-! ## Profiles -/

/-- An element, its tag name as written in a selector, and its distinct classes. -/
structure Profile where
  element : Element
  tag : String
  distinctClasses : List String
  deriving Repr, DecidableEq

namespace Profile

/-- The profile of a node; none if it is no element. -/
def ofNode? (t : Tree) (id : NodeId) : Except EscapeError (Option Profile) :=
  match t.element? id with
  | none => .ok none
  | some element => do
    let tag ← escape (element.selectorName t.markup)
    pure (some { element, tag, distinctClasses := t.distinctClasses id element })

/-- The tag name has a hyphen, as those of custom elements do. -/
def isCustom (p : Profile) : Bool :=
  p.tag.toList.contains '-'

/-- The tag name is a generic one. -/
def isGeneric (p : Profile) : Bool :=
  isGenericTag p.tag

end Profile

/-! ## Features -/

/-- The features, each a way to name an element. -/
inductive Feature where
  | customTag
  | role
  | tellingTag
  | name
  | classes
  | link
  | genericTag
  deriving Repr, DecidableEq

/-- The condition that an attribute has a value, which is written as an identifier. -/
def attributeFragment (name value : String) : Except EscapeError String := do
  let escaped ← escape value
  pure ("[" ++ name ++ "=\"" ++ escaped ++ "\"]")

/-- The condition that an attribute has a value, where there is one. -/
def attributeFragment? (name : String) : Option String → Except EscapeError (Option String)
  | none => .ok none
  | some value => (attributeFragment name value).map some

/-- Class selectors, one after the other. -/
def classFragment : List String → Except EscapeError String
  | [] => .ok ""
  | name :: rest => do
    let escaped ← escape name
    let others ← classFragment rest
    pure ("." ++ escaped ++ others)

/-- The attribute that links the element to a target, and the target: `href` before `src`. -/
def linkTarget? (e : Element) : Option (String × String) :=
  match e.attribute? "href" with
  | some target => some ("href", target)
  | none => (e.attribute? "src").map fun target => ("src", target)

/-- The condition that a link ends as its friendly suffix does, percent-encoded; nothing if the
    target does not end so. -/
def linkFragment? (e : Element) : Option String := do
  let (name, target) ← linkTarget? e
  let suffix ← Uri.friendlySuffix {} target
  let encoded := Uri.encode suffix
  if endsWith target encoded then some ("[" ++ name ++ "$=\"" ++ encoded ++ "\"]") else none

namespace Feature

/-- All features, the most recognisable first. -/
def all : List Feature :=
  [.customTag, .role, .tellingTag, .name, .classes, .link, .genericTag]

/-- The tag name of an element that is neither custom nor generic; of an `input` the type too. -/
def tellingTagFragment? (p : Profile) : Except EscapeError (Option String) :=
  if p.isGeneric || p.isCustom then .ok none
  else if p.tag == "input" then do
    let type? ← attributeFragment? "type" (p.element.attribute? "type")
    pure (some (p.tag ++ type?.getD ""))
  else .ok (some p.tag)

/-- The text that names a feature, if the element has it. -/
def fragment? (f : Feature) (p : Profile) : Except EscapeError (Option String) :=
  match f with
  | .customTag => .ok (if p.isCustom then some p.tag else none)
  | .role => attributeFragment? "role" (p.element.attribute? "role")
  | .tellingTag => tellingTagFragment? p
  | .name =>
    if p.element.hasAttribute "id" then .ok none
    else attributeFragment? "name" ((p.element.attribute? "name").filter (· != ""))
  | .classes =>
    if p.distinctClasses.length == 1 || p.distinctClasses.length == 2 then
      (classFragment p.distinctClasses).map some
    else .ok none
  | .link => .ok (linkFragment? p.element)
  | .genericTag => .ok (if p.isGeneric then some p.tag else none)

end Feature

/-! ## Compounds -/

/-- The fragment is a type selector, which has to lead its compound. -/
def isTypeFragment (fragment : String) : Bool :=
  match fragment.toList with
  | c :: _ => !("#.[:".toList.contains c)
  | [] => true

/-- The fragments with one more: a type selector goes to the front, any other to the end. -/
def place (fragments : List String) (fragment : String) : List String :=
  if isTypeFragment fragment then fragment :: fragments else fragments ++ [fragment]

namespace Profile

/-- The fragments so far with those of the first `budget` of the features that give any. Once
    the budget is spent no further feature is looked at. -/
def gather (p : Profile) : List Feature → Nat → List String → Except EscapeError (List String)
  | [], _, fragments => .ok fragments
  | _, 0, fragments => .ok fragments
  | f :: rest, budget + 1, fragments => do
    match ← f.fragment? p with
    | none => p.gather rest (budget + 1) fragments
    -- An empty fragment names nothing and costs nothing.
    | some "" => p.gather rest (budget + 1) fragments
    | some fragment => p.gather rest budget (place fragments fragment)

/-- The compound of the first `budget` features. -/
def describe (p : Profile) (budget : Nat) : Except EscapeError String :=
  (p.gather Feature.all budget []).map String.join

end Profile

end Synthesis

end UniqueSelector
