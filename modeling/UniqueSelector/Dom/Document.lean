/-
  UniqueSelector.Dom.Document

  Documents written as JSON. A text node is a string; an element is an object
  with a string `tag`, and optionally `attrs`, an object of strings, and
  `children`, an array of nodes. Other members are passed over. None of the three
  may be repeated; of two attributes with one name the later counts.

  * `Sketch.ofJson?` — the content that a JSON value stands for.
  * `Tree.load` — the document, whose top must be an element.
-/

import UniqueSelector.Dom.Sketch
import UniqueSelector.Json.Value

namespace UniqueSelector

/-- Why a text is no document. -/
inductive LoadError where
  | malformed
  | textOnly
  deriving Repr, DecidableEq

/-- The wording of a load error. -/
def LoadError.message : LoadError → String
  | .malformed => "invalid JSON document tree"
  | .textOnly => "the document element must be an element, not text"

namespace Sketch

/-- The members of an object that matter, as far as they were met. -/
structure Members where
  tag? : Option String := none
  attributes? : Option Attributes := none
  content? : Option (List Sketch) := none

/-- The text that a value is. -/
def textOf? : Json → Option String
  | .text s => some s
  | _ => none

/-- The attribute that a member stands for. -/
def attributeOf? : String × Json → Option (String × String)
  | (name, value) => (textOf? value).map fun s => (name, s)

/-- The attributes that a value stands for. -/
def attributesOf? : Json → Option Attributes
  | .object members => (members.mapM attributeOf?).map Attributes.ofList
  | _ => none

/-- The members with a tag name; none if there is one already. -/
def Members.withTag (m : Members) (tag : String) : Option Members :=
  if m.tag?.isSome then none else some { m with tag? := some tag }

/-- The members with attributes; none if there are some already. -/
def Members.withAttributes (m : Members) (attributes : Attributes) : Option Members :=
  if m.attributes?.isSome then none else some { m with attributes? := some attributes }

/-- The members with content; none if there is some already. -/
def Members.withContent (m : Members) (content : List Sketch) : Option Members :=
  if m.content?.isSome then none else some { m with content? := some content }

/-- The element that members describe; a tag name is needed. -/
def Members.element? (m : Members) : Option Sketch :=
  m.tag?.map fun tag =>
    .element { tag, attributes := m.attributes?.getD {} } (m.content?.getD [])

mutual

/-- The content that a value stands for. -/
def ofJson? : Json → Option Sketch
  | .text s => some (.text s)
  | .object members => (membersOf? members).bind Members.element?
  | _ => none

/-- The members of an object that matter. -/
def membersOf? : List (String × Json) → Option Members
  | [] => some {}
  | (name, value) :: rest =>
    (membersOf? rest).bind fun members =>
      if name == "tag" then (textOf? value).bind members.withTag
      else if name == "attrs" then (attributesOf? value).bind members.withAttributes
      else if name == "children" then (contentOf? value).bind members.withContent
      else some members

/-- The content that the member for it stands for. -/
def contentOf? : Json → Option (List Sketch)
  | .array items => ofItems? items
  | _ => none

/-- The content that a list of values stands for. -/
def ofItems? : List Json → Option (List Sketch)
  | [] => some []
  | item :: rest => (ofJson? item).bind fun s => (ofItems? rest).map (s :: ·)

end

/-- The top of a document is an element. -/
def isElement : Sketch → Bool
  | .element _ _ => true
  | _ => false

end Sketch

namespace Tree

/-- The document of a sketch, which must be an element. -/
def ofDocument (markup : Markup) (s : Sketch) : Except LoadError Tree :=
  if s.isElement then .ok (ofSketch markup s) else .error .textOnly

/-- The document that a JSON text describes. -/
def load (markup : Markup) (json : String) : Except LoadError Tree :=
  match (Json.ofString? json).bind Sketch.ofJson? with
  | none => .error .malformed
  | some s => ofDocument markup s

end Tree

end UniqueSelector
