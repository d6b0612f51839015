/-
  UniqueSelector.Json.Value

  JSON values, put together from tokens one at a time. Between two tokens it is
  known what may come next and which arrays and objects are open. At most 127 of
  them may be open at once.
-/

import UniqueSelector.Json.Token

namespace UniqueSelector

/-- A JSON value. Numbers, truth values and null are not told apart; the members of an object
    are kept in order, repeated names too. -/
inductive Json where
  | text (s : String)
  | array (items : List Json)
  | object (members : List (String × Json))
  | atom
  deriving Repr

namespace Json

/-- An array or object that is open while one of its values is read, with the values before it,
    the latest first. -/
inductive Frame where
  | array (items : List Json)
  | object (members : List (String × Json)) (name : String)
  deriving Repr

/-- What may come next. -/
inductive Awaiting where
  | value
  /-- A value, or the end of the array that was just opened. -/
  | firstItem
  /-- A name, or the end of the object that was just opened. -/
  | firstName
  /-- A name, after the members so far. -/
  | name (members : List (String × Json))
  /-- The colon after a name. -/
  | colon (members : List (String × Json)) (name : String)
  /-- A value is complete: a comma, the end of what is open, or the end of the text. -/
  | separator (value : Json)
  deriving Repr

/-- What may come next, and what is open, the innermost first. -/
structure Assembly where
  awaiting : Awaiting := .value
  frames : List Frame := []
  deriving Repr

/-- How many arrays and objects may be open at once. -/
def depthLimit : Nat := 127

/-- The first token of a value. -/
def Assembly.begin (frames : List Frame) : Token → Option Assembly
  | .text s => some { awaiting := .separator (.text s), frames }
  | .atom => some { awaiting := .separator .atom, frames }
  | .openArray =>
    if frames.length < depthLimit then some { awaiting := .firstItem, frames } else none
  | .openObject =>
    if frames.length < depthLimit then some { awaiting := .firstName, frames } else none
  | _ => none

/-- A token after a complete value. -/
def Assembly.separate (value : Json) : List Frame → Token → Option Assembly
  | .array items :: frames, .comma => some { frames := .array (value :: items) :: frames }
  | .array items :: frames, .closeArray =>
    some { awaiting := .separator (.array (value :: items).reverse), frames }
  | .object members name :: frames, .comma =>
    some { awaiting := .name ((name, value) :: members), frames }
  | .object members name :: frames, .closeObject =>
    some { awaiting := .separator (.object ((name, value) :: members).reverse), frames }
  | _, _ => none

/-- One more token; none if it may not stand here. -/
def Assembly.step (a : Assembly) (token : Token) : Option Assembly :=
  match a.awaiting, token with
  | .value, token => Assembly.begin a.frames token
  | .firstItem, .closeArray => some { a with awaiting := .separator (.array []) }
  | .firstItem, token => Assembly.begin (.array [] :: a.frames) token
  | .firstName, .closeObject => some { a with awaiting := .separator (.object []) }
  | .firstName, .text name => some { a with awaiting := .colon [] name }
  | .name members, .text name => some { a with awaiting := .colon members name }
  | .colon members name, .colon => some { frames := .object members name :: a.frames }
  | .separator value, token => Assembly.separate value a.frames token
  | _, _ => none

/-- The value, if it is complete and nothing is open. -/
def Assembly.value? (a : Assembly) : Option Json :=
  match a.awaiting, a.frames with
  | .separator value, [] => some value
  | _, _ => none

/-- The value that a text spells. -/
def ofString? (s : String) : Option Json := do
  let tokens ← tokens? s.toList
  let assembly ← tokens.foldlM Assembly.step {}
  assembly.value?

end Json

end UniqueSelector
