/-
  UniqueSelector.Selector.Error

  Why a text is no selector, and the wording of each reason.
-/

namespace UniqueSelector

/-- What was expected, or found, where reading stopped. -/
inductive Expectation where
  | noCharacter
  | simpleSelector
  | idName
  | className
  | attributeName
  | attributeEquals
  | attributeOperator
  | attributeValue
  | attributeEnd
  | pseudoName
  | argumentEnd
  | anPlusB
  | stringEnd
  | stringLine
  deriving Repr, DecidableEq

/-- The wording of an expectation. -/
def Expectation.message : Expectation → String
  | .noCharacter => "unexpected character"
  | .simpleSelector => "expected a selector"
  | .idName => "expected an id after '#'"
  | .className => "expected a class name after '.'"
  | .attributeName => "expected an attribute name"
  | .attributeEquals => "expected '=' in attribute selector"
  | .attributeOperator => "expected ']' or an attribute operator"
  | .attributeValue => "expected an attribute value"
  | .attributeEnd => "expected ']'"
  | .pseudoName => "expected a pseudo-class name"
  | .argumentEnd => "unterminated '('"
  | .anPlusB => "invalid An+B expression"
  | .stringEnd => "unterminated string"
  | .stringLine => "newline in string"

/-- Why a text is no selector. -/
inductive SelectorError where
  /-- There is nothing but blanks. -/
  | empty
  /-- So many characters were read when an expectation failed. -/
  | invalid (position : Nat) (expectation : Expectation)
  /-- No pseudo-class of this name is known. -/
  | unsupported (name : String)
  deriving Repr, DecidableEq

/-- The wording of a selector error. -/
def SelectorError.message : SelectorError → String
  | .empty => "empty selector"
  | .invalid position expectation =>
    s!"invalid selector at position {position}: {expectation.message}"
  | .unsupported name => s!"unsupported pseudo-class ':{name}'"

end UniqueSelector
