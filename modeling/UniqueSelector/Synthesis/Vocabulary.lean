/-
  UniqueSelector.Synthesis.Vocabulary

  The words that tell a telling property of an element from noise. The lists are
  empirical.
-/

import UniqueSelector.Text.Search

namespace UniqueSelector.Synthesis

open Text

/-- Parts of class names that speak of a passing state or of a column, not of the element. -/
def transientClassParts : List String :=
  ["focus", "hover", "hidden", "visible", "dirty", "touched", "valid", "disable", "enable",
   "active", "col-"]

/-- Tag names that say nothing about an element. -/
def genericTags : List String :=
  ["div", "span", "p", "b", "i", "u", "strong", "em", "h2", "h3"]

/-- What stands in ids that change from load to load. -/
def volatileIdMark : String :=
  "player_uid_"

/-- The class name has none of the transient parts. -/
def isTellingClass (name : String) : Bool :=
  transientClassParts.all fun part => !contains name part

/-- The tag name, as written in a selector, is a generic one. -/
def isGenericTag (name : String) : Bool :=
  genericTags.contains name

end UniqueSelector.Synthesis
