/-
  UniqueSelector.Uri.Friendly

  A short end of a link target that means something to a reader, if there is
  one. The candidates, in order of preference:

  1. with a fragment: the path end and the fragment, or the fragment alone when
     the path end is next to nothing — and no other candidate;
  2. a bare domain;
  3. the domain and a path of one segment, for a link that leaves the page's domain;
  4. the path end, unless it is tiny, names an index, or is mostly digits.
-/

import UniqueSelector.Text.Search
import UniqueSelector.Uri.Parts

namespace UniqueSelector.Uri

open Text

/-- What limits a friendly suffix. -/
structure FriendlyOptions where
  /-- The domain of the page that holds the link. -/
  currentDomain : Option String := none
  /-- The greatest length, in UTF-16 code units. -/
  maxLength : Nat := 25
  deriving Repr, DecidableEq

/-- Half of the code units, or more, are ASCII digits. -/
def isMostlyDigits (s : List Char) : Bool :=
  listUnits s != 0 && listUnits s ≤ 2 * s.countP Char.isDigit

/-- Enough is left of a path end once what looks like a file extension is taken away. -/
def hasStem (pathEnd : List Char) : Bool :=
  match beforeLast? '.' pathEnd with
  | some stem => 1 < listUnits stem
  | none => 2 < listUnits pathEnd

/-- Targets of no use to a reader: a single unit at most, inline data, a script, a query. -/
def isUnfriendly (uri : List Char) : Bool :=
  listUnits uri ≤ 1 || "data:".toList.isPrefixOf uri || "javascript:".toList.isPrefixOf uri
    || uri.contains '?'

/-- The suffix of a target with a fragment. -/
def fragmentSuffix (maxLength : Nat) (pathEnd fragment : List Char) : Option (List Char) :=
  if !pathEnd.isEmpty && listUnits pathEnd + listUnits fragment ≤ maxLength then
    some (pathEnd ++ fragment)
  else if listUnits pathEnd < 2 && 2 < listUnits fragment && listUnits fragment ≤ maxLength then
    some fragment
  else none

/-- The link leaves the page's domain, where that is known. -/
def leavesDomain (currentDomain : Option String) (domain : List Char) : Bool :=
  match currentDomain with
  | none => false
  | some current => current != "" && current.toList != domain

/-- The suffix of a target without a fragment. -/
def plainSuffix (options : FriendlyOptions) (p : Parts) : Option (List Char) :=
  let pathEnd := p.pathEnd
  if !p.domain.isEmpty && listUnits p.domain < options.maxLength && listUnits p.path ≤ 1 then
    some (p.domain ++ p.path)
  -- The path is one segment when its end is all but the slash in front.
  else if p.path == '/' :: pathEnd && !p.domain.isEmpty
      && leavesDomain options.currentDomain p.domain
      && listUnits p.domain + listUnits p.path ≤ options.maxLength then
    some (p.domain ++ p.path)
  else if hasStem pathEnd && listUnits pathEnd ≤ options.maxLength
      && !occursIn "index".toList pathEnd && !isMostlyDigits pathEnd then
    some pathEnd
  else none

/-- The friendly suffix of a list of characters. -/
def friendlyChars (options : FriendlyOptions) (uri : List Char) : Option (List Char) :=
  if isUnfriendly uri then none
  else
    let p := Parts.ofList uri
    if p.fragment.isEmpty then plainSuffix options p
    else fragmentSuffix options.maxLength p.pathEnd p.fragment

/-- The friendly suffix of a link target. -/
def friendlySuffix (options : FriendlyOptions) (uri : String) : Option String :=
  (friendlyChars options uri.toList).map String.ofList

end UniqueSelector.Uri
