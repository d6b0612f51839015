/-
  UniqueSelector.Dom.Path

  Paths of element positions. A path names an element by the positions, counted
  from zero among the element children, that lead down to it from the document
  element, with slashes between them. Extra slashes do not count, so the empty
  path is the document element.
-/

import UniqueSelector.Dom.Walk
import UniqueSelector.Text.Numeral

namespace UniqueSelector

/-- Why a path leads nowhere. -/
inductive PathError where
  | noDocumentElement
  | notAnIndex (segment : String)
  | noChild (index : Nat) (path : String)
  deriving Repr, DecidableEq

/-- The wording of a path error. -/
def PathError.message : PathError → String
  | .noDocumentElement => "the document has no document element"
  | .notAnIndex segment => s!"path segment '{segment}' is not an index"
  | .noChild index path => s!"no element child at index {index} in path '{path}'"

namespace Tree

/-- The segments of a path that are not empty. -/
def pathSegments (path : String) : List (List Char) :=
  (path.toList.splitOn '/').filter (!·.isEmpty)

/-- The element child that a segment of `path` names. -/
def resolveSegment (t : Tree) (path : String) (current : NodeId) (segment : List Char) :
    Except PathError NodeId :=
  match Text.natural? segment with
  | none => .error (.notAnIndex (String.ofList segment))
  | some index =>
    match (t.elementChildren current)[index]? with
    | none => .error (.noChild index path)
    | some child => .ok child

/-- The element that a path names. -/
def resolve (t : Tree) (path : String) : Except PathError NodeId :=
  match t.documentElement? with
  | none => .error .noDocumentElement
  | some top => (pathSegments path).foldlM (t.resolveSegment path) top

end Tree

end UniqueSelector
