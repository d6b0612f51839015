/-
  UniqueSelector.Host

  What the search for a selector asks of its surroundings: which elements a
  selector finds, whether it picks out a given element, and a place for
  warnings. The search sees nothing of the state of its host.

  * `Host.ofTree` — answers from a tree; an unreadable selector finds nothing
    and gives a warning.
  * `Host.withoutMatching` — the same, where single elements cannot be checked.
  * `Host.recording` — the same, with a record of all questions.
-/

import UniqueSelector.Selector.Matching
import UniqueSelector.Selector.Reading
import UniqueSelector.Warning

namespace UniqueSelector

/-- Why a question to a host has no answer. -/
inductive QueryError where
  | noCapability
  | invalidSelector (selector : String) (cause : SelectorError)
  deriving Repr, DecidableEq

/-- The wording of a query error. -/
def QueryError.message : QueryError → String
  | .noCapability => "no selector matching capability is available"
  | .invalidSelector selector cause => s!"invalid selector '{selector}': {cause.message}"

namespace Tree

/-- Whether the selector that a text spells picks out the node. -/
def check (t : Tree) (id : NodeId) (text : String) : Except QueryError Bool :=
  match Selector.ofString text with
  | .ok s => .ok (t.picks s id)
  | .error cause => .error (.invalidSelector text cause)

/-- The elements that the selector spelled by a text finds; none if it spells no selector. -/
def find (t : Tree) (text : String) : List NodeId :=
  match Selector.ofString text with
  | .ok s => t.select s
  | .error _ => []

/-- The warnings that `find` gives. -/
def findWarnings (text : String) : List Warning :=
  match Selector.ofString text with
  | .ok _ => []
  | .error cause => [{ component := "Selector", message := s!"ignoring '{text}': {cause.message}" }]

end Tree

/-- The surroundings of a search, with a state of type `σ`. -/
structure Host (σ : Type) where
  /-- All elements that a selector finds, in tree order. -/
  queryAll : String → StateM σ (List NodeId)
  /-- Whether a selector picks out one element. -/
  check : NodeId → String → StateM σ (Except QueryError Bool)
  /-- Takes a warning. -/
  warn : Warning → StateM σ Unit

namespace Host

variable {σ : Type}

/-- The selector finds one element and no more. -/
def isUnique (h : Host σ) (selector : String) : StateM σ Bool := do
  let found ← h.queryAll selector
  pure (found.length == 1)

/-- A host that answers from a tree. -/
def ofTree (t : Tree) : Host WarningLog where
  queryAll selector log := (t.find selector, (Tree.findWarnings selector).foldl WarningLog.warn log)
  check id selector log := (t.check id selector, log)
  warn w log := ((), log.warn w)

/-- The host without the means to check a single element. -/
def withoutMatching (h : Host σ) : Host σ :=
  { h with check := fun _ _ state => (.error .noCapability, state) }

/-! ## Records -/

/-- A question to a host. -/
inductive Call where
  /-- All elements were asked for, and so many were found. -/
  | queryAll (selector : String) (found : Nat)
  /-- One element was to be checked. -/
  | check (id : NodeId) (selector : String)
  deriving Repr, DecidableEq

/-- The host with a record of the questions it was asked, in order. -/
def recording (h : Host σ) : Host (σ × List Call) where
  queryAll selector := fun (state, calls) =>
    let (found, state) := h.queryAll selector state
    (found, state, calls ++ [.queryAll selector found.length])
  check id selector := fun (state, calls) =>
    let (answer, state) := h.check id selector state
    (answer, state, calls ++ [.check id selector])
  warn w := fun (state, calls) =>
    let (_, state) := h.warn w state
    ((), state, calls)

end Host

end UniqueSelector
