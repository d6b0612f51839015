/-
  UniqueSelector.Synthesis.Ascent

  The search for a selector. It starts at the element and climbs from parent to
  parent. On each level the element is described by one fragment, which tells it
  from its siblings; the climb ends where the selector is unique and as deep as
  asked for, at an id that no other element has, or at the top.

  * `Ascent` — all that one level needs to know; `Ascent.step` is one level.
  * `synthesize` — the whole climb. It takes no more steps than the tree has
    nodes, since parents do not run in a circle.
-/

import UniqueSelector.Host
import UniqueSelector.Synthesis.Feature

namespace UniqueSelector.Synthesis

open Identifier

/-! ## Options, errors, levels -/

/-- What the caller asks for. -/
structure Options where
  /-- The path is known to be unique. -/
  isUnique : Bool := false
  /-- How many features describe the element itself; its ancestors get one. -/
  featureCount : Nat := 2
  /-- How many ancestors to name even when the selector is unique. -/
  minDepth : Int64 := 1
  /-- Climb to the document element. -/
  toRoot : Bool := false
  deriving Repr, DecidableEq

/-- Why there is no selector. -/
inductive SynthesisError where
  | escape (cause : EscapeError)
  | query (cause : QueryError)
  deriving Repr, DecidableEq

/-- The wording of a synthesis error is that of its cause. -/
def SynthesisError.message : SynthesisError → String
  | .escape cause => cause.message
  | .query cause => cause.message

/-- One level of the climb. -/
structure Ascent where
  /-- The element to be described. -/
  node : NodeId
  /-- The fragments of the levels below, the upper first. -/
  below : List String := []
  /-- How many more levels are asked for. The climb can end on its own only at zero. -/
  depth : Int64
  /-- A level below is unique. -/
  isUnique : Bool
  /-- How many features describe the element. -/
  featureCount : Nat
  toRoot : Bool
  deriving Repr, DecidableEq

/-- What a level leads to. -/
inductive Step where
  | climb (next : Ascent)
  | done (selector : String)
  deriving Repr, DecidableEq

/-- One less, but never below the least word. -/
def oneLess (depth : Int64) : Int64 :=
  if depth == Int64.minValue then depth else depth - 1

/-- The selector in which each fragment is a child of the one before. -/
def joinLevels (fragments : List String) : String :=
  " > ".intercalate fragments

namespace Ascent

/-- The level of the element itself. Every level has one feature at least. -/
def start (node : NodeId) (options : Options) : Ascent :=
  { node
    depth := options.minDepth
    isUnique := options.isUnique
    featureCount := max options.featureCount 1
    toRoot := options.toRoot }

/-- The level above, or the end, once the fragment of this level is found. -/
def advance (a : Ascent) (t : Tree) (fragment : String) (isUnique goesOn : Bool) : Step :=
  match t.parentElement? a.node with
  | some parent =>
    if a.toRoot || goesOn then
      .climb
        { node := parent
          below := fragment :: a.below
          depth := oneLess a.depth
          isUnique
          featureCount := 1
          toRoot := a.toRoot }
    else .done (joinLevels (fragment :: a.below))
  | none => .done (joinLevels (fragment :: a.below))

end Ascent

/-! ## Questions to the host -/

variable {σ : Type}

/-- A computation that asks a host and may fail. -/
abbrev Search (σ α : Type) := ExceptT SynthesisError (StateM σ) α

/-- A result of escaping, as part of a search. -/
def liftEscape {α : Type} (result : Except EscapeError α) : Search σ α :=
  ExceptT.mk (pure (result.mapError .escape))

/-- Whether the host sees the element picked out. -/
def picksOut (h : Host σ) (id : NodeId) (selector : String) : Search σ Bool :=
  ExceptT.mk do
    let answer ← h.check id selector
    pure (answer.mapError .query)

/-- The host sees one of the elements picked out; none after it is asked about. -/
def picksAny (h : Host σ) (selector : String) : List NodeId → Search σ Bool
  | [] => pure false
  | id :: rest => do
    if ← picksOut h id selector then pure true else picksAny h selector rest

/-- The id of an element as a selector, if it is there, is no volatile one and no other element
    has it. -/
def idSelector? (h : Host σ) (t : Tree) (node : NodeId) : Search σ (Option String) :=
  match (t.attribute? node "id").filter (· != "") with
  | none => pure none
  | some id => do
    let escaped ← liftEscape (escape id)
    let selector := "#" ++ escaped
    if Text.contains selector volatileIdMark then
      h.warn { component := "Synthesizer", message := "skipping volatile id " ++ selector }
      pure none
    else if ← h.isUnique selector then pure (some selector)
    else pure none

/-- The place of the element among its siblings, counted from one, as a condition. -/
def placeFragment (t : Tree) (node : NodeId) : String :=
  let position := match (t.elementSiblings node).idxOf? node with
    | some index => index + 1
    | none => 0
  s!":nth-child({position})"

/-- The place of the element, where another sibling meets the fragment too. -/
def tieBreaker (h : Host σ) (t : Tree) (node : NodeId) (fragment : String) : Search σ String := do
  if ← picksAny h fragment ((t.elementSiblings node).filter (· != node)) then
    pure (placeFragment t node)
  else pure ""

/-- The path is unique: it was before, or the host finds one element for the fragment. -/
def becomesUnique (h : Host σ) (known : Bool) (fragment : String) : Search σ Bool :=
  if known then pure true else h.isUnique fragment

/-! ## The climb -/

/-- The fragment of a level without an id of its own, with the mark of the document element
    where nothing else makes the path unique, and whether the path is unique. -/
def describeLevel (h : Host σ) (t : Tree) (a : Ascent) (p : Profile) : Search σ (String × Bool) := do
  let features ← liftEscape (p.describe (max a.featureCount 1))
  let place ← tieBreaker h t a.node features
  let fragment := features ++ place
  let isUnique ← becomesUnique h a.isUnique fragment
  if !isUnique && t.documentElement? == some a.node then pure (fragment ++ ":root", isUnique)
  else pure (fragment, isUnique)

/-- One level of the climb. A node that is no element ends it. -/
def Ascent.step (h : Host σ) (t : Tree) (a : Ascent) : Search σ Step := do
  match ← idSelector? h t a.node with
  -- With an id of its own the element needs no ancestor, however many are asked for.
  | some selector => pure (a.advance t selector true false)
  | none =>
    match ← liftEscape (Profile.ofNode? t a.node) with
    | none => pure (.done (joinLevels a.below))
    | some p =>
      let (fragment, isUnique) ← describeLevel h t a p
      pure (a.advance t fragment isUnique (a.depth != 0 || !isUnique))

/-- The levels from `a` on, `bound` at most; the selector is what they lead to. -/
def climb (h : Host σ) (t : Tree) : Nat → Ascent → Search σ String
  | 0, a => pure (joinLevels a.below)
  | bound + 1, a => do
    match ← a.step h t with
    | .done selector => pure selector
    | .climb next => climb h t bound next

/-- A selector for a node; the empty text for what is no element. -/
def synthesize (h : Host σ) (t : Tree) (node? : Option NodeId) (options : Options) :
    Search σ String :=
  match node?.filter t.isElement with
  | none => pure ""
  | some node => climb h t t.size (Ascent.start node options)

/-- A selector for a node of a tree, checked against that tree. -/
def synthesizeIn (t : Tree) (node? : Option NodeId) (options : Options) :
    StateM WarningLog (Except SynthesisError String) :=
  (synthesize (Host.ofTree t) t node? options).run

end UniqueSelector.Synthesis
