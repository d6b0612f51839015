/-
  UniqueSelector.Report

  What the program says about the elements it was asked about: a line for each,
  with a mark that tells how its selector fares in the document.

  * a green tick — the selector finds the element and no other;
  * a yellow tilde — it finds the element among others, and how many;
  * a red cross — it does not find the element.
-/

import UniqueSelector.Synthesis.Ascent

namespace UniqueSelector

open Synthesis

/-! ## Colours -/

namespace Colour

/-- Green, then the usual colour. -/
def green (s : String) : String := "\x1b[32m" ++ s ++ "\x1b[39m"

/-- Yellow, then the usual colour. -/
def yellow (s : String) : String := "\x1b[33m" ++ s ++ "\x1b[39m"

/-- Red, then the usual colour. -/
def red (s : String) : String := "\x1b[31m" ++ s ++ "\x1b[39m"

/-- Bold, then plain. -/
def bold (s : String) : String := "\x1b[1m" ++ s ++ "\x1b[0m"

/-- Dimmed, then plain. -/
def dimmed (s : String) : String := "\x1b[2m" ++ s ++ "\x1b[0m"

end Colour

/-! ## Lines -/

/-- How the selector for an element fares in its document. -/
inductive Mark where
  | unique
  | ambiguous (count : Nat)
  | missing
  deriving Repr, DecidableEq

/-- The mark of a selector that finds these elements. -/
def Mark.of (node : NodeId) (found : List NodeId) : Mark :=
  if found == [node] then .unique
  else if found.contains node then .ambiguous found.length
  else .missing

/-- What is said about one element: a mark, its tag name as written, and its selector. -/
structure Record where
  mark : Mark
  tag : String
  selector : String
  deriving Repr, DecidableEq

/-- The line for a record. -/
def Record.line (r : Record) : String :=
  let tail := " " ++ Colour.dimmed r.tag ++ " " ++ Colour.bold r.selector
  match r.mark with
  | .unique => Colour.green "✓" ++ tail
  | .ambiguous count => Colour.yellow "~" ++ tail ++ " " ++ Colour.yellow s!"({count} matches)"
  | .missing => Colour.red "✗" ++ tail

namespace Tree

/-- A tag name in angle brackets; nothing for what is no element. -/
def tagLabel (t : Tree) (node : NodeId) : String :=
  match t.element? node with
  | some e => "<" ++ e.tag ++ ">"
  | none => ""

/-- The record of one element, if a selector for it can be made. -/
def record (t : Tree) (options : Options) (node : NodeId) :
    StateM WarningLog (Except SynthesisError Record) := do
  match ← synthesizeIn t (some node) options with
  | .error cause => pure (.error cause)
  | .ok selector =>
    let found ← (Host.ofTree t).queryAll selector
    pure (.ok { mark := Mark.of node found, tag := t.tagLabel node, selector })

/-- The records of elements up to the first one without a selector, and that one. -/
def records (t : Tree) (options : Options) :
    List NodeId → StateM WarningLog (List Record × Option NodeId)
  | [] => pure ([], none)
  | node :: rest => do
    match ← t.record options node with
    | .error _ => pure ([], some node)
    | .ok r =>
      let (others, failed) ← t.records options rest
      pure (r :: others, failed)

end Tree

end UniqueSelector
