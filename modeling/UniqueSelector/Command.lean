/-
  UniqueSelector.Command

  The commands of the program and all they say: what goes to standard output,
  which warnings are shown, and the error that ends a run. Running a command is a
  function; reading the file and writing the answer are left to the caller.
-/

import UniqueSelector.Dom.Document
import UniqueSelector.Dom.Path
import UniqueSelector.Report

namespace UniqueSelector

open Synthesis

/-! ## Commands -/

/-- Which elements to make selectors for. -/
inductive Target where
  /-- Every element, in tree order. -/
  | all
  /-- The element that a path names. -/
  | path (positions : String)
  deriving Repr, DecidableEq

/-- A command with its options. -/
inductive Command where
  /-- Write a value as an identifier. -/
  | escape (value : String)
  /-- Shorten a link target. -/
  | uri (target : String) (options : Uri.FriendlyOptions)
  /-- Make selectors for elements of the document in a file. -/
  | select (file : String) (target : Target) (options : Options) (markup : Markup)
  deriving Repr, DecidableEq

/-- The file that a command reads. -/
def Command.file? : Command → Option String
  | .select file _ _ _ => some file
  | _ => none

/-! ## Failures -/

/-- Why a command ended early. -/
inductive Failure where
  | unreadable (file : String)
  | unloadable (file : String)
  | badPath (cause : PathError)
  | noSelector (node : NodeId)
  | unescapable (value : String)
  deriving Repr, DecidableEq

/-- A character inside double quotes. -/
def quotedChar (c : Char) : String :=
  if c == '"' || c == '\\' then String.ofList ['\\', c]
  else if c == '\n' then "\\n"
  else if c == '\r' then "\\r"
  else if c == '\t' then "\\t"
  else if c == '\x00' then "\\0"
  else if Identifier.isControl c then
    "\\u\x7b" ++ String.ofList (Nat.toDigits 16 c.toNat) ++ "\x7d"
  else String.ofList [c]

/-- A text inside double quotes. -/
def quoted (s : String) : String :=
  "\"" ++ String.join (s.toList.map quotedChar) ++ "\""

/-- The wording of a failure. -/
def Failure.message : Failure → String
  | .unreadable file => s!"failed to read {file}"
  | .unloadable file => s!"failed to load {file}"
  | .badPath cause => cause.message
  | .noSelector node => s!"failed to synthesize a selector for node {node}"
  | .unescapable value => "cannot escape " ++ quoted value

/-! ## Running -/

/-- What a run leaves behind. -/
structure Outcome where
  /-- The lines of standard output. -/
  lines : List String := []
  /-- The warnings shown on the way. -/
  warnings : List Warning := []
  failure? : Option Failure := none
  deriving Repr, DecidableEq

namespace Outcome

/-- The text of standard output. -/
def output (o : Outcome) : String :=
  String.join (o.lines.map (· ++ "\n"))

/-- The report of a failure on standard error. -/
def errorText? (o : Outcome) : Option String :=
  o.failure?.map fun failure => "Error: " ++ failure.message

/-- The first line of that report. -/
def errorLine? (o : Outcome) : Option String :=
  o.errorText?.map fun text => String.ofList (text.toList.takeWhile (· != '\n'))

/-- Zero for success. -/
def exitCode (o : Outcome) : Nat :=
  if o.failure?.isSome then 1 else 0

end Outcome

/-- The elements that a target means. -/
def Target.nodes (t : Tree) : Target → Except Failure (List NodeId)
  | .all => .ok t.elements
  | .path positions => ((t.resolve positions).map fun node => [node]).mapError .badPath

/-- The records of the elements that a target means. -/
def selectIn (t : Tree) (target : Target) (options : Options) : Outcome :=
  match target.nodes t with
  | .error failure => { failure? := some failure }
  | .ok nodes =>
    let ((records, failed), log) := (t.records options nodes).run {}
    { lines := records.map Record.line
      warnings := log.shown
      failure? := failed.map .noSelector }

/-- Runs a command, given the contents of its file if that could be read. -/
def Command.run (contents? : Option String) : Command → Outcome
  | .escape value =>
    match Identifier.escape value with
    | .ok escaped => { lines := [escaped] }
    | .error _ => { failure? := some (.unescapable value) }
  | .uri target options =>
    match Uri.friendlySuffix options target with
    | some suffix => { lines := [suffix] }
    | none => { lines := [Colour.dimmed "no friendly suffix"] }
  | .select file target options markup =>
    match contents? with
    | none => { failure? := some (.unreadable file) }
    | some json =>
      match Tree.load markup json with
      | .error _ => { failure? := some (.unloadable file) }
      | .ok t => selectIn t target options

end UniqueSelector
