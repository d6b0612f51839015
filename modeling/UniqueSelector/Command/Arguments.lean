/-
  UniqueSelector.Command.Arguments

  The words of the command line as a command. The first word names the command;
  of the others, those that begin with a hyphen are options, and the rest are
  operands. An option that takes a value finds it after a `=` or in the next word.
  After two hyphens alone every word is an operand. No option stands twice.
-/

import UniqueSelector.Command

namespace UniqueSelector.Command

open Text Synthesis

/-- Why the words are no command. -/
inductive UsageError where
  | noCommand
  | unknownCommand (name : String)
  | unknownOption (name : String)
  | missingValue (name : String)
  | badValue (name value : String)
  | repeated (name : String)
  | conflict (first second : String)
  | operands (expected : String)
  deriving Repr, DecidableEq

/-- The wording of a usage error. -/
def UsageError.message : UsageError → String
  | .noCommand => "a command is needed: select, escape or uri"
  | .unknownCommand name => s!"unknown command '{name}'"
  | .unknownOption name => s!"unknown option '{name}'"
  | .missingValue name => s!"a value is needed for '{name}'"
  | .badValue name value => s!"invalid value '{value}' for '{name}'"
  | .repeated name => s!"'{name}' cannot be used twice"
  | .conflict first second => s!"'{first}' cannot be used with '{second}'"
  | .operands expected => s!"exactly one operand is needed: {expected}"

/-- The exit code of a program whose words are no command. -/
def UsageError.exitCode : UsageError → Nat
  | _ => 2

/-! ## Words -/

/-- The operands and options among the words, in order. -/
structure Words where
  operands : List String := []
  /-- Options with a value. -/
  settings : List (String × String) := []
  /-- Options without a value. -/
  flags : List String := []
  deriving Repr, DecidableEq

/-- The options that take a value. -/
def settingNames : List String :=
  ["--path", "--feature-count", "--min-depth", "--current-domain", "--max-length"]

/-- The options that take none. -/
def flagNames : List String :=
  ["--all", "--to-root", "--xhtml"]

/-- The word is an option. A hyphen alone is an operand. -/
def isOption (word : String) : Bool :=
  beginsWith word "-" && word != "-"

/-- The word can stand behind an option as its value: it is no option itself, or a negative
    number for the option that takes one. -/
def isValueOf (name word : String) : Bool :=
  !isOption word || name == "--min-depth" && (integer? word.toList).isSome

/-- The words sorted into operands and options. -/
def Words.ofList : List String → Except UsageError Words
  | [] => .ok {}
  | word :: rest =>
    if word == "--" then .ok { operands := rest }
    else if !isOption word then do
      let words ← Words.ofList rest
      pure { words with operands := word :: words.operands }
    else if flagNames.contains word then do
      let words ← Words.ofList rest
      pure { words with flags := word :: words.flags }
    else if settingNames.contains word then
      match rest with
      | [] => .error (.missingValue word)
      | value :: rest =>
        if isValueOf word value then do
          let words ← Words.ofList rest
          pure { words with settings := (word, value) :: words.settings }
        else .error (.missingValue word)
    else
      match cutAt? ['='] word.toList with
      | none => .error (.unknownOption word)
      | some (name, value) =>
        if settingNames.contains (String.ofList name) then do
          let words ← Words.ofList rest
          pure { words with
            settings := (String.ofList name, String.ofList value) :: words.settings }
        else .error (.unknownOption (String.ofList name))

namespace Words

/-- The value of an option, if it is set. -/
def setting? (w : Words) (name : String) : Option String :=
  w.settings.lookup name

/-- The value of an option, read by `read?`, or `default` where it is not set. -/
def readSetting {α : Type} (w : Words) (name : String) (default : α)
    (read? : List Char → Option α) : Except UsageError α :=
  match w.setting? name with
  | none => .ok default
  | some value =>
    match read? value.toList with
    | some a => .ok a
    | none => .error (.badValue name value)

/-- The only operand. -/
def operand (w : Words) (expected : String) : Except UsageError String :=
  match w.operands with
  | [word] => .ok word
  | _ => .error (.operands expected)

/-- The names of the options. -/
def names (w : Words) : List String :=
  w.settings.map Prod.fst ++ w.flags

/-- No option stands here but those of the command, and none twice. -/
def checkNames (w : Words) (allowed : List String) : Except UsageError Unit :=
  match w.names.find? (!allowed.contains ·), w.names.find? (1 < w.names.count ·) with
  | some name, _ => .error (.unknownOption name)
  | none, some name => .error (.repeated name)
  | none, none => .ok ()

/-- The target of the `select` command. -/
def target (w : Words) : Except UsageError Target :=
  if w.flags.contains "--all" then
    if (w.setting? "--path").isSome then .error (.conflict "--path" "--all") else .ok .all
  else .ok (.path ((w.setting? "--path").getD ""))

end Words

/-! ## Commands -/

/-- The `select` command. -/
def selectOfWords (w : Words) : Except UsageError Command := do
  w.checkNames ["--path", "--all", "--feature-count", "--min-depth", "--to-root", "--xhtml"]
  let file ← w.operand "the file with the document"
  let target ← w.target
  let featureCount ← w.readSetting "--feature-count" 2 natural?
  let minDepth ← w.readSetting "--min-depth" 1 integer?
  let markup := if w.flags.contains "--xhtml" then Markup.xhtml else .html
  pure (.select file target
    { featureCount, minDepth, toRoot := w.flags.contains "--to-root" } markup)

/-- The `escape` command. -/
def escapeOfWords (w : Words) : Except UsageError Command := do
  w.checkNames []
  let value ← w.operand "the value to escape"
  pure (.escape value)

/-- The `uri` command. -/
def uriOfWords (w : Words) : Except UsageError Command := do
  w.checkNames ["--current-domain", "--max-length"]
  let target ← w.operand "the link target"
  let maxLength ← w.readSetting "--max-length" 25 natural?
  pure (.uri target { currentDomain := w.setting? "--current-domain", maxLength })

/-- The command that the words of a command line give. -/
def ofArguments : List String → Except UsageError Command
  | [] => .error .noCommand
  | name :: rest => do
    let words ← Words.ofList rest
    match name with
    | "select" => selectOfWords words
    | "escape" => escapeOfWords words
    | "uri" => uriOfWords words
    | _ => .error (.unknownCommand name)

end UniqueSelector.Command
