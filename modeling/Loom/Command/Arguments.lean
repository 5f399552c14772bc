import Loom.Json.Reader
import Loom.Verdict

/-!
What the command line asks for. The options of a run may stand in any order, and the last of
a kind counts.
-/

namespace Loom

structure Settings where
  file : Option Text
  code : Option Text
  tree : Bool
  eventsFile : Option Text
  vars : Table Json

def Settings.initial : Settings := ⟨none, none, false, none, []⟩

inductive UsageFault where
  | checkWithoutFile
  | astFileCount
  | evalWithoutCode
  | eventsWithoutFile
  | varWithoutValue
  | malformedVar (assignment : Text)
  | unknownOption (option : Text)
  | unexpectedArgument (argument : Text)
  | evalWithFile
  | noInput
  | astWithoutFile
  deriving DecidableEq, Repr

def UsageFault.message : UsageFault → Text
  | checkWithoutFile => "check requires at least one file argument"
  | astFileCount => "ast requires exactly one file argument"
  | evalWithoutCode => "--eval requires a code argument"
  | eventsWithoutFile => "--events requires a file argument"
  | varWithoutValue => "--var requires name=value"
  | malformedVar assignment => "--var expects name=value, got '" ++ assignment ++ "'"
  | unknownOption option => "Unknown option: " ++ option
  | unexpectedArgument argument => "Unexpected argument: " ++ argument
  | evalWithFile => "--eval cannot be combined with a file"
  | noInput => "no input file"
  | astWithoutFile => "--ast requires a file"

inductive Command where
  | help
  | repl
  | run (settings : Settings)
  | check (files : List Text)
  | ast (file : Text)
  | refused (fault : UsageFault)

/-- The value of a variable: data if the text spells some, otherwise the text. -/
def varValue (raw : Text) : Json :=
  match Json.read? raw with
  | some data =>
      match Check.anyData [] data with
      | .valid data => data
      | _ => .str raw
  | none => .str raw

namespace Settings

def setVar (settings : Settings) (name : Text) (value : Json) : Settings :=
  if name = Json.ancestorKey then settings
  else { settings with vars := Json.propertyOrder (Table.insert name value settings.vars) }

def command (settings : Settings) : Command :=
  if settings.code.isSome && settings.file.isSome then .refused .evalWithFile
  else if settings.code.isNone && settings.file.isNone then .refused .noInput
  else if settings.tree && settings.file.isNone then .refused .astWithoutFile
  else .run settings

end Settings

namespace Command

/-- The name and the value of an assignment, which has at least one unit before
its first equals sign. -/
def splitVar? (assignment : Text) : Option (Text × Text) :=
  let name := assignment.takeWhile (· != 0x3D)
  match assignment.drop name.length with
  | _ :: value => if name.isEmpty then none else some (name, value)
  | [] => none

def ofOptions (settings : Settings) : List Text → Command
  | [] => settings.command
  | arg :: rest =>
      if arg = Text.ofString "--eval" ∨ arg = Text.ofString "-e" then
        match rest with
        | [] => .refused .evalWithoutCode
        | code :: rest => ofOptions { settings with code := some code } rest
      else if arg = Text.ofString "--events" then
        match rest with
        | [] => .refused .eventsWithoutFile
        | file :: rest => ofOptions { settings with eventsFile := some file } rest
      else if arg = Text.ofString "--var" then
        match rest with
        | [] => .refused .varWithoutValue
        | assignment :: rest =>
            match splitVar? assignment with
            | some (name, value) => ofOptions (settings.setVar name (varValue value)) rest
            | none => .refused (.malformedVar assignment)
      else if arg = Text.ofString "--ast" then ofOptions { settings with tree := true } rest
      else if arg.head? = some 0x2D then .refused (.unknownOption arg)
      else if settings.file.isSome then .refused (.unexpectedArgument arg)
      else ofOptions { settings with file := some arg } rest

def ofArguments : List Text → Command
  | [] => .help
  | first :: rest =>
      if first = Text.ofString "--help" ∨ first = Text.ofString "-h" then .help
      else if first = Text.ofString "repl" then .repl
      else if first = Text.ofString "check" then
        if rest.isEmpty then .refused .checkWithoutFile else .check rest
      else if first = Text.ofString "ast" then
        match rest with
        | [file] => .ast file
        | _ => .refused .astFileCount
      else if first = Text.ofString "run" then ofOptions .initial rest
      else ofOptions .initial (first :: rest)

end Command

end Loom
