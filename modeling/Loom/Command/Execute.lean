import Loom.Command.Arguments
import Loom.Json.Writer
import Loom.Program.Tree
import Loom.Repl

/-!
Carrying out a command over a snapshot of the files. Which files a program may turn out to need
is bounded by the words of its text, since one of them imports each module.
-/

namespace Loom

/-- The words of a text, in order; `word` holds the units of the one being read,
last one first. -/
def wordsFrom (word : Text) : Text → List Text
  | [] => if word.isEmpty then [] else [word.reverse]
  | u :: rest =>
      if Lexer.isIdentPart u then wordsFrom (u :: word) rest
      else if word.isEmpty then wordsFrom [] rest
      else word.reverse :: wordsFrom [] rest

namespace FileSystem

/-- The paths of the modules that a text in a directory may import. -/
def candidates (directory text : Text) : List Text :=
  (wordsFrom [] text).map (fun word => directory ++ [slash] ++ word ++ sourceExtension)

def addFile (fs : FileSystem) (path text : Text) : FileSystem :=
  { fs with files := Table.insert path text fs.files }

def addDirectory (fs : FileSystem) (path : Text) : FileSystem :=
  { fs with directories := path :: fs.directories }

end FileSystem

structure Execution where
  exit : Nat
  output : List Output
  uncaught : Option Text
  deriving DecidableEq, Repr

namespace Command

def usage : List Output :=
  [.out ("Loom v" ++ version),
    .out "",
    .out "Usage:",
    .out "  loom <file.l> [options]             Run a Loom file",
    .out "  loom run <file.l> [options]         Run a Loom file",
    .out "  loom --eval \"<code>\" [options]      Evaluate inline code",
    .out "  loom check <file.l> [...]           Check files for syntax errors",
    .out "  loom ast <file.l>                   Print the syntax tree as JSON",
    .out "  loom repl                           Start interactive REPL",
    .out "  loom --help                         Show this help",
    .out "",
    .out "Options:",
    .out "  --events <file.json>  Events delivered to events.StartLoop()",
    .out "  --var name=value      Initial value of a shared variable (JSON or text)",
    .out "  --ast                 Run a JSON syntax tree instead of source"]

def readFile (fs : FileSystem) (file : Text) : Except Failure Text := do
  let path := fs.absolute file
  match fs.read? path with
  | .ok (some text) => .ok text
  | .ok none => .error (.host (.fileNotFound path))
  | .error fault => .error (.host fault)

def readJson (fs : FileSystem) (file : Text) : Except Failure Json := do
  match Json.read? (← readFile fs file) with
  | some data => .ok data
  | none => .error (.host (.invalidJson file))

def readProgram (fs : FileSystem) (file : Text) : Except Failure Program := do
  match parseFile (← readFile fs file) (some file) with
  | .ok program => .ok program
  | .error d => .error (.program d)

def inputs (fs : FileSystem) (settings : Settings) :
    Except Failure (List HostEvent × Program) := do
  let events ← match settings.eventsFile with
    | none => pure []
    | some file => do
        match HostEvent.listOfJson (← readJson fs file) with
        | .ok events => pure events
        | .error fault => .error (.host fault)
  let program ← match settings.file with
    | none =>
        match parseFile (settings.code.getD []) none with
        | .ok program => pure program
        | .error d => .error (.program d)
    | some file =>
        if settings.tree then do
          match Program.ofTree (← readJson fs file) with
          | .ok program => pure program
          | .error d => .error (.program d)
        else readProgram fs file
  pure (events, program)

def hostOf (fs : FileSystem) (vars : Table Json) : Host :=
  { natives := Host.builtinModules, resolver := .files fs, shared := vars
    maxCallDepth := Host.defaultCallDepth }

def runProgram (fs : FileSystem) (settings : Settings) : Execution :=
  match inputs fs settings with
  | .error failure => ⟨1, [.err failure.report], none⟩
  | .ok (events, program) =>
      let interpreter := Interpreter.new (hostOf fs settings.vars) events
      let (result, interpreter) := interpreter.run ⟨program, 0⟩ settings.file
      let shown := interpreter.takeEmitted.1.map Emission.output
      match result with
      | .ok _ => ⟨0, shown, none⟩
      | .error stop => ⟨1, shown ++ [.err stop.report], none⟩

/-- Reads files without running them. A fault in a program is noted and the next
file is read; other trouble ends the check. -/
def checkFiles (fs : FileSystem) (failed : Bool) : List Text → Execution
  | [] => ⟨if failed then 1 else 0, [], none⟩
  | file :: rest =>
      match readProgram fs file with
      | .ok _ =>
          let after := checkFiles fs failed rest
          { after with output := .out ("✓ " ++ file) :: after.output }
      | .error (.program d) =>
          let after := checkFiles fs true rest
          { after with output := .out ("✗ " ++ d.message) :: after.output }
      | .error failure => ⟨1, [.err failure.report], none⟩

def printTree (fs : FileSystem) (file : Text) : Execution :=
  match readProgram fs file with
  | .ok program => ⟨0, [.out (program.toTree .num).writeIndented], none⟩
  | .error failure => ⟨1, [.err failure.report], none⟩

def execute (fs : FileSystem) (lines : List Text) : Command → Execution
  | .help => ⟨0, usage, none⟩
  | .refused fault => ⟨1, [.err ("Error: " ++ fault.message)], none⟩
  | .repl =>
      let (shown, failure?) := (Repl.start (hostOf fs [])).session lines
      ⟨if failure?.isSome then 1 else 0, Repl.greeting ++ shown, failure?.map Failure.message⟩
  | .check files => checkFiles fs false files
  | .ast file => printTree fs file
  | .run settings => runProgram fs settings

end Command

end Loom
