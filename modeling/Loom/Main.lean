import Loom.Command.Execute

/-!
The executable. It reads the files that a command may need, carries the command
out, and prints what the command puts out.
-/

namespace Loom.Main

inductive Found where
  | text (t : Text)
  | directory
  | nothing

def look (path : Text) : IO Found := do
  let handle? ← try
      let handle ← IO.FS.Handle.mk path.toString .read
      pure (some handle)
    catch _ => pure none
  match handle? with
  | none => pure .nothing
  | some handle =>
      try
        pure (.text (Text.ofString (← handle.readToEnd)))
      catch _ => pure .directory

def gather : (limit : Nat) → FileSystem → List Text → IO FileSystem
  | 0, fs, _ => pure fs
  | _, fs, [] => pure fs
  | limit + 1, fs, path :: rest => do
      if Table.has path fs.files then gather limit fs rest
      else
        match ← look path with
        | .text t =>
            let others := FileSystem.candidates (FileSystem.parent path) t
            gather limit (fs.addFile path t) (rest ++ others)
        | .directory => gather limit (fs.addDirectory path) rest
        | .nothing => gather limit fs rest

def fileLimit : Nat := 1000000

def show_ : Output → IO Unit
  | .out line => IO.println line.toString
  | .err line => IO.eprintln line.toString
  | .write text => IO.print text.toString
  | .prompt text => IO.print text.toString
  | .input _ => pure ()

def showAll (list : List Output) : IO Unit := do
  list.forM show_
  (← IO.getStdout).flush

/-- Gives an interactive loop the modules that a line may import. -/
def supply (repl : Repl) (line : Text) : IO Repl := do
  match repl.interpreter.host.resolver with
  | .table _ => pure repl
  | .files fs =>
      let fs ← gather fileLimit fs (FileSystem.candidates fs.workingDirectory line)
      let host := { repl.interpreter.host with resolver := .files fs }
      pure { repl with interpreter := { repl.interpreter with host := host } }

def converse (input : IO.FS.Stream) : (limit : Nat) → Repl → IO UInt32
  | 0, _ => pure 0
  | limit + 1, repl => do
      let line ← input.getLine
      if line.isEmpty then do
        showAll [Repl.farewell]
        pure 0
      else
        let line := (Text.ofString line).takeWhile (fun u => !Lexer.isLineEnd u)
        let repl ← supply repl line
        let (repl, shown) := repl.step line
        showAll shown
        match repl.ended with
        | none => converse input limit repl
        | some .quit => pure 0
        | some (.failed failure) => do
            showAll [.err failure.message]
            pure 1

end Loom.Main

open Loom in
def main (args : List String) : IO UInt32 := do
  let args := args.map Text.ofString
  let blank : FileSystem :=
    { workingDirectory := Text.ofString (← IO.currentDir).toString, files := [], directories := [] }
  match Command.ofArguments args with
  | .repl => do
      Main.showAll Repl.greeting
      Main.converse (← IO.getStdin) 1000000000 (Repl.start (Command.hostOf blank []))
  | command => do
      let inline := args.flatMap (FileSystem.candidates blank.workingDirectory)
      let fs ← Main.gather Main.fileLimit blank (args.map blank.absolute ++ inline)
      let execution := command.execute fs []
      Main.showAll execution.output
      pure (UInt32.ofNat execution.exit)
