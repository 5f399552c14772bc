import Loom.Fault
import Loom.Table

/-!
A snapshot of the files that a program may read, and the paths that lead to them.
-/

namespace Loom

structure FileSystem where
  workingDirectory : Text
  files : Table Text
  /-- As far as no file is in them. -/
  directories : List Text

namespace FileSystem

def slash : UInt16 := 0x2F

def steps (path : Text) : List Text := path.splitOn slash

/-- Walks along steps; `above` holds those taken so far, last one first. -/
def walk (above : List Text) : List Text → List Text
  | [] => above.reverse
  | step :: rest =>
      if step.isEmpty || step == Text.ofString "." then walk above rest
      else if step == Text.ofString ".." then walk (above.drop 1) rest
      else walk (step :: above) rest

def clean (path : Text) : Text :=
  let root : Text := if path.head? = some slash then [slash] else []
  root ++ Text.join [slash] (walk [] (steps path))

def isAbsolute (fs : FileSystem) (path : Text) : Bool :=
  path.head? == some slash || path == fs.workingDirectory ||
    (fs.workingDirectory ++ [slash]).isPrefixOf path

def absolute (fs : FileSystem) (path : Text) : Text :=
  if fs.isAbsolute path then clean path
  else clean (fs.workingDirectory ++ [slash] ++ path)

def parent (path : Text) : Text :=
  let kept := (path.reverse.dropWhile (· != slash)).drop 1
  if kept.isEmpty then [slash] else kept.reverse

def isDirectory (fs : FileSystem) (path : Text) : Bool :=
  path == fs.workingDirectory || fs.directories.contains path ||
    fs.files.any (fun entry => (path ++ [slash]).isPrefixOf entry.1) ||
    fs.directories.any (fun directory => (path ++ [slash]).isPrefixOf directory)

def read? (fs : FileSystem) (path : Text) : Except HostFault (Option Text) :=
  match Table.find? path fs.files with
  | some text => .ok (some text)
  | none => if fs.isDirectory path then .error .directoryRead else .ok none

end FileSystem

end Loom
