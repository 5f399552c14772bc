import Loom.Files
import Loom.Value
import Loom.Verdict

/-!
What a host provides to the programs it runs: events, which it may read from plain data, and
modules.
-/

namespace Loom

structure HostEvent where
  name : Text
  payload : Option Json

structure EventLoop where
  handlers : Table Value
  running : Bool

namespace HostEvent

def payloadCheck : Check Json := (Check.record .anyData).as .obj

def eventCheck : Check HostEvent :=
  .object (fun path data =>
    HostEvent.mk <$> Check.field "name" .filledText path data
      <*> Check.fieldOr "payload" none (fun path data => some <$> payloadCheck path data) path data)

def listOfJson (data : Json) : Except HostFault (List HostEvent) :=
  match Check.list eventCheck [] data with
  | .valid events => .ok events
  | .dirty issues | .aborted issues => .error (.invalidEvents issues)

/-- The data that a handler is given: an empty record if there is none. -/
def argument (event : HostEvent) : Json :=
  match event.payload with
  | none | some .null => .obj []
  | some data => data

end HostEvent

inductive NativeModule where
  | events
  | callBacks
  | data (value : Json)

/-- A table of sources, or files beside the one that imports them. -/
inductive Resolver where
  | table (modules : Table Text)
  | files (fs : FileSystem)

structure ModuleSource where
  path : Text
  source : Text

def sourceExtension : Text := ".l"

def Resolver.resolve (resolver : Resolver) (name : Text) (file : Option Text) :
    Except HostFault (Option ModuleSource) :=
  match resolver with
  | table modules => .ok ((Table.find? name modules).map (fun source => ⟨name, source⟩))
  | files fs => do
      let directory := match file with
        | some file => FileSystem.parent (fs.absolute file)
        | none => fs.workingDirectory
      let path := fs.absolute (directory ++ [FileSystem.slash] ++ name ++ sourceExtension)
      let source? ← fs.read? path
      pure (source?.map (fun source => ⟨path, source⟩))

structure Host where
  natives : Table NativeModule
  resolver : Resolver
  /-- First values of the variables that programs share with the host. -/
  shared : Table Json
  maxCallDepth : Nat

namespace Host

def defaultCallDepth : Nat := 256

def builtinModules : Table NativeModule := [("events", .events)]

def plain : Host := ⟨builtinModules, .table [], [], defaultCallDepth⟩

end Host

end Loom
