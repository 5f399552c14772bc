import Loom.Operator
import Loom.Grammar.Statement
import Loom.Program.Sites

/-!
Imports. A native module is created on its first import; a script module runs
once, in a global scope of its own, and is known by the names it defines there.
-/

namespace Loom

namespace Eval

def defineBuiltins (scope : Nat) : List Builtin → Eval Unit
  | [] => pure ()
  | b :: rest => do
      define scope b.name (.native ⟨.builtin b, scope⟩ false)
      defineBuiltins scope rest

def newGlobals : Eval Nat := do
  let scope ← modifyGet (fun s =>
    let ⟨id, scopes⟩ := s.scopes.newRoot
    (id, { s with scopes := scopes }))
  defineBuiltins scope Builtin.all
  pure scope

def numbered (program : Program) : Eval Program :=
  modifyGet (fun s =>
    (program.withSites (.read s.programs), { s with programs := s.programs + 1 }))

/-- Runs the top level of a program, which nothing may leave early. -/
def topLevel (m : Machine) (program : Program) (scope : Nat) : Eval Unit := do
  match ← m.block program.statements scope with
  | .normal => pure ()
  | .returned _ => runtimeFault .returnOutsideFunction
  | .broke _ => runtimeFault .outsideLoop
  | .continued _ => runtimeFault .outsideLoop

def createNative : NativeModule → Eval Value
  | .events => do
      let loop ← modifyGet (fun s =>
        (s.loops.size,
          { s with
            loops := s.loops.push ⟨[], false⟩
            history := .opened s.loops.size :: s.history }))
      newHash
        [("Start", .string "start"),
          ("SetHandler", .native ⟨.setHandler, loop⟩ false),
          ("StartLoop", .native ⟨.startLoop, loop⟩ false)]
  | .callBacks => do
      let owner ← stamp
      newHash
        [("Call", .native ⟨.callBack, owner⟩ false),
          ("Args", .native ⟨.listArguments, owner⟩ false)]
  | .data value => ofJson value

def loadNative (m : Machine) (name : Text) : Eval Value := do
  match Table.find? name (← get).nativeCache with
  | some v => pure v
  | none =>
      match Table.find? name m.host.natives with
      | none => runtimeFault (.unknownNative name)
      | some native => do
          let v ← createNative native
          modify (fun s => { s with nativeCache := Table.insert name v s.nativeCache })
          pure v

/-- Whether a global still holds what it held before any statement ran: a
built-in name its function, any other name nothing. -/
def isUntouched (scope : Nat) (name : Text) (v : Value) : Bool :=
  match Builtin.all.find? (fun b => b.name == name), v with
  | some b, .native n method => n == ⟨.builtin b, scope⟩ && !method
  | none, .missing => true
  | _, _ => false

def exportsOf (scopes : ScopeTree) (scope : Nat) : Table Value :=
  (scopes.localNames scope).filterMap (fun name =>
    match scopes.get? scope name with
    | some v => if isUntouched scope name v then none else some (name, v)
    | none => none)

/-- A module that fails is not kept, and runs again when asked for again. -/
def load (m : Machine) (path : Text) (program : Program) (scope : Nat) : Eval Value := do
  mark (.began path (← get).loading)
  whileLoading path (inFile (some path) (topLevel m program scope))
  mark (.ended path)
  let v ← newHash (exportsOf (← get).scopes scope)
  modify (fun s => { s with moduleCache := Table.insert path v s.moduleCache })
  pure v

def runModule (m : Machine) (path : Text) (source : Text) : Eval Value := do
  match parse source with
  -- a fault that has no place gets the front of the module's own text
  | .error d => failWith (.program (d.locate .origin (some path)))
  | .ok program => do
      let scope ← newGlobals
      let program ← numbered program
      load m path program scope

def placeOf : Value → Option Nat
  | .hash ref => some ref
  | _ => none

def given (path : Text) (v : Value) : Eval Value := do
  mark (.imported path (placeOf v) (← get).loading)
  pure v

def loadScript (m : Machine) (name : Text) : Eval Value := do
  match m.host.resolver.resolve name (← get).file with
  | .error cause => failWith (.host cause)
  | .ok none => runtimeFault (.moduleNotFound name)
  | .ok (some found) => do
      match Table.find? found.path (← get).moduleCache with
      | some v => given found.path v
      | none =>
          if (← get).loading.contains found.path then runtimeFault (.circularImport name)
          else
            let v ← runModule m found.path found.source
            given found.path v

def loadModule (m : Machine) (native : Bool) (name : Text) : Eval Value :=
  if native then loadNative m name else loadScript m name

def importAll (m : Machine) (native : Bool) (scope : Nat) : List Text → Eval Unit
  | [] => pure ()
  | name :: rest => do
      let v ← loadModule m native name
      define scope name v
      importAll m native scope rest

def importOne (m : Machine) (native : Bool) (scope : Nat) (name : Text) : Eval Unit := do
  importAll m native scope [name]
  note (.imported scope name)

def importEach (m : Machine) (native : Bool) (scope : Nat) : List Text → Eval Unit
  | [] => pure ()
  | name :: rest => do
      importOne m native scope name
      importEach m native scope rest

end Eval

end Loom
