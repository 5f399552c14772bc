import Loom.Eval.Statement
import Loom.Program.Shape

/-!
Interpreters. A run or a call gives its result beside the interpreter after it, whether it
succeeded or failed.
-/

namespace Loom

structure Listed where
  name : Text
  type : TypeName
  text : Text

structure Interpreter where
  host : Host
  state : State

def defaultFuel : Nat := 1000000000000

namespace Interpreter

def blankState (queue : List HostEvent) : State :=
  { scopes := .empty, heap := .empty, loops := #[], queue := queue, emitted := [], depth := 0
    file := none, loading := [], globals := 0, shared := [], nativeCache := [], moduleCache := []
    stamps := 0, programs := 0, history := [], bindings := [], underway := [] }

def withNewGlobals (s : State) : State :=
  match Eval.newGlobals s with
  | .ok globals s => { s with globals := globals }
  | .error _ s => s

def new (host : Host) (events : List HostEvent) : Interpreter :=
  ⟨host, withNewGlobals (blankState events)⟩

def step {α : Type} (interpreter : Interpreter) (action : Eval α) :
    Except Stop α × Interpreter :=
  match action interpreter.state with
  | .ok a s => (.ok a, { interpreter with state := s })
  | .error stop s => (.error stop, { interpreter with state := s })

def runOn (m : Machine) (program : Program) (file : Option Text) : Eval Unit := do
  Eval.nothingUnderway
  let globals := (← get).globals
  Eval.inFile file (Eval.topLevel m program globals)

def runRead (m : Machine) (program : Program) (file : Option Text) : Eval Unit := do
  runOn m (← Eval.numbered program) file

def allOfJson : List Json → Eval (List Value)
  | [] => pure []
  | data :: rest => do
      let v ← Eval.ofJson data
      let values ← allOfJson rest
      pure (v :: values)

def callOn (m : Machine) (name : Text) (args : List Json) : Eval (TypeName × Text) := do
  Eval.nothingUnderway
  let callee ← Eval.lookup (← get).globals name
  let values ← allOfJson args
  let v ← Eval.hostCall m callee values
  pure (← Eval.typeOf v, ← Eval.textOf v)

/-- The value of a variable shared with the host, or none if no program has
declared it. -/
def shared (interpreter : Interpreter) (name : Text) : Except Failure (Option HostData) :=
  let s := interpreter.state
  match Table.find? name s.shared with
  | none => .ok none
  | some cell => some <$> (s.scopes.read cell).toHost s.heap

def names (interpreter : Interpreter) : List Text :=
  interpreter.state.scopes.localNames interpreter.state.globals

def has (interpreter : Interpreter) (name : Text) : Bool :=
  interpreter.state.scopes.has interpreter.state.globals name

def list (s : State) : List Text → Except Failure (List Listed)
  | [] => .ok []
  | name :: rest => do
      let v := (s.scopes.get? s.globals name).getD .null
      match v.type?, v.text? s.heap with
      -- also one that a program has stored under a name of its own
      | some .native, _ => list s rest
      | some type, some text => do
          let after ← list s rest
          pure (⟨name, type, text⟩ :: after)
      | _, _ => .error (.host .missingValue)

def globals (interpreter : Interpreter) : Except Failure (List Listed) :=
  list interpreter.state interpreter.names

/-- Forgets all bindings, shared variables and imported modules. -/
def reset (interpreter : Interpreter) : Interpreter :=
  -- the heap, the queue and what was put out stay
  let s := withNewGlobals interpreter.state
  { interpreter with state := { s with shared := [], nativeCache := [], moduleCache := [] } }

def push (interpreter : Interpreter) (events : List HostEvent) : Interpreter :=
  { interpreter with
    state := { interpreter.state with queue := interpreter.state.queue ++ events } }

def queueLength (interpreter : Interpreter) : Nat := interpreter.state.queue.length

def takeEmitted (interpreter : Interpreter) : List Emission × Interpreter :=
  (interpreter.state.emitted.reverse,
    { interpreter with state := { interpreter.state with emitted := [] } })

def addModule (interpreter : Interpreter) (name source : Text) : Interpreter :=
  match interpreter.host.resolver with
  | .table modules =>
      { interpreter with
        host := { interpreter.host with
          resolver := .table (Table.insert name source modules) } }
  | .files _ => interpreter

end Interpreter

/-- What a host can ask of an interpreter that changes it. -/
inductive Request where
  | run (made : HostProgram) (file : Option Text)
  | runSource (source : Text) (file : Option Text)
  | runTree (tree : Json) (file : Option Text)
  | call (name : Text) (args : List Json)
  | push (events : List HostEvent)
  | addModule (name source : Text)
  | reset

namespace Interpreter

def serve (machine : Host → Machine) (interpreter : Interpreter) :
    Request → Except Stop Unit × Interpreter
  | .run made file => interpreter.step (runOn (machine interpreter.host) made.numbered file)
  | .runSource source file =>
      match parseFile source file with
      | .ok program => interpreter.step (runRead (machine interpreter.host) program file)
      | .error d => (.error (.failed (.program d)), interpreter)
  | .runTree tree file =>
      match Program.ofTree tree with
      | .ok program => interpreter.step (runRead (machine interpreter.host) program file)
      | .error d => (.error (.failed (.program d)), interpreter)
  | .call name args =>
      let (result, interpreter) := interpreter.step (callOn (machine interpreter.host) name args)
      (result.map (fun _ => ()), interpreter)
  | .push events => (.ok (), interpreter.push events)
  | .addModule name source => (.ok (), interpreter.addModule name source)
  | .reset => (.ok (), interpreter.reset)

def serveAll (machine : Host → Machine) (interpreter : Interpreter) :
    List Request → List (Except Stop Unit) × Interpreter
  | [] => ([], interpreter)
  | request :: rest =>
      let (result, interpreter) := interpreter.serve machine request
      let (results, interpreter) := interpreter.serveAll machine rest
      (result :: results, interpreter)

/-- The machines that requests are served on. -/
def ordinary (host : Host) : Machine := .of host defaultFuel

def run (interpreter : Interpreter) (made : HostProgram) (file : Option Text) :
    Except Stop Unit × Interpreter :=
  interpreter.serve ordinary (.run made file)

def runSource (interpreter : Interpreter) (source : Text) (file : Option Text) :
    Except Stop Unit × Interpreter :=
  interpreter.serve ordinary (.runSource source file)

def runTree (interpreter : Interpreter) (tree : Json) (file : Option Text) :
    Except Stop Unit × Interpreter :=
  interpreter.serve ordinary (.runTree tree file)

def call (interpreter : Interpreter) (name : Text) (args : List Json) :
    Except Stop (TypeName × Text) × Interpreter :=
  interpreter.step (callOn (ordinary interpreter.host) name args)

end Interpreter

end Loom
