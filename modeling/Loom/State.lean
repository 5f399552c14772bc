import Loom.Host
import Loom.Scope
import Loom.Value.Equality
import Loom.Value.Host
import Loom.Value.Written

/-!
The state of an interpreter and the steps that programs take on it. A step ends with a result, with
a failure, or without an answer because its fuel ran out; the state is kept in each case.

The parts of the evaluator are written over a machine, which evaluates what is nested one level
deeper. A statement ends in one of four ways, and only the first lets the next statement run.
-/

namespace Loom

structure Emission where
  line : Text
  key : Option Text

/-- Something that a run has done, whether or not it shows in what the run gives. -/
inductive Mark where
  /-- A `use` was carried out, in the head of a function or as a statement. -/
  | used (name : Text)
  /-- The position had left its array by the time the value to store was worked out. -/
  | vanished (ref : Nat) (position : Nat)
  /-- The top level of a module began to run, inside those being loaded already. -/
  | began (path : Text) (within : List Text)
  | ended (path : Text)
  /-- An import gave the hash at a place of the heap as the namespace of a module. -/
  | imported (path : Text) (place : Option Nat) (within : List Text)
  | opened (loop : Nat)
  | took (loop : Nat)
  deriving DecidableEq, Repr

/-- What a statement has done to a name of a scope. -/
inductive Binding where
  | defined (scope : Nat) (name : Text)
  | imported (scope : Nat) (name : Text)
  | aliased (scope : Nat) (name : Text)
  | declared (scope : Nat) (name : Text)
  deriving DecidableEq, Repr

structure Frame where
  statement : Stmt
  file : Option Text

structure State where
  scopes : ScopeTree
  heap : Heap
  loops : Array EventLoop
  /-- First one first. -/
  queue : List HostEvent
  /-- Last one first. -/
  emitted : List Emission
  depth : Nat
  file : Option Text
  /-- The modules whose top level is running, innermost first. -/
  loading : List Text
  globals : Nat
  shared : Table Nat
  nativeCache : Table Value
  moduleCache : Table Value
  /-- The next number that tells objects apart. -/
  stamps : Nat
  programs : Nat
  /-- The marks that runs have left, last one first. No step reads them. -/
  history : List Mark
  /-- Last one first. No step reads it. -/
  bindings : List Binding
  /-- Innermost first; after a failure, those that were when it arose. No step reads them. -/
  underway : List Frame

inductive Stop where
  | failed (failure : Failure)
  | outOfFuel

abbrev Eval := EStateM Stop State

namespace Eval

variable {α : Type}

def failWith (failure : Failure) : Eval α := throw (.failed failure)

def fault (fault : Fault) : Eval α := failWith (.of fault)

def typeFault (cause : TypeFault) : Eval α := fault (.wrongType cause)

def runtimeFault (cause : RuntimeFault) : Eval α := fault (.runtime cause)

def missingValue : Eval α := failWith (.host .missingValue)

def outOfFuel : Eval α := throw .outOfFuel

def present (result : Option α) : Eval α :=
  match result with
  | some a => pure a
  | none => missingValue

def typeOf (v : Value) : Eval TypeName := present v.type?

def truthy (v : Value) : Eval Bool := do present (v.truthy? (← get).heap)

def textOf (v : Value) : Eval Text := do present (v.text? (← get).heap)

def equal (a b : Value) : Eval Bool := do present (Value.equal? (← get).heap a b)

def expectNumber (v : Value) (operation : Text) : Eval Float :=
  match v with
  | .number x _ => pure x
  | v => do typeFault (.expectsNumber operation (← typeOf v))

def expectString (v : Value) (operation : Text) : Eval Text :=
  match v with
  | .string t => pure t
  | v => do typeFault (.expectsString operation (← typeOf v))

def stamp : Eval Nat :=
  modifyGet (fun s => (s.stamps, { s with stamps := s.stamps + 1 }))

def number (x : Float) : Eval Value :=
  -- each NaN is an object of its own, and equal to no other
  if x.isNaN then do
    let n ← stamp
    pure (.number x (n + 1))
  else pure (.number x 0)

def newArray (elements : Array Slot) : Eval Value :=
  modifyGet (fun s =>
    let ⟨v, heap⟩ := s.heap.newArray elements
    (v, { s with heap := heap }))

def newHash (entries : Table Value) : Eval Value :=
  modifyGet (fun s =>
    let ⟨v, heap⟩ := s.heap.newHash entries
    (v, { s with heap := heap }))

/-- The value of what a host hands in, where no list has empty places. -/
def ofJson (data : Json) : Eval Value :=
  modifyGet (fun s =>
    let ⟨v, heap⟩ := Value.ofHost data.host s.heap s.stamps
    (v, { s with heap := heap, stamps := s.stamps + data.host.nans }))

def array (ref : Nat) : Eval (Array Slot) := do pure ((← get).heap.array ref)

def hash (ref : Nat) : Eval (Table Value) := do pure ((← get).heap.hash ref)

def entry (ref : Nat) (key : Text) : Eval Value := do
  pure (((← get).heap.entry? ref key).getD .null)

def modifyArray (ref : Nat) (f : Array Slot → Array Slot) : Eval Unit :=
  modify (fun s => { s with heap := s.heap.modifyArray ref f })

def modifyHash (ref : Nat) (f : Table Value → Table Value) : Eval Unit :=
  modify (fun s => { s with heap := s.heap.modifyHash ref f })

def newScope (parent : Nat) (kind : ScopeKind) : Eval Nat :=
  modifyGet (fun s =>
    let ⟨id, scopes⟩ := s.scopes.child parent kind
    (id, { s with scopes := scopes }))

def lookup (scope : Nat) (name : Text) : Eval Value := do
  match (← get).scopes.get? scope name with
  | some v => pure v
  | none => fault (.undefinedName name)

def define (scope : Nat) (name : Text) (v : Value) : Eval Unit :=
  modify (fun s => { s with scopes := s.scopes.define scope name v })

def assign (scope : Nat) (name : Text) (v : Value) : Eval Unit :=
  modify (fun s => { s with scopes := s.scopes.assign scope name v })

def mark (m : Mark) : Eval Unit := modify (fun s => { s with history := m :: s.history })

def note (b : Binding) : Eval Unit := modify (fun s => { s with bindings := b :: s.bindings })

def rebind (scope : Nat) (name : Text) (v : Value) (b : Binding) : Eval Unit := do
  define scope name v
  note b

def shareOuter (scope : Nat) (name : Text) : Eval Unit := do
  -- one that fails has been carried out as well, so the mark comes first
  mark (.used name)
  match (← get).scopes.shareOuter scope name with
  | .error cause => runtimeFault cause
  | .ok scopes =>
      modify (fun s =>
        let owner? := s.scopes.known? (s.scopes.owner scope)
        { s with
          scopes := scopes
          bindings := owner?.toList.map (.aliased · name) ++ s.bindings })

def emit (line : Text) (key : Option Text) : Eval Unit :=
  modify (fun s => { s with emitted := ⟨line, key⟩ :: s.emitted })

/-- Does a step and undoes a change of the state after it, however it ends. -/
def finally_ (step : Eval α) (undo : State → State) : Eval α := fun s =>
  match step s with
  | .ok a s => .ok a (undo s)
  | .error e s => .error e (undo s)

def inFile (file : Option Text) (step : Eval α) : Eval α := fun s =>
  let saved := s.file
  finally_ step (fun s => { s with file := saved }) { s with file := file }

def inCall (step : Eval α) : Eval α := fun s =>
  finally_ step (fun s => { s with depth := s.depth - 1 }) { s with depth := s.depth + 1 }

def whileLoading (path : Text) (step : Eval α) : Eval α := fun s =>
  finally_ step (fun s => { s with loading := s.loading.erase path })
    { s with loading := path :: s.loading }

def setRunning (loop : Nat) (running : Bool) (s : State) : State :=
  { s with loops := s.loops.modify loop (fun l => { l with running := running }) }

def whileRunning (loop : Nat) (step : Eval α) : Eval α := fun s =>
  finally_ step (setRunning loop false) (setRunning loop true s)

def nothingUnderway : Eval Unit := modify (fun s => { s with underway := [] })

def during (statement : Stmt) (step : Eval α) : Eval α := fun s =>
  match step { s with underway := ⟨statement, s.file⟩ :: s.underway } with
  | .ok a t => .ok a { t with underway := s.underway }
  -- the statements that a failure comes out of stay
  | result => result

def located (loc : Location) (step : Eval α) : Eval α := fun s =>
  match step s with
  -- the file is that of the state after the step, which is the one before it
  | .error (.failed failure) s => .error (.failed (failure.locate loc s.file)) s
  | result => result

end Eval

inductive Flow where
  | normal
  | returned (v : Value)
  | broke (depth : Nat)
  | continued (depth : Nat)

structure Machine where
  host : Host
  fuel : Nat
  eval : Expr → (scope : Nat) → Eval Value
  block : List Stmt → (scope : Nat) → Eval Flow
  call : Value → List Value → (name : Text) → Eval Value

namespace Eval

def evalAll (m : Machine) (scope : Nat) : List Expr → Eval (List Value)
  | [] => pure []
  | e :: rest => do
      let v ← m.eval e scope
      let values ← evalAll m scope rest
      pure (v :: values)

end Eval

end Loom
