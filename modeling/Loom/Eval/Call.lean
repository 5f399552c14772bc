import Loom.Builtin
import Loom.Operator

/-!
Calls. A function runs in a new scope below the one it was made in. Native functions do not count
as active calls.
-/

namespace Loom

namespace Eval

def nextEvent (loop : Nat) : Eval (Option HostEvent) :=
  modifyGet (fun s =>
    match s.queue with
    | [] => (none, s)
    | event :: rest =>
        (some event, { s with queue := rest, history := .took loop :: s.history }))

def handler? (loop : Nat) (name : Text) : Eval (Option Value) := do
  match (← get).loops[loop]? with
  | some l => pure (Table.find? name l.handlers)
  | none => pure none

def deliver (m : Machine) (loop : Nat) (event : HostEvent) : Eval Unit := do
  -- a handler may register others, so each event looks its own up anew
  match ← handler? loop event.name with
  | none => pure ()
  | some handler => do
      let payload ← ofJson event.argument
      let name ← present handler.hostName?
      let _ ← m.call handler [payload] name
      pure ()

def dispatch (m : Machine) (loop : Nat) : (fuel : Nat) → Eval Unit
  | 0 => outOfFuel
  | fuel + 1 => do
      match ← nextEvent loop with
      | none => pure ()
      | some event => do
          deliver m loop event
          dispatch m loop fuel

def isRunning (loop : Nat) : Eval Bool := do
  pure (((← get).loops[loop]?.map EventLoop.running).getD false)

def startLoop (m : Machine) (loop : Nat) : Eval Value := do
  if ← isRunning loop then runtimeFault .loopRunning
  else
    whileRunning loop (dispatch m loop m.fuel)
    pure .null

def setHandler (loop : Nat) (name handler : Value) : Eval Value := do
  let event ← expectString name "SetHandler"
  if handler.isCallable then
    modify (fun s =>
      { s with
        loops := s.loops.modify loop
          (fun l => { l with handlers := Table.insert event handler l.handlers }) })
    pure .null
  else typeFault (.handler (← typeOf handler))

/-- Calls a value on behalf of the host, under the value's own name. -/
def hostCall (m : Machine) (callee : Value) (args : List Value) : Eval Value := do
  m.call callee args (← present callee.hostName?)

def runNative (m : Machine) (n : Native) (args : List Value) : Eval Value :=
  match n.action, args with
  | .builtin b, args => b.run m.fuel args
  | .setHandler, [name, handler] => setHandler n.owner name handler
  | .startLoop, [] => startLoop m n.owner
  | .callBack, callee :: rest => hostCall m callee rest
  | .listArguments, args => newArray (args.map some).toArray
  | .host _, _ => pure .null
  -- numbers of arguments are checked before, but a call back may have none
  | _, _ => missingValue

def bindAll (scope : Nat) : List Text → List Value → Eval Unit
  | param :: params, v :: values => do
      define scope param v
      bindAll scope params values
  | _, _ => pure ()

def shareAll (scope : Nat) : List Text → Eval Unit
  | [] => pure ()
  | name :: rest => do
      shareOuter scope name
      shareAll scope rest

def resultOf (name : Text) : Flow → Eval Value
  | .normal => pure .null
  | .returned v => pure v
  | .broke _ => runtimeFault (.outsideLoopIn name)
  | .continued _ => runtimeFault (.outsideLoopIn name)

/-- How many calls may be active at once whatever limit the host sets. -/
def stackLimit : Nat := 1200

def checkDepth (limit : Nat) (name : Text) : Eval Unit := do
  let depth := (← get).depth
  -- the limit of the host is the one that a message names if both are reached
  if limit ≤ depth then runtimeFault (.callDepth limit name)
  else if stackLimit ≤ depth then runtimeFault (.stackExhausted name)
  else pure ()

def activate (m : Machine) (f : Closure) (name : Text) (scope : Nat) : Eval Value := do
  shareAll scope f.procedure.uses
  inFile f.file (inCall (do
    resultOf name (← m.block f.procedure.body.statements scope)))

def callFunction (m : Machine) (f : Closure) (args : List Value) (name : Text) :
    Eval Value := do
  let params := f.procedure.params
  if args.length ≠ params.length then fault (.arity name params.length args.length)
  else
    checkDepth m.host.maxCallDepth name
    let scope ← newScope f.scope .function
    bindAll scope params args
    activate m f name scope

def callNative (m : Machine) (n : Native) (args : List Value) (name : Text) : Eval Value :=
  match n.action.arity? with
  | some arity =>
      if args.length ≠ arity then fault (.arity name arity args.length)
      else runNative m n args
  | none => runNative m n args

def callValue (m : Machine) (callee : Value) (args : List Value) (name : Text) :
    Eval Value :=
  match callee with
  | .native n _ => callNative m n args name
  | .function f _ => callFunction m f args name
  | v => do runtimeFault (.notAFunction name (← typeOf v))

end Eval

end Loom
