import Loom.Eval.Call
import Loom.Eval.Expression
import Loom.Eval.Import

/-!
Statements. In each block the imports come first, then the function definitions, then everything
else in order. With statements the evaluator is whole: there is a machine for each fuel.
-/

namespace Loom

namespace Eval

/-- A loop goes on after a pass, or ends, or ends together with loops around it. -/
inductive AfterPass where
  | again
  | stop
  | leave (flow : Flow)

def Flow.afterPass : Flow → AfterPass
  | .normal => .again
  | .returned v => .leave (.returned v)
  | .broke depth => if 1 < depth then .leave (.broke (depth - 1)) else .stop
  | .continued depth => if 1 < depth then .leave (.continued (depth - 1)) else .again

def execForEach (m : Machine) (item : Text) (body : Block) (scope : Nat) :
    List Value → Eval Flow
  | [] => pure .normal
  | v :: rest => do
      -- a scope for each pass: what closes over the item keeps the one it saw
      let inner ← newScope scope .block
      define inner item v
      match Flow.afterPass (← m.block body.statements inner) with
      | .again => execForEach m item body scope rest
      | .stop => pure .normal
      | .leave flow => pure flow

def execWhile (m : Machine) (condition : Expr) (body : Block) (scope : Nat) :
    (fuel : Nat) → Eval Flow
  | 0 => outOfFuel
  | fuel + 1 => do
      if ← truthy (← m.eval condition scope) then
        let inner ← newScope scope .block
        match Flow.afterPass (← m.block body.statements inner) with
        | .again => execWhile m condition body scope fuel
        | .stop => pure .normal
        | .leave flow => pure flow
      else pure .normal

def execBranches (m : Machine) (alternate : Option Block) (scope : Nat) :
    List Branch → Eval Flow
  | ⟨condition, body⟩ :: rest => do
      if ← truthy (← m.eval condition scope) then
        let inner ← newScope scope .block
        m.block body.statements inner
      else execBranches m alternate scope rest
  | [] =>
      match alternate with
      | some body => do
          let inner ← newScope scope .block
          m.block body.statements inner
      | none => pure .normal

def declareShared (scope : Nat) (name : Text) (first? : Option Value) : Eval Unit :=
  modify (fun s =>
    let ⟨cell, scopes⟩ := s.scopes.declare scope name first?
    { s with
      scopes := scopes
      shared := Table.insert name cell s.shared
      history := .used name :: s.history
      bindings := .declared scope name :: s.bindings })

/-- At the top level `use` shares with the host; elsewhere it shares an outer variable. -/
def declareUse (m : Machine) (scope : Nat) (name : Text) : Eval Unit := do
  let scopes := (← get).scopes
  let owner := scopes.owner scope
  if (scopes.scope owner).kind ≠ .global then shareOuter scope name
  else
    match Table.find? name m.host.shared with
    | some data => do
        let v ← ofJson data
        declareShared owner name (some v)
    | none => declareShared owner name none

def declareAll (m : Machine) (scope : Nat) : List Text → Eval Unit
  | [] => pure ()
  | name :: rest => do
      declareUse m scope name
      declareAll m scope rest

def assigned (op : AssignOp) (old : Eval Value) (v : Value) : Eval Value :=
  match op.binary? with
  | none => pure v
  -- the old value is read only now, when the new one has been worked out
  | some op => do binary op (← old) v

def elementPosition (ref : Nat) (position : Value) : Eval Nat := do
  let x ← expectNumber position "array index"
  let length := (← array ref).size
  match indexOf? x with
  | some i => if i < length then pure i else runtimeFault (.indexOutOfRange x length)
  | none => runtimeFault (.indexOutOfRange x length)

def element (ref : Nat) (i : Nat) : Eval Value := do
  pure ((← array ref)[i]?.join.getD .missing)

def storeElement (ref i : Nat) (op : AssignOp) (v : Value) : Eval Unit := do
  -- the value has been worked out since then, which may have shortened the array
  if (← array ref).size ≤ i then mark (.vanished ref i)
  let v ← assigned op (element ref i) v
  modifyArray ref (fun elements => Heap.storeAt elements i v)

def execAssign (m : Machine) (target : Target) (op : AssignOp) (value : Expr) (scope : Nat) :
    Eval Unit := do
  match target with
  | .ident name _ => do
      let v ← m.eval value scope
      assign scope name (← assigned op (lookup scope name) v)
  | .field object name _ => do
      match ← m.eval object scope with
      | .hash ref => do
          let v ← m.eval value scope
          let v ← assigned op (entry ref name) v
          modifyHash ref (Table.insert name v)
      | o => do typeFault (.setField name (← typeOf o))
  | .index object position _ => do
      let o ← m.eval object scope
      let p ← m.eval position scope
      match o with
      | .array ref => do
          -- checked here and never again
          let i ← elementPosition ref p
          let v ← m.eval value scope
          storeElement ref i op v
      | .hash ref => do
          let key ← textOf p
          let v ← m.eval value scope
          let v ← assigned op (entry ref key) v
          modifyHash ref (Table.insert key v)
      | o => do typeFault (.indexInto (← typeOf o))

def execStmt (m : Machine) (s : Stmt) (scope : Nat) : Eval Flow := do
  match s with
  | .define name procedure _ => do
      rebind scope name (.function ⟨name, procedure, scope, (← get).file⟩ false)
        (.defined scope name)
      pure .normal
  | .cond branches alternate _ => execBranches m alternate scope branches
  | .forEach item subject body _ => do
      let items ← itemsOf (← m.eval subject scope)
      execForEach m item body scope items
  | .whileLoop condition body _ => execWhile m condition body scope m.fuel
  | .assign target op value _ => do
      execAssign m target op value scope
      pure .normal
  | .use names _ => do
      declareAll m scope names
      pure .normal
  | .giveBack none _ => pure (.returned .null)
  | .giveBack (some value) _ => do pure (.returned (← m.eval value scope))
  | .emit value key _ => do
      emit (← textOf (← m.eval value scope)) key
      pure .normal
  | .imports native modules _ => do
      importEach m native scope modules
      pure .normal
  | .leave depth _ => pure (.broke depth)
  | .next depth _ => pure (.continued depth)
  | .call callee args _ _ => do
      let _ ← evalCall m scope callee args
      pure .normal

def execAll (m : Machine) (scope : Nat) : List Stmt → Eval Flow
  | [] => pure .normal
  | s :: rest => do
      match ← located s.loc (during s (execStmt m s scope)) with
      | .normal => execAll m scope rest
      | flow => pure flow

def inOrder (statements : List Stmt) : List Stmt :=
  statements.filter Stmt.isImport ++ statements.filter Stmt.isDefinition ++
    statements.filter (fun s => !s.isImport && !s.isDefinition)

def execBlock (m : Machine) (statements : List Stmt) (scope : Nat) : Eval Flow :=
  execAll m scope (inOrder statements)

end Eval

/-- At most `fuel` deep, and at most `fuel` times round a loop. -/
def Machine.of (host : Host) : (fuel : Nat) → Machine
  | 0 =>
      { host := host
        fuel := 0
        eval := fun _ _ => Eval.outOfFuel
        block := fun _ _ => Eval.outOfFuel
        call := fun _ _ _ => Eval.outOfFuel }
  | fuel + 1 =>
      { host := host
        fuel := fuel
        eval := fun e scope s => Eval.evalExpr (Machine.of host fuel) e scope s
        block := fun statements scope s =>
          Eval.execBlock (Machine.of host fuel) statements scope s
        call := fun callee args name s =>
          Eval.callValue (Machine.of host fuel) callee args name s }

end Loom
