import Loom.Operator

/-!
Expressions. Operands, elements and arguments are evaluated from the left; `and`,
`or` and the conditional evaluate no more than they need.
-/

namespace Loom

namespace Eval

def evalSegments (m : Machine) (scope : Nat) : List Segment → Eval Text
  | [] => pure []
  | .text value :: rest => do
      let after ← evalSegments m scope rest
      pure (value ++ after)
  | .code value :: rest => do
      let text ← textOf (← m.eval value scope)
      let after ← evalSegments m scope rest
      pure (text ++ after)

/-- The entries of a hash, stored one by one into `table`. With `methods`, what
comes from a `ref` becomes a method. -/
def evalEntries (m : Machine) (scope : Nat) (methods : Bool) (table : Table Value) :
    List Entry → Eval (Table Value)
  | [] => pure table
  | ⟨key, e⟩ :: rest => do
      let v ← m.eval e scope
      let v := if methods && e.isRef then v.asMethod else v
      evalEntries m scope methods (Table.insert key v table) rest

def evalReferred (scope : Nat) (container? : Option Text) (name : Text) : Eval Value :=
  match container? with
  | none => lookup scope name
  | some container => do
      match ← lookup scope container with
      | .hash ref => do
          match (← get).heap.entry? ref name with
          | some v => pure v
          | none => fault (.undefinedName (container ++ "." ++ name))
      | v => do typeFault (.referenceFrom name (← typeOf v) container)

def evalRef (scope : Nat) (container? : Option Text) (name : Text) : Eval Value := do
  let v ← evalReferred scope container? name
  if v.isCallable then pure v else typeFault (.reference (← typeOf v))

/-- A call of a field gives a method its receiver as first argument. -/
def evalFieldCall (m : Machine) (scope : Nat) (object : Expr) (field : Text)
    (args : List Expr) (name : Text) : Eval Value := do
  let receiver ← m.eval object scope
  -- read before the arguments are evaluated, which may store something else
  let callee ← readField receiver field
  let values ← evalAll m scope args
  m.call callee (if callee.isMethod then receiver :: values else values) name

def evalCall (m : Machine) (scope : Nat) (callee : Expr) (args : List Expr) : Eval Value :=
  match callee with
  | .field object field _ => evalFieldCall m scope object field args callee.calleeName
  | _ => do
      let f ← m.eval callee scope
      let values ← evalAll m scope args
      m.call f values callee.calleeName

def evalBinary (m : Machine) (scope : Nat) (op : BinaryOp) (left right : Expr) :
    Eval Value := do
  match op with
  | .and => do
      if ← truthy (← m.eval left scope) then
        pure (.bool (← truthy (← m.eval right scope)))
      else pure (.bool false)
  | .or => do
      if ← truthy (← m.eval left scope) then pure (.bool true)
      else pure (.bool (← truthy (← m.eval right scope)))
  | op => do
      let a ← m.eval left scope
      let b ← m.eval right scope
      binary op a b

def evalExpr (m : Machine) (e : Expr) (scope : Nat) : Eval Value := do
  match e with
  | .number value _ => number value
  | .bool value _ => pure (.bool value)
  | .null _ => pure .null
  | .string segments _ => do pure (.string (← evalSegments m scope segments))
  | .ident name _ => lookup scope name
  | .array elements _ => do
      let values ← evalAll m scope elements
      newArray (values.map some).toArray
  | .hash entries _ => do newHash (← evalEntries m scope false [] entries)
  | .new entries _ _ => do newHash (← evalEntries m scope true [] entries)
  | .ref container name _ => evalRef scope container name
  | .lambda procedure _ => do
      pure (.function ⟨"<lambda>", procedure, scope, (← get).file⟩ false)
  | .call callee args _ => evalCall m scope callee args
  | .field object name _ => do readField (← m.eval object scope) name
  | .index object position _ => do
      let v ← m.eval object scope
      let i ← m.eval position scope
      readIndex v i
  | .choice condition consequent alternate _ => do
      if ← truthy (← m.eval condition scope) then m.eval consequent scope
      else m.eval alternate scope
  | .unary .not operand _ => do pure (.bool (!(← truthy (← m.eval operand scope))))
  | .unary .negate operand _ => do negate (← m.eval operand scope)
  | .binary op left right _ => evalBinary m scope op left right

end Eval

end Loom
