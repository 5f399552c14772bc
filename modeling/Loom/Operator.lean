import Loom.State

/-!
What operators, field access and indexing do with values that are there.
-/

namespace Loom

namespace Eval

inductive Standing where
  | numbers (difference : Float)
  | texts (left right : Text)

def standing (left right : Value) : Eval Standing :=
  match left, right with
  -- numbers are compared by their difference, which two infinities do not have
  | .number x _, .number y _ => pure (.numbers (x - y))
  | .string s, .string t => pure (.texts s t)
  | left, right => do
      let l ← typeOf left
      let r ← typeOf right
      typeFault (.compare l r)

def Standing.holds (standing : Standing) (op : BinaryOp) : Bool :=
  match standing with
  | numbers d =>
      match op with
      | .less => d < 0
      | .lessEqual => d <= 0
      | .greater => d > 0
      | _ => d >= 0
  | texts s t =>
      match op with
      | .less => Text.less s t
      | .lessEqual => !Text.less t s
      | .greater => Text.less t s
      | _ => !Text.less s t

def compare (op : BinaryOp) (left right : Value) : Eval Value := do
  pure (.bool ((← standing left right).holds op))

def operands (op : BinaryOp) (left right : Value) : Eval (Float × Float) := do
  let operation : Text := "'" ++ op.text ++ "'"
  let a ← expectNumber left operation
  let b ← expectNumber right operation
  pure (a, b)

def binary (op : BinaryOp) (left right : Value) : Eval Value := do
  match op with
  | .add => do
      let (a, b) ← operands op left right
      number (a + b)
  | .subtract => do
      let (a, b) ← operands op left right
      number (a - b)
  | .multiply => do
      let (a, b) ← operands op left right
      number (a * b)
  | .divide => do
      let (a, b) ← operands op left right
      -- both zeros are refused, so no quotient shows which of them it was
      if b == 0 then runtimeFault .divisionByZero else number (a / b)
  | .remainder => do
      let (a, b) ← operands op left right
      if b == 0 then runtimeFault .moduloByZero else number (remainderOf a b)
  | .less | .lessEqual | .greater | .greaterEqual => compare op left right
  | .equal => do pure (.bool (← equal left right))
  | .notEqual => do pure (.bool (!(← equal left right)))
  | .and => do
      let a ← truthy left
      if a then pure (.bool (← truthy right)) else pure (.bool false)
  | .or => do
      let a ← truthy left
      if a then pure (.bool true) else pure (.bool (← truthy right))
  | .xor => do
      let a ← truthy left
      let b ← truthy right
      pure (.bool (a != b))
  | .concat => do
      let s ← textOf left
      let t ← textOf right
      pure (.string (s ++ t))

def negate (operand : Value) : Eval Value := do
  number (-(← expectNumber operand "unary '-'"))

def readField (object : Value) (name : Text) : Eval Value :=
  match object with
  | .hash ref => entry ref name
  | v => do typeFault (.readField name (← typeOf v))

/-- An element of an array, an entry of a hash or a character of a string; null
where there is none. -/
def readIndex (object position : Value) : Eval Value := do
  match object with
  | .array ref => do
      let x ← expectNumber position "array index"
      let slots ← array ref
      match indexOf? x with
      | some i => if h : i < slots.size then pure slots[i].read else pure .null
      | none => pure .null
  | .hash ref => do entry ref (← textOf position)
  | .string t => do
      let x ← expectNumber position "string index"
      match (indexOf? x).bind (fun i => t.characters[i]?) with
      | some c => pure (.string c)
      | none => pure .null
  | v => do typeFault (.indexInto (← typeOf v))

/-- What a loop over a collection goes through, fixed when it starts: elements,
keys or characters. -/
def itemsOf (subject : Value) : Eval (List Value) :=
  match subject with
  | .array ref => do pure ((← array ref).toList.map Slot.read)
  | .hash ref => do pure ((Table.keys (← hash ref)).map .string)
  | .string t => pure (t.characters.map .string)
  | v => do typeFault (.iterate (← typeOf v))

end Eval

end Loom
