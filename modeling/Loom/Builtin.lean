import Loom.Decimal.Read
import Loom.Operator

/-!
The built-in functions. Each is given as many arguments as its arity says.
-/

namespace Loom

namespace Builtin

open Eval

def addTo (target item : Value) : Eval Value :=
  match target with
  | .array ref => do
      modifyArray ref (·.push (some item))
      pure .null
  | v => do typeFault (.addTo (← typeOf v))

def anyEqual (item : Value) : List Slot → Eval Bool
  | [] => pure false
  -- a slot that holds nothing is passed over, not compared
  | none :: rest => anyEqual item rest
  | some v :: rest => do
      if ← equal v item then pure true else anyEqual item rest

def findIn (collection item : Value) : Eval Value :=
  match collection with
  | .array ref => do
      let slots ← array ref
      pure (.bool (← anyEqual item slots.toList))
  | .hash ref => do
      let key ← textOf item
      pure (.bool (Table.has key (← hash ref)))
  | .string t => do
      let piece ← textOf item
      pure (.bool (t.contains piece))
  | v => do typeFault (.findIn (← typeOf v))

/-- The numbers from `x` in steps of one that are not above `last`. -/
def countUp (last : Float) : (fuel : Nat) → (x : Float) → Array Slot → Eval (Array Slot)
  | 0, _, _ => outOfFuel
  | fuel + 1, x, done =>
      -- with bounds too large to count by one, `x + 1` is `x` and this never ends
      if x <= last then countUp last fuel (x + 1) (done.push (some (.ofFloat x)))
      else pure done

def rangeFrom (fuel : Nat) (first last : Value) : Eval Value := do
  let a ← expectNumber first "RangeArray"
  let b ← expectNumber last "RangeArray"
  if (wholeOf? a).isSome && (wholeOf? b).isSome then
    newArray (← countUp b fuel a #[])
  else typeFault (.fractionalBounds a b)

def countOf (v : Value) : Eval Value :=
  match v with
  | .array ref => do pure (.ofNat (← array ref).size)
  | .hash ref => do pure (.ofNat (← hash ref).length)
  | .string t => pure (.ofNat t.characters.length)
  | v => do typeFault (.count (← typeOf v))

def keysOf (v : Value) : Eval Value :=
  match v with
  | .hash ref => do
      let table ← hash ref
      newArray ((Table.keys table).map (fun key => some (.string key))).toArray
  | v => do typeFault (.keysOf (← typeOf v))

/-- Takes an element or an entry out and returns it, or null if there is none. -/
def removeFrom (collection key : Value) : Eval Value :=
  match collection with
  | .array ref => do
      let x ← expectNumber key "Remove"
      let slots ← array ref
      match indexOf? x with
      | some i =>
          if h : i < slots.size then do
            let v := slots[i].read
            modifyArray ref (·.eraseIdxIfInBounds i)
            pure v
          else pure .null
      | none => pure .null
  | .hash ref => do
      let name ← textOf key
      let v ← entry ref name
      modifyHash ref (Table.erase name)
      pure v
  | v => do typeFault (.removeFrom (← typeOf v))

def toNumber (v : Value) : Eval Value :=
  match v with
  | .number x s => pure (.number x s)
  | .bool b => pure (.ofFloat (if b then 1 else 0))
  | .string t =>
      if t.trim.isEmpty then runtimeFault (.notANumber t)
      else
        match Decimal.ofText? t with
        | some x => pure (.ofFloat x)
        | none => runtimeFault (.notANumber t)
  | v => do typeFault (.toNumber (← typeOf v))

/-- What a built-in function does; `fuel` bounds the length of a range. -/
def run (fuel : Nat) : Builtin → List Value → Eval Value
  | .add, [target, item] => addTo target item
  | .find, [collection, item] => findIn collection item
  | .rangeArray, [first, last] => rangeFrom fuel first last
  | .count, [v] => countOf v
  | .keys, [v] => keysOf v
  | .remove, [collection, key] => removeFrom collection key
  | .str, [v] => do pure (.string (← textOf v))
  | .num, [v] => toNumber v
  | .type, [v] => do pure (.string (← typeOf v).text)
  | b, args => fault (.arity b.name b.arity args.length)

end Builtin

end Loom
