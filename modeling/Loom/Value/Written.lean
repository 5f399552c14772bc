import Loom.Value

/-!
The text of a value. Arrays and hashes are written out, except inside themselves. A chain of
containers each inside the one before is at most as long as the heap has containers.
-/

namespace Loom

namespace Written

def elements? (inner : Value → Option Text) : List Slot → Option (List Text)
  | [] => some []
  -- an empty slot is written as nothing, between its separators
  | none :: rest => (elements? inner rest).map ([] :: ·)
  | some v :: rest => do
      let text ← inner v
      let texts ← elements? inner rest
      pure (text :: texts)

def entries? (inner : Value → Option Text) : List (Text × Value) → Option (List Text)
  | [] => some []
  | (key, v) :: rest => do
      let text ← inner v
      let texts ← entries? inner rest
      pure ((key ++ ": " ++ text) :: texts)

/-- `above` are the containers around a value; `inner` writes what is one level deeper. -/
def level (heap : Heap) (inner : List Container → Value → Option Text)
    (above : List Container) : Value → Option Text
  | .null => some "null"
  | .bool b => some (if b then "true" else "false")
  | .number x _ => some (Decimal.text x)
  | .string t => some t
  | .array ref =>
      if Container.array ref ∈ above then some "[...]"
      else do
        let texts ← elements? (inner (.array ref :: above)) (heap.array ref).toList
        pure ("[" ++ Text.join ", " texts ++ "]")
  | .hash ref =>
      if Container.hash ref ∈ above then some "\x7b...\x7d"
      else do
        let texts ← entries? (inner (.hash ref :: above)) (heap.hash ref)
        pure ("\x7b" ++ Text.join ", " texts ++ "\x7d")
  | .function closure _ => some ("<function " ++ closure.name ++ ">")
  | .native n _ => some ("<native " ++ n.action.name ++ ">")
  | .missing => none

def within (heap : Heap) : (fuel : Nat) → List Container → Value → Option Text
  | 0 => level heap (fun _ _ => none)
  | fuel + 1 => level heap (within heap fuel)

end Written

def Value.text? (heap : Heap) (v : Value) : Option Text := Written.within heap heap.size [] v

end Loom
