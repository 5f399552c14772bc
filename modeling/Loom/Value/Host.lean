import Loom.Json
import Loom.Value

/-!
Values from the data of a host and back. Functions have no form as data, and neither has a
container that holds itself.
-/

namespace Loom

mutual

/-- Each NaN is an object of its own, with the next stamp after those given out. -/
def Value.ofHost : HostData → Heap → (stamps : Nat) → Value × Heap
  | .null, heap, _ => (.null, heap)
  | .bool b, heap, _ => (.bool b, heap)
  | .num x, heap, n => (.number x (if x.isNaN then n + 1 else 0), heap)
  | .str t, heap, _ => (.string t, heap)
  | .arr items, heap, n =>
      let (slots, heap) := Value.allOfHost items heap n
      heap.newArray slots.toArray
  | .obj fields, heap, n =>
      let (entries, heap) := Value.fieldsOfHost fields heap n
      heap.newHash entries

def Value.allOfHost : List (Option HostData) → Heap → Nat → List Slot × Heap
  | [], heap, _ => ([], heap)
  | none :: rest, heap, n =>
      let (slots, heap) := Value.allOfHost rest heap n
      (none :: slots, heap)
  | some item :: rest, heap, n =>
      let (v, heap) := Value.ofHost item heap n
      let (slots, heap) := Value.allOfHost rest heap (n + item.nans)
      (some v :: slots, heap)

def Value.fieldsOfHost : List (Text × HostData) → Heap → Nat → List (Text × Value) × Heap
  | [], heap, _ => ([], heap)
  | (key, item) :: rest, heap, n =>
      let (v, heap) := Value.ofHost item heap n
      let (entries, heap) := Value.fieldsOfHost rest heap (n + item.nans)
      ((key, v) :: entries, heap)

end

namespace HostForm

def elements (inner : Value → Except Failure HostData) :
    List Slot → Except Failure (List (Option HostData))
  | [] => .ok []
  | none :: rest => do
      let items ← elements inner rest
      pure (none :: items)
  | some v :: rest => do
      let item ← inner v
      let items ← elements inner rest
      pure (some item :: items)

def entries (inner : Value → Except Failure HostData) :
    List (Text × Value) → Except Failure (List (Text × HostData))
  | [] => .ok []
  | (key, v) :: rest => do
      -- what stands under the ancestor key has to have a form too, but is left out
      let item ← inner v
      let fields ← entries inner rest
      pure (if key = Json.ancestorKey then fields else (key, item) :: fields)

/-- `above` are the containers around a value; `inner` converts what is one level deeper. -/
def level (heap : Heap) (inner : List Container → Value → Except Failure HostData)
    (above : List Container) : Value → Except Failure HostData
  | .null => .ok .null
  | .bool b => .ok (.bool b)
  | .number x _ => .ok (.num x)
  | .string t => .ok (.str t)
  | .array ref =>
      if Container.array ref ∈ above then .error (.of (.wrongType (.cyclicToHost .array)))
      else do
        let items ← elements (inner (.array ref :: above)) (heap.array ref).toList
        pure (.arr items)
  | .hash ref =>
      if Container.hash ref ∈ above then .error (.of (.wrongType (.cyclicToHost .hash)))
      else do
        let fields ← entries (inner (.hash ref :: above)) (heap.hash ref)
        pure (.obj (Json.propertyOrder fields))
  | .function _ _ => .error (.of (.wrongType (.toHost .function)))
  | .native _ _ => .error (.of (.wrongType (.toHost .native)))
  | .missing => .error (.host .missingValue)

def within (heap : Heap) : (fuel : Nat) → List Container → Value → Except Failure HostData
  | 0 => level heap (fun _ _ => .error (.host .missingValue))
  | fuel + 1 => level heap (within heap fuel)

end HostForm

def Value.toHost (heap : Heap) (v : Value) : Except Failure HostData :=
  HostForm.within heap heap.size [] v

end Loom
