import Loom.Table

/-!
Plain data, as it comes in and goes out. The fields of a record whose keys are array indexes come
first, ascending, and the others follow as they were added.
-/

namespace Loom

inductive Json where
  | null
  | bool (b : Bool)
  | num (x : Float)
  | str (t : Text)
  | arr (items : List Json)
  | obj (fields : List (Text × Json))
  deriving Inhabited

namespace Json

def maxIndex : Nat := 4294967294

def arrayIndex? (key : Text) : Option Nat :=
  let digits := key.all (fun u => 0x30 ≤ u && u ≤ 0x39)
  if key.isEmpty || 10 < key.length || !digits then none
  else
    let value := key.foldl (fun n u => n * 10 + (u.toNat - 0x30)) 0
    if Text.ofNat value = key ∧ value ≤ maxIndex then some value else none

def propertyOrder {α : Type} (fields : Table α) : Table α :=
  let indexed := fields.filterMap (fun f => (arrayIndex? f.1).map (fun i => (i, f)))
  let others := fields.filter (fun f => (arrayIndex? f.1).isNone)
  (indexed.mergeSort (fun a b => a.1 ≤ b.1)).map (·.2) ++ others

/-- The record of a list of fields, of which the last one of a key counts. -/
def ofFields (fields : List (Text × Json)) : Json := obj (propertyOrder (Table.ofEntries fields))

/-- The key that names an object's ancestor, and that most records lose. -/
def ancestorKey : Text := "__proto__"

def field? (key : Text) : Json → Option Json
  | obj fields => Table.find? key fields
  | _ => none

mutual

def withoutAncestors : Json → Json
  | arr items => arr (withoutAncestorsIn items)
  | obj fields => obj (withoutAncestorFields fields)
  | data => data

def withoutAncestorsIn : List Json → List Json
  | [] => []
  | item :: rest => item.withoutAncestors :: withoutAncestorsIn rest

def withoutAncestorFields : List (Text × Json) → List (Text × Json)
  | [] => []
  | (key, value) :: rest =>
      if key = ancestorKey then withoutAncestorFields rest
      else (key, value.withoutAncestors) :: withoutAncestorFields rest

end

mutual

def depth : Json → Nat
  | arr items => depthOfAll items + 1
  | obj fields => depthOfFields fields + 1
  | _ => 0

def depthOfAll : List Json → Nat
  | [] => 0
  | item :: rest => max item.depth (depthOfAll rest)

def depthOfFields : List (Text × Json) → Nat
  | [] => 0
  | (_, value) :: rest => max value.depth (depthOfFields rest)

end

end Json

/-- Data as a host has it, where places of a list may be empty. -/
inductive HostData where
  | null
  | bool (b : Bool)
  | num (x : Float)
  | str (t : Text)
  | arr (items : List (Option HostData))
  | obj (fields : List (Text × HostData))
  deriving Inhabited

namespace HostData

def ofFields (fields : List (Text × HostData)) : HostData :=
  obj (Json.propertyOrder (Table.ofEntries fields))

mutual

def nans : HostData → Nat
  | num x => if x.isNaN then 1 else 0
  | arr items => nansOfAll items
  | obj fields => nansOfFields fields
  | _ => 0

def nansOfAll : List (Option HostData) → Nat
  | [] => 0
  | none :: rest => nansOfAll rest
  | some item :: rest => item.nans + nansOfAll rest

def nansOfFields : List (Text × HostData) → Nat
  | [] => 0
  | (_, value) :: rest => value.nans + nansOfFields rest

end

end HostData

mutual

/-- Plain data in the hands of a host. -/
def Json.host : Json → HostData
  | .null => .null
  | .bool b => .bool b
  | .num x => .num x
  | .str t => .str t
  | .arr items => .arr (Json.hostItems items)
  | .obj fields => .obj (Json.hostFields fields)

def Json.hostItems : List Json → List (Option HostData)
  | [] => []
  | item :: rest => some item.host :: Json.hostItems rest

def Json.hostFields : List (Text × Json) → List (Text × HostData)
  | [] => []
  | (key, value) :: rest => (key, value.host) :: Json.hostFields rest

end

end Loom
