import Loom.Value

/-!
Equality of values. A pair of containers that was met before is taken to be equal, so that
comparing containers that hold themselves comes to an end.
-/

namespace Loom

namespace Equality

abbrev Begun := List (Container × Container)

/-- Only for NaN and missing values does this say more than comparing their contents. -/
def same : Value → Value → Bool
  | .number x s, .number y t => x.isNaN && y.isNaN && s == t
  | .array a, .array b => a == b
  | .hash a, .hash b => a == b
  | .missing, .missing => true
  | _, _ => false

def elements? (inner : Value → Value → Begun → Option (Bool × Begun)) :
    List Slot → List Slot → Begun → Option (Bool × Begun)
  | [], _, begun => some (true, begun)
  -- an empty slot of the first array is passed over with whatever it stands against
  | none :: rest, others, begun => elements? inner rest (others.drop 1) begun
  | some v :: rest, others, begun => do
      let (equal, begun) ← inner v (others.head?.join.getD .missing) begun
      if equal then elements? inner rest (others.drop 1) begun else pure (false, begun)

def entries? (inner : Value → Value → Begun → Option (Bool × Begun)) (others : Table Value) :
    List (Text × Value) → Begun → Option (Bool × Begun)
  | [], begun => some (true, begun)
  | (key, v) :: rest, begun =>
      match (Table.find? key others).bind Value.present? with
      | none => some (false, begun)
      | some w => do
          let (equal, begun) ← inner v w begun
          if equal then entries? inner others rest begun else pure (false, begun)

/-- There is no answer when a missing value has to be looked into. -/
def level (heap : Heap) (inner : Value → Value → Begun → Option (Bool × Begun))
    (a b : Value) (begun : Begun) : Option (Bool × Begun) :=
  if same a b then some (true, begun)
  else
    match a, b with
    | .missing, _ => none
    | _, .missing => none
    | .null, .null => some (true, begun)
    | .bool x, .bool y => some (x == y, begun)
    | .number x _, .number y _ => some (x == y, begun)
    | .string s, .string t => some (s == t, begun)
    | .array r, .array s =>
        let pair := (Container.array r, Container.array s)
        if (heap.array r).size ≠ (heap.array s).size then some (false, begun)
        else if pair ∈ begun then some (true, begun)
        else elements? inner (heap.array r).toList (heap.array s).toList (pair :: begun)
    | .hash r, .hash s =>
        let pair := (Container.hash r, Container.hash s)
        if (heap.hash r).length ≠ (heap.hash s).length then some (false, begun)
        else if pair ∈ begun then some (true, begun)
        else entries? inner (heap.hash s) (heap.hash r) (pair :: begun)
    | .function f _, .function g _ =>
        some (f.procedure.site == g.procedure.site && f.scope == g.scope, begun)
    | .native m _, .native n _ => some (m == n, begun)
    | _, _ => some (false, begun)

def within (heap : Heap) : (fuel : Nat) → Value → Value → Begun → Option (Bool × Begun)
  | 0 => level heap (fun _ _ _ => none)
  | fuel + 1 => level heap (within heap fuel)

end Equality

/-- Each step deeper begins a new pair of containers, so the number of pairs bounds the steps. -/
def Value.equal? (heap : Heap) (a b : Value) : Option Bool :=
  (Equality.within heap (heap.size * heap.size) a b []).map (·.1)

end Loom
