import Loom.Dyadic
import Loom.Issue
import Loom.Json

/-!
Checking the shape of data. All parts of the data are checked, and their issues are kept in order.
-/

namespace Loom

inductive Verdict (α : Type) where
  | valid (value : α)
  /-- The sorts are right, but some rule is broken. -/
  | dirty (issues : List Issue)
  | aborted (issues : List Issue)

namespace Verdict

variable {α β : Type}

def issues : Verdict α → List Issue
  | valid _ => []
  | dirty list => list
  | aborted list => list

def map (f : α → β) : Verdict α → Verdict β
  | valid a => valid (f a)
  | dirty list => dirty list
  | aborted list => aborted list

def both (f : Verdict (α → β)) (a : Verdict α) : Verdict β :=
  match f, a with
  | valid f, valid a => valid (f a)
  | aborted list, a => aborted (list ++ a.issues)
  | f, aborted list => aborted (f.issues ++ list)
  | f, a => dirty (f.issues ++ a.issues)

instance : Applicative Verdict where
  pure := valid
  map := map
  seq f a := both f (a ())

def collect : List (Verdict α) → Verdict (List α)
  | [] => valid []
  | v :: rest => List.cons <$> v <*> collect rest

def isValid : Verdict α → Bool
  | valid _ => true
  | _ => false

def isDirty : Verdict α → Bool
  | dirty _ => true
  | _ => false

end Verdict

abbrev Check (α : Type) := (path : List Text) → Json → Verdict α

namespace Check

variable {α : Type}

def sortOf : Json → DataSort
  | .null => .null
  | .bool _ => .boolean
  | .num _ => .number
  | .str _ => .string
  | .arr _ => .array
  | .obj _ => .object

def wrongSort (path : List Text) (expected : DataSort) (data : Json) : Verdict α :=
  .aborted [⟨path, .wrongSort expected (sortOf data)⟩]

def as {β : Type} (f : α → β) (check : Check α) : Check β := fun path data =>
  f <$> check path data

def null : Check Unit := fun path data =>
  match data with
  | .null => .valid ()
  | _ => wrongSort path .null data

def number : Check Float := fun path data =>
  match data with
  | .num x => .valid x
  | _ => wrongSort path .number data

def text : Check Text := fun path data =>
  match data with
  | .str t => .valid t
  | _ => wrongSort path .string data

def bool : Check Bool := fun path data =>
  match data with
  | .bool b => .valid b
  | _ => wrongSort path .boolean data

def isIdentifier : Text → Bool
  | [] => false
  | u :: rest =>
      let letter (u : UInt16) : Bool :=
        (0x61 ≤ u && u ≤ 0x7A) || (0x41 ≤ u && u ≤ 0x5A) || u == 0x5F
      letter u && rest.all (fun u => letter u || (0x30 ≤ u && u ≤ 0x39))

def identifier : Check Text := fun path data =>
  match data with
  | .str t => if isIdentifier t then .valid t else .dirty [⟨path, .invalidIdentifier⟩]
  | _ => wrongSort path .string data

def filledText : Check Text := fun path data =>
  match data with
  | .str t => if t.isEmpty then .dirty [⟨path, .tooShort⟩] else .valid t
  | _ => wrongSort path .string data

def finite : Check Float := fun path data =>
  match data with
  | .num x => if x.isInf || x.isNaN then .dirty [⟨path, .infinite⟩] else .valid x
  | _ => wrongSort path .number data

def whole (least : Nat) : Check Nat := fun path data =>
  match data with
  | .num x =>
      -- both rules are checked, and both may be broken
      let below : List Issue := if x < Float.ofNat least then [⟨path, .below least⟩] else []
      match wholeOf? x with
      | none => .dirty (⟨path, .notWhole⟩ :: below)
      | some n => if below.isEmpty then .valid n.toNat else .dirty below
  | _ => wrongSort path .number data

def nullable (check : Check α) : Check (Option α) := fun path data =>
  match data with
  | .null => .valid none
  | _ => some <$> check path data

def eachFrom (check : Check α) (path : List Text) : Nat → List Json → List (Verdict α)
  | _, [] => []
  | i, data :: rest => check (path ++ [Text.ofNat i]) data :: eachFrom check path (i + 1) rest

def list (check : Check α) : Check (List α) := fun path data =>
  match data with
  | .arr items => Verdict.collect (eachFrom check path 0 items)
  | _ => wrongSort path .array data

def filledList (check : Check α) : Check (List α) := fun path data =>
  match data with
  | .arr [] => .dirty [⟨path, .tooFewItems⟩]
  | _ => list check path data

def object (check : Check α) : Check α := fun path data =>
  match data with
  | .obj _ => check path data
  | _ => wrongSort path .object data

def field (key : Text) (check : Check α) : Check α := fun path data =>
  match data.field? key with
  | some value => check (path ++ [key]) value
  | none => .aborted [⟨path ++ [key], .required⟩]

def fieldOr (key : Text) (absent : α) (check : Check α) : Check α := fun path data =>
  match data.field? key with
  | some value => check (path ++ [key]) value
  | none => .valid absent

def tag (key expected : Text) : Check Unit := fun path data =>
  match data.field? key with
  | some (.str t) =>
      if t = expected then .valid () else .aborted [⟨path ++ [key], .wrongTag expected⟩]
  | _ => .aborted [⟨path ++ [key], .wrongTag expected⟩]

/-- One of several shapes, told apart by a field. -/
def oneOf (key : Text) (shape? : Text → Option (Check α)) : Check α := fun path data =>
  let invalid : Verdict α := .aborted [⟨path, .invalidInput⟩]
  match data.field? key with
  | some (.str t) =>
      match shape? t with
      | some check =>
          match check path data with
          | .aborted _ => invalid
          | verdict => verdict
      | none => invalid
  | _ => invalid

/-- The ancestor key's field is checked like the others and then left out. -/
def record (check : Check α) : Check (Table α) := fun path data =>
  match data with
  | .obj fields =>
      List.filter (fun field => field.1 ≠ Json.ancestorKey) <$>
        Verdict.collect
          (fields.map fun (key, value) => Prod.mk key <$> check (path ++ [key]) value)
  | _ => wrongSort path .object data

/-- The first check that finds the data valid counts, or else the first that finds a rule broken. -/
def union (members : List (Check α)) : Check α := fun path data =>
  let verdicts := members.map fun member => member path data
  match verdicts.find? Verdict.isValid with
  | some verdict => verdict
  | none => (verdicts.find? Verdict.isDirty).getD (.aborted [⟨path, .invalidInput⟩])

/-- Data of any sort that is nested less than `fuel` deep. -/
def dataWithin : (fuel : Nat) → Check Json
  | 0 => fun path _ => .aborted [⟨path, .invalidInput⟩]
  | fuel + 1 =>
      .union
        [null.as fun _ => .null, bool.as .bool, number.as .num, text.as .str,
          (list fun path data => dataWithin fuel path data).as .arr,
          (record fun path data => dataWithin fuel path data).as .obj]

def anyData : Check Json := fun path data => dataWithin (data.depth + 1) path data

def word (word? : Text → Option α) : Check α := fun path data =>
  match data with
  | .str t =>
      match word? t with
      | some value => .valid value
      | none => .aborted [⟨path, .invalidInput⟩]
  | _ => wrongSort path .string data

end Check

end Loom
