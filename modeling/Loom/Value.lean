import Loom.Dyadic
import Loom.Fault
import Loom.Program
import Loom.Table

/-!
Values, and the heap that holds arrays and hashes. Arrays and hashes are known
by their place in the heap, so every holder of one sees each change to it.
-/

namespace Loom

inductive Builtin where
  | add | find | rangeArray | count | keys | remove | str | num | type
  deriving DecidableEq, Repr

namespace Builtin

def all : List Builtin := [add, find, rangeArray, count, keys, remove, str, num, type]

def name : Builtin → Text
  | add => "Add"
  | find => "Find"
  | rangeArray => "RangeArray"
  | count => "Count"
  | keys => "Keys"
  | remove => "Remove"
  | str => "Str"
  | num => "Num"
  | type => "Type"

def arity : Builtin → Nat
  | add | find | rangeArray | remove => 2
  | count | keys | str | num | type => 1

end Builtin

inductive Action where
  | builtin (b : Builtin)
  | setHandler
  | startLoop
  | callBack
  | listArguments
  | host (name : Text)
  deriving DecidableEq, Repr

def Action.name : Action → Text
  | builtin b => b.name
  | setHandler => "SetHandler"
  | startLoop => "StartLoop"
  | callBack => "Call"
  | listArguments => "Args"
  | host name => name

def Action.arity? : Action → Option Nat
  | builtin b => some b.arity
  | setHandler => some 2
  | startLoop => some 0
  | callBack => none
  | listArguments => none
  | host _ => some 0

/-- Each set of built-ins and each native module has an owner number of its own; for the event
module it is the number of its loop. -/
structure Native where
  action : Action
  owner : Nat
  deriving DecidableEq, Repr

structure Closure where
  name : Text
  procedure : Procedure
  scope : Nat
  file : Option Text

/-- The stamp tells NaN values of different origin apart; `method` marks functions that a field
call gives their receiver. -/
inductive Value where
  | null
  | bool (b : Bool)
  | number (x : Float) (stamp : Nat)
  | string (t : Text)
  | array (ref : Nat)
  | hash (ref : Nat)
  | function (closure : Closure) (method : Bool)
  | native (native : Native) (method : Bool)
  /-- What an array slot that holds nothing gives; no operation takes it. -/
  | missing

instance : Inhabited Value := ⟨.null⟩

namespace Value

def ofFloat (x : Float) : Value := number x 0

def ofNat (n : Nat) : Value := ofFloat (Float.ofNat n)

def type? : Value → Option TypeName
  | null => some .null
  | bool _ => some .boolean
  | number _ _ => some .number
  | string _ => some .string
  | array _ => some .array
  | hash _ => some .hash
  | function _ _ => some .function
  | native _ _ => some .native
  | missing => none

def isCallable : Value → Bool
  | function _ _ => true
  | native _ _ => true
  | _ => false

def asMethod : Value → Value
  | function closure _ => function closure true
  | native n _ => native n true
  | v => v

def isMethod : Value → Bool
  | function _ method => method
  | native _ method => method
  | _ => false

/-- A hash field that holds a missing value reads as one that is not there. -/
def present? : Value → Option Value
  | missing => none
  | v => some v

def hostName? : Value → Option Text
  | function closure _ => some closure.name
  | native n _ => some n.action.name
  | v => v.type?.map TypeName.text

end Value

/-- A slot of an array; it may hold nothing. -/
abbrev Slot := Option Value

def Slot.read (slot : Slot) : Value := slot.getD .missing

structure Heap where
  arrays : Array (Array Slot)
  hashes : Array (Table Value)

namespace Heap

def empty : Heap := ⟨#[], #[]⟩

def array (heap : Heap) (ref : Nat) : Array Slot := heap.arrays.getD ref #[]

def hash (heap : Heap) (ref : Nat) : Table Value := heap.hashes.getD ref []

def newArray (heap : Heap) (elements : Array Slot) : Value × Heap :=
  (.array heap.arrays.size, { heap with arrays := heap.arrays.push elements })

def newHash (heap : Heap) (entries : Table Value) : Value × Heap :=
  (.hash heap.hashes.size, { heap with hashes := heap.hashes.push entries })

def modifyArray (heap : Heap) (ref : Nat) (f : Array Slot → Array Slot) : Heap :=
  { heap with arrays := heap.arrays.modify ref f }

def modifyHash (heap : Heap) (ref : Nat) (f : Table Value → Table Value) : Heap :=
  { heap with hashes := heap.hashes.modify ref f }

def entry? (heap : Heap) (ref : Nat) (key : Text) : Option Value :=
  (Table.find? key (heap.hash ref)).bind Value.present?

/-- The number of arrays and hashes; no chain of different ones is longer. -/
def size (heap : Heap) : Nat := heap.arrays.size + heap.hashes.size

end Heap

inductive Container where
  | array (ref : Nat)
  | hash (ref : Nat)
  deriving DecidableEq, Repr

/-- Slots between the end of the array and the position are left empty. -/
def Heap.storeAt (elements : Array Slot) (position : Nat) (value : Value) : Array Slot :=
  if position < elements.size then elements.setIfInBounds position (some value)
  else
    (elements ++ Array.replicate (position - elements.size) none).push (some value)

theorem getD_push {α : Type} (xs : Array α) (a default : α) (i : Nat) :
    (xs.push a).getD i default = if i = xs.size then a else xs.getD i default := by
  by_cases last : i = xs.size
  · simp [Array.getD, last]
  · by_cases inside : i < xs.size
    · simp [Array.getD, Array.getElem_push, last, inside, Nat.lt_succ_of_lt inside]
    · have outside : ¬ i < xs.size + 1 := by omega
      simp [Array.getD, last, inside, outside]

theorem getD_modify {α : Type} (xs : Array α) (f : α → α) (default : α) (i j : Nat) :
    (xs.modify i f).getD j default =
      if j = i ∧ i < xs.size then f (xs.getD j default) else xs.getD j default := by
  by_cases inside : j < xs.size
  · by_cases same : i = j
    · simp [Array.getD, Array.getElem_modify, inside, same]
    · simp [Array.getD, Array.getElem_modify, inside, same, Ne.symm same]
  · have outside : ¬ (j = i ∧ i < xs.size) := by
      rintro ⟨rfl, present⟩
      exact inside present
    simp [Array.getD, inside, outside]

namespace Heap

theorem array_newArray (heap : Heap) (elements : Array Slot) (ref : Nat) :
    (heap.newArray elements).2.array ref =
      if ref = heap.arrays.size then elements else heap.array ref :=
  getD_push heap.arrays elements #[] ref

theorem hash_newHash (heap : Heap) (entries : Table Value) (ref : Nat) :
    (heap.newHash entries).2.hash ref =
      if ref = heap.hashes.size then entries else heap.hash ref :=
  getD_push heap.hashes entries [] ref

theorem array_modifyArray (heap : Heap) (ref : Nat) (f : Array Slot → Array Slot) (other : Nat) :
    (heap.modifyArray ref f).array other =
      if other = ref ∧ ref < heap.arrays.size then f (heap.array other) else heap.array other :=
  getD_modify heap.arrays f #[] ref other

theorem hash_modifyHash (heap : Heap) (ref : Nat) (f : Table Value → Table Value) (other : Nat) :
    (heap.modifyHash ref f).hash other =
      if other = ref ∧ ref < heap.hashes.size then f (heap.hash other) else heap.hash other :=
  getD_modify heap.hashes f [] ref other

end Heap

/-- All values count as true but null, false, zero, and what is empty; a missing one is neither. -/
def Value.truthy? (heap : Heap) : Value → Option Bool
  | null => some false
  | bool b => some b
  | number x _ => some (x != 0)
  | string t => some (!t.isEmpty)
  | array ref => some (!(heap.array ref).isEmpty)
  | hash ref => some (!(heap.hash ref).isEmpty)
  | function _ _ => some true
  | native _ _ => some true
  | missing => none

end Loom
