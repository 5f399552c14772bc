import Loom.Builtin
import Loom.Proofs.Veil.State

/-!
Operators and built-in functions overlook hidden variables: they look at the heap and at
the values that they are given, and at no scope.
-/

namespace Loom

variable {veil : Veil}

namespace Eval

theorem overlooks_compare (op : BinaryOp) (left right : Value) :
    Overlooks veil (Value.Avoids veil.names) (compare op left right) := by
  have stood : Overlooks veil (fun _ => True) (standing left right) := by
    unfold standing
    split
    · exact overlooks_pure trivial
    · exact overlooks_pure trivial
    · apply overlooks_then (overlooks_typeOf _)
      intro l
      exact overlooks_then (overlooks_typeOf _) (fun _ => overlooks_typeFault _)
  exact overlooks_then stood (fun _ => overlooks_pure trivial)

/-- An operation on two numbers. -/
theorem overlooks_arithmetic (op : BinaryOp) (left right : Value) {f : Float → Float → Eval Value}
    (step : ∀ a b, Overlooks veil (Value.Avoids veil.names) (f a b)) :
    Overlooks veil (Value.Avoids veil.names) (do let (a, b) ← operands op left right; f a b) := by
  have given : Overlooks veil (fun _ => True) (operands op left right) := by
    apply overlooks_then (overlooks_expectNumber left _)
    intro a
    exact overlooks_then (overlooks_expectNumber right _) (fun _ => overlooks_pure trivial)
  exact overlooks_then given (fun (a, b) => step a b)

/-- An operation that refuses to divide by zero. -/
theorem overlooks_dividing (cause : RuntimeFault) (f : Float → Float → Float) (a b : Float) :
    Overlooks veil (Value.Avoids veil.names)
      (if b == 0 then runtimeFault cause else number (f a b)) := by
  split
  · exact overlooks_runtimeFault _
  · exact overlooks_number _

theorem overlooks_binary (op : BinaryOp) (left right : Value) :
    Overlooks veil (Value.Avoids veil.names) (binary op left right) := by
  have truth : ∀ v, Overlooks veil (Value.Avoids veil.names)
      (do pure (.bool (← truthy v))) :=
    fun v => overlooks_then (overlooks_truthy v) (fun _ => overlooks_pure trivial)
  cases op with
  | add => exact overlooks_arithmetic _ left right (fun _ _ => overlooks_number _)
  | subtract => exact overlooks_arithmetic _ left right (fun _ _ => overlooks_number _)
  | multiply => exact overlooks_arithmetic _ left right (fun _ _ => overlooks_number _)
  | divide =>
      exact overlooks_arithmetic _ left right (overlooks_dividing .divisionByZero (· / ·))
  | remainder =>
      exact overlooks_arithmetic _ left right (overlooks_dividing .moduloByZero remainderOf)
  | less | lessEqual | greater | greaterEqual => exact overlooks_compare _ left right
  | equal | notEqual =>
      exact overlooks_then (overlooks_equal left right) (fun _ => overlooks_pure trivial)
  | and =>
      apply overlooks_then (overlooks_truthy left)
      intro a
      cases a with
      | true => exact truth right
      | false => exact overlooks_pure trivial
  | or =>
      apply overlooks_then (overlooks_truthy left)
      intro a
      cases a with
      | true => exact overlooks_pure trivial
      | false => exact truth right
  | xor =>
      apply overlooks_then (overlooks_truthy left)
      intro a
      exact overlooks_then (overlooks_truthy right) (fun _ => overlooks_pure trivial)
  | concat =>
      apply overlooks_then (overlooks_textOf left)
      intro a
      exact overlooks_then (overlooks_textOf right) (fun _ => overlooks_pure trivial)

theorem overlooks_negate (v : Value) :
    Overlooks veil (Value.Avoids veil.names) (negate v) :=
  overlooks_then (overlooks_expectNumber v _) (fun _ => overlooks_number _)

theorem overlooks_readField (v : Value) (name : Text) :
    Overlooks veil (Value.Avoids veil.names) (readField v name) := by
  cases v with
  | hash ref => exact overlooks_entry ref name
  | _ => exact overlooks_refused _ _

theorem overlooks_readIndex (v position : Value) :
    Overlooks veil (Value.Avoids veil.names) (readIndex v position) := by
  cases v with
  | array ref =>
      apply overlooks_then (overlooks_expectNumber position _)
      intro x
      apply overlooks_bind (overlooks_array ref)
      intro slots held
      split
      · split
        · exact overlooks_pure (held _ (Array.getElem_mem _))
        · exact overlooks_pure trivial
      · exact overlooks_pure trivial
  | hash ref =>
      exact overlooks_then (overlooks_textOf position) (fun key => overlooks_entry ref key)
  | string t =>
      apply overlooks_then (overlooks_expectNumber position _)
      intro x
      split <;> exact overlooks_pure trivial
  | _ => exact overlooks_refused _ _

theorem overlooks_itemsOf (v : Value) :
    Overlooks veil (fun items => ∀ item ∈ items, item.Avoids veil.names) (itemsOf v) := by
  have texts : ∀ list : List Text, ∀ item ∈ list.map Value.string, item.Avoids veil.names := by
    intro list item member
    obtain ⟨t, _, rfl⟩ := List.mem_map.mp member
    trivial
  cases v with
  | array ref =>
      apply overlooks_bind (overlooks_array ref)
      intro slots held
      apply overlooks_pure
      intro item member
      obtain ⟨slot, inside, rfl⟩ := List.mem_map.mp member
      exact held slot (Array.mem_toList_iff.mp inside)
  | hash ref => exact overlooks_then (overlooks_hash ref) (fun _ => overlooks_pure (texts _))
  | string t => exact overlooks_pure (texts _)
  | _ => exact overlooks_refused _ _

end Eval

namespace Builtin

open Eval

theorem overlooks_addTo (target : Value) {item : Value} (avoids : item.Avoids veil.names) :
    Overlooks veil (Value.Avoids veil.names) (addTo target item) := by
  cases target with
  | array ref =>
      have pushed : Overlooks veil (fun _ => True) (modifyArray ref (·.push (some item))) := by
        apply overlooks_modifyArray ref
        intro slots held slot member
        rcases Array.mem_push.mp member with old | new
        · exact held slot old
        · rw [new]
          exact avoids
      exact overlooks_then pushed (fun _ => overlooks_pure trivial)
  | _ => exact overlooks_refused _ _

theorem overlooks_anyEqual (item : Value) (slots : List Slot) :
    Overlooks veil (fun _ => True) (anyEqual item slots) := by
  induction slots with
  | nil => exact overlooks_pure trivial
  | cons slot rest ih =>
      cases slot with
      | none => exact ih
      | some v =>
          apply overlooks_then (overlooks_equal v item)
          intro found
          cases found with
          | true => exact overlooks_pure trivial
          | false => exact ih

theorem overlooks_findIn (collection item : Value) :
    Overlooks veil (Value.Avoids veil.names) (findIn collection item) := by
  cases collection with
  | array ref =>
      apply overlooks_then (overlooks_array ref)
      intro slots
      exact overlooks_then (overlooks_anyEqual item _) (fun _ => overlooks_pure trivial)
  | hash ref =>
      apply overlooks_then (overlooks_textOf item)
      intro key
      exact overlooks_then (overlooks_hash ref) (fun _ => overlooks_pure trivial)
  | string t => exact overlooks_then (overlooks_textOf item) (fun _ => overlooks_pure trivial)
  | _ => exact overlooks_refused _ _

/-- By induction on the fuel. -/
theorem overlooks_countUp (last : Float) (fuel : Nat) (x : Float) {done : Array Slot}
    (held : ∀ slot ∈ done, slot.read.Avoids veil.names) :
    Overlooks veil (fun slots => ∀ slot ∈ slots, slot.read.Avoids veil.names)
      (countUp last fuel x done) := by
  induction fuel generalizing x done with
  | zero => exact overlooks_outOfFuel
  | succ fuel ih =>
      unfold countUp
      split
      · apply ih
        intro slot member
        rcases Array.mem_push.mp member with old | new
        · exact held slot old
        · rw [new]
          trivial
      · exact overlooks_pure held

theorem overlooks_rangeFrom (fuel : Nat) (first last : Value) :
    Overlooks veil (Value.Avoids veil.names) (rangeFrom fuel first last) := by
  apply overlooks_then (overlooks_expectNumber first _)
  intro a
  apply overlooks_then (overlooks_expectNumber last _)
  intro b
  split
  · exact overlooks_bind (overlooks_countUp b fuel a (by simp))
      (fun _ held => overlooks_newArray held)
  · exact overlooks_typeFault _

theorem overlooks_countOf (v : Value) : Overlooks veil (Value.Avoids veil.names) (countOf v) := by
  cases v with
  | array ref => exact overlooks_then (overlooks_array ref) (fun _ => overlooks_pure trivial)
  | hash ref => exact overlooks_then (overlooks_hash ref) (fun _ => overlooks_pure trivial)
  | string t => exact overlooks_pure trivial
  | _ => exact overlooks_refused _ _

theorem overlooks_keysOf (v : Value) : Overlooks veil (Value.Avoids veil.names) (keysOf v) := by
  cases v with
  | hash ref =>
      apply overlooks_then (overlooks_hash ref)
      intro table
      apply overlooks_newArray
      intro slot member
      obtain ⟨key, _, rfl⟩ := List.mem_map.mp (List.mem_toArray.mp member)
      trivial
  | _ => exact overlooks_refused _ _

theorem overlooks_removeFrom (collection key : Value) :
    Overlooks veil (Value.Avoids veil.names) (removeFrom collection key) := by
  cases collection with
  | array ref =>
      apply overlooks_then (overlooks_expectNumber key _)
      intro x
      apply overlooks_bind (overlooks_array ref)
      intro slots held
      split
      · rename_i i _
        split
        · rename_i inside
          have erased : Overlooks veil (fun _ => True)
              (modifyArray ref (·.eraseIdxIfInBounds i)) :=
            overlooks_modifyArray ref (fun slots held => Heap.forall_eraseAt slots i held)
          exact overlooks_then erased
            (fun _ => overlooks_pure (held _ (Array.getElem_mem inside)))
        · exact overlooks_pure trivial
      · exact overlooks_pure trivial
  | hash ref =>
      apply overlooks_then (overlooks_textOf key)
      intro name
      apply overlooks_bind (overlooks_entry ref name)
      intro v avoids
      have erased : Overlooks veil (fun _ => True) (modifyHash ref (Table.erase name)) :=
        overlooks_modifyHash ref (fun table held => Table.forall_erase name table held)
      exact overlooks_then erased (fun _ => overlooks_pure avoids)
  | _ => exact overlooks_refused _ _

theorem overlooks_toNumber (v : Value) :
    Overlooks veil (Value.Avoids veil.names) (toNumber v) := by
  cases v with
  | number x stamp => exact overlooks_pure trivial
  | bool b => exact overlooks_pure trivial
  | string t =>
      simp only [toNumber]
      split
      · exact overlooks_runtimeFault _
      · split
        · exact overlooks_pure trivial
        · exact overlooks_runtimeFault _
  | _ => exact overlooks_refused _ _

theorem overlooks_run (fuel : Nat) (b : Builtin) {args : List Value}
    (held : ∀ v ∈ args, v.Avoids veil.names) :
    Overlooks veil (Value.Avoids veil.names) (run fuel b args) := by
  unfold run
  split
  · exact overlooks_addTo _ (held _ (by simp))
  · exact overlooks_findIn _ _
  · exact overlooks_rangeFrom fuel _ _
  · exact overlooks_countOf _
  · exact overlooks_keysOf _
  · exact overlooks_removeFrom _ _
  · exact overlooks_then (overlooks_textOf _) (fun _ => overlooks_pure trivial)
  · exact overlooks_toNumber _
  · exact overlooks_then (overlooks_typeOf _) (fun _ => overlooks_pure trivial)
  · exact overlooks_fault _

end Builtin

end Loom
