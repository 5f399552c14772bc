import Loom.Builtin
import Loom.Proofs.Unwinding

/-!
What operators and built-in functions tell. They carry out no statement, so a failure
of theirs has come out of none.
-/

namespace Loom

namespace Eval

variable {host : Host}

theorem tells_standing (left right : Value) : Tells host (standing left right) := by
  unfold standing
  split
  · exact tells_pure _
  · exact tells_pure _
  · exact tells_bind (tells_typeOf _) (fun _ => tells_refused _ _)

theorem tells_operands (op : BinaryOp) (left right : Value) :
    Tells host (operands op left right) := by
  apply tells_bind (tells_expectNumber _ _)
  intro a
  exact tells_bind (tells_expectNumber _ _) (fun b => tells_pure _)

/-- A quotient or a remainder, which a zero is refused for. -/
theorem tells_divided (b : Float) (cause : RuntimeFault) (x : Float) :
    Tells host (if b == 0 then runtimeFault cause else number x) := by
  split
  · exact tells_runtimeFault _
  · exact tells_number _

theorem tells_binary (op : BinaryOp) (left right : Value) : Tells host (binary op left right) := by
  have compared : ∀ op, Tells host (compare op left right) := fun op =>
    tells_bind (tells_standing left right) (fun _ => tells_pure _)
  have truth : ∀ (v : Value) (f : Bool → Value),
      Tells host (do pure (f (← truthy v))) := fun v f =>
    tells_bind (tells_truthy v) (fun _ => tells_pure _)
  cases op with
  | add => exact tells_bind (tells_operands _ _ _) (fun _ => tells_number _)
  | subtract => exact tells_bind (tells_operands _ _ _) (fun _ => tells_number _)
  | multiply => exact tells_bind (tells_operands _ _ _) (fun _ => tells_number _)
  | divide => exact tells_bind (tells_operands _ _ _) (fun _ => tells_divided _ _ _)
  | remainder => exact tells_bind (tells_operands _ _ _) (fun _ => tells_divided _ _ _)
  | equal => exact tells_bind (tells_equal _ _) (fun _ => tells_pure _)
  | notEqual => exact tells_bind (tells_equal _ _) (fun _ => tells_pure _)
  | and =>
      apply tells_bind (tells_truthy left)
      intro a
      cases a with
      | true => exact truth right .bool
      | false => exact tells_pure _
  | or =>
      apply tells_bind (tells_truthy left)
      intro a
      cases a with
      | true => exact tells_pure _
      | false => exact truth right .bool
  | xor =>
      apply tells_bind (tells_truthy left)
      intro a
      exact truth right (fun b => .bool (a != b))
  | concat =>
      apply tells_bind (tells_textOf left)
      intro s
      exact tells_bind (tells_textOf right) (fun t => tells_pure _)
  | _ => exact compared _

theorem tells_negate (operand : Value) : Tells host (negate operand) :=
  tells_bind (tells_expectNumber _ _) (fun _ => tells_number _)

theorem tells_readField (object : Value) (name : Text) : Tells host (readField object name) := by
  unfold readField
  split
  · exact tells_entry _ _
  · exact tells_refused _ _

theorem tells_readIndex (object position : Value) : Tells host (readIndex object position) := by
  unfold readIndex
  split
  · apply tells_bind (tells_expectNumber _ _)
    intro x
    apply tells_bind (tells_array _)
    intro slots
    split
    · split <;> exact tells_pure _
    · exact tells_pure _
  · exact tells_bind (tells_textOf _) (fun key => tells_entry _ _)
  · apply tells_bind (tells_expectNumber _ _)
    intro x
    split <;> exact tells_pure _
  · exact tells_refused _ _

theorem tells_itemsOf (subject : Value) : Tells host (itemsOf subject) := by
  unfold itemsOf
  split
  · exact tells_bind (tells_array _) (fun _ => tells_pure _)
  · exact tells_bind (tells_hash _) (fun _ => tells_pure _)
  · exact tells_pure _
  · exact tells_refused _ _

end Eval

namespace Builtin

open Eval

variable {host : Host}

theorem tells_addTo (target item : Value) : Tells host (addTo target item) := by
  unfold addTo
  split
  · exact tells_bind (tells_modifyArray _ _) (fun _ => tells_pure _)
  · exact tells_refused _ _

theorem tells_anyEqual (item : Value) (slots : List Slot) : Tells host (anyEqual item slots) := by
  induction slots with
  | nil => exact tells_pure _
  | cons slot rest ih =>
      cases slot with
      | none => exact ih
      | some v =>
          apply tells_bind (tells_equal v item)
          intro found
          cases found with
          | true => exact tells_pure _
          | false => exact ih

theorem tells_findIn (collection item : Value) : Tells host (findIn collection item) := by
  unfold findIn
  split
  · apply tells_bind (tells_array _)
    intro slots
    exact tells_bind (tells_anyEqual item _) (fun _ => tells_pure _)
  · apply tells_bind (tells_textOf _)
    intro key
    exact tells_bind (tells_hash _) (fun _ => tells_pure _)
  · exact tells_bind (tells_textOf _) (fun _ => tells_pure _)
  · exact tells_refused _ _

theorem tells_countUp (last : Float) (fuel : Nat) (x : Float) (done : Array Slot) :
    Tells host (countUp last fuel x done) := by
  induction fuel generalizing x done with
  | zero => exact tells_outOfFuel
  | succ fuel ih =>
      unfold countUp
      split
      · exact ih _ _
      · exact tells_pure _

theorem tells_rangeFrom (fuel : Nat) (first last : Value) :
    Tells host (rangeFrom fuel first last) := by
  apply tells_bind (tells_expectNumber _ _)
  intro a
  apply tells_bind (tells_expectNumber _ _)
  intro b
  split
  · exact tells_bind (tells_countUp b fuel a #[]) (fun _ => tells_newArray _)
  · exact tells_typeFault _

theorem tells_countOf (v : Value) : Tells host (countOf v) := by
  unfold countOf
  split
  · exact tells_bind (tells_array _) (fun _ => tells_pure _)
  · exact tells_bind (tells_hash _) (fun _ => tells_pure _)
  · exact tells_pure _
  · exact tells_refused _ _

theorem tells_keysOf (v : Value) : Tells host (keysOf v) := by
  unfold keysOf
  split
  · exact tells_bind (tells_hash _) (fun _ => tells_newArray _)
  · exact tells_refused _ _

theorem tells_removeFrom (collection key : Value) : Tells host (removeFrom collection key) := by
  unfold removeFrom
  split
  · apply tells_bind (tells_expectNumber _ _)
    intro x
    apply tells_bind (tells_array _)
    intro slots
    split
    · split
      · exact tells_bind (tells_modifyArray _ _) (fun _ => tells_pure _)
      · exact tells_pure _
    · exact tells_pure _
  · apply tells_bind (tells_textOf _)
    intro name
    apply tells_bind (tells_entry _ _)
    intro v
    exact tells_bind (tells_modifyHash _ _) (fun _ => tells_pure _)
  · exact tells_refused _ _

theorem tells_toNumber (v : Value) : Tells host (toNumber v) := by
  unfold toNumber
  split
  · exact tells_pure _
  · exact tells_pure _
  · split
    · exact tells_runtimeFault _
    · split
      · exact tells_pure _
      · exact tells_runtimeFault _
  · exact tells_refused _ _

theorem tells_run (fuel : Nat) (b : Builtin) (args : List Value) :
    Tells host (b.run fuel args) := by
  unfold run
  split
  · exact tells_addTo _ _
  · exact tells_findIn _ _
  · exact tells_rangeFrom _ _ _
  · exact tells_countOf _
  · exact tells_keysOf _
  · exact tells_removeFrom _ _
  · exact tells_bind (tells_textOf _) (fun _ => tells_pure _)
  · exact tells_toNumber _
  · exact tells_bind (tells_typeOf _) (fun _ => tells_pure _)
  · exact tells_fault (fun _ => nofun)

end Builtin

end Loom
