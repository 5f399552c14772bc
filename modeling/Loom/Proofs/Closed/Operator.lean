import Loom.Builtin
import Loom.Proofs.Closed

/-!
What operators, reads and built-in functions do to a closed state: what they give was held
already, has been made by them, or refers to nothing.
-/

namespace Loom

namespace Eval

variable {heap : Heap}

/-- Slots that all hold what is on a heap. -/
abbrev SlotsWithin (heap : Heap) (slots : Array Slot) : Prop :=
  ∀ slot ∈ slots, slot.read.Within heap

theorem slots_push {slots : Array Slot} {v : Value} (held : SlotsWithin heap slots)
    (within : v.Within heap) : SlotsWithin heap (slots.push (some v)) := by
  intro slot member
  rcases Array.mem_push.mp member with old | rfl
  · exact held slot old
  · exact within

/-! Reading. -/

theorem stays_array (ref : Nat) : Stays SlotsWithin heap (array ref) :=
  stays_get fun _ _ closed =>
    stays_pure fun _ spans slot member => (closed.heap.slots ref slot member).after spans

theorem stays_entry (ref : Nat) (key : Text) : Stays Value.Within heap (entry ref key) := by
  refine stays_get fun s _ closed => stays_pure fun later spans => ?_
  cases found : s.heap.entry? ref key with
  | none => trivial
  | some v => exact (closed.entry? v found).after spans

theorem stays_lookup (scope : Nat) (name : Text) :
    Stays Value.Within heap (lookup scope name) := by
  refine stays_get fun s _ closed => ?_
  cases found : s.scopes.get? scope name with
  | none => exact stays_fault _
  | some v => exact stays_value (closed.cells.get? trivial scope name v found)

theorem stays_readField (object : Value) (name : Text) :
    Stays Value.Within heap (readField object name) := by
  cases object with
  | hash ref => exact stays_entry ref name
  | _ => exact stays_typeFault _ _

theorem stays_readIndex (object position : Value) :
    Stays Value.Within heap (readIndex object position) := by
  cases object with
  | array ref =>
      refine stays_after (still_expectNumber _ _) fun x _ _ =>
        stays_bind (stays_array ref) fun slots _ _ held => ?_
      split
      · split
        · exact stays_value (held _ (Array.getElem_mem _))
        · exact stays_value trivial
      · exact stays_value trivial
  | hash ref => exact stays_after (still_textOf position) fun key _ _ => stays_entry ref key
  | string t =>
      refine stays_after (still_expectNumber _ _) fun x _ _ => ?_
      split <;> exact stays_value trivial
  | _ => exact stays_typeFault _ _

/-- Texts are on every heap. -/
theorem within_texts (texts : List Text) : AllWithin heap (texts.map .string) := by
  intro v member
  obtain ⟨text, _, rfl⟩ := List.mem_map.mp member
  trivial

theorem stays_itemsOf (subject : Value) : Stays AllWithin heap (itemsOf subject) := by
  cases subject with
  | array ref =>
      refine stays_bind (stays_array ref) fun slots _ _ held =>
        stays_pure fun later spans v member => ?_
      obtain ⟨slot, there, rfl⟩ := List.mem_map.mp member
      exact (held slot (Array.mem_toList_iff.mp there)).after spans
  | hash ref =>
      exact stays_after (still_hash ref) fun table _ _ => stays_pure fun _ _ => within_texts _
  | string t => exact stays_pure fun _ _ => within_texts _
  | _ => exact stays_typeFault _ _

/-! Operators. -/

theorem stays_number (x : Float) : Stays Value.Within heap (number x) := by
  unfold number
  split
  · exact stays_then stays_stamp fun _ _ _ => stays_value trivial
  · exact stays_value trivial

theorem stays_unless (c : Bool) (cause : RuntimeFault) (x : Float) :
    Stays Value.Within heap (if c then runtimeFault cause else number x) := by
  cases c with
  | true => exact stays_fault _
  | false => exact stays_number x

theorem stays_arithmetic (op : BinaryOp) (left right : Value) {f : Float × Float → Eval Value}
    (result : ∀ pair later, Stays Value.Within later (f pair)) :
    Stays Value.Within heap (operands op left right >>= f) :=
  stays_after (still_operands op left right) fun pair later _ => result pair later

/-- A truth value that hangs on whether something counts as true. -/
theorem stays_truth (v : Value) (f : Bool → Bool) :
    Stays Value.Within heap (do pure (.bool (f (← truthy v)))) :=
  stays_after (still_truthy v) fun _ _ _ => stays_value trivial

theorem stays_binary (op : BinaryOp) (left right : Value) :
    Stays Value.Within heap (binary op left right) := by
  have compared : ∀ op, Stays Value.Within heap (compare op left right) := fun op =>
    stays_after (still_standing left right) fun _ _ _ => stays_value trivial
  cases op with
  | add => exact stays_arithmetic .add left right fun _ _ => stays_number _
  | subtract => exact stays_arithmetic .subtract left right fun _ _ => stays_number _
  | multiply => exact stays_arithmetic .multiply left right fun _ _ => stays_number _
  | divide =>
      exact stays_arithmetic .divide left right fun ⟨a, b⟩ _ => stays_unless (b == 0) _ (a / b)
  | remainder =>
      exact stays_arithmetic .remainder left right fun ⟨a, b⟩ _ => stays_unless (b == 0) _ _
  | less | lessEqual | greater | greaterEqual => exact compared _
  | equal | notEqual =>
      exact stays_after (still_equal left right) fun _ _ _ => stays_value trivial
  | and =>
      refine stays_after (still_truthy left) fun a _ _ => ?_
      cases a with
      | true => exact stays_truth right id
      | false => exact stays_value trivial
  | or =>
      refine stays_after (still_truthy left) fun a _ _ => ?_
      cases a with
      | true => exact stays_value trivial
      | false => exact stays_truth right id
  | xor => exact stays_after (still_truthy left) fun a _ _ => stays_truth right (a != ·)
  | concat =>
      exact stays_after (still_textOf left) fun _ _ _ =>
        stays_after (still_textOf right) fun _ _ _ => stays_value trivial

theorem stays_negate (operand : Value) : Stays Value.Within heap (negate operand) :=
  stays_after (still_expectNumber _ _) fun _ _ _ => stays_number _

end Eval

/-! Built-in functions. -/

namespace Builtin

open Eval

variable {heap : Heap}

theorem stays_addTo (target : Value) {item : Value} (within : item.Within heap) :
    Stays Value.Within heap (addTo target item) := by
  cases target with
  | array ref =>
      refine stays_then (stays_modifyArray fun s spans closed => ?_) fun _ _ _ =>
        stays_value trivial
      exact slots_push (closed.heap.slots ref) (within.after spans)
  | _ => exact stays_typeFault _ _

theorem still_anyEqual (item : Value) : ∀ slots : List Slot, Still (anyEqual item slots)
  | [] => still_pure _
  | none :: rest => still_anyEqual item rest
  | some v :: rest => by
      refine still_bind (still_equal v item) fun same => ?_
      cases same with
      | true => exact still_pure _
      | false => exact still_anyEqual item rest

theorem stays_findIn (collection item : Value) :
    Stays Value.Within heap (findIn collection item) := by
  cases collection with
  | array ref =>
      exact stays_after (still_array ref) fun slots _ _ =>
        stays_after (still_anyEqual item slots.toList) fun _ _ _ => stays_value trivial
  | hash ref =>
      exact stays_after (still_textOf item) fun _ _ _ =>
        stays_after (still_hash ref) fun _ _ _ => stays_value trivial
  | string t => exact stays_after (still_textOf item) fun _ _ _ => stays_value trivial
  | _ => exact stays_typeFault _ _

theorem stays_countUp (last : Float) (fuel : Nat) (x : Float) {slots : Array Slot}
    (held : SlotsWithin heap slots) : Stays SlotsWithin heap (countUp last fuel x slots) := by
  induction fuel generalizing x slots with
  | zero => exact stays_throw _
  | succ fuel ih =>
      unfold countUp
      split
      · exact ih (x + 1) (slots_push held trivial)
      · exact stays_pure fun _ spans slot member => (held slot member).after spans

theorem stays_rangeFrom (fuel : Nat) (first last : Value) :
    Stays Value.Within heap (rangeFrom fuel first last) := by
  refine stays_after (still_expectNumber _ _) fun a _ _ =>
    stays_after (still_expectNumber _ _) fun b later _ => ?_
  split
  · have none : SlotsWithin later #[] := fun slot member => absurd member (Array.not_mem_empty slot)
    exact stays_bind (stays_countUp b fuel a none) fun _ _ _ held => stays_newArray held
  · exact stays_fault _

theorem stays_countOf (v : Value) : Stays Value.Within heap (countOf v) := by
  cases v with
  | array ref => exact stays_after (still_array ref) fun _ _ _ => stays_value trivial
  | hash ref => exact stays_after (still_hash ref) fun _ _ _ => stays_value trivial
  | string t => exact stays_value trivial
  | _ => exact stays_typeFault _ _

theorem stays_keysOf (v : Value) : Stays Value.Within heap (keysOf v) := by
  cases v with
  | hash ref =>
      refine stays_after (still_hash ref) fun table _ _ => stays_newArray fun slot member => ?_
      obtain ⟨key, _, rfl⟩ := List.mem_map.mp (List.mem_toArray.mp member)
      trivial
  | _ => exact stays_typeFault _ _

/-- What is taken out was on the heap before. -/
theorem stays_removeFrom (collection key : Value) :
    Stays Value.Within heap (removeFrom collection key) := by
  cases collection with
  | array ref =>
      refine stays_after (still_expectNumber _ _) fun x _ _ =>
        stays_bind (stays_array ref) fun slots _ _ held => ?_
      split
      · split
        · refine stays_then (stays_modifyArray fun s _ closed => ?_) fun _ _ spans =>
            stays_value ((held _ (Array.getElem_mem _)).after spans)
          exact Heap.forall_eraseAt _ _ (closed.heap.slots ref)
        · exact stays_value trivial
      · exact stays_value trivial
  | hash ref =>
      refine stays_after (still_textOf key) fun name _ _ =>
        stays_bind (stays_entry ref name) fun v _ _ within => ?_
      refine stays_then (stays_modifyHash fun s _ closed => ?_) fun _ _ spans =>
        stays_value (within.after spans)
      exact Table.forall_erase name _ (closed.heap.entries ref)
  | _ => exact stays_typeFault _ _

theorem stays_toNumber (v : Value) : Stays Value.Within heap (toNumber v) := by
  cases v with
  | number x s => exact stays_value trivial
  | bool b => exact stays_value trivial
  | string t =>
      simp only [toNumber]
      split
      · exact stays_fault _
      · split
        · exact stays_value trivial
        · exact stays_fault _
  | _ => exact stays_typeFault _ _

theorem stays_run (fuel : Nat) (b : Builtin) {args : List Value} (within : AllWithin heap args) :
    Stays Value.Within heap (b.run fuel args) := by
  unfold run
  split
  · exact stays_addTo _ (within _ (.tail _ (.head _)))
  · exact stays_findIn _ _
  · exact stays_rangeFrom fuel _ _
  · exact stays_countOf _
  · exact stays_keysOf _
  · exact stays_removeFrom _ _
  · exact stays_after (still_textOf _) fun _ _ _ => stays_value trivial
  · exact stays_toNumber _
  · exact stays_after (still_typeOf _) fun _ _ _ => stays_value trivial
  · exact stays_fault _

end Builtin

end Loom
