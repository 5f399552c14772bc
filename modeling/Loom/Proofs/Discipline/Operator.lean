import Loom.Builtin
import Loom.Proofs.Discipline.Step

/-!
What is ensured of operators, of access to fields and elements, and of the
built-in functions. An operator leaves the heap as it was, which a compound
assignment to an element relies on.
-/

namespace Loom

namespace Discipline

open Eval

variable {d : Discipline} {base : Nat} {s : State}

/-! Operators. -/

theorem ensures_data {v : Value} (plain : v.isData = true) :
    Ensures d base s (pure v) (Result d s) :=
  ensures_pure ⟨d.data plain, rfl⟩

theorem ensures_standing {left right : Value} (first : d.Fine s left) (second : d.Fine s right) :
    Ensures d base s (standing left right) (Still s fun _ => True) := by
  unfold standing
  split
  · exact ensures_pure ⟨rfl, trivial⟩
  · exact ensures_pure ⟨rfl, trivial⟩
  · apply ensures_still (ensures_typeOf first)
    intro l _ _
    exact ensures_typeFaultOf second

theorem ensures_compare {op : BinaryOp} {left right : Value} (first : d.Fine s left)
    (second : d.Fine s right) : Ensures d base s (compare op left right) (Result d s) := by
  apply ensures_still (ensures_standing first second)
  intro standing _ _
  exact ensures_data rfl

theorem ensures_operands {op : BinaryOp} {left right : Value} (first : d.Fine s left)
    (second : d.Fine s right) :
    Ensures d base s (operands op left right) (Still s fun _ => True) := by
  apply ensures_still (ensures_expectNumber first)
  intro a _ _
  apply ensures_still (ensures_expectNumber second)
  intro b _ _
  exact ensures_pure ⟨rfl, trivial⟩

theorem ensures_arithmetic {op : BinaryOp} {left right : Value} {f : Float × Float → Eval Value}
    (first : d.Fine s left) (second : d.Fine s right)
    (result : ∀ pair, Ensures d base s (f pair) (Result d s)) :
    Ensures d base s (operands op left right >>= f) (Result d s) := by
  apply ensures_still (ensures_operands first second)
  intro pair _ _
  exact result pair

theorem ensures_divided {x y : Float} {cause : RuntimeFault}
    (inside : ¬ (Fault.runtime cause).IsExit) :
    Ensures d base s (if y == 0 then runtimeFault cause else number x) (Result d s) := by
  split
  · exact ensures_fault inside
  · exact ensures_number x

theorem ensures_truth {v : Value} {f : Bool → Eval Value} {good : State → Value → Prop}
    (fine : d.Fine s v) (result : ∀ b, Ensures d base s (f b) good) :
    Ensures d base s (truthy v >>= f) good := by
  apply ensures_still (ensures_truthy fine)
  intro b _ _
  exact result b

theorem ensures_binary (op : BinaryOp) {left right : Value} (first : d.Fine s left)
    (second : d.Fine s right) : Ensures d base s (binary op left right) (Result d s) := by
  have compared : Ensures d base s (compare op left right) (Result d s) :=
    ensures_compare first second
  have truth : ∀ f : Bool → Value, (∀ b, (f b).isData = true) →
      Ensures d base s (do pure (f (← truthy right))) (Result d s) :=
    fun f plain => ensures_truth second (fun b => ensures_data (plain b))
  cases op with
  | add => exact ensures_arithmetic first second (fun _ => ensures_number _)
  | subtract => exact ensures_arithmetic first second (fun _ => ensures_number _)
  | multiply => exact ensures_arithmetic first second (fun _ => ensures_number _)
  | divide =>
      exact ensures_arithmetic first second (fun _ => ensures_divided (by simp [Fault.IsExit]))
  | remainder =>
      exact ensures_arithmetic first second (fun _ => ensures_divided (by simp [Fault.IsExit]))
  | less => exact compared
  | lessEqual => exact compared
  | greater => exact compared
  | greaterEqual => exact compared
  | equal =>
      apply ensures_still (ensures_equal first second)
      intro b _ _
      exact ensures_data rfl
  | notEqual =>
      apply ensures_still (ensures_equal first second)
      intro b _ _
      exact ensures_data rfl
  | and =>
      apply ensures_truth first
      intro a
      cases a with
      | true => exact truth .bool (fun _ => rfl)
      | false => exact ensures_data rfl
  | or =>
      apply ensures_truth first
      intro a
      cases a with
      | true => exact ensures_data rfl
      | false => exact truth .bool (fun _ => rfl)
  | xor => exact ensures_truth first (fun a => truth (fun b => .bool (a != b)) (fun _ => rfl))
  | concat =>
      apply ensures_still (ensures_textOf first)
      intro a _ _
      apply ensures_still (ensures_textOf second)
      intro b _ _
      exact ensures_data rfl

theorem ensures_negate {operand : Value} (fine : d.Fine s operand) :
    Ensures d base s (negate operand) d.Fine := by
  apply ensures_bind (ensures_expectNumber fine)
  intro x t _ _ still
  exact ensures_of_imp (ensures_number _) (fun _ _ result => result.1)

/-! Fields and elements. -/

theorem ensures_readField {object : Value} {name : Text} (fine : d.Fine s object) :
    Ensures d base s (readField object name) d.Fine := by
  unfold readField
  split
  · exact ensures_fine (ensures_entry _ name)
  · exact ensures_typeFaultOf fine

theorem fine_of_slot (ready : d.Ready base s) (ref i : Nat) (inside : i < (s.heap.array ref).size) :
    d.Fine s (s.heap.array ref)[i].read :=
  ready.held.heap.slots ref _ (Array.getElem_mem inside)

theorem ensures_readIndex {object position : Value} (first : d.Fine s object)
    (second : d.Fine s position) : Ensures d base s (readIndex object position) d.Fine := by
  -- an array, a hash, a string, and anything else
  unfold readIndex
  split
  · apply ensures_still (ensures_expectNumber second)
    intro x _ _
    apply ensures_still (ensures_array _)
    rintro slots ready rfl
    split
    · split
      · rename_i i _ inside
        exact ensures_pure (fine_of_slot ready _ i inside)
      · exact ensures_pure (d.data rfl)
    · exact ensures_pure (d.data rfl)
  · apply ensures_still (ensures_textOf second)
    intro key _ _
    exact ensures_fine (ensures_entry _ key)
  · apply ensures_still (ensures_expectNumber second)
    intro x _ _
    split
    · exact ensures_pure (d.data rfl)
    · exact ensures_pure (d.data rfl)
  · exact ensures_typeFaultOf first

theorem ensures_itemsOf {subject : Value} (fine : d.Fine s subject) :
    Ensures d base s (itemsOf subject) (fun t items => ∀ v ∈ items, d.Fine t v) := by
  unfold itemsOf
  split
  · apply ensures_still (ensures_array _)
    rintro slots ready rfl
    apply ensures_pure
    -- a slot that holds nothing is gone through as well
    intro v member
    obtain ⟨slot, here, same⟩ := List.mem_map.mp member
    rw [← same]
    exact ready.held.heap.slots _ slot (by simpa using here)
  · apply ensures_bind (ensures_hash _)
    intro entries t _ _ still
    apply ensures_pure
    intro v member
    obtain ⟨key, _, rfl⟩ := List.mem_map.mp member
    exact d.data rfl
  · apply ensures_pure
    intro v member
    obtain ⟨c, _, rfl⟩ := List.mem_map.mp member
    exact d.data rfl
  · exact ensures_typeFaultOf fine

/-! Built-in functions. -/

theorem ensures_addTo {target item : Value} (first : d.Fine s target) (second : d.Fine s item) :
    Ensures d base s (Builtin.addTo target item) d.Fine := by
  unfold Builtin.addTo
  split
  · rename_i ref
    intro ready
    have held : ∀ slot ∈ (s.heap.array ref).push (some item), d.Fine s slot.read := by
      intro slot member
      rcases Array.mem_push.mp member with old | same
      · exact ready.held.heap.slots ref slot old
      · rw [same]
        exact second
    exact ensures_then (ensures_modifyArray held) (fun _ _ _ _ => ensures_pure (d.data rfl)) ready
  · exact ensures_typeFaultOf first

theorem ensures_anyEqual {item : Value} (fine : d.Fine s item) (slots : List Slot)
    (held : ∀ slot ∈ slots, d.Fine s slot.read) :
    Ensures d base s (Builtin.anyEqual item slots) (Still s fun _ => True) := by
  induction slots with
  | nil => exact ensures_pure ⟨rfl, trivial⟩
  | cons slot rest ih =>
      have others := ih (fun slot member => held slot (.tail _ member))
      cases slot with
      | none => exact others
      | some v =>
          apply ensures_still (ensures_equal (held _ (.head _)) fine)
          intro b _ _
          cases b with
          | true => exact ensures_pure ⟨rfl, trivial⟩
          | false => exact others

theorem ensures_findIn {collection item : Value} (first : d.Fine s collection)
    (second : d.Fine s item) : Ensures d base s (Builtin.findIn collection item) d.Fine := by
  unfold Builtin.findIn
  split
  · rename_i ref
    apply ensures_still (ensures_array ref)
    rintro slots ready rfl
    have held : ∀ slot ∈ (s.heap.array ref).toList, d.Fine s slot.read :=
      fun slot member => ready.held.heap.slots ref slot (by simpa using member)
    exact ensures_still (ensures_anyEqual second _ held) (fun _ _ _ => ensures_pure (d.data rfl))
  · apply ensures_bind (ensures_textOf second)
    intro key t _ _ _
    exact ensures_bind (ensures_hash _) (fun _ _ _ _ _ => ensures_pure (d.data rfl))
  · exact ensures_bind (ensures_textOf second) (fun _ _ _ _ _ => ensures_pure (d.data rfl))
  · exact ensures_typeFaultOf first

theorem ensures_countUp (last : Float) (fuel : Nat) (x : Float) (done : Array Slot)
    (held : ∀ slot ∈ done, d.Fine s slot.read) :
    Ensures d base s (Builtin.countUp last fuel x done)
      (fun t slots => ∀ slot ∈ slots, d.Fine t slot.read) := by
  induction fuel generalizing x done with
  | zero => exact ensures_outOfFuel
  | succ fuel ih =>
      unfold Builtin.countUp
      split
      · apply ih
        intro slot member
        rcases Array.mem_push.mp member with old | same
        · exact held slot old
        · rw [same]
          exact d.data rfl
      · exact ensures_pure held

theorem ensures_rangeFrom (fuel : Nat) {first last : Value} (left : d.Fine s first)
    (right : d.Fine s last) : Ensures d base s (Builtin.rangeFrom fuel first last) d.Fine := by
  apply ensures_still (ensures_expectNumber left)
  intro a _ _
  apply ensures_still (ensures_expectNumber right)
  intro b _ _
  split
  · apply ensures_bind (ensures_countUp b fuel a #[] (by simp))
    intro slots t _ _ held
    exact ensures_newArray held
  · exact ensures_typeFault

theorem ensures_countOf {v : Value} (fine : d.Fine s v) :
    Ensures d base s (Builtin.countOf v) d.Fine := by
  unfold Builtin.countOf
  split
  · exact ensures_bind (ensures_array _) (fun _ _ _ _ _ => ensures_pure (d.data rfl))
  · exact ensures_bind (ensures_hash _) (fun _ _ _ _ _ => ensures_pure (d.data rfl))
  · exact ensures_pure (d.data rfl)
  · exact ensures_typeFaultOf fine

theorem ensures_keysOf {v : Value} (fine : d.Fine s v) :
    Ensures d base s (Builtin.keysOf v) d.Fine := by
  unfold Builtin.keysOf
  split
  · apply ensures_bind (ensures_hash _)
    intro table t _ _ _
    apply ensures_newArray
    intro slot member
    simp only [List.mem_toArray, List.mem_map] at member
    obtain ⟨key, _, rfl⟩ := member
    exact d.data rfl
  · exact ensures_typeFaultOf fine

theorem ensures_removeFrom {collection key : Value} (first : d.Fine s collection)
    (second : d.Fine s key) : Ensures d base s (Builtin.removeFrom collection key) d.Fine := by
  unfold Builtin.removeFrom
  split
  · rename_i ref
    apply ensures_still (ensures_expectNumber second)
    intro x _ _
    apply ensures_still (ensures_array ref)
    rintro slots ready rfl
    split
    · split
      · rename_i i _ inside
        -- what is taken out was about before, and what stays was too
        have removed := fine_of_slot ready ref i inside
        have others := Heap.forall_eraseAt _ i (ready.held.heap.slots ref)
        exact ensures_then (ensures_modifyArray others)
          (fun _ _ effect _ => ensures_pure (removed.after effect))
      · exact ensures_pure (d.data rfl)
    · exact ensures_pure (d.data rfl)
  · rename_i ref
    apply ensures_still (ensures_textOf second)
    intro name _ _
    apply ensures_still (ensures_entry ref name)
    intro v ready fine
    have others := Table.forall_erase name _ (ready.held.heap.entries ref)
    exact ensures_then (ensures_modifyHash others)
      (fun _ _ effect _ => ensures_pure (Fine.after effect fine))
  · exact ensures_typeFaultOf first

theorem ensures_toNumber {v : Value} (fine : d.Fine s v) :
    Ensures d base s (Builtin.toNumber v) d.Fine := by
  unfold Builtin.toNumber
  split
  · exact ensures_pure (d.data rfl)
  · exact ensures_pure (d.data rfl)
  · split
    · exact ensures_fault (by simp [Fault.IsExit])
    · split
      · exact ensures_pure (d.data rfl)
      · exact ensures_fault (by simp [Fault.IsExit])
  · exact ensures_typeFaultOf fine

theorem ensures_builtin (fuel : Nat) (b : Builtin) (args : List Value)
    (fine : ∀ v ∈ args, d.Fine s v) : Ensures d base s (b.run fuel args) d.Fine := by
  unfold Builtin.run
  split
  · exact ensures_addTo (fine _ (by simp)) (fine _ (by simp))
  · exact ensures_findIn (fine _ (by simp)) (fine _ (by simp))
  · exact ensures_rangeFrom fuel (fine _ (by simp)) (fine _ (by simp))
  · exact ensures_countOf (fine _ (by simp))
  · exact ensures_keysOf (fine _ (by simp))
  · exact ensures_removeFrom (fine _ (by simp)) (fine _ (by simp))
  · exact ensures_bind (ensures_textOf (fine _ (by simp)))
      (fun _ _ _ _ _ => ensures_pure (d.data rfl))
  · exact ensures_toNumber (fine _ (by simp))
  · exact ensures_bind (ensures_typeOf (fine _ (by simp)))
      (fun _ _ _ _ _ => ensures_pure (d.data rfl))
  · exact ensures_fault (by simp [Fault.IsExit])

end Discipline

end Loom
