import Loom.Builtin
import Loom.Proofs.Likeness.State

/-!
Operators and built-in functions agree on like values.
-/

namespace Loom

variable {l : Likeness}

namespace Eval

def Standing.plain : Standing → Standing
  | .numbers difference => .numbers (plainNumber difference)
  | .texts left right => .texts left right

theorem Standing.holds_plain {d d' : Standing} (same : d.plain = d'.plain) (op : BinaryOp) :
    d.holds op = d'.holds op := by
  cases d with
  | texts s t =>
      cases d' with
      | texts s' t' =>
          obtain ⟨rfl, rfl⟩ := Standing.texts.inj same
          rfl
      | numbers x' => cases same
  | numbers x =>
      cases d' with
      | texts s' t' => cases same
      | numbers x' =>
          have number : plainNumber x = plainNumber x' := Standing.numbers.inj same
          have zero : plainNumber 0 = plainNumber 0 := rfl
          cases op <;>
            simp only [Standing.holds, lt_iff_plain number zero, le_iff_plain number zero,
              GT.gt, GE.ge, lt_iff_plain zero number, le_iff_plain zero number]

section

variable {v v' w w' : Value} (left : Value.Like l v v') (right : Value.Like l w w')
include left right

theorem agree_standing :
    Agree l (l.Same Standing.plain) (standing v w) (standing v' w') := by
  have refused : Agree l (l.Same Standing.plain)
      (do typeFault (.compare (← typeOf v) (← typeOf w)))
      (do typeFault (.compare (← typeOf v') (← typeOf w'))) :=
    agree_then (agree_typeOf left) (fun _ => agree_refused right _ _)
  cases left with
  | number value stamp =>
      cases right with
      | number value' stamp' =>
          exact agree_pure (value.map₂ value' (fun x y => Standing.numbers (x - y))
            (fun first second => congrArg Standing.numbers (plain_sub first second)))
      | _ => exact refused
  | string s =>
      cases right with
      | string t => exact agree_pure (.refl _)
      | _ => exact refused
  | _ => exact refused

theorem agree_compare (op : BinaryOp) :
    Agree l (Value.Like l) (compare op v w) (compare op v' w') := by
  apply agree_bind (agree_standing left right)
  intro d d' same
  rw [Standing.holds_plain same.looks]
  exact agree_pure (.bool _)

/-- An operation on numbers of which the result is a value. -/
theorem agree_arithmetic (op : BinaryOp) {f : Float → Float → Eval Value}
    (step : ∀ a a' b b', l.Same plainNumber a a' → l.Same plainNumber b b' →
      Agree l (Value.Like l) (f a b) (f a' b')) :
    Agree l (Value.Like l) (do let (a, b) ← operands op v w; f a b)
      (do let (a, b) ← operands op v' w'; f a b) := by
  have given : Agree l (fun p q => l.Same plainNumber p.1 q.1 ∧ l.Same plainNumber p.2 q.2)
      (operands op v w) (operands op v' w') := by
    apply agree_bind (agree_expectNumber left _)
    intro a a' first
    apply agree_bind (agree_expectNumber right _)
    intro b b' second
    exact agree_pure ⟨first, second⟩
  apply agree_bind given
  rintro ⟨a, b⟩ ⟨a', b'⟩ ⟨first, second⟩
  exact step a a' b b' first second

omit left right in
/-- An operation that refuses to divide by zero. -/
theorem agree_dividing (cause : RuntimeFault) (f : Float → Float → Float) {a a' b b' : Float}
    (dividend : l.Same plainNumber a a') (divisor : l.Same plainNumber b b')
    (quotient : plainNumber a = plainNumber a' → plainNumber b = plainNumber b' →
      (b == 0) = false → plainNumber (f a b) = plainNumber (f a' b')) :
    Agree l (Value.Like l) (if b == 0 then runtimeFault cause else number (f a b))
      (if b' == 0 then runtimeFault cause else number (f a' b')) := by
  have zero : (b == 0) = (b' == 0) := beq_plain divisor.looks rfl
  rw [← zero]
  cases divides : b == 0 with
  | true => exact agree_runtimeFault (.refl _)
  | false =>
      exact agree_number (dividend.map₂ divisor f (fun first second =>
        quotient first second divides))

theorem agree_binary (op : BinaryOp) :
    Agree l (Value.Like l) (binary op v w) (binary op v' w') := by
  cases op with
  | add =>
      exact agree_arithmetic left right .add (fun _ _ _ _ first second =>
        agree_number (first.map₂ second (· + ·) plain_add))
  | subtract =>
      exact agree_arithmetic left right .subtract (fun _ _ _ _ first second =>
        agree_number (first.map₂ second (· - ·) plain_sub))
  | multiply =>
      exact agree_arithmetic left right .multiply (fun _ _ _ _ first second =>
        agree_number (first.map₂ second (· * ·) plain_mul))
  | divide =>
      exact agree_arithmetic left right .divide (fun _ _ _ _ first second =>
        agree_dividing .divisionByZero (· / ·) first second plain_div)
  | remainder =>
      exact agree_arithmetic left right .remainder (fun _ _ _ _ first second =>
        agree_dividing .moduloByZero remainderOf first second plain_remainderOf)
  | less => exact agree_compare left right .less
  | lessEqual => exact agree_compare left right .lessEqual
  | greater => exact agree_compare left right .greater
  | greaterEqual => exact agree_compare left right .greaterEqual
  | equal => exact agree_then (agree_equal left right) (fun _ => agree_pure (.bool _))
  | notEqual => exact agree_then (agree_equal left right) (fun _ => agree_pure (.bool _))
  | and =>
      apply agree_then (agree_truthy left)
      intro a
      cases a with
      | true => exact agree_then (agree_truthy right) (fun _ => agree_pure (.bool _))
      | false => exact agree_pure (.bool _)
  | or =>
      apply agree_then (agree_truthy left)
      intro a
      cases a with
      | true => exact agree_pure (.bool _)
      | false => exact agree_then (agree_truthy right) (fun _ => agree_pure (.bool _))
  | xor =>
      apply agree_then (agree_truthy left)
      intro a
      exact agree_then (agree_truthy right) (fun _ => agree_pure (.bool _))
  | concat =>
      apply agree_then (agree_textOf left)
      intro a
      exact agree_then (agree_textOf right) (fun _ => agree_pure (.string _))

omit right in
theorem agree_negate : Agree l (Value.Like l) (negate v) (negate v') := by
  apply agree_bind (agree_expectNumber left _)
  intro x x' same
  exact agree_number (same.map (-·) plain_neg)

omit right in
theorem agree_readField (name : Text) :
    Agree l (Value.Like l) (readField v name) (readField v' name) := by
  have same := left
  cases left with
  | hash ref => exact agree_entry ref name
  | _ => exact agree_refused same _ _

theorem agree_readIndex : Agree l (Value.Like l) (readIndex v w) (readIndex v' w') := by
  have same := left
  cases left with
  | array ref =>
      apply agree_bind (agree_expectNumber right _)
      intro x x' number
      apply agree_bind (agree_array ref)
      intro slots slots' elements
      rw [indexOf?_plain number.looks]
      have size := elements.size_eq
      cases indexOf? x' with
      | none => exact agree_pure .null
      | some i =>
          by_cases inside : i < slots.size
          · have inside' : i < slots'.size := size ▸ inside
            simp only [inside, inside', dif_pos]
            exact agree_pure (elements.getElem i inside inside').read
          · have outside : ¬ i < slots'.size := size ▸ inside
            simp only [inside, outside, dif_neg, not_false_eq_true]
            exact agree_pure .null
  | hash ref => exact agree_then (agree_textOf right) (fun key => agree_entry ref key)
  | string t =>
      apply agree_bind (agree_expectNumber right _)
      intro x x' number
      rw [indexOf?_plain number.looks]
      split
      · exact agree_pure (.string _)
      · exact agree_pure .null
  | _ => exact agree_refused same _ _

omit left right in
theorem texts_like (texts : List Text) :
    List.Forall₂ (Value.Like l) (texts.map .string) (texts.map .string) := by
  induction texts with
  | nil => exact .nil
  | cons t _ ih => exact .cons (.string t) ih

omit right in
theorem agree_itemsOf : Agree l (List.Forall₂ (Value.Like l)) (itemsOf v) (itemsOf v') := by
  have same := left
  cases left with
  | array ref =>
      apply agree_bind (agree_array ref)
      intro slots slots' elements
      exact agree_pure (List.forall₂_map_left_iff.mpr (List.forall₂_map_right_iff.mpr
        (elements.imp (fun _ _ like => like.read))))
  | hash ref =>
      apply agree_bind (agree_hash ref)
      intro table table' entries
      rw [entries.keys_eq]
      exact agree_pure (texts_like _)
  | string t => exact agree_pure (texts_like _)
  | _ => exact agree_refused same _ _

end

end Eval

namespace Builtin

open Eval

theorem agree_anyEqual {item item' : Value} (same : Value.Like l item item')
    {slots slots' : List Slot} (elements : List.Forall₂ (Slot.Like l) slots slots') :
    Agree l Eq (anyEqual item slots) (anyEqual item' slots') := by
  induction elements with
  | nil => exact agree_pure rfl
  | cons first _ ih =>
      cases first with
      | none => exact ih
      | some like =>
          apply agree_then (agree_equal like same)
          intro found
          cases found with
          | true => exact agree_pure rfl
          | false => exact ih

/-- Counting up comes to as many numbers, by induction on the fuel. -/
theorem agree_countUp {last last' : Float} (bound : l.Same plainNumber last last') (fuel : Nat)
    {x x' : Float} (start : l.Same plainNumber x x') {done done' : Array Slot}
    (sofar : Slot.AllLike l done done') :
    Agree l (Slot.AllLike l) (countUp last fuel x done) (countUp last' fuel x' done') := by
  induction fuel generalizing x x' done done' with
  | zero => exact agree_outOfFuel
  | succ fuel ih =>
      have goes : x ≤ last ↔ x' ≤ last' := le_iff_plain start.looks bound.looks
      unfold countUp
      simp only [goes]
      split
      · exact ih (start.map (· + 1) (fun same => plain_add same rfl)) (sofar.push start.ofFloat)
      · exact agree_pure sofar

section

variable {v v' w w' : Value} (left : Value.Like l v v') (right : Value.Like l w w')
include left right

theorem agree_addTo : Agree l (Value.Like l) (addTo v w) (addTo v' w') := by
  have same := left
  cases left with
  | array ref =>
      have pushed := agree_modifyArray ref (fun _ _ slots => slots.push right)
      exact agree_then pushed (fun _ => agree_pure .null)
  | _ => exact agree_refused same _ _

theorem agree_findIn : Agree l (Value.Like l) (findIn v w) (findIn v' w') := by
  have same := left
  cases left with
  | array ref =>
      apply agree_bind (agree_array ref)
      intro slots slots' elements
      exact agree_then (agree_anyEqual right elements) (fun _ => agree_pure (.bool _))
  | hash ref =>
      apply agree_then (agree_textOf right)
      intro key
      apply agree_bind (agree_hash ref)
      intro table table' entries
      rw [entries.has_eq]
      exact agree_pure (.bool _)
  | string t => exact agree_then (agree_textOf right) (fun _ => agree_pure (.bool _))
  | _ => exact agree_refused same _ _

theorem agree_rangeFrom (fuel : Nat) :
    Agree l (Value.Like l) (rangeFrom fuel v w) (rangeFrom fuel v' w') := by
  apply agree_bind (agree_expectNumber left _)
  intro a a' first
  apply agree_bind (agree_expectNumber right _)
  intro b b' last
  rw [wholeOf?_plain first.looks, wholeOf?_plain last.looks]
  split
  · exact agree_bind (agree_countUp last fuel first .nil) (fun _ _ same => agree_newArray same)
  · exact agree_typeFault (first.map₂ last TypeFault.fractionalBounds
      (fun first last => congrArg₂ TypeFault.fractionalBounds first last))

theorem agree_removeFrom : Agree l (Value.Like l) (removeFrom v w) (removeFrom v' w') := by
  have same := left
  cases left with
  | array ref =>
      apply agree_bind (agree_expectNumber right _)
      intro x x' number
      apply agree_bind (agree_array ref)
      intro slots slots' elements
      rw [indexOf?_plain number.looks]
      have size := elements.size_eq
      cases indexOf? x' with
      | none => exact agree_pure .null
      | some i =>
          by_cases inside : i < slots.size
          · have inside' : i < slots'.size := size ▸ inside
            have erased := agree_modifyArray (l := l) ref (fun _ _ slots => slots.eraseIdx i)
            simp only [inside, inside', dif_pos]
            exact agree_then erased (fun _ =>
              agree_pure (elements.getElem i inside inside').read)
          · have outside : ¬ i < slots'.size := size ▸ inside
            simp only [inside, outside, dif_neg, not_false_eq_true]
            exact agree_pure .null
  | hash ref =>
      apply agree_then (agree_textOf right)
      intro name
      apply agree_bind (agree_entry ref name)
      intro entry entry' like
      have erased := agree_modifyHash (l := l) ref (fun _ _ entries => entries.erase name)
      exact agree_then erased (fun _ => agree_pure like)
  | _ => exact agree_refused same _ _

omit right

theorem agree_countOf : Agree l (Value.Like l) (countOf v) (countOf v') := by
  have same := left
  cases left with
  | array ref =>
      apply agree_bind (agree_array ref)
      intro slots slots' elements
      rw [elements.size_eq]
      exact agree_pure (Value.like_ofFloat _)
  | hash ref =>
      apply agree_bind (agree_hash ref)
      intro table table' entries
      rw [entries.length_eq]
      exact agree_pure (Value.like_ofFloat _)
  | string t => exact agree_pure (Value.like_ofFloat _)
  | _ => exact agree_refused same _ _

theorem agree_keysOf : Agree l (Value.Like l) (keysOf v) (keysOf v') := by
  have same := left
  cases left with
  | hash ref =>
      apply agree_bind (agree_hash ref)
      intro table table' entries
      rw [entries.keys_eq]
      have keys := Slot.all_like_of_values (texts_like (l := l) (Table.keys table'))
      simp only [List.map_map] at keys
      exact agree_newArray keys
  | _ => exact agree_refused same _ _

theorem agree_toNumber : Agree l (Value.Like l) (toNumber v) (toNumber v') := by
  have same := left
  cases left with
  | number value stamp => exact agree_pure (.number value stamp)
  | bool b => exact agree_pure (Value.like_ofFloat _)
  | string t =>
      simp only [toNumber]
      split
      · exact agree_runtimeFault (.refl _)
      · split
        · exact agree_pure (Value.like_ofFloat _)
        · exact agree_runtimeFault (.refl _)
  | _ => exact agree_refused same _ _

end

theorem run_of_wrong_length (fuel : Nat) (b : Builtin) (args : List Value)
    (wrong : args.length ≠ b.arity) :
    run fuel b args = fault (.arity b.name b.arity args.length) := by
  unfold run
  split <;> first | rfl | exact absurd rfl wrong

theorem agree_run (fuel : Nat) (b : Builtin) {args args' : List Value}
    (same : List.Forall₂ (Value.Like l) args args') :
    Agree l (Value.Like l) (run fuel b args) (run fuel b args') := by
  have length := same.length_eq
  by_cases right : args.length = b.arity
  · have one : b.arity = 1 → ∃ v v', args = [v] ∧ args' = [v'] ∧ Value.Like l v v' := by
      intro arity
      obtain ⟨v, rfl⟩ := List.length_eq_one_iff.mp (right.trans arity)
      cases same with
      | cons first rest =>
          cases rest
          exact ⟨v, _, rfl, rfl, first⟩
    have two : b.arity = 2 → ∃ v v' w w', args = [v, w] ∧ args' = [v', w'] ∧
        Value.Like l v v' ∧ Value.Like l w w' := by
      intro arity
      obtain ⟨v, w, rfl⟩ := List.length_eq_two.mp (right.trans arity)
      cases same with
      | cons first rest =>
          cases rest with
          | cons second rest =>
              cases rest
              exact ⟨v, _, w, _, rfl, rfl, first, second⟩
    cases b with
    | add =>
        obtain ⟨v, v', w, w', rfl, rfl, first, second⟩ := two rfl
        exact agree_addTo first second
    | find =>
        obtain ⟨v, v', w, w', rfl, rfl, first, second⟩ := two rfl
        exact agree_findIn first second
    | rangeArray =>
        obtain ⟨v, v', w, w', rfl, rfl, first, second⟩ := two rfl
        exact agree_rangeFrom first second fuel
    | remove =>
        obtain ⟨v, v', w, w', rfl, rfl, first, second⟩ := two rfl
        exact agree_removeFrom first second
    | count =>
        obtain ⟨v, v', rfl, rfl, first⟩ := one rfl
        exact agree_countOf first
    | keys =>
        obtain ⟨v, v', rfl, rfl, first⟩ := one rfl
        exact agree_keysOf first
    | str =>
        obtain ⟨v, v', rfl, rfl, first⟩ := one rfl
        exact agree_then (agree_textOf first) (fun _ => agree_pure (.string _))
    | num =>
        obtain ⟨v, v', rfl, rfl, first⟩ := one rfl
        exact agree_toNumber first
    | type =>
        obtain ⟨v, v', rfl, rfl, first⟩ := one rfl
        exact agree_then (agree_typeOf first) (fun _ => agree_pure (.string _))
  · rw [run_of_wrong_length fuel b args right, run_of_wrong_length fuel b args' (length ▸ right),
      length]
    exact agree_fault (.refl _)

end Builtin

end Loom
