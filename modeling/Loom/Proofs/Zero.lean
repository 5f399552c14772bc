import Loom.Proofs.Double

/-!
Zero and its sign. No operation of programs tells the two zeros apart: whatever
is done with one of them comes to the same, but for the sign of a zero, when it is
done with the other.
-/

namespace Loom

/-- A double of which zero has lost its sign. -/
def plainNumber (x : Float) : Float := if x == 0 then 0 else x

theorem plainNumber_plainNumber (x : Float) : plainNumber (plainNumber x) = plainNumber x := by
  by_cases zero : (x == 0) = true
  · simp only [plainNumber, zero, if_true]
    decide
  · simp only [plainNumber, zero, Bool.false_eq_true, if_false]

namespace Double

open Float.Model
open Float.Model.UnpackedFloat

/-- Parts that are the same but for the sign of zero. -/
inductive Like : UnpackedFloat → UnpackedFloat → Prop
  | same (u : UnpackedFloat) : Like u u
  | zeros (s t : Sign) : Like (.zero s) (.zero t)

theorem like_trans {u v w : UnpackedFloat} (first : Like u v) (second : Like v w) : Like u w := by
  cases first with
  | same => exact second
  | zeros s t =>
      cases second with
      | same => exact .zeros s t
      | zeros t r => exact .zeros s r

theorem like_of_isZero {u v : UnpackedFloat} (zero : IsZero u) (zero' : IsZero v) : Like u v := by
  obtain ⟨s, rfl⟩ := exists_of_isZero zero
  obtain ⟨t, rfl⟩ := exists_of_isZero zero'
  exact .zeros s t

theorem like_of_plain {x y : Float} (same : plainNumber x = plainNumber y) :
    Like (parts x) (parts y) := by
  unfold plainNumber at same
  have nought : (0 : Float) == 0 := by decide
  split at same
  · rename_i zero
    split at same
    · rename_i zero'
      exact like_of_isZero ((beq_zero_iff x).mp zero) ((beq_zero_iff y).mp zero')
    · rename_i other
      exact absurd (same ▸ nought) other
  · rename_i other
    split at same
    · exact absurd (same ▸ nought) other
    · rw [same]
      exact .same _

theorem plain_zero (s : Sign) : plainNumber (packed (.zero s)) = 0 := by
  cases s with
  | negative => decide
  | positive => decide

theorem plain_packed {u v : UnpackedFloat} (like : Like u v) :
    plainNumber (packed u) = plainNumber (packed v) := by
  cases like with
  | same => rfl
  | zeros s t => rw [plain_zero, plain_zero]

/-- An operation on parts for which the sign of a zero only matters for that of a zero. -/
def Blind (op : UnpackedFloat → UnpackedFloat → UnpackedFloat) : Prop :=
  ∀ s t u, Like (op (.zero s) u) (op (.zero t) u) ∧ Like (op u (.zero s)) (op u (.zero t))

theorem like_op {op : UnpackedFloat → UnpackedFloat → UnpackedFloat} (blind : Blind op)
    {u u' v v' : UnpackedFloat} (left : Like u u') (right : Like v v') :
    Like (op u v) (op u' v') := by
  have first : Like (op u v) (op u' v) := by
    cases left with
    | same => exact .same _
    | zeros s t => exact (blind s t v).1
  have second : Like (op u' v) (op u' v') := by
    cases right with
    | same => exact .same _
    | zeros s t => exact (blind s t u').2
  exact like_trans first second

theorem blind_add : Blind (UnpackedFloat.add .binary64) := by
  intro s t u
  cases u with
  | zero r => cases r <;> cases s <;> cases t <;> exact ⟨.zeros _ _, .zeros _ _⟩
  | _ => exact ⟨.same _, .same _⟩

theorem blind_sub : Blind (UnpackedFloat.sub .binary64) := by
  intro s t u
  cases u with
  | zero r => cases r <;> cases s <;> cases t <;> exact ⟨.zeros _ _, .zeros _ _⟩
  | _ => exact ⟨.same _, .same _⟩

theorem blind_mul : Blind (UnpackedFloat.mul .binary64) := by
  intro s t u
  cases u with
  | zero r => exact ⟨.zeros _ _, .zeros _ _⟩
  | finite r m e pos => exact ⟨.zeros _ _, .zeros _ _⟩
  | infinity r => exact ⟨.same _, .same _⟩
  | notANumber => exact ⟨.same _, .same _⟩

/-- The quotient by a zero would show which one it was. -/
theorem like_div {u u' v : UnpackedFloat} (left : Like u u') (divides : ¬ IsZero v) :
    Like (UnpackedFloat.div .binary64 u v) (UnpackedFloat.div .binary64 u' v) := by
  cases left with
  | same => exact .same _
  | zeros s t =>
      cases v with
      | zero r => exact absurd trivial divides
      | notANumber => exact .same _
      | _ => exact .zeros _ _

theorem like_neg {u v : UnpackedFloat} (like : Like u v) : Like u.neg v.neg := by
  cases like with
  | same => exact .same _
  | zeros s t => exact .zeros _ _

theorem compare_like {u u' v v' : UnpackedFloat} (left : Like u u') (right : Like v v') :
    u.compare v = u'.compare v' := by
  have first : u.compare v = u'.compare v := by
    cases left with
    | same => rfl
    | zeros s t =>
        cases v with
        | infinity r => cases r <;> rfl
        | finite r m e pos => cases r <;> rfl
        | _ => rfl
  have second : u'.compare v = u'.compare v' := by
    cases right with
    | same => rfl
    | zeros s t =>
        cases u' with
        | infinity r => cases r <;> rfl
        | finite r m e pos => cases r <;> rfl
        | _ => rfl
  exact first.trans second

theorem isNaN_like {u v : UnpackedFloat} (like : Like u v) : u.isNaN = v.isNaN := by
  cases like with
  | same => rfl
  | zeros s t => rfl

theorem isInf_like {u v : UnpackedFloat} (like : Like u v) : u.isInf = v.isInf := by
  cases like <;> rfl

theorem like_symm {u v : UnpackedFloat} (like : Like u v) : Like v u := by
  cases like with
  | same => exact .same _
  | zeros s t => exact .zeros t s

theorem compare_then_iff {e f : Int} {m n : Nat} :
    (compare e f).then (compare m n) = .eq ↔ e = f ∧ m = n := by
  rw [Ordering.then_eq_eq, Int.compare_eq_eq, Nat.compare_eq_eq]

/-- Parts that compare as equal are the same but for the sign of zero. -/
theorem like_of_compare {u v : UnpackedFloat} (equal : u.compare v = some .eq) : Like u v := by
  cases u with
  | notANumber => cases v <;> cases equal
  | infinity s =>
      cases v with
      | infinity t => cases s <;> cases t <;> first | exact .same _ | cases equal
      | _ => cases s <;> cases equal
  | zero s =>
      cases v with
      | zero t => exact .zeros s t
      | infinity t => cases t <;> cases equal
      | finite t n f pos => cases t <;> cases equal
      | notANumber => cases equal
  | finite s m e pos =>
      cases v with
      | finite t n f pos =>
          have alike : s = t ∧ e = f ∧ m = n := by
            cases s <;> cases t
            case negative.negative =>
              exact ⟨rfl, compare_then_iff.mp (Ordering.swap_eq_eq.mp (Option.some.inj equal))⟩
            case positive.positive =>
              exact ⟨rfl, compare_then_iff.mp (Option.some.inj equal)⟩
            all_goals cases equal
          obtain ⟨rfl, rfl, rfl⟩ := alike
          exact .same _
      | infinity t => cases t <;> cases equal
      | zero t => cases s <;> cases equal
      | notANumber => cases equal

theorem compare_self {u : UnpackedFloat} (number : u.isNaN = false) :
    u.compare u = some .eq := by
  cases u with
  | notANumber => cases number
  | infinity s => cases s <;> rfl
  | zero s => rfl
  | finite s m e pos =>
      have equal : (compare e e).then (compare m m) = .eq := compare_then_iff.mpr ⟨rfl, rfl⟩
      cases s with
      | negative => exact congrArg (fun order => some order.swap) equal
      | positive => exact congrArg some equal

theorem beq_iff_like (x y : Float) :
    (x == y) = true ↔ Like (parts x) (parts y) ∧ x.isNaN = false := by
  show ((parts x).compare (parts y) == some .eq) = true ↔ _
  rw [beq_iff_eq]
  constructor
  · intro equal
    refine ⟨like_of_compare equal, ?_⟩
    show (parts x).isNaN = false
    cases known : parts x with
    | notANumber =>
        rw [known] at equal
        cases equal
    | _ => rfl
  · rintro ⟨like, number⟩
    rw [← compare_like (.same _) like]
    exact compare_self number

/-- The value of a double, so far as programs look at it, is that of its like. -/
theorem whole?_like {u v : UnpackedFloat} (like : Like u v) :
    (dyadic? u).bind Dyadic.whole? = (dyadic? v).bind Dyadic.whole? := by
  cases like with
  | same => rfl
  | zeros s t => simp only [dyadic?_zero, Option.bind_some, whole?_zero]

end Double

open Double Float.Model

theorem float_beq_symm {x y : Float} (equal : (x == y) = true) : (y == x) = true := by
  obtain ⟨like, number⟩ := (beq_iff_like x y).mp equal
  exact (beq_iff_like y x).mpr ⟨like_symm like, (isNaN_like like).symm.trans number⟩

theorem float_beq_trans {x y z : Float} (first : (x == y) = true) (second : (y == z) = true) :
    (x == z) = true := by
  obtain ⟨like, number⟩ := (beq_iff_like x y).mp first
  exact (beq_iff_like x z).mpr ⟨like_trans like ((beq_iff_like y z).mp second).1, number⟩

section

variable {x x' y y' : Float} (left : plainNumber x = plainNumber x')
  (right : plainNumber y = plainNumber y')
include left

theorem plain_neg : plainNumber (-x) = plainNumber (-x') :=
  plain_packed (like_neg (like_of_plain left))

theorem isNaN_plain : x.isNaN = x'.isNaN := isNaN_like (like_of_plain left)

theorem isInf_plain : x.isInf = x'.isInf := isInf_like (like_of_plain left)

theorem wholeOf?_plain : wholeOf? x = wholeOf? x' := by
  simp only [wholeOf?, ofFloat?_eq]
  exact whole?_like (like_of_plain left)

theorem indexOf?_plain : indexOf? x = indexOf? x' := by
  simp only [indexOf?, wholeOf?_plain left]

include right

theorem plain_add : plainNumber (x + y) = plainNumber (x' + y') :=
  plain_packed (like_op blind_add (like_of_plain left) (like_of_plain right))

theorem plain_sub : plainNumber (x - y) = plainNumber (x' - y') :=
  plain_packed (like_op blind_sub (like_of_plain left) (like_of_plain right))

theorem plain_mul : plainNumber (x * y) = plainNumber (x' * y') :=
  plain_packed (like_op blind_mul (like_of_plain left) (like_of_plain right))

theorem lt_iff_plain : x < y ↔ x' < y' := by
  rw [lt_iff, lt_iff, compare_like (like_of_plain left) (like_of_plain right)]

theorem le_iff_plain : x ≤ y ↔ x' ≤ y' := by
  have ordered : ∀ a b : Float, a ≤ b ↔ (parts a).le (parts b) = true :=
    fun a b => decide_eq_true_iff
  rw [ordered, ordered, UnpackedFloat.le, UnpackedFloat.le,
    compare_like (like_of_plain left) (like_of_plain right)]

theorem beq_plain : (x == y) = (x' == y') := by
  show (parts x).beq (parts y) = (parts x').beq (parts y')
  rw [beq_eq, beq_eq, compare_like (like_of_plain left) (like_of_plain right)]

end

section

variable {x x' y y' : Float}

/-- Of a number other than zero nothing is lost. -/
theorem eq_of_plain (left : plainNumber x = plainNumber x') (other : (x == 0) = false) :
    x = x' := by
  have other' : (x' == 0) = false := (beq_plain left rfl).symm.trans other
  simpa only [plainNumber, other, other', Bool.false_eq_true, if_false] using left

theorem text_plain (left : plainNumber x = plainNumber x') :
    Decimal.text x = Decimal.text x' := by
  have less : x < 0 ↔ x' < 0 := lt_iff_plain left rfl
  simp only [Decimal.text, ofFloat?_eq, isNaN_plain left, less]
  have like := like_of_plain left
  generalize parts x = u at like ⊢
  generalize parts x' = u' at like ⊢
  cases like with
  | same => rfl
  | zeros s t => simp [dyadic?_zero, whole?_zero]

theorem plain_div (left : plainNumber x = plainNumber x')
    (right : plainNumber y = plainNumber y') (divides : (y == 0) = false) :
    plainNumber (x / y) = plainNumber (x' / y') := by
  rw [← eq_of_plain right divides]
  have other : ¬ IsZero (parts y) := fun zero => by simp [(beq_zero_iff y).mpr zero] at divides
  exact plain_packed (like_div (like_of_plain left) other)

theorem plain_noDigits (negative : Bool) (exponent : Int) :
    plainNumber (Dyadic.toFloat ⟨negative, 0, exponent⟩) = 0 := by
  have zeros : ∀ negative : Bool,
      plainNumber (Float.ofBits (if negative then twoTo 63 else 0).toUInt64) = 0 := by decide
  simp only [Dyadic.toFloat, if_true, zeros]

theorem plain_remainderOf (left : plainNumber x = plainNumber x')
    (right : plainNumber y = plainNumber y') (divides : (y == 0) = false) :
    plainNumber (remainderOf x y) = plainNumber (remainderOf x' y') := by
  rw [← eq_of_plain right divides]
  -- an infinite divisor gives the dividend back
  have kept : plainNumber (if y.isNaN then y else x) = plainNumber (if y.isNaN then y else x') := by
    split
    · rfl
    · exact left
  simp only [remainderOf, ofFloat?_eq x, ofFloat?_eq x']
  have like := like_of_plain left
  generalize parts x = u at like ⊢
  generalize parts x' = u' at like ⊢
  cases like with
  | same =>
      cases dyadic? u with
      | none => rfl
      | some a =>
          cases Dyadic.ofFloat? y with
          | none => exact kept
          | some b => rfl
  | zeros s t =>
      cases Dyadic.ofFloat? y with
      | none => exact kept
      | some b => simp [dyadic?_zero, Dyadic.remainder, plain_noDigits]

end

end Loom
