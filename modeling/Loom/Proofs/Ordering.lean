import Loom.Operator
import Loom.Proofs.Magnitude
import Loom.Proofs.Steps

/-!
The order of numbers and of texts. The operators of comparison go by the sign of a
difference, or by the units of texts, and `==` by the values themselves; they follow one
total order all the same. Only of two equal infinities, which have no difference, is
neither said to be at most or at least the other.
-/

namespace Loom

theorem Text.less_iff_lt (s t : Text) : Text.less s t = true ↔ s < t := by
  induction s generalizing t with
  | nil =>
      cases t with
      | nil => exact iff_of_false nofun (List.lt_irrefl [])
      | cons b t => exact iff_of_true rfl (List.nil_lt_cons b t)
  | cons a s ih =>
      cases t with
      | nil => exact iff_of_false nofun (List.not_lt_nil (a :: s))
      | cons b t =>
          rw [List.cons_lt_cons_iff, ← ih t]
          simp [Text.less]

theorem Text.less_of_ne {s t : Text} (differ : s ≠ t) : Text.less t s = !Text.less s t := by
  cases below : Text.less s t with
  | true =>
      have behind : ¬ t < s := List.lt_asymm ((Text.less_iff_lt s t).mp below)
      exact Bool.eq_false_iff.mpr fun above => behind ((Text.less_iff_lt t s).mp above)
  | false =>
      have notBelow : t ≤ s := List.not_lt.mp fun lower => by
        simp [(Text.less_iff_lt s t).mpr lower] at below
      refine (Text.less_iff_lt t s).mpr (Decidable.byContradiction fun notAbove => ?_)
      exact differ (List.le_antisymm (List.not_lt.mp notAbove) notBelow)

theorem Text.less_self (t : Text) : Text.less t t = false :=
  Bool.eq_false_iff.mpr fun below => List.lt_irrefl t ((Text.less_iff_lt t t).mp below)

/-- What is not above is below or equal. -/
theorem Text.not_less (s t : Text) : (!Text.less t s) = (Text.less s t || s == t) := by
  by_cases equal : s = t
  · rw [equal, Text.less_self, beq_self_eq_true, Bool.or_true]
    rfl
  · rw [Text.less_of_ne equal, Bool.not_not, beq_eq_false_iff_ne.mpr equal, Bool.or_false]

theorem Text.less_exclusive (s t : Text) :
    [Text.less s t, s == t, Text.less t s].count true = 1 := by
  by_cases equal : s = t
  · rw [equal, Text.less_self, beq_self_eq_true]
    rfl
  · rw [Text.less_of_ne equal, beq_eq_false_iff_ne.mpr equal]
    cases Text.less s t <;> rfl

theorem Text.less_trans {s t u : Text} (first : Text.less s t = true)
    (second : Text.less t u = true) : Text.less s u = true :=
  (Text.less_iff_lt s u).mpr
    (List.lt_trans ((Text.less_iff_lt s t).mp first) ((Text.less_iff_lt t u).mp second))

open Eval Double

/-- Two numbers neither of which is NaN, or two texts. -/
inductive Comparable : Value → Value → Prop where
  | numbers {x y : Float} {stamp stamp' : Nat} (left : x.isNaN = false) (right : y.isNaN = false) :
      Comparable (.number x stamp) (.number y stamp')
  | texts (s t : Text) : Comparable (.string s) (.string t)

/-- Two infinities of one sign. -/
def equallyInfinite : Value → Value → Bool
  | .number x _, .number y _ => x.isInf && x == y
  | _, _ => false

/-- What an operator says of two values, whatever the state is. -/
def Answers (op : BinaryOp) (a b : Value) (answer : Bool) : Prop :=
  ∀ s, binary op a b s = .ok (.bool answer) s

theorem Answers.unique {op : BinaryOp} {a b : Value} {answer answer' : Bool}
    (first : Answers op a b answer) (second : Answers op a b answer') (s : State) :
    answer = answer' := by
  have same := (first s).symm.trans (second s)
  cases same
  rfl

/-! What is equal. -/

theorem answers_equal {a b : Value} {equal : Bool}
    (level : ∀ heap inner, Equality.level heap inner a b [] = some (equal, [])) :
    Answers .equal a b equal := by
  intro s
  have found : Value.equal? s.heap a b = some equal := by
    unfold Value.equal?
    cases s.heap.size * s.heap.size with
    | zero => rw [Equality.within, level, Option.map_some]
    | succ fuel => rw [Equality.within, level, Option.map_some]
  have compared : Eval.equal a b s = .ok equal s := by
    show present (Value.equal? s.heap a b) s = _
    rw [found]
    rfl
  exact bind_ok compared

theorem answers_equal_numbers {x : Float} (left : x.isNaN = false) (y : Float)
    (stamp stamp' : Nat) : Answers .equal (.number x stamp) (.number y stamp') (x == y) :=
  answers_equal fun heap inner => by
    simp only [Equality.level, Equality.same, left, Bool.false_and, Bool.false_eq_true, if_false]

theorem answers_equal_texts (s t : Text) : Answers .equal (.string s) (.string t) (s == t) :=
  answers_equal fun heap inner => by simp [Equality.level, Equality.same]

/-! What is less. -/

/-- How an order operator answers for whole numbers. -/
def ordered (op : BinaryOp) (a b : Int) : Bool :=
  match op with
  | .less => a < b
  | .lessEqual => a ≤ b
  | .greater => b < a
  | _ => b ≤ a

/-- A difference answers for the numbers it is the difference of. -/
theorem holds_sub {x y : Float} {a b : Int} (first : place? (parts x) = some a)
    (second : place? (parts y) = some b) (apart : ¬ (x.isInf = true ∧ a = b)) (op : BinaryOp) :
    (Standing.numbers (x - y)).holds op = ordered op a b := by
  obtain ⟨p, difference, below, above⟩ := place_sub first second apart
  have less : x - y < 0 ↔ p < 0 := lt_iff_place difference place?_zero
  have more : 0 < x - y ↔ 0 < p := lt_iff_place place?_zero difference
  have atMost : x - y ≤ 0 ↔ p ≤ 0 := le_iff_place difference place?_zero
  have atLeast : 0 ≤ x - y ↔ 0 ≤ p := le_iff_place place?_zero difference
  cases op with
  | less => exact decide_eq_decide.mpr (less.trans below)
  | lessEqual => exact decide_eq_decide.mpr (atMost.trans (by omega))
  | greater => exact decide_eq_decide.mpr (more.trans above)
  | _ => exact decide_eq_decide.mpr (atLeast.trans (by omega))

/-- Two equal infinities have no difference, so nothing is said of it. -/
theorem holds_sub_infinite {x y : Float} {a : Int} (infinite : x.isInf = true)
    (first : place? (parts x) = some a) (second : place? (parts y) = some a) (op : BinaryOp) :
    (Standing.numbers (x - y)).holds op = false := by
  change (parts x).isInf = true at infinite
  have none : parts (x - y) = .notANumber := by
    show parts (packed (Float.Model.UnpackedFloat.sub .binary64 (parts x) (parts y))) = _
    cases shape : parts x with
    | infinity s =>
        rw [shape] at first
        rw [infinity_of_place (fit_parts y) (second.trans first.symm)]
        cases s <;> rfl
    | _ =>
        rw [shape] at infinite
        cases infinite
  have less : ¬ x - y < 0 := by
    rw [lt_iff, none]
    exact nofun
  have more : ¬ 0 < x - y := by
    rw [lt_iff, none]
    exact nofun
  have atMost : ¬ x - y ≤ 0 := by
    rw [le_iff, none]
    exact nofun
  have atLeast : ¬ 0 ≤ x - y := by
    rw [le_iff, none]
    exact nofun
  cases op with
  | less => exact decide_eq_false less
  | lessEqual => exact decide_eq_false atMost
  | greater => exact decide_eq_false more
  | _ => exact decide_eq_false atLeast

theorem answers_difference {op : BinaryOp} (order : binary op = compare op) (x y : Float)
    (stamp stamp' : Nat) :
    Answers op (.number x stamp) (.number y stamp') ((Standing.numbers (x - y)).holds op) := by
  intro s
  rw [order]
  rfl

/-- Numbers answer as their places on the number line do, but for equal infinities. -/
theorem answers_numbers {x y : Float} {a b : Int} (stamp stamp' : Nat)
    (first : place? (parts x) = some a) (second : place? (parts y) = some b) {op : BinaryOp}
    (order : binary op = compare op) :
    Answers op (.number x stamp) (.number y stamp') (ordered op a b && !(x.isInf && x == y)) := by
  have holds : (Standing.numbers (x - y)).holds op = (ordered op a b && !(x.isInf && x == y)) := by
    by_cases apart : x.isInf = true ∧ a = b
    · obtain ⟨infinite, rfl⟩ := apart
      have equal : (x == y) = true := (beq_iff_place first second).mpr rfl
      rw [holds_sub_infinite infinite first second, infinite, equal]
      simp
    · have distinct : (x.isInf && x == y) = false := by
        rw [Bool.and_eq_false_imp]
        intro infinite
        refine Bool.eq_false_iff.mpr fun equal => apart ⟨infinite, ?_⟩
        exact (beq_iff_place first second).mp equal
      rw [holds_sub first second apart, distinct]
      simp
  rw [← holds]
  exact answers_difference order x y stamp stamp'

theorem exclusive_int (p q : Int) :
    [decide (p < q), decide (p = q), decide (q < p)].count true = 1 := by
  rcases Int.lt_trichotomy p q with below | rfl | above
  · have notEqual : p ≠ q := by omega
    have notAbove : ¬ q < p := by omega
    simp [below, notEqual, notAbove]
  · simp
  · have notEqual : p ≠ q := by omega
    have notBelow : ¬ p < q := by omega
    simp [above, notEqual, notBelow]

theorem answers_texts {op : BinaryOp} (order : binary op = compare op) (s t : Text) :
    Answers op (.string s) (.string t) ((Standing.texts s t).holds op) := by
  intro state
  rw [order]
  rfl

/-- Of two infinities that are equal none is below the other, so `<` and `>` are as they
are for places. -/
theorem strict_numbers {x y : Float} {a b : Int} (first : place? (parts x) = some a)
    (second : place? (parts y) = some b) {op : BinaryOp} (strict : ordered op a a = false) :
    (ordered op a b && !(x.isInf && x == y)) = ordered op a b := by
  by_cases equal : (x == y) = true
  · obtain rfl := (beq_iff_place first second).mp equal
    rw [strict, Bool.false_and]
  · rw [Bool.eq_false_iff.mpr equal, Bool.and_false, Bool.not_false, Bool.and_true]

theorem answers_strict_numbers {x y : Float} {a b : Int} (stamp stamp' : Nat)
    (first : place? (parts x) = some a) (second : place? (parts y) = some b) {op : BinaryOp}
    (order : binary op = compare op) (strict : ordered op a a = false) :
    Answers op (.number x stamp) (.number y stamp') (ordered op a b) := by
  have answers := answers_numbers stamp stamp' first second order
  rwa [strict_numbers first second strict] at answers

theorem answers_less_numbers {x y : Float} {a b : Int} (stamp stamp' : Nat)
    (first : place? (parts x) = some a) (second : place? (parts y) = some b) :
    Answers .less (.number x stamp) (.number y stamp') (a < b) :=
  answers_strict_numbers stamp stamp' first second rfl (decide_eq_false (Int.lt_irrefl a))

theorem answers_greater_numbers {x y : Float} {a b : Int} (stamp stamp' : Nat)
    (first : place? (parts x) = some a) (second : place? (parts y) = some b) :
    Answers .greater (.number x stamp) (.number y stamp') (b < a) :=
  answers_strict_numbers stamp stamp' first second rfl (decide_eq_false (Int.lt_irrefl a))

/-- `<` is transitive. -/
theorem answers_less_trans {a b c : Value} (ab : Comparable a b) (bc : Comparable b c)
    (first : Answers .less a b true) (second : Answers .less b c true) :
    Answers .less a c true := by
  intro state
  cases ab with
  | numbers left right =>
      rename_i x y stamp stamp'
      cases bc with
      | numbers right last =>
          rename_i z stamp''
          obtain ⟨p, px⟩ := place?_is_some left
          obtain ⟨q, py⟩ := place?_is_some right
          obtain ⟨r, pz⟩ := place?_is_some last
          have less : p < q :=
            of_decide_eq_true ((answers_less_numbers stamp stamp' px py).unique first state)
          have less' : q < r :=
            of_decide_eq_true ((answers_less_numbers stamp' stamp'' py pz).unique second state)
          have through : p < r := Int.lt_trans less less'
          rw [answers_less_numbers stamp stamp'' px pz state, decide_eq_true through]
  | texts s t =>
      cases bc with
      | texts t u =>
          have less : Text.less s t = true := (answers_texts rfl s t).unique first state
          have less' : Text.less t u = true := (answers_texts rfl t u).unique second state
          have through : (Standing.texts s u).holds .less = true := Text.less_trans less less'
          rw [answers_texts rfl s u state, through]

/-- The operators of comparison follow one total order: of two numbers that are not NaN,
and of two texts, exactly one of `<`, `==` and `>` holds, `<=` and `>=` hold where one of
the two that they are made of does, and `<` is transitive. Only of two equal infinities do
`<=` and `>=` not hold, although `==` does. -/
theorem comparisons_one_order {a b : Value} (comparable : Comparable a b) :
    (∃ less equal greater : Bool,
      [less, equal, greater].count true = 1 ∧
      Answers .less a b less ∧ Answers .equal a b equal ∧ Answers .greater a b greater ∧
      Answers .lessEqual a b ((less || equal) && !equallyInfinite a b) ∧
      Answers .greaterEqual a b ((greater || equal) && !equallyInfinite a b)) ∧
    ∀ c, Comparable b c → Answers .less a b true → Answers .less b c true →
      Answers .less a c true := by
  refine ⟨?_, fun c next first second => answers_less_trans comparable next first second⟩
  cases comparable with
  | numbers left right =>
      rename_i x y stamp stamp'
      -- numbers stand to each other as their places among all doubles do
      obtain ⟨p, px⟩ := place?_is_some left
      obtain ⟨q, py⟩ := place?_is_some right
      have equal : (x == y) = decide (p = q) := by
        rw [Bool.eq_iff_iff, beq_iff_place px py, decide_eq_true_iff]
      have atMost : ordered .lessEqual p q = (decide (p < q) || x == y) := by
        rw [equal, ← Bool.decide_or]
        exact decide_eq_decide.mpr (by omega)
      have atLeast : ordered .greaterEqual p q = (decide (q < p) || x == y) := by
        rw [equal, ← Bool.decide_or]
        exact decide_eq_decide.mpr (by omega)
      refine ⟨p < q, x == y, q < p, ?_, answers_less_numbers stamp stamp' px py,
        answers_equal_numbers left y stamp stamp', answers_greater_numbers stamp stamp' px py,
        ?_, ?_⟩
      · rw [equal, exclusive_int]
      · rw [← atMost]
        exact answers_numbers stamp stamp' px py rfl
      · rw [← atLeast]
        exact answers_numbers stamp stamp' px py rfl
  | texts s t =>
      have atMost : (Standing.texts s t).holds .lessEqual =
          ((Text.less s t || s == t) && !false) := by
        rw [Bool.not_false, Bool.and_true, ← Text.not_less]
        rfl
      have atLeast : (Standing.texts s t).holds .greaterEqual =
          ((Text.less t s || s == t) && !false) := by
        rw [Bool.not_false, Bool.and_true, BEq.comm, ← Text.not_less]
        rfl
      refine ⟨Text.less s t, s == t, Text.less t s, Text.less_exclusive s t,
        answers_texts rfl s t, answers_equal_texts s t, answers_texts rfl s t, ?_, ?_⟩
      · exact atMost ▸ answers_texts rfl s t
      · exact atLeast ▸ answers_texts rfl s t

theorem one_and_infinity_ordered :
    (∃ less equal greater : Bool,
      [less, equal, greater].count true = 1 ∧
      Answers .less (.ofFloat 1) (.ofFloat (1 / 0)) less ∧
      Answers .lessEqual (.ofFloat 1) (.ofFloat (1 / 0)) (less || equal) ∧
      Answers .greaterEqual (.ofFloat 1) (.ofFloat (1 / 0)) (greater || equal)) ∧
    Answers .less (.ofFloat 0) (.ofFloat (1 / 0)) true := by
  have one : Comparable (.ofFloat 0) (.ofFloat 1) := .numbers (by decide) (by decide)
  have infinite : Comparable (.ofFloat 1) (.ofFloat (1 / 0)) := .numbers (by decide) (by decide)
  have finite : equallyInfinite (.ofFloat 1) (.ofFloat (1 / 0)) = false := by decide
  refine ⟨?_, ?_⟩
  · obtain ⟨⟨less, equal, greater, exclusive, below, -, -, atMost, atLeast⟩, -⟩ :=
      comparisons_one_order infinite
    rw [finite, Bool.not_false, Bool.and_true] at atMost atLeast
    exact ⟨less, equal, greater, exclusive, below, atMost, atLeast⟩
  · have first : (Standing.numbers (0 - 1)).holds .less = true := by decide
    have second : (Standing.numbers (1 - 1 / 0)).holds .less = true := by decide
    exact (comparisons_one_order one).2 _ infinite (first ▸ answers_difference rfl 0 1 0 0)
      (second ▸ answers_difference rfl 1 (1 / 0) 0 0)

/-- Infinity is equal to itself, and neither at most nor at least itself. -/
theorem infinity_not_at_most_itself :
    Comparable (.ofFloat (1 / 0)) (.ofFloat (1 / 0)) ∧
    Answers .equal (.ofFloat (1 / 0)) (.ofFloat (1 / 0)) true ∧
    Answers .lessEqual (.ofFloat (1 / 0)) (.ofFloat (1 / 0)) false ∧
    Answers .greaterEqual (.ofFloat (1 / 0)) (.ofFloat (1 / 0)) false := by
  have equal : ((1 : Float) / 0 == 1 / 0) = true := by decide
  have atMost : (Standing.numbers (1 / 0 - 1 / 0)).holds .lessEqual = false := by decide
  have atLeast : (Standing.numbers (1 / 0 - 1 / 0)).holds .greaterEqual = false := by decide
  refine ⟨.numbers (by decide) (by decide), ?_, ?_, ?_⟩
  · exact equal ▸ answers_equal_numbers (by decide) (1 / 0) 0 0
  · exact atMost ▸ answers_difference rfl (1 / 0) (1 / 0) 0 0
  · exact atLeast ▸ answers_difference rfl (1 / 0) (1 / 0) 0 0

end Loom
