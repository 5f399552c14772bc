import Loom.Proofs.Whole
import Mathlib.Algebra.Group.Int.Defs

/-!
The values of doubles, and how results are rounded. A finite double is a whole number of
steps as long as the least double, so doubles are compared as whole numbers are. What has
more bits than a double is rounded to the nearest double, and to the even one of two;
it keeps its sign, and nothing but zero becomes zero by it.
-/

namespace Loom

namespace Double

open Float.Model
open Float.Model.UnpackedFloat

/-! Values, counted in steps. -/

/-- How many steps of the least double a mantissa at an exponent is. -/
def steps (m : Nat) (e : Int) : Nat := m * 2 ^ (e + 1074).toNat

/-- The value of a finite double. -/
def steps? : UnpackedFloat → Option Int
  | .notANumber | .infinity _ => none
  | .zero _ => some 0
  | .finite s m e _ => some (s.apply (steps m e))

@[simp] theorem steps?_zero (s : Sign) : steps? (.zero s) = some 0 := rfl

@[simp] theorem steps?_finite (s : Sign) (m : Nat) (e : Int) (pos : 0 < m) :
    steps? (.finite s m e pos) = some (s.apply (steps m e)) := rfl

/-- The largest exponent of a double, counted from the least one. -/
@[irreducible] def topExponent : Nat := 2045

/-- More than any finite double. -/
def endless : Nat := 2 ^ (53 + topExponent)

/-- The place of a double on the number line, infinities included. -/
def place? : UnpackedFloat → Option Int
  | .infinity s => some (s.apply endless)
  | u => steps? u

/-- The mantissa and the exponent that a number of this size has as a double, but for how
large the exponent may be. -/
structure Fits (m : Nat) (e : Int) : Prop where
  below : m < 2 ^ 53
  low : -1074 ≤ e
  full : 2 ^ 52 ≤ m ∨ e = -1074

theorem fits_of_parts {x : Float} {s : Sign} {m : Nat} {e : Int} {pos : 0 < m}
    (shape : parts x = .finite s m e pos) : Fits m e ∧ e ≤ 971 := by
  rcases normal_or_small shape with normal | ⟨small, lowest⟩
  · exact ⟨⟨normal.below, normal.low, .inl normal.least⟩, normal.high⟩
  · exact ⟨⟨by omega, by omega, .inr lowest⟩, by omega⟩

theorem steps_pos {m : Nat} (e : Int) (pos : 0 < m) : 0 < steps m e :=
  Nat.mul_pos pos (Nat.two_pow_pos _)

theorem steps_lt_endless {m : Nat} {e : Int} (fits : Fits m e) (high : e ≤ 971) :
    steps m e < endless := by
  have inside : (e + 1074).toNat ≤ topExponent := by
    unfold topExponent
    omega
  calc steps m e < 2 ^ 53 * 2 ^ (e + 1074).toNat :=
        Nat.mul_lt_mul_of_pos_right fits.below (Nat.two_pow_pos _)
    _ ≤ 2 ^ 53 * 2 ^ topExponent :=
        Nat.mul_le_mul_left _ (Nat.pow_le_pow_right (by decide) inside)
    _ = endless := (Nat.pow_add 2 53 topExponent).symm

/-- Of two numbers the one with the larger exponent is the larger one. -/
theorem steps_lt_of_lower {m n : Nat} {e f : Int} (fits : Fits m e) (fits' : Fits n f)
    (lower : e < f) : steps m e < steps n f := by
  have low := fits.low
  have full : 2 ^ 52 ≤ n := fits'.full.resolve_right (by omega)
  calc steps m e < 2 ^ 53 * 2 ^ (e + 1074).toNat :=
        Nat.mul_lt_mul_of_pos_right fits.below (Nat.two_pow_pos _)
    _ = 2 ^ 52 * 2 ^ ((e + 1074).toNat + 1) := by rw [Nat.pow_succ]; omega
    _ ≤ steps n f := Nat.mul_le_mul full (Nat.pow_le_pow_right (by decide) (by omega))

theorem compare_then {m n : Nat} {e f : Int} (fits : Fits m e) (fits' : Fits n f) :
    (compare e f).then (compare m n) = compare (steps m e) (steps n f) := by
  rcases Int.lt_trichotomy e f with lower | rfl | higher
  · rw [Int.compare_eq_lt.mpr lower, Nat.compare_eq_lt.mpr (steps_lt_of_lower fits fits' lower)]
    rfl
  · have unit := Nat.two_pow_pos (e + 1074).toNat
    rw [Int.compare_eq_eq.mpr rfl]
    show compare m n = compare (steps m e) (steps n e)
    rcases Nat.lt_trichotomy m n with less | rfl | more
    · have stepped : steps m e < steps n e := Nat.mul_lt_mul_of_pos_right less unit
      rw [Nat.compare_eq_lt.mpr less, Nat.compare_eq_lt.mpr stepped]
    · rw [Nat.compare_eq_eq.mpr rfl, Nat.compare_eq_eq.mpr rfl]
    · have stepped : steps n e < steps m e := Nat.mul_lt_mul_of_pos_right more unit
      rw [Nat.compare_eq_gt.mpr more, Nat.compare_eq_gt.mpr stepped]
  · rw [Int.compare_eq_gt.mpr higher, Nat.compare_eq_gt.mpr (steps_lt_of_lower fits' fits higher)]
    rfl

/-- Parts that a double may have, but for how large the exponent may be. -/
def Fit : UnpackedFloat → Prop
  | .finite _ m e _ => Fits m e ∧ e ≤ 971
  | _ => True

theorem fit_parts (x : Float) : Fit (parts x) := by
  cases shape : parts x with
  | finite s m e pos => exact fits_of_parts shape
  | _ => trivial

theorem within_endless {u : UnpackedFloat} {a : Int} (fit : Fit u) (value : steps? u = some a) :
    -(endless : Int) < a ∧ a < endless := by
  cases u with
  | zero s =>
      cases value
      have : 0 < endless := Nat.two_pow_pos _
      omega
  | finite s m e pos =>
      have below := steps_lt_endless fit.1 fit.2
      cases value
      cases s <;> simp only [Sign.apply] <;> omega
  | _ => cases value

theorem compare_apply (s : Sign) (a b : Nat) :
    compare (s.apply a) (s.apply b) =
      match s with
      | .positive => compare a b
      | .negative => (compare a b).swap := by
  rcases Nat.lt_trichotomy a b with less | rfl | more
  · rw [Nat.compare_eq_lt.mpr less]
    cases s with
    | positive => exact Int.compare_eq_lt.mpr (by simp only [Sign.apply]; omega)
    | negative => exact Int.compare_eq_gt.mpr (by simp only [Sign.apply]; omega)
  · rw [Nat.compare_eq_eq.mpr rfl, Int.compare_eq_eq.mpr rfl]
    cases s <;> rfl
  · rw [Nat.compare_eq_gt.mpr more]
    cases s with
    | positive => exact Int.compare_eq_gt.mpr (by simp only [Sign.apply]; omega)
    | negative => exact Int.compare_eq_lt.mpr (by simp only [Sign.apply]; omega)

theorem lt_eq_compare {a b : Int} (below : a < b) : some Ordering.lt = some (compare a b) :=
  congrArg some (Int.compare_eq_lt.mpr below).symm

theorem gt_eq_compare {a b : Int} (above : b < a) : some Ordering.gt = some (compare a b) :=
  congrArg some (Int.compare_eq_gt.mpr above).symm

theorem compare_steps {u v : UnpackedFloat} {a b : Int} (fit : Fit u) (fit' : Fit v)
    (first : steps? u = some a) (second : steps? v = some b) :
    u.compare v = some (compare a b) := by
  cases u with
  | zero s =>
      cases first
      cases v with
      | zero t =>
          cases second
          rfl
      | finite t n f pos' =>
          have := steps_pos f pos'
          cases second
          cases t with
          | negative => exact gt_eq_compare (by simp only [Sign.apply]; omega)
          | positive => exact lt_eq_compare (by simp only [Sign.apply]; omega)
      | _ => cases second
  | finite s m e pos =>
      have := steps_pos e pos
      cases first
      cases v with
      | zero t =>
          cases second
          cases s with
          | negative => exact lt_eq_compare (by simp only [Sign.apply]; omega)
          | positive => exact gt_eq_compare (by simp only [Sign.apply]; omega)
      | finite t n f pos' =>
          have := steps_pos f pos'
          have alike := compare_then fit.1 fit'.1
          cases second
          cases s <;> cases t
          case negative.positive => exact lt_eq_compare (by simp only [Sign.apply]; omega)
          case positive.negative => exact gt_eq_compare (by simp only [Sign.apply]; omega)
          case negative.negative =>
            exact congrArg some ((congrArg Ordering.swap alike).trans
              (compare_apply .negative _ _).symm)
          case positive.positive =>
            exact congrArg some (alike.trans (compare_apply .positive _ _).symm)
      | _ => cases second
  | _ => cases first

/-- Doubles are compared by their places on the number line. -/
theorem compare_places {u v : UnpackedFloat} {a b : Int} (fit : Fit u) (fit' : Fit v)
    (first : place? u = some a) (second : place? v = some b) :
    u.compare v = some (compare a b) := by
  have wide : 0 < endless := Nat.two_pow_pos _
  cases u with
  | notANumber => cases first
  | infinity s =>
      cases first
      cases v with
      | notANumber => cases second
      | infinity t =>
          cases second
          cases s <;> cases t
          case negative.positive => exact lt_eq_compare (by simp only [Sign.apply]; omega)
          case positive.negative => exact gt_eq_compare (by simp only [Sign.apply]; omega)
          all_goals exact congrArg some (Int.compare_eq_eq.mpr rfl).symm
      | zero t =>
          have inside := within_endless fit' second
          cases s with
          | negative => exact lt_eq_compare inside.1
          | positive => exact gt_eq_compare inside.2
      | finite t n f pos =>
          have inside := within_endless fit' second
          cases s with
          | negative => exact lt_eq_compare inside.1
          | positive => exact gt_eq_compare inside.2
  | zero s =>
      cases v with
      | infinity t =>
          have inside := within_endless fit first
          cases second
          cases t with
          | negative => exact gt_eq_compare inside.1
          | positive => exact lt_eq_compare inside.2
      | _ => exact compare_steps fit fit' first second
  | finite s m e pos =>
      cases v with
      | infinity t =>
          have inside := within_endless fit first
          cases second
          cases s <;> cases t
          case negative.negative | positive.negative => exact gt_eq_compare inside.1
          all_goals exact lt_eq_compare inside.2
      | _ => exact compare_steps fit fit' first second

/-- What stands where an infinity stands is that infinity. -/
theorem infinity_of_place {u : UnpackedFloat} {s : Sign} (fit : Fit u)
    (value : place? u = some (s.apply endless)) : u = .infinity s := by
  have wide : 0 < endless := Nat.two_pow_pos _
  cases u with
  | notANumber => cases value
  | infinity t =>
      have same := Option.some.inj value
      cases s <;> cases t
      case negative.positive | positive.negative =>
        simp only [Sign.apply] at same
        omega
      all_goals rfl
  | zero t | finite t m e pos =>
      have inside := within_endless fit value
      cases s <;> simp only [Sign.apply] at inside <;> omega

theorem place?_is_some {x : Float} (number : x.isNaN = false) : ∃ a, place? (parts x) = some a := by
  change (parts x).isNaN = false at number
  cases shape : parts x with
  | notANumber =>
      rw [shape] at number
      cases number
  | _ => exact ⟨_, rfl⟩

theorem place?_zero : place? (parts 0) = some 0 := rfl

theorem le_iff (x y : Float) : x ≤ y ↔ (parts x).le (parts y) = true := decide_eq_true_iff

section

variable {x y : Float} {a b : Int} (first : place? (parts x) = some a)
  (second : place? (parts y) = some b)
include first second

theorem compare_parts : (parts x).compare (parts y) = some (compare a b) :=
  compare_places (fit_parts x) (fit_parts y) first second

theorem lt_iff_place : x < y ↔ a < b := by
  rw [lt_iff, compare_parts first second, Option.some.injEq, Int.compare_eq_lt]

theorem beq_iff_place : (x == y) = true ↔ a = b := by
  show ((parts x).compare (parts y) == some .eq) = true ↔ _
  rw [beq_iff_eq, compare_parts first second, Option.some.injEq, Int.compare_eq_eq]

theorem le_iff_place : x ≤ y ↔ a ≤ b := by
  rw [le_iff, UnpackedFloat.le, compare_parts first second, Option.any_some]
  rcases Int.lt_trichotomy a b with less | rfl | more
  · rw [Int.compare_eq_lt.mpr less]
    exact iff_of_true rfl (Int.le_of_lt less)
  · rw [Int.compare_eq_eq.mpr rfl]
    exact iff_of_true rfl (Int.le_refl a)
  · rw [Int.compare_eq_gt.mpr more]
    exact iff_of_false Bool.false_ne_true (Int.not_le_of_gt more)

end

/-! Rounding. -/

/-- `n / 2 ^ k` rounded to the nearest whole number, and to the even one of two. -/
def rounded (n k : Nat) : Nat :=
  if n % 2 ^ k * 2 < 2 ^ k then n / 2 ^ k
  else if n % 2 ^ k * 2 = 2 ^ k then n / 2 ^ k + n / 2 ^ k % 2
  else n / 2 ^ k + 1

/-- What is left of a mantissa that was shifted to the right: the quotient, and of the
remainder how it stands to half of what was divided by. -/
structure Shifted (n k : Nat) (shifted : ExtendedMantissa) : Prop where
  mantissa : shifted.mantissa = n / 2 ^ k
  round : shifted.roundBit = true ↔ 2 ^ k ≤ n % 2 ^ k * 2
  sticky : shifted.stickyBit = true ↔ n % 2 ^ k ≠ 0 ∧ n % 2 ^ k * 2 ≠ 2 ^ k

theorem shifted_repeat (n k : Nat) :
    Shifted n k (Nat.repeat ExtendedMantissa.shiftRightOne k ⟨n, false, false⟩) := by
  induction k with
  | zero =>
      refine ⟨?_, ?_, ?_⟩
      · simp [Nat.repeat]
      · simp [Nat.repeat, Nat.mod_one]
      · simp [Nat.repeat, Nat.mod_one]
  | succ k ih =>
      have unit := Nat.two_pow_pos k
      have small : n % 2 ^ k < 2 ^ k := Nat.mod_lt _ unit
      have wider : n % 2 ^ (k + 1) = n % 2 ^ k + 2 ^ k * (n / 2 ^ k % 2) := Nat.mod_pow_succ
      have double : 2 ^ (k + 1) = 2 ^ k * 2 := Nat.pow_succ ..
      obtain ⟨mantissa, round, sticky⟩ := ih
      rw [Nat.repeat]
      refine ⟨?_, ?_, ?_⟩
      · rw [ExtendedMantissa.shiftRightOne, mantissa, Nat.div_div_eq_div_mul, ← double]
      · rw [wider, double]
        simp only [ExtendedMantissa.shiftRightOne, mantissa]
        rcases Nat.mod_two_eq_zero_or_one (n / 2 ^ k) with even | odd
        · rw [even]
          exact iff_of_false Bool.false_ne_true (by omega)
        · rw [odd]
          exact iff_of_true rfl (by omega)
      · rw [wider, double]
        simp only [ExtendedMantissa.shiftRightOne, Bool.or_eq_true, round, sticky]
        rcases Nat.mod_two_eq_zero_or_one (n / 2 ^ k) with even | odd
        · simp [even]
          omega
        · simp [odd]
          omega

theorem Shifted.rounded {n k : Nat} {shifted : ExtendedMantissa} (is : Shifted n k shifted) :
    shifted.roundedMantissa = Double.rounded n k := by
  obtain ⟨mantissa, round, sticky⟩ := is
  obtain ⟨m, r, s⟩ := shifted
  simp only at mantissa round sticky
  subst mantissa
  have unit := Nat.two_pow_pos k
  unfold Double.rounded
  cases r <;> cases s <;> simp only [Bool.false_eq_true, false_iff, true_iff] at round sticky
  · exact (if_pos (by omega)).symm
  · exact (if_pos (by omega)).symm
  · rw [if_neg (by omega), if_pos (by omega)]
    rfl
  · rw [if_neg (by omega), if_neg (by omega)]
    rfl

theorem rounded_bounds {n k : Nat} (pos : 0 < n) (bits : n.log2 = 52 + k) :
    2 ^ 52 ≤ rounded n k ∧ rounded n k ≤ 2 ^ 53 := by
  obtain ⟨least, below⟩ := (Nat.log2_eq_iff (Nat.ne_of_gt pos)).mp bits
  have lower : 2 ^ 52 ≤ n / 2 ^ k := by
    rw [Nat.le_div_iff_mul_le (Nat.two_pow_pos k), ← Nat.pow_add]
    exact least
  have upper : n / 2 ^ k < 2 ^ 53 := by
    rw [Nat.div_lt_iff_lt_mul (Nat.two_pow_pos k), ← Nat.pow_add]
    exact Nat.lt_of_lt_of_eq below (by rw [show 52 + k + 1 = 53 + k by omega])
  unfold rounded
  split
  · omega
  · split <;> omega

theorem shift_by {n k : Nat} {e : Int}
    (target : Format.binary64.targetExponent (totalExponent n e) = e + k) :
    shiftToTargetExponent .binary64 n e .exact =
      (Nat.repeat ExtendedMantissa.shiftRightOne k ⟨n, false, false⟩, e + k) := by
  have amount : (e + k - e).toNat = k := by omega
  simp only [shiftToTargetExponent, shiftToExponent, target, amount]
  rfl

/-- What has no more bits than a double stays as it is. -/
theorem shift_of_fits {m : Nat} {e : Int} (fits : Fits m e) (pos : 0 < m) :
    shiftToTargetExponent .binary64 m e .exact = (⟨m, false, false⟩, e) := by
  have digits : m.log2 < 53 := (Nat.log2_lt (Nat.ne_of_gt pos)).mpr fits.below
  have full : 52 ≤ m.log2 ∨ e = -1074 :=
    fits.full.imp_left (Nat.le_log2 (Nat.ne_of_gt pos)).mpr
  have low := fits.low
  have target : Format.binary64.targetExponent (totalExponent m e) = e + (0 : Nat) := by
    show max ((m.log2 : Int) + 1 + e - 53) (-1074) = e + (0 : Nat)
    omega
  rw [shift_by target, Int.natCast_zero, Int.add_zero]
  rfl

theorem shift_carry {e : Int} (low : -1074 ≤ e) :
    shiftToTargetExponent .binary64 (2 ^ 53) e .exact = (⟨2 ^ 52, false, false⟩, e + 1) := by
  have target : Format.binary64.targetExponent (totalExponent (2 ^ 53) e) = e + (1 : Nat) := by
    rw [totalExponent, Nat.log2_two_pow]
    show max ((53 : Int) + 1 + e - 53) (-1074) = e + (1 : Nat)
    omega
  exact shift_by target

theorem roundWithAccuracy_of_fits {m : Nat} {e : Int} (fits : Fits m e) (s : Sign) (pos : 0 < m) :
    roundWithAccuracy .binary64 s m e .exact = .finite s m e pos := by
  have kept : ExtendedMantissa.roundedMantissa ⟨m, false, false⟩ = m := rfl
  unfold roundWithAccuracy
  rw [shift_of_fits fits pos]
  dsimp only
  rw [kept, shift_of_fits fits pos]
  exact dif_neg (Nat.ne_of_gt pos)

/-- What has more bits than a double is rounded, and may get one bit more by that. -/
theorem roundWithAccuracy_of_more {n k : Nat} {e : Int} (pos : 0 < n) (bits : n.log2 = 52 + k)
    (low : -1074 ≤ e) (s : Sign) :
    ∃ m f pos, roundWithAccuracy .binary64 s n e .exact = .finite s m f pos ∧
      Fits m f ∧ steps m f = steps (rounded n k) (e + k) := by
  obtain ⟨least, most⟩ := rounded_bounds pos bits
  have target : Format.binary64.targetExponent (totalExponent n e) = e + k := by
    show max ((n.log2 : Int) + 1 + e - 53) (-1074) = e + k
    omega
  unfold roundWithAccuracy
  rw [shift_by target]
  dsimp only
  rw [(shifted_repeat n k).rounded]
  by_cases carry : rounded n k = 2 ^ 53
  · rw [carry, shift_carry (by omega)]
    refine ⟨2 ^ 52, e + k + 1, by decide, rfl, ⟨by decide, by omega, .inl (Nat.le_refl _)⟩, ?_⟩
    have exponent : (e + k + 1 + 1074).toNat = (e + k + 1074).toNat + 1 := by omega
    rw [steps, steps, exponent, Nat.pow_succ]
    omega
  · have fits : Fits (rounded n k) (e + k) := ⟨by omega, by omega, .inl least⟩
    have some : rounded n k ≠ 0 := by omega
    rw [shift_of_fits fits (Nat.pos_of_ne_zero some)]
    exact ⟨rounded n k, e + k, Nat.pos_of_ne_zero some, dif_neg some, fits, rfl⟩

/-- However many bits a number has: rounded it is one that fits, of the same sign. -/
theorem round_fits {n : Nat} {e : Int} (pos : 0 < n) (low : -1074 ≤ e) (s : Sign) :
    ∃ m f pos, UnpackedFloat.round .binary64 s n e = .finite s m f pos ∧ Fits m f := by
  obtain ⟨t, target⟩ : ∃ t, t = Format.binary64.targetExponent (totalExponent n e) := ⟨_, rfl⟩
  have amount : t = max ((n.log2 : Int) + 1 + e - 53) (-1074) := target
  unfold UnpackedFloat.round
  rw [← target]
  dsimp only [decreaseExponent]
  by_cases room : t ≤ e
  · -- there is room for all bits, and for more
    have bits : n.log2 + (e - t).toNat ≤ 52 := by omega
    have below : n * 2 ^ (e - t).toNat < 2 ^ 53 := by
      calc n * 2 ^ (e - t).toNat < 2 ^ (n.log2 + 1) * 2 ^ (e - t).toNat :=
            Nat.mul_lt_mul_of_pos_right Nat.lt_log2_self (Nat.two_pow_pos _)
        _ = 2 ^ (n.log2 + 1 + (e - t).toNat) := (Nat.pow_add ..).symm
        _ ≤ 2 ^ 53 := Nat.pow_le_pow_right (by decide) (by omega)
    have least : 2 ^ (n.log2 + (e - t).toNat) ≤ n * 2 ^ (e - t).toNat := by
      rw [Nat.pow_add]
      exact Nat.mul_le_mul_right _ (Nat.log2_self_le (Nat.ne_of_gt pos))
    have full : 2 ^ 52 ≤ n * 2 ^ (e - t).toNat ∨ t = -1074 := by
      by_cases lowest : t = -1074
      · exact .inr lowest
      · have all : n.log2 + (e - t).toNat = 52 := by omega
        exact .inl (all ▸ least)
    have place : e - ((e - t).toNat : Int) = t := by omega
    have fits : Fits (n * 2 ^ (e - t).toNat) t := ⟨below, by omega, full⟩
    rw [place, Nat.shiftLeft_eq]
    exact ⟨_, _, _, roundWithAccuracy_of_fits fits s (Nat.mul_pos pos (Nat.two_pow_pos _)), fits⟩
  · have none : (e - t).toNat = 0 := by omega
    have bits : n.log2 = 52 + (t - e).toNat := by omega
    rw [none, Nat.shiftLeft_zero, Int.natCast_zero, Int.sub_zero]
    obtain ⟨m, f, pos, rounds, fits, -⟩ := roundWithAccuracy_of_more pos bits low s
    exact ⟨m, f, pos, rounds, fits⟩

theorem parts_packed_small {m : Nat} (small : m < 2 ^ 52) (s : Sign) (pos : 0 < m) :
    parts (packed (.finite s m (-1074) pos)) = .finite s m (-1074) pos := by
  have digits : m.log2 < 52 := (Nat.log2_lt (Nat.ne_of_gt pos)).mpr small
  have packs : UnpackedFloat.pack .binary64 (.finite s m (-1074) pos) =
      packComponents .binary64 s 0#11 (BitVec.ofNat 52 m) := by
    have bits : ¬ m.log2 + 1 = Format.binary64.mantissaBits := by
      show ¬ m.log2 + 1 = 53
      omega
    delta UnpackedFloat.pack
    dsimp only
    rw [if_neg (by decide), if_neg bits]
  have mantissa : (BitVec.ofNat 52 m).toNat = m := by
    rw [BitVec.toNat_ofNat]
    exact Nat.mod_eq_of_lt small
  have some : BitVec.ofNat 52 m ≠ 0#52 := fun zero => by
    have := congrArg BitVec.toNat zero
    rw [mantissa] at this
    exact Nat.ne_of_gt pos this
  show UnpackedFloat.unpack .binary64 (UnpackedFloat.pack .binary64 _) = _
  rw [packs]
  delta UnpackedFloat.unpack
  dsimp only
  rw [if_neg (by rw [unpackExponent_packComponents]; decide),
    if_pos (by rw [unpackExponent_packComponents]),
    dif_neg (by rw [unpackMantissa_packComponents]; exact some)]
  refine finite_congr sign_packComponents ?_ ?_
  · rw [unpackMantissa_packComponents]
    exact mantissa
  · rw [unpackExponent_packComponents]
    rfl

theorem parts_packed_large {m : Nat} {e : Int} (large : 971 < e) (s : Sign) (pos : 0 < m) :
    parts (packed (.finite s m e pos)) = .infinity s := by
  have packs : UnpackedFloat.pack .binary64 (.finite s m e pos) = packedInfinity .binary64 s := by
    have beyond : 2 ^ Format.binary64.exponentBits ≤
        (e + Format.binary64.exponentBias +
          Format.binary64.mantissaBitsWithoutImplicit).toNat + 1 := by
      show 2 ^ 11 ≤ (e + (1023 : Nat) + (52 : Nat)).toNat + 1
      omega
    delta UnpackedFloat.pack
    exact if_pos beyond
  show UnpackedFloat.unpack .binary64 (UnpackedFloat.pack .binary64 _) = _
  rw [packs]
  cases s <;> rfl

/-- The double of a number that fits is that number, or infinite where that is too large. -/
theorem parts_packed {m : Nat} {e : Int} (fits : Fits m e) (s : Sign) (pos : 0 < m) :
    parts (packed (.finite s m e pos)) = if e ≤ 971 then .finite s m e pos else .infinity s := by
  by_cases high : e ≤ 971
  · rw [if_pos high]
    by_cases full : 2 ^ 52 ≤ m
    · exact parts_packed_normal ⟨full, fits.below, fits.low, high⟩ s pos
    · obtain rfl : e = -1074 := fits.full.resolve_left full
      exact parts_packed_small (by omega) s pos
  · rw [if_neg high]
    exact parts_packed_large (by omega) s pos

/-! Differences. -/

/-- The place of a result is on the side of zero that its sign says. -/
theorem place_packed {m : Nat} {e : Int} (fits : Fits m e) (s : Sign) (pos : 0 < m) :
    ∃ p, place? (parts (packed (.finite s m e pos))) = some p ∧ 0 < s.apply p := by
  have value := steps_pos e pos
  have wide : 0 < endless := Nat.two_pow_pos _
  by_cases high : e ≤ 971
  · rw [parts_packed fits, if_pos high]
    exact ⟨_, rfl, by cases s <;> simp only [Sign.apply] <;> omega⟩
  · rw [parts_packed fits, if_neg high]
    exact ⟨_, rfl, by cases s <;> simp only [Sign.apply] <;> omega⟩

theorem place_infinity (s : Sign) :
    place? (parts (packed (.infinity s))) = some (s.apply endless) := by
  cases s <;> rfl

theorem place_normalize {e : Int} (z : Int) (low : -1074 ≤ e) :
    ∃ p, place? (parts (packed (UnpackedFloat.normalize .binary64 z e .positive))) = some p ∧
      (p < 0 ↔ z < 0) ∧ (0 < p ↔ 0 < z) := by
  rcases Int.lt_trichotomy z 0 with below | rfl | above
  · obtain ⟨m, f, pos, rounds, fits⟩ := round_fits (n := (-z).toNat) (by omega) low .negative
    obtain ⟨p, place, side⟩ := place_packed fits .negative pos
    have same : UnpackedFloat.normalize .binary64 z e .positive = .finite .negative m f pos := by
      rw [UnpackedFloat.normalize, Int.compare_eq_lt.mpr below]
      exact rounds
    rw [same]
    simp only [Sign.apply] at side
    exact ⟨p, place, by omega, by omega⟩
  · have same : UnpackedFloat.normalize .binary64 0 e .positive = .zero .positive := by
      rw [UnpackedFloat.normalize, Int.compare_eq_eq.mpr rfl]
    rw [same]
    exact ⟨0, rfl, Iff.rfl, Iff.rfl⟩
  · obtain ⟨m, f, pos, rounds, fits⟩ := round_fits (n := z.toNat) (by omega) low .positive
    obtain ⟨p, place, side⟩ := place_packed fits .positive pos
    have same : UnpackedFloat.normalize .binary64 z e .positive = .finite .positive m f pos := by
      rw [UnpackedFloat.normalize, Int.compare_eq_gt.mpr above]
      exact rounds
    rw [same]
    simp only [Sign.apply] at side
    exact ⟨p, place, by omega, by omega⟩

/-- A value is the same count of steps at a lower exponent. -/
theorem steps_eq_shift {e low : Int} (m : Nat) (least : -1074 ≤ low) (lower : low ≤ e) :
    steps m e = steps (m <<< (e - low).toNat) low := by
  have exponents : (e + 1074).toNat = (e - low).toNat + (low + 1074).toNat := by omega
  rw [steps, steps, Nat.shiftLeft_eq, exponents, Nat.pow_add, Nat.mul_assoc]

theorem apply_steps (s : Sign) (m : Nat) (e : Int) :
    s.apply (steps m e) = s.apply m * (2 ^ (e + 1074).toNat : Nat) := by
  cases s <;> simp only [Sign.apply, steps, Int.natCast_mul, Int.neg_mul]

theorem place_sub_finite {s t : Sign} {m n : Nat} {e f : Int} {pos : 0 < m} {pos' : 0 < n}
    (fits : Fits m e) (fits' : Fits n f) :
    ∃ p, place? (parts (packed (UnpackedFloat.sub .binary64 (.finite s m e pos)
        (.finite t n f pos')))) = some p ∧
      (p < 0 ↔ s.apply (steps m e) < t.apply (steps n f)) ∧
      (0 < p ↔ t.apply (steps n f) < s.apply (steps m e)) := by
  have least : -1074 ≤ min e f := by
    have := fits.low
    have := fits'.low
    omega
  have unit : (0 : Int) < (2 ^ (min e f + 1074).toNat : Nat) :=
    Int.natCast_pos.mpr (Nat.two_pow_pos _)
  obtain ⟨p, place, below, above⟩ := place_normalize
    (s.apply (m <<< (e - min e f).toNat : Nat) - t.apply (n <<< (f - min e f).toNat : Nat)) least
  refine ⟨p, place, ?_, ?_⟩
  · rw [below, steps_eq_shift m least (Int.min_le_left e f),
      steps_eq_shift n least (Int.min_le_right e f), apply_steps, apply_steps,
      Int.mul_lt_mul_right unit]
    omega
  · rw [above, steps_eq_shift m least (Int.min_le_left e f),
      steps_eq_shift n least (Int.min_le_right e f), apply_steps, apply_steps,
      Int.mul_lt_mul_right unit]
    omega

/-- The difference of two doubles is on the side of zero on which they stand to each other;
only two equal infinities have none. -/
theorem place_sub {x y : Float} {a b : Int} (first : place? (parts x) = some a)
    (second : place? (parts y) = some b) (apart : ¬ (x.isInf = true ∧ a = b)) :
    ∃ p, place? (parts (x - y)) = some p ∧ (p < 0 ↔ a < b) ∧ (0 < p ↔ b < a) := by
  have wide : 0 < endless := Nat.two_pow_pos _
  have fit := fit_parts x
  have fit' := fit_parts y
  change ¬ ((parts x).isInf = true ∧ a = b) at apart
  show ∃ p, place? (parts (packed (UnpackedFloat.sub .binary64 (parts x) (parts y)))) = some p ∧ _
  generalize parts x = u at first fit apart
  generalize parts y = v at second fit'
  -- only two finite numbers are really subtracted
  cases u with
  | notANumber => cases first
  | infinity s =>
      cases first
      cases v with
      | notANumber => cases second
      | infinity t =>
          cases second
          cases s <;> cases t
          case negative.positive =>
            exact ⟨_, place_infinity .negative, by simp only [Sign.apply]; omega⟩
          case positive.negative =>
            exact ⟨_, place_infinity .positive, by simp only [Sign.apply]; omega⟩
          all_goals exact absurd ⟨rfl, rfl⟩ apart
      | zero t | finite t n f pos =>
          have inside := within_endless fit' second
          refine ⟨_, place_infinity s, ?_⟩
          cases s <;> simp only [Sign.apply] <;> omega
  | zero s =>
      cases v with
      | notANumber => cases second
      | infinity t =>
          cases first
          cases second
          refine ⟨_, place_infinity (-t), ?_⟩
          cases t <;> simp only [Sign.apply] <;> omega
      | zero t =>
          cases first
          cases second
          cases s <;> cases t <;> exact ⟨0, rfl, by omega⟩
      | finite t n f pos =>
          obtain ⟨p, place, side⟩ := place_packed fit'.1 (-t) pos
          have value := steps_pos f pos
          cases first
          cases second
          refine ⟨p, place, ?_⟩
          cases t <;> simp only [Sign.apply] at side ⊢ <;> omega
  | finite s m e pos =>
      cases v with
      | notANumber => cases second
      | infinity t =>
          have inside := within_endless fit first
          cases second
          refine ⟨_, place_infinity (-t), ?_⟩
          cases t <;> simp only [Sign.apply] <;> omega
      | zero t =>
          obtain ⟨p, place, side⟩ := place_packed fit.1 s pos
          have value := steps_pos e pos
          cases first
          cases second
          refine ⟨p, place, ?_⟩
          cases s <;> simp only [Sign.apply] at side ⊢ <;> omega
      | finite t n f pos' =>
          cases first
          cases second
          exact place_sub_finite fit.1 fit'.1

end Double

end Loom
