import Mathlib.Data.List.Sort
import Loom.Interpreter
import Loom.Proofs.Magnitude
import Loom.Proofs.Steps

/-!
Counting by one. A whole number and one is the double nearest to their sum, so the numbers
of a range go up by one up to `2 ^ 53` and stand still behind it. A range ends if and only
if there is no number in it that stands still.
-/

namespace Loom

namespace Double

open Float.Model
open Float.Model.UnpackedFloat

/-! Whole numbers, counted in steps. -/

theorem steps_natural (m k : Nat) : steps m k = m * 2 ^ k * steps 1 0 := by
  have exponent : ((k : Int) + 1074).toNat = k + ((0 : Int) + 1074).toNat := by omega
  rw [steps, steps, exponent, Nat.pow_add, Nat.one_mul, Nat.mul_assoc]

theorem steps_inj {m n : Nat} {e : Int} (same : steps m e = steps n e) : m = n :=
  Nat.mul_right_cancel (Nat.two_pow_pos _) same

theorem steps_whole (n : Nat) : steps n 0 = n * steps 1 0 := by
  rw [steps, steps, Nat.one_mul]

/-- A fraction of `n` parts in `2 ^ k`. -/
theorem steps_fraction (n : Nat) {k : Nat} (low : k ≤ 1074) :
    steps (n * 2 ^ k) (-(k : Int)) = n * steps 1 0 := by
  have exponent : ((0 : Int) + 1074).toNat = k + (-(k : Int) + 1074).toNat := by omega
  rw [steps, steps, exponent, Nat.pow_add, Nat.one_mul, Nat.mul_assoc]

theorem signed_eq_apply (s : Sign) (n : Nat) :
    (if isNegative s then -(n : Int) else n) = s.apply n := by
  cases s <;> rfl

theorem apply_mul (s : Sign) (n k : Nat) : s.apply (n * k : Nat) = s.apply n * k := by
  cases s <;> simp only [Sign.apply, Int.natCast_mul, Int.neg_mul]

theorem steps_of_whole? {s : Sign} {m : Nat} {e z : Int} (low : -1074 ≤ e)
    (known : Dyadic.whole? ⟨isNegative s, m, e⟩ = some z) :
    s.apply (steps m e) = z * steps 1 0 := by
  obtain ⟨n, signed, ⟨k, rfl, rfl⟩ | ⟨k, scaled, rfl, rfl⟩⟩ := whole?_eq s m e z known
  · rw [steps_natural, apply_mul, signed, signed_eq_apply]
  · rw [steps_fraction _ (by omega), apply_mul, signed, signed_eq_apply]

theorem unit_pos : (0 : Int) < steps 1 0 := Int.natCast_pos.mpr (steps_pos 0 Nat.one_pos)

theorem signed_whole {s : Sign} {n : Nat} {v : Int} (value : s.apply n = v * steps 1 0) :
    n = v.natAbs * steps 1 0 ∧ s.apply v.natAbs = v := by
  have amount : n = v.natAbs * steps 1 0 := by
    have sizes := congrArg Int.natAbs value
    rw [Int.natAbs_mul, Int.natAbs_natCast] at sizes
    rw [← sizes]
    cases s <;> simp [Sign.apply]
  rw [amount, apply_mul] at value
  exact ⟨amount, Int.eq_of_mul_eq_mul_right (Int.ne_of_gt unit_pos) value⟩

/-- What comes to a whole number of units is a whole number. -/
theorem exists_whole? {s : Sign} {m : Nat} {e z : Int} (low : -1074 ≤ e)
    (value : s.apply (steps m e) = z * steps 1 0) :
    ∃ w, Dyadic.whole? ⟨isNegative s, m, e⟩ = some w := by
  unfold Dyadic.whole?
  dsimp only
  split
  · exact ⟨_, rfl⟩
  · rename_i scaled
    obtain ⟨k, rfl⟩ : ∃ k : Nat, e = -(k : Int) := ⟨(-e).toNat, by omega⟩
    have fraction : (- -(k : Int)).toNat = k := by omega
    have amount := (signed_whole value).1
    have whole : m = z.natAbs * 2 ^ k := by
      rw [← steps_fraction z.natAbs (k := k) (by omega)] at amount
      exact steps_inj amount
    have divides : m % twoTo (- -(k : Int)).toNat = 0 := by
      rw [fraction, whole]
      exact Nat.mul_mod_left z.natAbs (2 ^ k)
    rw [if_pos divides]
    exact ⟨_, rfl⟩

/-- A double is the whole number that it has the steps of. -/
theorem wholeOf?_iff_steps {x : Float} {z : Int} :
    wholeOf? x = some z ↔ steps? (parts x) = some (z * steps 1 0) := by
  rw [wholeOf?, ofFloat?_eq]
  cases shape : parts x with
  | notANumber | infinity s =>
      refine iff_of_false (fun found => ?_) (fun found => ?_)
      · cases found
      · cases found
  | zero s =>
      rw [dyadic?_zero, Option.bind_some, whole?_zero, steps?_zero, Option.some.injEq,
        Option.some.injEq]
      have unit := unit_pos
      constructor
      · rintro rfl
        exact (Int.zero_mul _).symm
      · intro none
        exact ((Int.mul_eq_zero.mp none.symm).resolve_right (by omega)).symm
  | finite s m e pos =>
      have low := (fits_of_parts shape).1.low
      rw [dyadic?_finite, Option.bind_some, steps?_finite, Option.some.injEq]
      constructor
      · exact steps_of_whole? low
      · intro value
        obtain ⟨w, known⟩ := exists_whole? low value
        have same := (steps_of_whole? low known).symm.trans value
        rw [known, Int.eq_of_mul_eq_mul_right (Int.ne_of_gt unit_pos) same]

/-! The nearest double. -/

theorem rounded_zero (n : Nat) : rounded n 0 = n := by
  simp [rounded, Nat.mod_one]

theorem rounded_scale (n k a : Nat) : rounded (n * 2 ^ a) (k + a) = rounded n k := by
  have unit := Nat.two_pow_pos a
  have rest : n * 2 ^ a % 2 ^ (k + a) = n % 2 ^ k * 2 ^ a := by
    rw [Nat.pow_add, Nat.mul_mod_mul_right]
  have quotient : n * 2 ^ a / 2 ^ (k + a) = n / 2 ^ k := by
    rw [Nat.pow_add, Nat.mul_div_mul_right _ _ unit]
  have below : n % 2 ^ k * 2 ^ a * 2 < 2 ^ (k + a) ↔ n % 2 ^ k * 2 < 2 ^ k := by
    rw [Nat.pow_add, Nat.mul_right_comm, Nat.mul_lt_mul_right unit]
  have tie : n % 2 ^ k * 2 ^ a * 2 = 2 ^ (k + a) ↔ n % 2 ^ k * 2 = 2 ^ k := by
    rw [Nat.pow_add, Nat.mul_right_comm, Nat.mul_left_inj (Nat.ne_of_gt unit)]
  simp only [rounded, rest, quotient, below, tie]

/-- The double nearest to a whole number, but for how large it may be. -/
def nearest (w : Nat) : Nat := rounded w (w.log2 - 52) * 2 ^ (w.log2 - 52)

theorem nearest_small {w : Nat} (small : w < 2 ^ 53) : nearest w = w := by
  have bits : w.log2 - 52 = 0 := by
    by_cases zero : w = 0
    · rw [zero]
      rfl
    · have := (Nat.log2_lt zero).mpr small
      omega
  rw [nearest, bits, rounded_zero, Nat.pow_zero, Nat.mul_one]

/-- A whole number with 52 more bits is rounded to its nearest double. -/
theorem steps_nearest (w : Nat) :
    steps (rounded (w * 2 ^ 52) w.log2) (-52 + w.log2) = steps (nearest w) 0 := by
  by_cases small : w.log2 ≤ 52
  · obtain ⟨k, bits⟩ : ∃ k, 52 = k + w.log2 := ⟨52 - w.log2, by omega⟩
    have none : w.log2 - 52 = 0 := by omega
    have scaled : w * 2 ^ 52 = w * 2 ^ k * 2 ^ w.log2 := by
      rw [Nat.mul_assoc, ← Nat.pow_add, ← bits]
    have low : (-52 : Int) + w.log2 = -(k : Int) := by omega
    have rounds := rounded_scale (w * 2 ^ k) 0 w.log2
    rw [Nat.zero_add, rounded_zero] at rounds
    rw [nearest, none, rounded_zero, Nat.pow_zero, Nat.mul_one, scaled, rounds, low,
      steps_fraction w (by omega), ← steps_whole]
  · obtain ⟨j, bits⟩ : ∃ j, w.log2 = j + 52 := ⟨w.log2 - 52, by omega⟩
    have high : (-52 : Int) + (j + 52 : Nat) = j := by omega
    rw [nearest, bits, rounded_scale, Nat.add_sub_cancel, high, steps_natural,
      ← steps_whole]

/-- What has all bits of a double needs no more to be rounded. -/
theorem round_deep {n : Nat} {e : Int} (bits : 52 ≤ n.log2) (s : Sign) :
    UnpackedFloat.round .binary64 s n e = roundWithAccuracy .binary64 s n e .exact := by
  have target : (e - Format.binary64.targetExponent (totalExponent n e)).toNat = 0 := by
    show (e - max ((n.log2 : Int) + 1 + e - 53) (-1074)).toNat = 0
    omega
  unfold UnpackedFloat.round
  dsimp only [decreaseExponent]
  rw [target, Nat.shiftLeft_zero, Int.natCast_zero, Int.sub_zero]

theorem high_of_steps {m : Nat} {e : Int} (fits : Fits m e) (finite : steps m e < endless) :
    e ≤ 971 := by
  apply Int.not_lt.mp
  intro large
  have full : 2 ^ 52 ≤ m := fits.full.resolve_right (by omega)
  have top : 1 + topExponent ≤ (e + 1074).toNat := by
    unfold topExponent
    omega
  have above : endless ≤ steps m e := by
    calc endless = 2 ^ 52 * 2 ^ (1 + topExponent) := by
          rw [endless, ← Nat.pow_add, ← Nat.add_assoc]
      _ ≤ steps m e := Nat.mul_le_mul full (Nat.pow_le_pow_right (by decide) top)
  omega

/-- The double of a whole number with its sign, as long as it is not too large. -/
theorem round_whole {w : Nat} (pos : 0 < w) (s : Sign) (finite : steps (nearest w) 0 < endless) :
    steps? (parts (packed (UnpackedFloat.round .binary64 s (w * 2 ^ 52) (-52)))) =
      some (s.apply (nearest w) * steps 1 0) := by
  have log : (w * 2 ^ 52).log2 = 52 + w.log2 := by
    have some : w * 2 ^ 52 ≠ 0 := by omega
    have least := Nat.log2_self_le (Nat.ne_of_gt pos)
    have below : w < 2 ^ (w.log2 + 1) := Nat.lt_log2_self
    rw [Nat.log2_eq_iff some]
    constructor
    · rw [Nat.add_comm, Nat.pow_add]
      exact Nat.mul_le_mul_right _ least
    · rw [show 52 + w.log2 + 1 = w.log2 + 1 + 52 by omega, Nat.pow_add]
      exact Nat.mul_lt_mul_of_pos_right below (Nat.two_pow_pos 52)
  obtain ⟨m, f, pos', rounds, fits, value⟩ :=
    roundWithAccuracy_of_more (e := -52) (Nat.mul_pos pos (Nat.two_pow_pos 52)) log (by decide) s
  rw [steps_nearest] at value
  have high : f ≤ 971 := high_of_steps fits (Nat.lt_of_le_of_lt (Nat.le_of_eq value) finite)
  rw [round_deep (by omega), rounds, parts_packed fits, if_pos high, steps?_finite, value,
    steps_whole, apply_mul]

/-! One more. -/

/-- What a whole number and one make. -/
def next (v : Int) : Int := (v + 1).sign * nearest (v + 1).natAbs

theorem parts_one : parts 1 = .finite .positive (2 ^ 52) (-52) (by decide) := by rfl

/-- A finite whole number has no bits below those of one. -/
theorem low_of_whole {m n : Nat} {e : Int} (fits : Fits m e) (pos : 0 < n)
    (amount : steps m e = n * steps 1 0) : -52 ≤ e := by
  apply Int.not_lt.mp
  intro fraction
  have low := fits.low
  obtain ⟨k, exponent⟩ : ∃ k, ((0 : Int) + 1074).toNat = 53 + (e + 1074).toNat + k :=
    ⟨(-53 - e).toNat, by omega⟩
  have below : steps m e < 2 ^ 53 * 2 ^ (e + 1074).toNat :=
    Nat.mul_lt_mul_of_pos_right fits.below (Nat.two_pow_pos _)
  have unit : 2 ^ 53 * 2 ^ (e + 1074).toNat ≤ steps 1 0 := by
    rw [steps, Nat.one_mul, exponent, ← Nat.pow_add]
    exact Nat.pow_le_pow_right (by decide) (by omega)
  have least : steps 1 0 ≤ n * steps 1 0 := Nat.le_mul_of_pos_left _ pos
  omega

theorem shift_whole {m n : Nat} {e : Int} (low : -52 ≤ e)
    (amount : steps m e = n * steps 1 0) : m <<< (e - -52).toNat = n * 2 ^ 52 := by
  have unit := steps_fraction n (k := 52) (by decide)
  rw [steps_eq_shift m (by decide) low, ← unit] at amount
  exact steps_inj amount

theorem normalize_whole (z : Int) (finite : steps (nearest z.natAbs) 0 < endless) :
    steps? (parts (packed
        (UnpackedFloat.normalize .binary64 (z * (2 ^ 52 : Nat)) (-52) .positive))) =
      some (z.sign * nearest z.natAbs * steps 1 0) := by
  rcases Int.lt_trichotomy z 0 with below | rfl | above
  · have scaled : (-(z * (2 ^ 52 : Nat))).toNat = z.natAbs * 2 ^ 52 := by omega
    have negative : compare (z * (2 ^ 52 : Nat)) 0 = .lt := Int.compare_eq_lt.mpr (by omega)
    simp only [UnpackedFloat.normalize, negative]
    rw [scaled, round_whole (by omega) .negative finite, Int.sign_eq_neg_one_of_neg below,
      Int.neg_one_mul]
    rfl
  · rw [Int.zero_mul, Int.sign_zero, Int.zero_mul, Int.zero_mul]
    rfl
  · have scaled : (z * (2 ^ 52 : Nat)).toNat = z.natAbs * 2 ^ 52 := by omega
    have positive : compare (z * (2 ^ 52 : Nat)) 0 = .gt := Int.compare_eq_gt.mpr (by omega)
    simp only [UnpackedFloat.normalize, positive]
    rw [scaled, round_whole (by omega) .positive finite, Int.sign_eq_one_of_pos above,
      Int.one_mul]
    rfl

theorem wholeOf?_add_one {x : Float} {v : Int} (known : wholeOf? x = some v)
    (finite : steps (nearest (v + 1).natAbs) 0 < endless) :
    wholeOf? (x + 1) = some (next v) := by
  rw [wholeOf?_iff_steps] at known ⊢
  show steps? (parts (packed (UnpackedFloat.add .binary64 (parts x) (parts 1)))) = _
  rw [parts_one]
  cases shape : parts x with
  | notANumber | infinity s =>
      rw [shape] at known
      cases known
  | zero s =>
      have nought : v = 0 := by
        rw [← wholeOf?_iff_steps, wholeOf?, ofFloat?_eq, shape, dyadic?_zero, Option.bind_some,
          whole?_zero] at known
        exact (Option.some.inj known).symm
      subst nought
      have one : next 0 = 1 := by
        rw [next, nearest_small (by decide)]
        rfl
      have fits : Fits (2 ^ 52) (-52) := ⟨by decide, by decide, .inl (Nat.le_refl _)⟩
      have unit := steps_fraction 1 (k := 52) (by decide)
      rw [Nat.one_mul, Nat.one_mul] at unit
      have sum : UnpackedFloat.add .binary64 (.zero s)
          (.finite .positive (2 ^ 52) (-52) (by decide)) =
          .finite .positive (2 ^ 52) (-52) (by decide) := rfl
      rw [sum, parts_packed fits, if_pos (by decide), one, Int.one_mul, ← unit]
      rfl
  | finite s m e pos =>
      -- in units of 2 ^ -52 the sum of both is exact, and then it is rounded
      have fits := (fits_of_parts shape).1
      rw [shape] at known
      obtain ⟨amount, signed⟩ := signed_whole (Option.some.inj known)
      have some : 0 < v.natAbs := by
        have := steps_pos e pos
        apply Nat.pos_of_ne_zero
        intro none
        rw [none, Nat.zero_mul] at amount
        omega
      have low := low_of_whole fits some amount
      have shifted := shift_whole low amount
      have least : min e (-52) = -52 := Int.min_eq_right low
      have sum : s.apply (v.natAbs * 2 ^ 52 : Nat) + (2 ^ 52 : Nat) = (v + 1) * (2 ^ 52 : Nat) := by
        rw [apply_mul, signed, Int.add_mul, Int.one_mul]
      have added : UnpackedFloat.add .binary64 (.finite s m e pos)
          (.finite .positive (2 ^ 52) (-52) (by decide)) =
          UnpackedFloat.normalize .binary64
            (s.apply (m <<< (e - min e (-52)).toNat : Nat) +
              Sign.positive.apply (2 ^ 52 <<< (-52 - min e (-52)).toNat : Nat))
            (min e (-52)) .positive := rfl
      rw [added, least, next, ← normalize_whole _ finite, ← sum, ← shifted]
      rfl

theorem nearest_of_log {w j : Nat} (pos : w ≠ 0) (least : 2 ^ (52 + j) ≤ w)
    (below : w < 2 ^ (53 + j)) : nearest w = rounded w j * 2 ^ j := by
  have log : w.log2 = 52 + j := (Nat.log2_eq_iff pos).mpr
    ⟨least, Nat.lt_of_lt_of_eq below (congrArg _ (by omega))⟩
  rw [nearest, log, Nat.add_sub_cancel_left]

theorem rounded_of_rest (q : Nat) {r j : Nat} (rest : r < 2 ^ j) :
    rounded (q * 2 ^ j + r) j =
      if r * 2 < 2 ^ j then q else if r * 2 = 2 ^ j then q + q % 2 else q + 1 := by
  have remainder : (q * 2 ^ j + r) % 2 ^ j = r := by
    rw [Nat.mul_add_mod_self_right, Nat.mod_eq_of_lt rest]
  have quotient : (q * 2 ^ j + r) / 2 ^ j = q := by
    rw [Nat.mul_comm, Nat.mul_add_div (Nat.two_pow_pos j), Nat.div_eq_of_lt rest, Nat.add_zero]
  rw [rounded, remainder, quotient]

/-- What is nearest to a number that has more bits than a double. -/
theorem nearest_of_rest {q r j : Nat} (least : 2 ^ 52 ≤ q) (below : q < 2 ^ 53)
    (rest : r < 2 ^ j) :
    nearest (q * 2 ^ j + r) =
      (if r * 2 < 2 ^ j then q else if r * 2 = 2 ^ j then q + q % 2 else q + 1) * 2 ^ j := by
  have low : 2 ^ 52 * 2 ^ j ≤ q * 2 ^ j := Nat.mul_le_mul_right _ least
  have high : (q + 1) * 2 ^ j ≤ 2 ^ 53 * 2 ^ j := Nat.mul_le_mul_right _ below
  have unit : 0 < 2 ^ j := Nat.two_pow_pos j
  rw [Nat.add_mul, Nat.one_mul] at high
  rw [nearest_of_log (j := j) (by omega) (by rw [Nat.pow_add]; omega)
    (by rw [Nat.pow_add]; omega), rounded_of_rest q rest]

/-- One more than a large double is nearest to it, or half way to the next one. -/
theorem nearest_above {q j : Nat} (least : 2 ^ 52 ≤ q) (below : q < 2 ^ 53) (some : 0 < j) :
    nearest (q * 2 ^ j + 1) = if j = 1 then q * 2 + 2 * (q % 2) else q * 2 ^ j := by
  have unit : 2 ≤ 2 ^ j := Nat.le_self_pow (by omega) 2
  rw [nearest_of_rest least below (by omega)]
  by_cases one : j = 1
  · subst one
    rw [if_neg (by decide), if_pos (by decide), if_pos rfl]
    omega
  · have wide : 2 ^ 2 ≤ 2 ^ j := Nat.pow_le_pow_right (by decide) (by omega)
    rw [if_pos (by omega), if_neg one]

/-- One less than a large double is nearest to it, or half way to the one before. -/
theorem nearest_below {q j : Nat} (least : 2 ^ 52 < q) (most : q ≤ 2 ^ 53) (some : 0 < j) :
    nearest (q * 2 ^ j - 1) = if j = 1 then q * 2 - 2 * (q % 2) else q * 2 ^ j := by
  have unit : 2 ≤ 2 ^ j := Nat.le_self_pow (by omega) 2
  have low : 1 * 2 ^ j ≤ q * 2 ^ j := Nat.mul_le_mul_right _ (by omega)
  have apart : q * 2 ^ j - 1 = (q - 1) * 2 ^ j + (2 ^ j - 1) := by
    rw [Nat.sub_mul]
    omega
  rw [apart, nearest_of_rest (by omega) (by omega) (by omega)]
  by_cases one : j = 1
  · subst one
    rw [if_neg (by decide), if_pos (by decide), if_pos rfl]
    omega
  · have wide : 2 ^ 2 ≤ 2 ^ j := Nat.pow_le_pow_right (by decide) (by omega)
    rw [if_neg (by omega), if_neg (by omega), if_neg one, Nat.sub_add_cancel (by omega)]

/-- A large double has all its bits, and none below that of two. -/
theorem held_large {x : Float} {v : Int} (known : wholeOf? x = some v)
    (large : 2 ^ 53 ≤ v.natAbs) :
    ∃ q j : Nat, 0 < j ∧ 2 ^ 52 ≤ q ∧ q < 2 ^ 53 ∧ v.natAbs = q * 2 ^ j := by
  rcases amount_of_whole known with ⟨rfl, -⟩ | ⟨s, m, e, pos, n, held⟩
  · exact absurd large (by decide)
  · obtain ⟨least, below, low, -⟩ := held.normal
    rw [wholeOf?_iff_steps, held.parts] at known
    obtain ⟨amount, -⟩ := signed_whole (Option.some.inj known)
    by_cases high : 0 < e
    · obtain ⟨j, rfl⟩ : ∃ j : Nat, e = j := ⟨e.toNat, by omega⟩
      rw [steps_natural] at amount
      have unit : 0 < steps 1 0 := steps_pos 0 Nat.one_pos
      exact ⟨m, j, by omega, least, below, (Nat.mul_right_cancel unit amount).symm⟩
    · obtain ⟨k, rfl⟩ : ∃ k : Nat, e = -(k : Int) := ⟨(-e).toNat, by omega⟩
      rw [← steps_fraction _ (k := k) (by omega)] at amount
      have same := steps_inj amount
      have room : v.natAbs ≤ v.natAbs * 2 ^ k := Nat.le_mul_of_pos_right _ (Nat.two_pow_pos k)
      omega

theorem nearest_top : nearest (2 ^ 53) = 2 ^ 53 := by
  have whole : nearest (2 ^ 52 * 2 ^ 1 + 0) = _ :=
    nearest_of_rest (by decide) (by decide) (by decide)
  simpa using whole

theorem next_of_small {v : Int} (low : -2 ^ 53 ≤ v) (high : v < 2 ^ 53) : next v = v + 1 := by
  have exact : nearest (v + 1).natAbs = (v + 1).natAbs := by
    by_cases top : (v + 1).natAbs = 2 ^ 53
    · rw [top, nearest_top]
    · exact nearest_small (by omega)
  rw [next, exact, Int.sign_mul_natAbs]

/-- What adding one to a double that is a whole number comes to. -/
theorem next_cases {x : Float} {v : Int} (known : wholeOf? x = some v) :
    (-2 ^ 53 ≤ v ∧ v < 2 ^ 53 ∧ next v = v + 1) ∨
    (v % 4 = 2 ∧ 2 ^ 53 < v.natAbs ∧ v.natAbs < 2 ^ 54 ∧ next v = v + 2) ∨
    ((2 ^ 53 ≤ v ∨ v < -2 ^ 53) ∧ (2 ^ 54 ≤ v.natAbs ∨ v % 4 = 0) ∧ next v = v) := by
  by_cases small : -2 ^ 53 ≤ v ∧ v < 2 ^ 53
  · exact .inl ⟨small.1, small.2, next_of_small small.1 small.2⟩
  · obtain ⟨q, j, some, least, below, amount⟩ := held_large known (by omega)
    refine .inr ?_
    by_cases above : 0 < v
    · have more : (v + 1).natAbs = q * 2 ^ j + 1 := by omega
      have up : next v = nearest (q * 2 ^ j + 1) := by
        rw [next, more, Int.sign_eq_one_of_pos (by omega), Int.one_mul]
      rw [nearest_above least below some] at up
      by_cases one : j = 1
      · subst one
        rw [if_pos rfl] at up
        by_cases odd : q % 2 = 1
        · exact .inl (by omega)
        · exact .inr (by omega)
      · have wide : 2 ^ 2 ≤ 2 ^ j := Nat.pow_le_pow_right (by decide) (by omega)
        have large : 2 ^ 52 * 2 ^ 2 ≤ q * 2 ^ j := Nat.mul_le_mul least wide
        rw [if_neg one] at up
        exact .inr (by omega)
    · -- below a power of two the doubles are closer to each other than above it
      obtain ⟨p, i, some', least', most, amount'⟩ :
          ∃ p i : Nat, 0 < i ∧ 2 ^ 52 < p ∧ p ≤ 2 ^ 53 ∧ v.natAbs = p * 2 ^ i := by
        by_cases power : q = 2 ^ 52
        · obtain ⟨i, rfl⟩ : ∃ i, j = i + 1 := ⟨j - 1, by omega⟩
          have twice : v.natAbs = 2 ^ 53 * 2 ^ i := by
            rw [amount, power, Nat.pow_succ]
            omega
          have some' : i ≠ 0 := by
            rintro rfl
            omega
          exact ⟨2 ^ 53, i, by omega, by decide, Nat.le_refl _, twice⟩
        · exact ⟨q, j, some, by omega, by omega, amount⟩
      have less : (v + 1).natAbs = p * 2 ^ i - 1 := by omega
      have down : next v = -nearest (p * 2 ^ i - 1) := by
        rw [next, less, Int.sign_eq_neg_one_of_neg (by omega), Int.neg_one_mul]
      rw [nearest_below least' most some'] at down
      by_cases one : i = 1
      · subst one
        rw [if_pos rfl] at down
        by_cases odd : p % 2 = 1
        · exact .inl (by omega)
        · exact .inr (by omega)
      · have wide : 2 ^ 2 ≤ 2 ^ i := Nat.pow_le_pow_right (by decide) (by omega)
        have large : 2 ^ 52 * 2 ^ 2 ≤ p * 2 ^ i := Nat.mul_le_mul (by omega) wide
        rw [if_neg one] at down
        exact .inr (by omega)

theorem whole_lt_endless {x : Float} {v : Int} (known : wholeOf? x = some v) :
    steps v.natAbs 0 < endless := by
  rcases amount_of_whole known with ⟨rfl, -⟩ | ⟨s, m, e, pos, n, held⟩
  · rw [Int.natAbs_zero, steps_whole, Nat.zero_mul]
    exact Nat.two_pow_pos _
  · have fits := fits_of_parts held.parts
    rw [wholeOf?_iff_steps, held.parts] at known
    obtain ⟨amount, -⟩ := signed_whole (Option.some.inj known)
    rw [steps_whole, ← amount]
    exact steps_lt_endless fits.1 fits.2

theorem small_lt_endless {w : Nat} (small : w ≤ 2 ^ 54) : steps w 0 < endless := by
  have room : 54 + ((0 : Int) + 1074).toNat < 53 + topExponent := by
    unfold topExponent
    decide
  have unit : steps 1 0 = 2 ^ ((0 : Int) + 1074).toNat := by rw [steps, Nat.one_mul]
  calc steps w 0 = w * steps 1 0 := steps_whole w
    _ ≤ 2 ^ 54 * steps 1 0 := Nat.mul_le_mul_right _ small
    _ = 2 ^ (54 + ((0 : Int) + 1074).toNat) := by rw [unit, ← Nat.pow_add]
    _ < endless := Nat.pow_lt_pow_right (by decide) room

/-- A whole number and one make a whole number. -/
theorem wholeOf?_next {x : Float} {v : Int} (known : wholeOf? x = some v) :
    wholeOf? (x + 1) = some (next v) := by
  refine wholeOf?_add_one known ?_
  by_cases none : v + 1 = 0
  · rw [none, Int.natAbs_zero, nearest_small (by decide)]
    exact small_lt_endless (by decide)
  · have amount : nearest (v + 1).natAbs = (next v).natAbs := by
      rw [next, Int.natAbs_mul, Int.natAbs_sign_of_ne_zero none, Nat.one_mul, Int.natAbs_natCast]
    rw [amount]
    rcases next_cases known with ⟨low, high, more⟩ | ⟨even, -, high, more⟩ | ⟨-, -, same⟩
    · exact small_lt_endless (by omega)
    · exact small_lt_endless (by omega)
    · rw [same]
      exact whole_lt_endless known

/-- Whether adding one to a number leaves it as it is. -/
def Stuck (z : Float) : Prop := (z + 1 == z) = true

theorem place_of_whole {x : Float} {v : Int} (known : wholeOf? x = some v) :
    place? (parts x) = some (v * steps 1 0) := by
  have value := wholeOf?_iff_steps.mp known
  cases shape : parts x with
  | notANumber | infinity s =>
      rw [shape] at value
      cases value
  | zero s | finite s m e pos =>
      rw [shape] at value
      exact value

theorem stuck_iff_next {z : Float} {c : Int} (known : wholeOf? z = some c) :
    Stuck z ↔ next c = c := by
  rw [Stuck, beq_iff_place (place_of_whole (wholeOf?_next known)) (place_of_whole known)]
  exact Int.mul_eq_mul_right_iff (Int.ne_of_gt unit_pos)

theorem le_iff_wholes {x y : Float} {a b : Int} (first : wholeOf? x = some a)
    (last : wholeOf? y = some b) : x ≤ y ↔ a ≤ b := by
  rw [le_iff_place (place_of_whole first) (place_of_whole last)]
  exact Int.mul_le_mul_right unit_pos

/-- The numbers at which counting by one stands still. -/
theorem stuck_iff {z : Float} {c : Int} (known : wholeOf? z = some c) :
    Stuck z ↔ (2 ^ 53 ≤ c ∨ c < -2 ^ 53) ∧ (2 ^ 54 ≤ c.natAbs ∨ c % 4 = 0) := by
  rw [stuck_iff_next known]
  rcases next_cases known with ⟨low, high, more⟩ | ⟨odd, low, high, more⟩ | ⟨far, still, same⟩
  · exact iff_of_false (by omega) (by omega)
  · exact iff_of_false (by omega) (by omega)
  · exact iff_of_true same ⟨far, still⟩

/-- No double is between a whole number that does not stand still and the next one. -/
theorem next_le {x z : Float} {a c : Int} (first : wholeOf? x = some a)
    (second : wholeOf? z = some c) (less : a < c) : next a ≤ c := by
  rcases next_cases first with ⟨-, -, more⟩ | ⟨even, low, high, more⟩ | ⟨-, -, same⟩
  · omega
  · -- the only whole number that is passed over is odd, and so not a double
    by_cases large : 2 ^ 53 ≤ c.natAbs
    · obtain ⟨q, j, some, least, below, amount⟩ := held_large second large
      obtain ⟨i, rfl⟩ : ∃ i, j = i + 1 := ⟨j - 1, by omega⟩
      rw [Nat.pow_succ, ← Nat.mul_assoc] at amount
      omega
    · omega
  · omega

end Double

open Eval Double

/-- A whole number that is a double. -/
def Held (c : Int) : Prop := ∃ z, wholeOf? z = some c

/-- The whole numbers of these doubles, in ascending order, are those from `a` to `b`
that are doubles. -/
def Covers (a b : Int) (xs : List Float) : Prop :=
  ∃ cs : List Int, xs.map wholeOf? = cs.map some ∧ cs.Pairwise (· < ·) ∧
    ∀ c, c ∈ cs ↔ a ≤ c ∧ c ≤ b ∧ Held c

/-- Counting from `a` to `b` meets a number at which it stands still. -/
def StandsStill (a b : Int) : Prop :=
  ∃ z c, wholeOf? z = some c ∧ a ≤ c ∧ c ≤ b ∧ Stuck z

theorem covers_nothing {a b : Int} (empty : b < a) : Covers a b [] :=
  ⟨[], rfl, .nil, fun c => by simp only [List.not_mem_nil, false_iff]; omega⟩

theorem covers_cons {x : Float} {a b : Int} (held : wholeOf? x = some a) (inside : a ≤ b)
    (moves : a < next a) {xs : List Float} (rest : Covers (next a) b xs) :
    Covers a b (x :: xs) := by
  obtain ⟨cs, wholes, ascending, members⟩ := rest
  refine ⟨a :: cs, by rw [List.map_cons, List.map_cons, held, wholes], ?_, fun c => ?_⟩
  · refine List.pairwise_cons.mpr ⟨fun c later => ?_, ascending⟩
    have := (members c).mp later
    omega
  · rw [List.mem_cons, members]
    constructor
    · rintro (rfl | ⟨low, high, there⟩)
      · exact ⟨Int.le_refl _, inside, x, held⟩
      · exact ⟨by omega, high, there⟩
    · rintro ⟨low, high, z, there⟩
      by_cases first : c = a
      · exact .inl first
      · exact .inr ⟨next_le held there (by omega), high, z, there⟩

namespace Builtin

theorem countUp_inside {x y : Float} {a b : Int} (first : wholeOf? x = some a)
    (last : wholeOf? y = some b) (inside : a ≤ b) (fuel : Nat) (done : Array Slot) :
    countUp y (fuel + 1) x done = countUp y fuel (x + 1) (done.push (some (.ofFloat x))) :=
  if_pos ((le_iff_wholes first last).mpr inside)

theorem countUp_outside {x y : Float} {a b : Int} (first : wholeOf? x = some a)
    (last : wholeOf? y = some b) (outside : b < a) (fuel : Nat) (done : Array Slot) :
    countUp y (fuel + 1) x done = pure done :=
  if_neg fun below => Int.not_le.mpr outside ((le_iff_wholes first last).mp below)

/-- A count that does not stand still ends after as many steps as there are numbers. -/
theorem countUp_ends {y : Float} {b : Int} (last : wholeOf? y = some b) (n : Nat) {x : Float}
    {a : Int} (first : wholeOf? x = some a) (size : (b + 1 - a).toNat ≤ n)
    (free : ¬ StandsStill a b) :
    ∃ xs, Covers a b xs ∧ ∀ fuel done s, n < fuel →
      countUp y fuel x done s = .ok (done ++ (xs.map fun x => some (.ofFloat x)).toArray) s := by
  induction n generalizing x a with
  | zero =>
      refine ⟨[], covers_nothing (by omega), fun fuel done s enough => ?_⟩
      obtain ⟨fuel, rfl⟩ : ∃ k, fuel = k + 1 := ⟨fuel - 1, by omega⟩
      rw [countUp_outside first last (by omega)]
      simp [pure, EStateM.pure]
  | succ n ih =>
      by_cases inside : a ≤ b
      · have moves : a < next a := by
          have moved : ¬ next a = a := fun same =>
            free ⟨x, a, first, Int.le_refl a, inside, (stuck_iff_next first).mpr same⟩
          rcases next_cases first with ⟨-, -, more⟩ | ⟨-, -, -, more⟩ | ⟨-, -, same⟩
          · omega
          · omega
          · exact absurd same moved
        have rest : ¬ StandsStill (next a) b := fun ⟨z, c, held, low, high, stuck⟩ =>
          free ⟨z, c, held, by omega, high, stuck⟩
        obtain ⟨xs, covers, counts⟩ := ih (wholeOf?_next first) (by omega) rest
        refine ⟨x :: xs, covers_cons first inside moves covers, fun fuel done s enough => ?_⟩
        obtain ⟨fuel, rfl⟩ : ∃ k, fuel = k + 1 := ⟨fuel - 1, by omega⟩
        rw [countUp_inside first last inside, counts fuel _ s (by omega)]
        simp
      · refine ⟨[], covers_nothing (by omega), fun fuel done s enough => ?_⟩
        obtain ⟨fuel, rfl⟩ : ∃ k, fuel = k + 1 := ⟨fuel - 1, by omega⟩
        rw [countUp_outside first last (by omega)]
        simp [pure, EStateM.pure]

/-- A count that comes to a number at which it stands still never ends. -/
theorem countUp_stuck {y z : Float} {b c : Int} (last : wholeOf? y = some b)
    (held : wholeOf? z = some c) (inside : c ≤ b) (stuck : Stuck z) (fuel : Nat) {x : Float}
    {a : Int} (first : wholeOf? x = some a) (before : a ≤ c) (done : Array Slot) (s : State) :
    countUp y fuel x done s = .error .outOfFuel s := by
  induction fuel generalizing x a done with
  | zero => rfl
  | succ fuel ih =>
      have later : next a ≤ c := by
        by_cases there : a = c
        · exact Int.le_of_eq (there ▸ (stuck_iff_next held).mp stuck)
        · exact next_le first held (by omega)
      rw [countUp_inside first last (by omega)]
      exact ih (wholeOf?_next first) later _

end Builtin

/-- Whole numbers of up to 53 bits are doubles. -/
theorem held_small {c : Int} (low : -2 ^ 53 ≤ c) (high : c ≤ 2 ^ 53) : Held c := by
  obtain ⟨k, rfl⟩ : ∃ k : Nat, c = -2 ^ 53 + k := ⟨(c + 2 ^ 53).toNat, by omega⟩
  induction k with
  | zero => exact ⟨-9007199254740992, by decide +kernel⟩
  | succ k ih =>
      obtain ⟨z, held⟩ := ih (by omega) (by omega)
      have one := next_of_small (v := -2 ^ 53 + k) (by omega) (by omega)
      have up := wholeOf?_next held
      rw [one, Int.add_assoc] at up
      exact ⟨z + 1, up⟩

/-- The whole numbers from `a` to `b`. -/
def wholes (a b : Int) : List Int := (List.range (b + 1 - a).toNat).map fun i : Nat => a + i

theorem covers_all {a b : Int} {xs : List Float} (covers : Covers a b xs)
    (all : ∀ c, a ≤ c → c ≤ b → Held c) : xs.map wholeOf? = (wholes a b).map some := by
  obtain ⟨cs, whole, ascending, members⟩ := covers
  have sorted : (wholes a b).Pairwise (· < ·) :=
    List.pairwise_lt_range.map _ fun i j less => by omega
  have same : cs = wholes a b := by
    refine ascending.eq_of_mem_iff sorted fun c => ?_
    rw [members, wholes, List.mem_map]
    constructor
    · rintro ⟨low, high, -⟩
      exact ⟨(c - a).toNat, List.mem_range.mpr (by omega), by omega⟩
    · rintro ⟨i, below, rfl⟩
      have := List.mem_range.mp below
      exact ⟨by omega, by omega, all _ (by omega) (by omega)⟩
  rw [whole, same]

theorem not_standsStill_small {a b : Int} (low : -2 ^ 53 ≤ a) (high : b < 2 ^ 53) :
    ¬ StandsStill a b := by
  rintro ⟨z, c, held, above, below, stuck⟩
  have := ((stuck_iff held).mp stuck).1
  omega

section

variable {x y : Float} {a b : Int} (first : wholeOf? x = some a) (last : wholeOf? y = some b)
  (m n fuel : Nat) (s : State)
include first last

theorem run_rangeArray : Builtin.run fuel .rangeArray [.number x m, .number y n] s =
    (Builtin.countUp y fuel x #[] >>= newArray) s := by
  have whole : ((wholeOf? x).isSome && (wholeOf? y).isSome) = true := by
    rw [first, last]
    rfl
  show (if ((wholeOf? x).isSome && (wholeOf? y).isSome) = true then _ else _ : Eval Value) s = _
  rw [if_pos whole]

theorem rangeArray_stuck (still : StandsStill a b) :
    Builtin.run fuel .rangeArray [.number x m, .number y n] s = .error .outOfFuel s := by
  obtain ⟨z, c, held, low, high, stuck⟩ := still
  rw [run_rangeArray first last]
  exact bind_error (Builtin.countUp_stuck last held high stuck fuel first low #[] s)

end

/-- `RangeArray` of two whole numbers never ends if some number from the first to the last
stands still when one is added to it. In all other cases, as in every range within 53 bits,
it ends, with the numbers from the first to the last, in ascending order, that are doubles;
these are all of them where all are doubles. -/
theorem rangeArray_ends_iff {x y : Float} {a b : Int} (first : wholeOf? x = some a)
    (last : wholeOf? y = some b) (m n : Nat) (s : State) :
    (StandsStill a b → ∀ fuel,
      Builtin.run fuel .rangeArray [.number x m, .number y n] s = .error .outOfFuel s) ∧
    (¬ StandsStill a b → ∃ xs : List Float,
      (∀ fuel, (b + 1 - a).toNat < fuel →
        Builtin.run fuel .rangeArray [.number x m, .number y n] s =
          newArray (xs.map fun x => some (.ofFloat x)).toArray s) ∧
      Covers a b xs ∧
      ((∀ c, a ≤ c → c ≤ b → Held c) → xs.map wholeOf? = (wholes a b).map some)) ∧
    (-2 ^ 53 ≤ a → b < 2 ^ 53 → ¬ StandsStill a b ∧ ∀ c, a ≤ c → c ≤ b → Held c) := by
  refine ⟨fun still fuel => rangeArray_stuck first last m n fuel s still, ?_, ?_⟩
  · intro free
    obtain ⟨xs, covers, counts⟩ := Builtin.countUp_ends last _ first (Nat.le_refl _) free
    refine ⟨xs, fun fuel enough => ?_, covers, covers_all covers⟩
    have counted := counts fuel #[] s enough
    rw [Array.empty_append] at counted
    rw [run_rangeArray first last, bind_ok counted]
  · intro low high
    exact ⟨not_standsStill_small low high, fun c above below => held_small (by omega) (by omega)⟩

theorem one_to_three_counted :
    ∃ xs : List Float, xs.map wholeOf? = [some 1, some 2, some 3] ∧
      Builtin.run 9 .rangeArray [.ofNat 1, .ofNat 3] (Interpreter.blankState []) =
        newArray (xs.map fun x => some (.ofFloat x)).toArray (Interpreter.blankState []) := by
  have one : wholeOf? (Float.ofNat 1) = some 1 := by decide +kernel
  have three : wholeOf? (Float.ofNat 3) = some 3 := by decide +kernel
  obtain ⟨-, ends, small⟩ := rangeArray_ends_iff one three 0 0 (Interpreter.blankState [])
  obtain ⟨free, all⟩ := small (by decide) (by decide)
  obtain ⟨xs, runs, -, numbers⟩ := ends free
  exact ⟨xs, numbers all, runs 9 (by decide)⟩

/-- The range from the least number that stands still to itself never ends. -/
theorem range_of_one_never_ends :
    wholeOf? 9007199254740992 = some 9007199254740992 ∧
    ¬ ∃ fuel s v t, Builtin.run fuel .rangeArray
      [.ofFloat 9007199254740992, .ofFloat 9007199254740992] s = .ok v t := by
  have held : wholeOf? 9007199254740992 = some 9007199254740992 := by decide +kernel
  have stuck : Stuck 9007199254740992 := (stuck_iff held).mpr (by decide)
  refine ⟨held, ?_⟩
  rintro ⟨fuel, s, v, t, ran⟩
  have never := rangeArray_stuck held held 0 0 fuel s
    ⟨_, _, held, Int.le_refl _, Int.le_refl _, stuck⟩
  cases ran.symm.trans never

end Loom
