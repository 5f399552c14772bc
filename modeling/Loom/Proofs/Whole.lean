import Loom.Proofs.Zero

/-!
Doubles that are whole numbers. Each of them is the double of its value, however
large it is, so a count that was read from plain data can be written back; and it
is compared with the least count as its value is.
-/

namespace Loom

namespace Double

open Float.Model
open Float.Model.UnpackedFloat

/-- A finite double has all its bits, but for the smallest ones. -/
theorem normal_or_small {x : Float} {s : Sign} {m : Nat} {e : Int} {pos : 0 < m}
    (known : parts x = .finite s m e pos) : Normal m e ∨ (m < 2 ^ 52 ∧ e = -1074) := by
  obtain ⟨b, spells⟩ : ∃ b : BitVec Format.binary64.numBits, b = x.toModel.toBits.toBitVec :=
    ⟨_, rfl⟩
  have apart : parts x = UnpackedFloat.unpack .binary64 b := by rw [spells]; rfl
  have bias : ((Format.binary64.exponentBias : Nat) : Int) +
      ((Format.binary64.mantissaBitsWithoutImplicit : Nat) : Int) = 1075 := rfl
  have mantissa : (unpackMantissa b).toNat < 2 ^ 52 := (unpackMantissa b).isLt
  have exponent : (unpackExponent b).toNat < 2 ^ 11 := (unpackExponent b).isLt
  rw [apart] at known
  delta UnpackedFloat.unpack at known
  dsimp only at known
  by_cases infinite : unpackExponent b = -1#11
  · rw [if_pos infinite] at known
    by_cases none : unpackMantissa b = 0#52
    · rw [if_pos none] at known
      cases known
    · rw [if_neg none] at known
      cases known
  · rw [if_neg infinite] at known
    by_cases small : unpackExponent b = 0#11
    · rw [if_pos small] at known
      by_cases zero : unpackMantissa b = 0#52
      · rw [dif_pos zero] at known
        cases known
      · rw [dif_neg zero] at known
        obtain ⟨-, rfl, place⟩ := UnpackedFloat.finite.inj known
        rw [bias, small] at place
        exact .inr ⟨mantissa, place.symm⟩
    · rw [if_neg small] at known
      obtain ⟨-, rfl, place⟩ := UnpackedFloat.finite.inj known
      rw [bias] at place
      have least : (unpackExponent b).toNat ≠ 0 := fun h => small (BitVec.eq_of_toNat_eq h)
      have most : (unpackExponent b).toNat ≠ 2047 := fun h => infinite (BitVec.eq_of_toNat_eq h)
      have append : (1#1 ++ unpackMantissa b).toNat = (unpackMantissa b).toNat + 2 ^ 52 :=
        toNat_one_append _
      exact .inl ⟨by omega, by omega, by omega, by omega⟩

theorem mul_finite (s t : Sign) (m n : Nat) (e f : Int) (pos : 0 < m) (pos' : 0 < n) :
    UnpackedFloat.mul .binary64 (.finite s m e pos) (.finite t n f pos') =
      roundWithAccuracy .binary64 (s * t) (m * n) (e + f) .exact := rfl

theorem scientific_whole {n : Nat} (pos : n ≠ 0) :
    UnpackedFloat.ofScientific .binary64 n 0 =
      roundWithAccuracy .binary64 .positive (n * 2 ^ 53) (-53) .exact := by
  have width : (2 : Int) ^ Format.binary64.exponentBits = 2048 := rfl
  have bits : Format.binary64.mantissaBits = 53 := rfl
  have sign : Sign.positive * Sign.positive = .positive := rfl
  have place : -((53 : Nat) : Int) = -53 := rfl
  rw [UnpackedFloat.ofScientific, dif_neg pos, width, if_neg (by decide), if_neg (by omega),
    if_pos (Int.le_refl 0), mul_finite, sign, bits, Nat.shiftLeft_eq, Int.toNat_zero,
    Nat.pow_zero, Nat.mul_one, Int.add_zero, place]

theorem ofNat_large {n : Nat} (large : 2 ^ 53 ≤ n) :
    Float.ofNat n = packed (roundWithAccuracy .binary64 .positive (n * 2 ^ 53) (-53) .exact) := by
  rw [← scientific_whole (by omega)]
  show Float.ofScientific n false 0 = _
  rw [Float.ofScientific, dif_neg (by omega)]
  rfl

theorem parts_ofNat_normal {m k : Nat} (normal : Normal m k) (pos : 0 < m) :
    parts (Float.ofNat (m * 2 ^ k)) = .finite .positive m k pos := by
  have least := normal.least
  have below := normal.below
  cases k with
  | zero =>
      have bits : shift m = 0 := by simp only [shift, normal.log2]
      rw [Nat.pow_zero, Nat.mul_one]
      exact (parts_ofNat pos below).trans
        (finite_congr rfl (by rw [bits, Nat.pow_zero, Nat.mul_one]) (by rw [bits]; rfl))
  | succ k =>
      have large : 2 ^ 53 ≤ m * 2 ^ (k + 1) := by
        calc 2 ^ 53 = 2 ^ 52 * 2 ^ 1 := by decide
          _ ≤ m * 2 ^ (k + 1) := Nat.mul_le_mul least (Nat.pow_le_pow_right (by decide) (by omega))
      have exact := round_exact normal .positive pos (k + 1 + 53)
      have place : ((k + 1 : Nat) : Int) - ((k + 1 + 53 : Nat) : Int) = -53 := by omega
      rw [place, Nat.pow_add, ← Nat.mul_assoc] at exact
      rw [ofNat_large large, exact]
      exact parts_packed_normal normal _ _

/-- The parts of a double that is a whole number other than zero: but for the sign
they are those of its amount. -/
structure Amount (u : UnpackedFloat) (z : Int) (s : Sign) (m : Nat) (e : Int) (pos : 0 < m)
    (n : Nat) : Prop where
  parts : u = .finite s m e pos
  normal : Normal m e
  low : -52 ≤ e
  positive : 0 < n
  ofNat : Double.parts (Float.ofNat n) = .finite .positive m e pos
  signed : z = if isNegative s then -(n : Int) else n

theorem whole?_eq (s : Sign) (m : Nat) (e z : Int)
    (known : Dyadic.whole? ⟨isNegative s, m, e⟩ = some z) :
    ∃ n : Nat, z = (if isNegative s then -(n : Int) else n) ∧
      ((∃ k : Nat, e = k ∧ n = m * 2 ^ k) ∨ ∃ k : Nat, 0 < k ∧ e = -(k : Int) ∧ m = n * 2 ^ k) := by
  unfold Dyadic.whole? at known
  dsimp only at known
  split at known
  · rename_i large
    exact ⟨m * twoTo e.toNat, (Option.some.inj known).symm, .inl ⟨e.toNat, by omega, rfl⟩⟩
  · rename_i scaled
    split at known
    · rename_i divides
      refine ⟨m / twoTo (-e).toNat, (Option.some.inj known).symm,
        .inr ⟨(-e).toNat, by omega, by omega, ?_⟩⟩
      exact (Nat.div_mul_cancel (Nat.dvd_of_mod_eq_zero divides)).symm
    · cases known

theorem shift_eq {n k : Nat} (least : 2 ^ 52 ≤ n * 2 ^ k) (below : n * 2 ^ k < 2 ^ 53)
    (pos : 0 < n) : k ≤ 52 ∧ shift n = k := by
  have powers : 2 ^ k < 2 ^ 53 := Nat.lt_of_le_of_lt (Nat.le_mul_of_pos_left _ pos) below
  have short : k < 53 := (Nat.pow_lt_pow_iff_right (by decide)).mp powers
  have lower : 2 ^ (52 - k) ≤ n := by
    apply Nat.le_of_mul_le_mul_right _ (Nat.two_pow_pos k)
    rw [← Nat.pow_add, Nat.sub_add_cancel (by omega)]
    exact least
  have upper : n < 2 ^ (52 - k + 1) := by
    apply Nat.lt_of_mul_lt_mul_right (a := 2 ^ k)
    rw [← Nat.pow_add, show 52 - k + 1 + k = 53 by omega]
    exact below
  have log := (Nat.log2_eq_iff (Nat.ne_of_gt pos)).mpr ⟨lower, upper⟩
  exact ⟨by omega, by rw [shift, log]; omega⟩

theorem amount_of_whole {x : Float} {z : Int} (known : wholeOf? x = some z) :
    (z = 0 ∧ IsZero (parts x)) ∨ ∃ s m e pos n, Amount (parts x) z s m e pos n := by
  simp only [wholeOf?, ofFloat?_eq] at known
  cases shape : parts x with
  | notANumber | infinity s =>
      rw [shape] at known
      cases known
  | zero s =>
      rw [shape, dyadic?_zero, Option.bind_some, whole?_zero] at known
      exact .inl ⟨(Option.some.inj known).symm, trivial⟩
  | finite s m e pos =>
      rw [shape, dyadic?_finite, Option.bind_some] at known
      obtain ⟨n, signed, ⟨k, rfl, rfl⟩ | ⟨k, scaled, rfl, rfl⟩⟩ := whole?_eq s m e z known
      · rcases normal_or_small shape with normal | ⟨_, lowest⟩
        · exact .inr ⟨s, m, k, pos, m * 2 ^ k, rfl, normal, by omega,
            Nat.mul_pos pos (Nat.two_pow_pos k), parts_ofNat_normal normal pos, signed⟩
        · omega
      · have positive : 0 < n := Nat.pos_of_mul_pos_right pos
        rcases normal_or_small shape with normal | ⟨short, lowest⟩
        · obtain ⟨low, bits⟩ := shift_eq normal.least normal.below positive
          have small : n < 2 ^ 53 :=
            Nat.lt_of_le_of_lt (Nat.le_mul_of_pos_right n (Nat.two_pow_pos k)) normal.below
          have own : parts (Float.ofNat n) = .finite .positive (n * 2 ^ k) (-(k : Int)) pos :=
            (parts_ofNat positive small).trans (finite_congr rfl (by rw [bits]) (by rw [bits]))
          exact .inr ⟨s, n * 2 ^ k, -(k : Int), pos, n, rfl, normal, by omega, positive, own,
            signed⟩
        · -- the smallest doubles have no room for a whole number
          have scale : 2 ^ 52 < 2 ^ k := Nat.pow_lt_pow_right (by decide) (by omega)
          have room : 2 ^ k ≤ n * 2 ^ k := Nat.le_mul_of_pos_left (2 ^ k) positive
          omega

theorem beq_ofNat {x : Float} {n : Nat} (known : wholeOf? x = some (n : Int)) :
    (x == Float.ofNat n) = true := by
  apply (beq_iff_like _ _).mpr
  rcases amount_of_whole known with ⟨none, zero⟩ | ⟨s, m, e, pos, k, amount⟩
  · obtain rfl : n = 0 := by omega
    obtain ⟨t, shape⟩ := exists_of_isZero zero
    have nought : parts (Float.ofNat 0) = .zero .positive := by rfl
    refine ⟨shape ▸ nought ▸ .zeros t .positive, ?_⟩
    show (parts x).isNaN = false
    rw [shape]
    rfl
  · obtain ⟨shape, _, _, positive, own, signed⟩ := amount
    cases s with
    | negative =>
        simp only [isNegative, if_true] at signed
        omega
    | positive =>
        obtain rfl : n = k := by
          simp only [isNegative, Bool.false_eq_true, if_false] at signed
          omega
        refine ⟨shape ▸ own ▸ .same _, ?_⟩
        show (parts x).isNaN = false
        rw [shape]
        rfl

theorem lt_zero_iff {x : Float} {z : Int} (known : wholeOf? x = some z) :
    x < Float.ofNat 0 ↔ z < 0 := by
  have nought : parts (Float.ofNat 0) = .zero .positive := by rfl
  rw [lt_iff, nought]
  rcases amount_of_whole known with ⟨rfl, zero⟩ | ⟨s, m, e, pos, n, amount⟩
  · obtain ⟨t, shape⟩ := exists_of_isZero zero
    rw [shape]
    exact iff_of_false (fun below => by cases below) (by decide)
  · obtain ⟨shape, _, _, positive, _, signed⟩ := amount
    rw [shape]
    cases s with
    | negative =>
        simp only [isNegative, if_true] at signed
        exact iff_of_true rfl (by omega)
    | positive =>
        simp only [isNegative, Bool.false_eq_true, if_false] at signed
        exact iff_of_false (fun below => by cases below) (by omega)

theorem lt_one_iff {x : Float} {z : Int} (known : wholeOf? x = some z) :
    x < Float.ofNat 1 ↔ z < 1 := by
  have one : parts (Float.ofNat 1) = .finite .positive (2 ^ 52) (-52) (by decide) := by rfl
  rw [lt_iff, one]
  rcases amount_of_whole known with ⟨rfl, zero⟩ | ⟨s, m, e, pos, n, amount⟩
  · obtain ⟨t, shape⟩ := exists_of_isZero zero
    rw [shape]
    exact iff_of_true rfl (by decide)
  · obtain ⟨shape, normal, low, positive, _, signed⟩ := amount
    have least := normal.least
    rw [shape]
    cases s with
    | negative =>
        simp only [isNegative, if_true] at signed
        exact iff_of_true rfl (by omega)
    | positive =>
        simp only [isNegative, Bool.false_eq_true, if_false] at signed
        refine iff_of_false (fun below => ?_) (by omega)
        -- one has the least exponent that a whole number has, and its least mantissa
        rcases Ordering.then_eq_lt.mp (Option.some.inj below) with lower | ⟨_, smaller⟩
        · have := Int.compare_eq_lt.mp lower
          omega
        · have := Nat.compare_eq_lt.mp smaller
          omega

end Double

/-- A count that a double holds is held by its own double. -/
theorem wholeOf?_ofNat_of_known {x : Float} {n : Nat} (known : wholeOf? x = some (n : Int)) :
    wholeOf? (Float.ofNat n) = some (n : Int) := by
  have like := ((Double.beq_iff_like _ _).mp (Double.beq_ofNat known)).1
  rw [← known, wholeOf?, wholeOf?, Double.ofFloat?_eq, Double.ofFloat?_eq]
  exact (Double.whole?_like like).symm

end Loom
