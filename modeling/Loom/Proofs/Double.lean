import Mathlib.Algebra.Group.Nat.Defs
import Loom.Decimal.Read
import Loom.Decimal.Shortest

/-!
Doubles taken apart: into a zero, a finite number, an infinity or NaN. Whole
numbers up to `2 ^ 53` are doubles, and what is read as a number literal is a
number.
-/

namespace Loom

namespace Double

open Float.Model
open Float.Model.UnpackedFloat

/-- What a double is. -/
def parts (x : Float) : UnpackedFloat := x.toModel.unpack

/-- The double of its parts. -/
def packed (u : UnpackedFloat) : Float := .ofModel (.pack u)

def isNegative : Sign → Bool
  | .negative => true
  | .positive => false

def IsZero : UnpackedFloat → Prop
  | .zero _ => True
  | _ => False

/-- The exact value of a double's parts. -/
def dyadic? : UnpackedFloat → Option Dyadic
  | .notANumber | .infinity _ => none
  | .zero sign => some ⟨isNegative sign, 0, -1074⟩
  | .finite sign mantissa exponent _ => some ⟨isNegative sign, mantissa, exponent⟩

theorem dyadic?_zero (sign : Sign) :
    dyadic? (.zero sign) = some ⟨isNegative sign, 0, -1074⟩ := rfl

theorem dyadic?_finite (sign : Sign) (mantissa : Nat) (exponent : Int) (pos : 0 < mantissa) :
    dyadic? (.finite sign mantissa exponent pos) =
      some ⟨isNegative sign, mantissa, exponent⟩ := rfl

theorem exists_of_isZero {u : UnpackedFloat} (zero : IsZero u) : ∃ s, u = .zero s := by
  cases u with
  | zero s => exact ⟨s, rfl⟩
  | _ => exact zero.elim

/-! The bits of a double. -/

section

variable (b : BitVec Format.binary64.numBits)

theorem toNat_unpackMantissa : (unpackMantissa b).toNat = b.toNat % 2 ^ 52 := by
  simp [unpackMantissa]

theorem toNat_unpackExponent : (unpackExponent b).toNat = b.toNat / 2 ^ 52 % 2 ^ 11 := by
  simp [unpackExponent, BitVec.extractLsb_toNat, Nat.shiftRight_eq_div_pow]

theorem unpackSign_eq : unpackSign b = BitVec.extractLsb 63 63 b := rfl

theorem toNat_unpackSign : (unpackSign b).toNat = b.toNat / 2 ^ 63 % 2 := by
  simp [unpackSign_eq, BitVec.extractLsb_toNat, Nat.shiftRight_eq_div_pow]

theorem isNegative_ofBitVec :
    isNegative (.ofBitVec (unpackSign b)) = decide (2 ^ 63 ≤ b.toNat) := by
  have sign := toNat_unpackSign b
  have small : b.toNat < 2 ^ 64 := b.isLt
  unfold Sign.ofBitVec
  split
  · rename_i zero
    simp [zero] at sign
    simp [isNegative]; omega
  · rename_i one
    have : (unpackSign b).toNat ≠ 0 := fun h => one (BitVec.eq_of_toNat_eq h)
    simp [isNegative]; omega

end

theorem toNat_one_append {w : Nat} (v : BitVec w) : (1#1 ++ v).toNat = v.toNat + 2 ^ w := by
  rw [BitVec.toNat_append, ← Nat.shiftLeft_add_eq_or_of_lt v.isLt]
  simp [Nat.shiftLeft_eq, Nat.add_comm]

/-- A double's bits spell its parts. -/
theorem ofFloat?_eq (x : Float) : Dyadic.ofFloat? x = dyadic? (parts x) := by
  obtain ⟨b, spells⟩ : ∃ b : BitVec Format.binary64.numBits, b = x.toModel.toBits.toBitVec :=
    ⟨_, rfl⟩
  have bits : x.toBits.toNat = b.toNat := by rw [spells]; rfl
  have apart : parts x = UnpackedFloat.unpack .binary64 b := by rw [spells]; rfl
  have sign : decide (twoTo 63 ≤ b.toNat) = isNegative (.ofBitVec (unpackSign b)) :=
    (isNegative_ofBitVec b).symm
  have mantissa : b.toNat % twoTo 52 = (unpackMantissa b).toNat := (toNat_unpackMantissa b).symm
  have exponent : b.toNat / twoTo 52 % twoTo 11 = (unpackExponent b).toNat :=
    (toNat_unpackExponent b).symm
  have top : (unpackExponent b).toNat = 0x7FF ↔ unpackExponent b = -1#11 :=
    ⟨fun h => BitVec.eq_of_toNat_eq h, fun h => by rw [h]; rfl⟩
  have bottom : (unpackExponent b).toNat = 0 ↔ unpackExponent b = 0#11 :=
    ⟨fun h => BitVec.eq_of_toNat_eq h, fun h => by rw [h]; rfl⟩
  simp only [Dyadic.ofFloat?, bits, exponent, mantissa, sign, top, bottom]
  rw [apart]
  delta UnpackedFloat.unpack
  dsimp only
  by_cases infinite : unpackExponent b = -1#11
  · rw [if_pos infinite, if_pos infinite]
    split <;> rfl
  · rw [if_neg infinite, if_neg infinite]
    by_cases small : unpackExponent b = 0#11
    · rw [if_pos small, if_pos small]
      by_cases zero : unpackMantissa b = 0#52
      · rw [dif_pos zero, zero]
        rfl
      · rw [dif_neg zero, dyadic?_finite, small]
        rfl
    · rw [if_neg small, if_neg small, dyadic?_finite, toNat_one_append]
      rfl

theorem sign_packComponents {sign : Sign} {exponent : BitVec 11} {mantissa : BitVec 52} :
    Sign.ofBitVec (unpackSign (packComponents .binary64 sign exponent mantissa)) = sign := by
  simp only [unpackSign_eq, packComponents, BitVec.extractLsb]
  rw [BitVec.extractLsb'_append_eq_of_le (by omega), BitVec.extractLsb'_append_eq_of_le (by omega)]
  cases sign <;> rfl

/-! Comparing. -/

theorem beq_eq (u v : UnpackedFloat) : u.beq v = (u.compare v == some .eq) := rfl

theorem beq_zero_iff (x : Float) : (x == 0) = true ↔ IsZero (parts x) := by
  show (parts x).beq (parts 0) = true ↔ _
  have zero : parts 0 = .zero .positive := by rfl
  rw [zero]
  generalize parts x = u
  cases u with
  | notANumber => exact iff_of_false nofun nofun
  | infinity s => cases s <;> exact iff_of_false nofun nofun
  | zero s => exact iff_of_true rfl trivial
  | finite s m e pos => cases s <;> exact iff_of_false nofun nofun

theorem lt_iff (x y : Float) : x < y ↔ (parts x).compare (parts y) = some .lt :=
  decide_eq_true_iff.trans beq_iff_eq

theorem whole?_zero (negative : Bool) : Dyadic.whole? ⟨negative, 0, -1074⟩ = some 0 := by
  cases negative <;> simp [Dyadic.whole?]

/-! Whole numbers. -/

/-- Parts with all 53 bits, within the range of a double. -/
structure Normal (mantissa : Nat) (exponent : Int) : Prop where
  least : 2 ^ 52 ≤ mantissa
  below : mantissa < 2 ^ 53
  low : -1074 ≤ exponent
  high : exponent ≤ 971

theorem finite_congr {s t : Sign} {m n : Nat} {e f : Int} {pos : 0 < m} {pos' : 0 < n}
    (sign : s = t) (bits : m = n) (place : e = f) :
    UnpackedFloat.finite s m e pos = .finite t n f pos' := by
  subst sign bits place
  rfl

theorem Normal.log2 {m : Nat} {e : Int} (normal : Normal m e) : m.log2 = 52 :=
  (Nat.log2_eq_iff (by have := normal.least; omega)).mpr ⟨normal.least, normal.below⟩

theorem parts_packed_normal {m : Nat} {e : Int} (normal : Normal m e) (sign : Sign) (pos : 0 < m) :
    parts (packed (.finite sign m e pos)) = .finite sign m e pos := by
  have log := normal.log2
  obtain ⟨least, below, low, high⟩ := normal
  have bias : Format.binary64.exponentBias = 1023 := rfl
  have packs : UnpackedFloat.pack .binary64 (.finite sign m e pos) =
      packComponents .binary64 sign (BitVec.ofNat 11 (e + 1075).toNat) (BitVec.ofNat 52 m) := by
    have biased : (e + ((1023 : Nat) : Int) + ((52 : Nat) : Int)).toNat = (e + 1075).toNat := by
      omega
    delta UnpackedFloat.pack
    simp only [log, bias, biased]
    rw [if_neg (by omega), if_pos (show 52 + 1 = Format.binary64.mantissaBits from rfl)]
  have exponent : (BitVec.ofNat 11 (e + 1075).toNat).toNat = (e + 1075).toNat := by
    simp only [BitVec.toNat_ofNat]
    omega
  have inside : BitVec.ofNat 11 (e + 1075).toNat ≠ -1#11 := fun h => by
    have := congrArg BitVec.toNat h
    rw [exponent, show (-1#11).toNat = 2047 from rfl] at this
    omega
  have large : BitVec.ofNat 11 (e + 1075).toNat ≠ 0#11 := fun h => by
    have := congrArg BitVec.toNat h
    rw [exponent, show (0#11).toNat = 0 from rfl] at this
    omega
  have mantissa : (1#1 ++ BitVec.ofNat 52 m).toNat = m := by
    rw [toNat_one_append, BitVec.toNat_ofNat]
    omega
  have place : ((e + 1075).toNat : Int) - (((1023 : Nat) : Int) + ((52 : Nat) : Int)) = e := by
    omega
  show UnpackedFloat.unpack .binary64 (UnpackedFloat.pack .binary64 _) = _
  rw [packs]
  delta UnpackedFloat.unpack
  dsimp only
  rw [if_neg (by rw [unpackExponent_packComponents]; exact inside),
    if_neg (by rw [unpackExponent_packComponents]; exact large)]
  refine finite_congr sign_packComponents ?_ ?_
  · rw [unpackMantissa_packComponents]
    exact mantissa
  · rw [unpackExponent_packComponents, exponent, bias]
    exact place

theorem repeat_shiftRightOne (m k : Nat) :
    Nat.repeat ExtendedMantissa.shiftRightOne k ⟨m * 2 ^ k, false, false⟩ = ⟨m, false, false⟩ := by
  induction k generalizing m with
  | zero => simp [Nat.repeat]
  | succ k ih =>
      have twice : m * 2 ^ (k + 1) = m * 2 * 2 ^ k := by
        rw [Nat.pow_succ, Nat.mul_right_comm, Nat.mul_assoc]
      rw [Nat.repeat, twice, ih]
      simp [ExtendedMantissa.shiftRightOne]

theorem shift_exact {m : Nat} {e : Int} (normal : Normal m e) (k : Nat) :
    shiftToTargetExponent .binary64 (m * 2 ^ k) (e - k) .exact = (⟨m, false, false⟩, e) := by
  have least := normal.least
  have log : (m * 2 ^ k).log2 = 52 + k := by
    have pos : m * 2 ^ k ≠ 0 := Nat.mul_ne_zero (by omega) (Nat.ne_of_gt (Nat.two_pow_pos k))
    rw [Nat.log2_eq_iff pos, Nat.pow_add]
    constructor
    · exact Nat.mul_le_mul_right _ least
    · rw [show 52 + k + 1 = 53 + k by omega, Nat.pow_add]
      exact Nat.mul_lt_mul_of_pos_right normal.below (Nat.two_pow_pos k)
  have target : Format.binary64.targetExponent (totalExponent (m * 2 ^ k) (e - k)) = e := by
    have := normal.low
    simp only [Format.targetExponent, totalExponent, log]
    show max _ (-1074) = e
    have : (Format.binary64.mantissaBits : Int) = 53 := rfl
    omega
  simp only [shiftToTargetExponent, target, shiftToExponent, ExtendedMantissa.ofMantissaAndAccuracy]
  have amount : (e - (e - k)).toNat = k := by omega
  rw [amount]
  show (Nat.repeat _ k _, _) = _
  rw [repeat_shiftRightOne]
  simp

/-- What has a double's bits is rounded to itself. -/
theorem round_exact {m : Nat} {e : Int} (normal : Normal m e) (sign : Sign) (pos : 0 < m)
    (k : Nat) :
    roundWithAccuracy .binary64 sign (m * 2 ^ k) (e - k) .exact = .finite sign m e pos := by
  have again := shift_exact normal 0
  simp only [Nat.pow_zero, Nat.mul_one, Int.natCast_zero, Int.sub_zero] at again
  have kept : ExtendedMantissa.roundedMantissa ⟨m, false, false⟩ = m := rfl
  unfold roundWithAccuracy
  rw [shift_exact normal k]
  dsimp only
  rw [kept, again]
  dsimp only
  rw [dif_neg (by omega)]


/-- How many more bits than it has a whole number is given. -/
def shift (n : Nat) : Nat := 52 - n.log2

theorem normal_shift {n : Nat} (pos : 0 < n) (below : n < 2 ^ 53) :
    Normal (n * 2 ^ shift n) (-(shift n : Int)) := by
  have lower := Nat.log2_self_le (Nat.ne_of_gt pos)
  have upper : n < 2 ^ (n.log2 + 1) := Nat.lt_log2_self
  have digits : n.log2 < 53 := (Nat.log2_lt (Nat.ne_of_gt pos)).mpr below
  have power : 2 ^ n.log2 * 2 ^ shift n = 2 ^ 52 := by
    rw [← Nat.pow_add, shift]
    congr 1
    omega
  have power' : 2 ^ (n.log2 + 1) * 2 ^ shift n = 2 ^ 53 := by
    rw [← Nat.pow_add, shift]
    congr 1
    omega
  exact
    { least := power ▸ Nat.mul_le_mul_right _ lower
      below := power' ▸ Nat.mul_lt_mul_of_pos_right upper (Nat.two_pow_pos _)
      low := by simp only [shift]; omega
      high := by omega }

/-- The parts of a whole number that is not zero. -/
def whole (n : Nat) (pos : 0 < n) : UnpackedFloat :=
  .finite .positive (n * 2 ^ shift n) (-(shift n : Int)) (Nat.mul_pos pos (Nat.two_pow_pos _))

theorem dyadic?_whole {n : Nat} (pos : 0 < n) :
    dyadic? (whole n pos) = some ⟨false, n * 2 ^ shift n, -(shift n : Int)⟩ := rfl

theorem parts_toFloat {n : Nat} (pos : 0 < n) (below : n < 2 ^ 53) :
    parts n.toUInt64.toFloat = whole n pos := by
  have normal := normal_shift pos below
  have size : n.toUInt64.toNat = n := Nat.mod_eq_of_lt (by omega)
  have digits : n.log2 < 53 := (Nat.log2_lt (Nat.ne_of_gt pos)).mpr below
  have target : Format.binary64.targetExponent (totalExponent n 0) = -(shift n : Int) := by
    show max ((n.log2 : Int) + 1 + 0 - 53) (-1074) = _
    simp only [shift]
    omega
  have sign : compare (n : Int) 0 = .gt := by
    rw [Int.compare_eq_gt]
    omega
  have rounded : UnpackedFloat.ofUInt64 .binary64 n.toUInt64 = whole n pos := by
    have exact := round_exact normal .positive (Nat.mul_pos pos (Nat.two_pow_pos _)) 0
    simp only [UnpackedFloat.ofUInt64, UnpackedFloat.ofNat, UnpackedFloat.ofInt, size,
      UnpackedFloat.normalize, sign, UnpackedFloat.round, Int.toNat_natCast, target,
      decreaseExponent, Nat.shiftLeft_eq]
    rw [Nat.pow_zero, Nat.mul_one, Int.natCast_zero, Int.sub_zero] at exact
    rw [Int.zero_sub, Int.neg_neg, Int.toNat_natCast, Int.zero_sub]
    exact exact
  show parts (packed (UnpackedFloat.ofUInt64 .binary64 n.toUInt64)) = _
  rw [rounded]
  exact parts_packed_normal normal _ _

theorem parts_ofNat {n : Nat} (pos : 0 < n) (below : n < 2 ^ 53) :
    parts (Float.ofNat n) = whole n pos := by
  have normal := normal_shift pos below
  -- the conversion multiplies by a power of ten, which is one here
  have product : Float.ofNat n = n.toUInt64.toFloat * Float.ofBits 0x3FF0000000000000 := by
    show Float.ofScientific n false 0 = _
    rw [Float.ofScientific, dif_pos ⟨below, by omega⟩]
    rfl
  have one : parts (Float.ofBits 0x3FF0000000000000) =
      .finite .positive (2 ^ 52) (-52) (by decide) := by rfl
  have rounded : UnpackedFloat.mul .binary64 (whole n pos)
      (.finite .positive (2 ^ 52) (-52) (by decide)) = whole n pos :=
    round_exact normal .positive (Nat.mul_pos pos (Nat.two_pow_pos _)) 52
  rw [product]
  show parts (packed (UnpackedFloat.mul .binary64 (parts n.toUInt64.toFloat)
    (parts (Float.ofBits 0x3FF0000000000000)))) = _
  rw [parts_toFloat pos below, one, rounded]
  exact parts_packed_normal normal _ _

/-- A whole number up to `2 ^ 53` is a double. -/
theorem wholeOf?_ofNat {n : Nat} (bound : n ≤ 2 ^ 53) :
    wholeOf? (Float.ofNat n) = some (n : Int) := by
  by_cases zero : n = 0
  · subst zero
    have nothing : parts (Float.ofNat 0) = .zero .positive := by rfl
    simp only [wholeOf?, ofFloat?_eq, nothing, dyadic?_zero, Option.bind_some, whole?_zero]
    rfl
  · by_cases top : n = 2 ^ 53
    · subst top
      decide +kernel
    · have pos : 0 < n := by omega
      have below : n < 2 ^ 53 := by omega
      simp only [wholeOf?, ofFloat?_eq, parts_ofNat pos below, dyadic?_whole,
        Option.bind_some, Dyadic.whole?]
      generalize shift n = bits
      have unit : twoTo (- -(bits : Int)).toNat = 2 ^ bits := by
        rw [Int.neg_neg, Int.toNat_natCast]
        rfl
      cases bits with
      | zero => simp [twoTo]
      | succ k =>
          have scaled : ¬ 0 ≤ -((k + 1 : Nat) : Int) := by omega
          rw [if_neg scaled, unit, Nat.mul_mod_left, Nat.mul_div_cancel n (Nat.two_pow_pos _)]
          simp

/-! NaN. -/

theorem isNaN_dite {c : Prop} [Decidable c] {u : c → UnpackedFloat} {v : ¬ c → UnpackedFloat}
    (left : ∀ h, (u h).isNaN = false) (right : ∀ h, (v h).isNaN = false) :
    (dite c u v).isNaN = false := by
  split
  · exact left _
  · exact right _

theorem isNaN_ite {c : Prop} [Decidable c] {u v : UnpackedFloat} (left : u.isNaN = false)
    (right : v.isNaN = false) : (if c then u else v).isNaN = false :=
  isNaN_dite (fun _ => left) (fun _ => right)

/-- Packing may make a number infinite, but never NaN. -/
theorem isNaN_packed (u : UnpackedFloat) : (parts (packed u)).isNaN = u.isNaN := by
  have other : ∀ (sign : Sign) (exponent : BitVec 11) (mantissa : BitVec 52),
      exponent ≠ -1#11 →
        (UnpackedFloat.unpack .binary64
          (packComponents .binary64 sign exponent mantissa)).isNaN = false := by
    intro sign exponent mantissa inside
    delta UnpackedFloat.unpack
    dsimp only
    rw [if_neg (by rw [unpackExponent_packComponents]; exact inside)]
    exact isNaN_ite (isNaN_dite (fun _ => rfl) (fun _ => rfl)) rfl
  cases u with
  | notANumber => rfl
  | infinity s => cases s <;> rfl
  | zero s => cases s <;> rfl
  | finite s m e pos =>
      show (UnpackedFloat.unpack .binary64 (UnpackedFloat.pack .binary64 _)).isNaN = false
      delta UnpackedFloat.pack
      dsimp only
      split
      · cases s <;> rfl
      · rename_i fits
        split
        · apply other
          intro full
          have := congrArg BitVec.toNat full
          rw [BitVec.toNat_ofNat, show (-1#11).toNat = 2047 from rfl] at this
          omega
        · exact other _ _ _ (by decide)

theorem isNaN_round (spec : Format) (sign : Sign) (m : Nat) (e : Int) (accuracy : Accuracy) :
    (roundWithAccuracy spec sign m e accuracy).isNaN = false := by
  unfold roundWithAccuracy
  dsimp only
  exact isNaN_dite (fun _ => rfl) (fun _ => rfl)

/-- Neither a product nor a quotient of finite numbers is NaN, if the divisor is not zero. -/
theorem isNaN_mul (spec : Format) {u v : UnpackedFloat} (left : u.isFinite = true)
    (right : v.isFinite = true) : (UnpackedFloat.mul spec u v).isNaN = false := by
  cases u with
  | zero s =>
      cases v with
      | zero t | finite t m e pos => rfl
      | _ => cases right
  | finite s m e pos =>
      cases v with
      | zero t => rfl
      | finite t n f pos' => exact isNaN_round _ _ _ _ _
      | _ => cases right
  | _ => cases left

theorem isNaN_div (spec : Format) {u v : UnpackedFloat} (left : u.isFinite = true)
    (right : v.isFinite = true) (divides : ¬ IsZero v) :
    (UnpackedFloat.div spec u v).isNaN = false := by
  cases v with
  | zero t => exact absurd trivial divides
  | finite t n f pos' =>
      cases u with
      | zero s => rfl
      | finite s m e pos => exact isNaN_round _ _ _ _ _
      | _ => cases left
  | _ => cases right

theorem isFinite_toFloat {n : Nat} (below : n < 2 ^ 53) :
    (parts n.toUInt64.toFloat).isFinite = true := by
  by_cases zero : n = 0
  · subst zero
    rfl
  · rw [parts_toFloat (by omega) below]
    rfl

theorem powerOfTen_fits (k : Fin 23) :
    (parts Float.exactlyRepresentablePowersOfTen[k]).isFinite = true ∧
      ¬ IsZero (parts Float.exactlyRepresentablePowersOfTen[k]) := by
  have all : ∀ k : Fin 23, (parts Float.exactlyRepresentablePowersOfTen[k]).isFinite = true ∧
      (Float.exactlyRepresentablePowersOfTen[k] == 0) = false := by decide
  refine ⟨(all k).1, fun zero => ?_⟩
  have := (all k).2
  rw [(beq_zero_iff _).mpr zero] at this
  cases this

theorem isNaN_scientific (spec : Format) (m : Nat) (e : Int) :
    (UnpackedFloat.ofScientific spec m e).isNaN = false := by
  unfold UnpackedFloat.ofScientific
  exact isNaN_dite (fun _ => rfl) fun _ =>
    isNaN_ite rfl (isNaN_ite rfl (isNaN_ite (isNaN_mul _ rfl rfl) (isNaN_div _ rfl rfl id)))

theorem isNaN_ofScientific (m : Nat) (negative : Bool) (k : Nat) :
    (Float.ofScientific m negative k).isNaN = false := by
  show (parts _).isNaN = false
  unfold Float.ofScientific
  dsimp only
  split
  · rename_i fast
    have power := powerOfTen_fits ⟨k, by omega⟩
    have digits := isFinite_toFloat fast.1
    split
    · exact (isNaN_packed _).trans (isNaN_div _ digits power.1 power.2)
    · exact (isNaN_packed _).trans (isNaN_mul _ digits power.1)
  · exact (isNaN_packed _).trans (isNaN_scientific _ _ _)

theorem isNaN_neg (x : Float) : (-x).isNaN = x.isNaN := by
  show (parts (packed (parts x).neg)).isNaN = (parts x).isNaN
  rw [isNaN_packed]
  cases parts x <;> rfl

/-- A whole number is neither NaN nor infinite. -/
theorem finite_of_whole {x : Float} {z : Int} (known : wholeOf? x = some z) :
    x.isNaN = false ∧ x.isInf = false := by
  show (parts x).isNaN = false ∧ (parts x).isInf = false
  simp only [wholeOf?, ofFloat?_eq] at known
  generalize parts x = u at known ⊢
  cases u with
  | notANumber => cases known
  | infinity s => cases known
  | zero s => exact ⟨rfl, rfl⟩
  | finite s m e pos => exact ⟨rfl, rfl⟩

end Double

/-- The value of a number literal is a number. -/
theorem isNaN_literalValue (digits : Text) : (Decimal.literalValue digits).isNaN = false := by
  simp only [Decimal.literalValue, Decimal.assemble, Decimal.nearest]
  split
  · decide
  · split
    · decide
    · split
      · decide
      · split
        · exact Double.isNaN_ofScientific _ _ _
        · exact Double.isNaN_ofScientific _ _ _

end Loom
