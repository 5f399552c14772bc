/-!
A finite double is a whole number times a power of two: the exact value that remainders, whole
parts and decimal texts are worked out on.
-/

namespace Loom

def twoTo (n : Nat) : Nat := Nat.pow 2 n

structure Dyadic where
  negative : Bool
  mantissa : Nat
  exponent : Int
  deriving DecidableEq, Repr

namespace Dyadic

def ofFloat? (x : Float) : Option Dyadic :=
  let bits := x.toBits.toNat
  let negative := decide (twoTo 63 ≤ bits)
  let biased : Nat := bits / twoTo 52 % twoTo 11
  let fraction := bits % twoTo 52
  if biased = 0x7FF then none
  else if biased = 0 then some ⟨negative, fraction, -1074⟩
  else some ⟨negative, fraction + twoTo 52, (biased : Int) - 1075⟩

def toFloat (d : Dyadic) : Float :=
  let sign : Nat := if d.negative then twoTo 63 else 0
  if d.mantissa = 0 then Float.ofBits sign.toUInt64
  else
    -- the exponent that leaves 53 bits, or the smallest there is
    let exponent := max (d.exponent + d.mantissa.log2 - 52) (-1074)
    let mantissa :=
      if exponent ≤ d.exponent then d.mantissa * twoTo (d.exponent - exponent).toNat
      else d.mantissa / twoTo (exponent - d.exponent).toNat
    if mantissa < twoTo 52 then Float.ofBits (sign + mantissa).toUInt64
    else
      Float.ofBits (sign + (exponent + 1075).toNat * twoTo 52 + (mantissa - twoTo 52)).toUInt64

def whole? (d : Dyadic) : Option Int :=
  let signed (n : Nat) : Int := if d.negative then -n else n
  if 0 ≤ d.exponent then some (signed (d.mantissa * twoTo d.exponent.toNat))
  else
    let unit := twoTo (-d.exponent).toNat
    if d.mantissa % unit = 0 then some (signed (d.mantissa / unit)) else none

/-- Rounded toward zero: it has the sign of the dividend. -/
def remainder (a b : Dyadic) : Dyadic :=
  let exponent := min a.exponent b.exponent
  let scaled (d : Dyadic) := d.mantissa * twoTo (d.exponent - exponent).toNat
  ⟨a.negative, scaled a % scaled b, exponent⟩

end Dyadic

def wholeOf? (x : Float) : Option Int := (Dyadic.ofFloat? x).bind Dyadic.whole?

def indexOf? (x : Float) : Option Nat :=
  match wholeOf? x with
  | some (.ofNat n) => some n
  | _ => none

def remainderOf (a b : Float) : Float :=
  match Dyadic.ofFloat? a, Dyadic.ofFloat? b with
  | some x, some y => (x.remainder y).toFloat
  -- an infinite divisor leaves the dividend as it is
  | some _, none => if b.isNaN then b else a
  | none, _ => 0.0 / 0.0

end Loom
