import Loom.Dyadic
import Loom.Text

/-!
The fewest decimal digits that read back as a given double. The numbers that do fill an interval
around it; the coarsest decimal grid with a point inside gives the digits. They are written
positional from one millionth up to 21 digits, with an exponent beyond.
-/

namespace Loom.Decimal

def tenTo (n : Nat) : Nat := Nat.pow 10 n

structure Scientific where
  digits : Nat
  exponent : Int
  deriving DecidableEq, Repr

/-- The reals that round to one double, over one denominator. -/
structure Rounding where
  low : Nat
  value : Nat
  high : Nat
  denominator : Nat
  closed : Bool
  deriving Repr

def roundingOf (mantissa : Nat) (exponent : Int) : Rounding :=
  -- a power of two has its neighbour below twice as near, but for the smallest exponent
  let below := if mantissa = twoTo 52 ∧ -1074 < exponent then 1 else 2
  let up := twoTo (exponent - 2).toNat
  { low := (4 * mantissa - below) * up
    value := 4 * mantissa * up
    high := (4 * mantissa + 2) * up
    denominator := twoTo (2 - exponent).toNat
    closed := mantissa % 2 = 0 }

def Rounding.holds (r : Rounding) (c : Nat) (p : Int) : Bool :=
  let point := c * tenTo p.toNat * r.denominator
  let scale := tenTo (-p).toNat
  if r.closed then r.low * scale ≤ point && point ≤ r.high * scale
  else r.low * scale < point && point < r.high * scale

/-- The nearer neighbour on the grid; of two equally near ones the even one. -/
def Rounding.onGrid? (r : Rounding) (p : Int) : Option Nat :=
  let unit := tenTo p.toNat * r.denominator
  let value := r.value * tenTo (-p).toNat
  let below := value / unit
  let rest := value % unit
  match r.holds below p, r.holds (below + 1) p with
  | false, false => none
  | true, false => some below
  | false, true => some (below + 1)
  | true, true =>
      if 2 * rest < unit || (2 * rest = unit && below % 2 = 0) then some below
      else some (below + 1)

def Rounding.search (r : Rounding) : (steps : Nat) → (p : Int) → Scientific
  | 0, p => ⟨r.value * tenTo (-p).toNat / (tenTo p.toNat * r.denominator), p⟩
  | steps + 1, p =>
      match r.onGrid? p with
      | some digits => ⟨digits, p⟩
      | none => r.search steps (p - 1)

def leadingZeros (value denominator : Nat) : (steps start : Nat) → Nat
  | 0, start => start
  | steps + 1, start =>
      if denominator ≤ value * tenTo start then start
      else leadingZeros value denominator steps (start + 1)

def Rounding.leading (r : Rounding) : Int :=
  if r.denominator ≤ r.value then ((r.value / r.denominator).repr.length : Int) - 1
  else -(leadingZeros r.value r.denominator 400 1 : Int)

def Scientific.trimmed : (steps : Nat) → Scientific → Scientific
  | 0, s => s
  | steps + 1, s =>
      if s.digits % 10 = 0 ∧ s.digits ≠ 0 then
        trimmed steps ⟨s.digits / 10, s.exponent + 1⟩
      else s

def shortest (mantissa : Nat) (exponent : Int) : Scientific :=
  -- 17 digits tell any two doubles apart
  let r := roundingOf mantissa exponent
  (r.search 17 r.leading).trimmed 20

def zeros (n : Nat) : Text := List.replicate n 0x30

/-- `point` is the place of the decimal point counted from the first digit. -/
def layout (s : Scientific) : Text :=
  let digits := Text.ofNat s.digits
  let count := digits.length
  let point : Int := count + s.exponent
  if count ≤ point ∧ point ≤ 21 then digits ++ zeros (point - count).toNat
  else if 0 < point ∧ point ≤ 21 then
    digits.take point.toNat ++ "." ++ digits.drop point.toNat
  else if -6 < point ∧ point ≤ 0 then "0." ++ zeros (-point).toNat ++ digits
  else
    let sign : Text := if 0 < point then "+" else "-"
    let fraction : Text := if count = 1 then [] else "." ++ digits.drop 1
    digits.take 1 ++ fraction ++ "e" ++ sign ++ Text.ofNat (point - 1).natAbs

def text (x : Float) : Text :=
  match Dyadic.ofFloat? x with
  | none => if x.isNaN then "NaN" else if x < 0 then "-Infinity" else "Infinity"
  | some d =>
      let sign : Text := if d.negative && d.mantissa != 0 then "-" else []
      match d.whole? with
      | some n =>
          -- beyond this bound the shortest digits need not be all of them
          if n.natAbs < twoTo 53 then sign ++ Text.ofNat n.natAbs
          else sign ++ layout (shortest d.mantissa d.exponent)
      | none => sign ++ layout (shortest d.mantissa d.exponent)

def signedText (x : Float) : Text :=
  if x == 0 && x.toBits != 0 then "-0" else text x

def natText (n : Nat) : Text :=
  if n < twoTo 53 then Text.ofNat n else text (Float.ofScientific n false 0)

end Loom.Decimal
