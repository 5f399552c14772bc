import Loom.Text

/-!
Reading numbers: those of source texts, and the wider set of spellings that a text is converted by.
-/

namespace Loom.Decimal

def isDigit (u : UInt16) : Bool := 0x30 ≤ u && u ≤ 0x39

def digitsValue (digits : Text) : Nat :=
  digits.foldl (fun n u => n * 10 + (u.toNat - 0x30)) 0

def nearest (mantissa : Nat) (exponent : Int) : Float :=
  let size : Int := (Nat.log2 mantissa : Int) * 30103 / 100000 + exponent
  -- beyond a double's range the power, which may be huge, is not worked out
  if mantissa = 0 then 0.0
  else if 400 < size then 1.0 / 0.0
  else if size < -400 then 0.0
  else if exponent < 0 then Float.ofScientific mantissa true exponent.natAbs
  else Float.ofScientific mantissa false exponent.natAbs

def spanDigits (t : Text) : Text × Text := (t.takeWhile isDigit, t.dropWhile isDigit)

/-- A power of ten in front of a text, with what follows it: `e`, an optional
sign and digits. Without digits there is none. -/
def exponent? (t : Text) : Option (Int × Text) :=
  match t with
  | u :: rest =>
      if u = 0x65 ∨ u = 0x45 then
        let (negative, rest) : Bool × Text :=
          match rest with
          | v :: tail =>
              if v = 0x2D then (true, tail) else if v = 0x2B then (false, tail) else (false, rest)
          | [] => (false, [])
        let (digits, after) := spanDigits rest
        if digits.isEmpty then none
        else
          let size := digitsValue digits
          some (if negative then -size else size, after)
      else none
  | [] => none

def assemble (whole fraction : Text) (power : Int) : Float :=
  nearest (digitsValue (whole ++ fraction)) (power - fraction.length)

def literalValue (t : Text) : Float :=
  let (whole, rest) := spanDigits t
  assemble whole (rest.drop 1) 0

def unsigned? (t : Text) : Option Float :=
  if t = Text.ofString "Infinity" then some (1.0 / 0.0)
  else
    let (whole, rest) := spanDigits t
    let (fraction, rest) : Text × Text :=
      match rest with
      | u :: tail => if u = 0x2E then spanDigits tail else ([], rest)
      | [] => ([], [])
    if whole.isEmpty && fraction.isEmpty then none
    else if rest.isEmpty then some (assemble whole fraction 0)
    else
      match exponent? rest with
      | some (power, []) => some (assemble whole fraction power)
      | _ => none

def digitIn? (base : Nat) (u : UInt16) : Option Nat :=
  let value :=
    if isDigit u then u.toNat - 0x30
    else if 0x61 ≤ u && u ≤ 0x66 then u.toNat - 0x57
    else if 0x41 ≤ u && u ≤ 0x46 then u.toNat - 0x37
    else 16
  if value < base then some value else none

def basedValue? (base : Nat) (t : Text) : Option Float :=
  if t.isEmpty then none
  else
    (t.foldlM (fun n u => (digitIn? base u).map (n * base + ·)) 0).map (nearest · 0)

def markedBase? (u : UInt16) : Option Nat :=
  if u = 0x78 ∨ u = 0x58 then some 16
  else if u = 0x6F ∨ u = 0x4F then some 8
  else if u = 0x62 ∨ u = 0x42 then some 2
  else none

/-- Spaces aside, nothing is zero, and a marked base takes no sign. -/
def ofText? (t : Text) : Option Float :=
  match t.trim with
  | [] => some 0.0
  | [u] => unsigned? [u]
  | u :: v :: rest =>
      match if u = 0x30 then markedBase? v else none with
      | some base => basedValue? base rest
      | none =>
          if u = 0x2D then (unsigned? (v :: rest)).map (- ·)
          else if u = 0x2B then unsigned? (v :: rest)
          else unsigned? (u :: v :: rest)

end Loom.Decimal
