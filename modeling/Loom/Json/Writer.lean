import Loom.Json
import Loom.Decimal.Shortest

/-!
Writing data as text. Infinities and NaN are written as null; a surrogate that stands alone is
written as an escape.
-/

namespace Loom.Json

def hexDigit (n : Nat) : UInt16 := (if n < 10 then 0x30 + n else 0x57 + n).toUInt16

def escaped (u : UInt16) : Text :=
  let n := u.toNat
  [0x5C, 0x75, hexDigit (n / 4096), hexDigit (n / 256 % 16), hexDigit (n / 16 % 16),
    hexDigit (n % 16)]

/-- One character of a text as it stands between quotes. -/
def writeCharacter : Text → Text
  | [u] =>
      if u = 0x22 ∨ u = 0x5C then [0x5C, u]
      else if u = 0x08 then "\\b"
      else if u = 0x0C then "\\f"
      else if u = 0x0A then "\\n"
      else if u = 0x0D then "\\r"
      else if u = 0x09 then "\\t"
      else if u < 0x20 || Text.isHigh u || Text.isLow u then escaped u
      else [u]
  | c => c

def writeText (t : Text) : Text := [0x22] ++ t.characters.flatMap writeCharacter ++ [0x22]

def writeNumber (x : Float) : Text :=
  if x.isNaN || x.isInf then "null" else Decimal.text x

def lineBreak (indented : Bool) (depth : Nat) : Text :=
  if indented then 0x0A :: List.replicate (2 * depth) 0x20 else []

def writeKey (indented : Bool) (depth : Nat) (key : Text) : Text :=
  lineBreak indented depth ++ writeText key ++ (if indented then ": " else ":")

mutual

def writeAt (indented : Bool) (depth : Nat) : Json → Text
  | null => "null"
  | bool b => if b then "true" else "false"
  | num x => writeNumber x
  | str t => writeText t
  | arr items =>
      if items.isEmpty then "[]"
      else
        [0x5B] ++ writeItems indented (depth + 1) items ++ lineBreak indented depth ++ [0x5D]
  | obj fields =>
      if fields.isEmpty then [0x7B, 0x7D]
      else
        [0x7B] ++ writeFields indented (depth + 1) fields ++ lineBreak indented depth ++ [0x7D]

def writeItems (indented : Bool) (depth : Nat) : List Json → Text
  | [] => []
  | item :: rest =>
      lineBreak indented depth ++ writeAt indented depth item ++
        (if rest.isEmpty then [] else [0x2C]) ++ writeItems indented depth rest

def writeFields (indented : Bool) (depth : Nat) : List (Text × Json) → Text
  | [] => []
  | (key, value) :: rest =>
      writeKey indented depth key ++ writeAt indented depth value ++
        (if rest.isEmpty then [] else [0x2C]) ++ writeFields indented depth rest

end

def write (data : Json) : Text := writeAt false 0 data

def writeIndented (data : Json) : Text := writeAt true 0 data

end Loom.Json
