/-!
Text is a list of 16-bit units, also one with a surrogate that stands alone. Order and length go
by unit; counting, indexing and iteration go by character.
-/

namespace Loom

abbrev Text := List UInt16

namespace Text

def ofChar (c : Char) : Text :=
  if c.val < 0x10000 then [c.val.toUInt16]
  else
    let v := c.val - 0x10000
    [(0xD800 + v / 0x400).toUInt16, (0xDC00 + v % 0x400).toUInt16]

def ofString (s : String) : Text := s.toList.flatMap ofChar

end Text

instance : Coe String Text := ⟨Text.ofString⟩

namespace Text

def isHigh (u : UInt16) : Bool := 0xD800 ≤ u && u ≤ 0xDBFF

def isLow (u : UInt16) : Bool := 0xDC00 ≤ u && u ≤ 0xDFFF

def characters : Text → List Text
  | [] => []
  | [u] => [[u]]
  | u :: v :: rest =>
      if isHigh u && isLow v then [u, v] :: characters rest
      else [u] :: characters (v :: rest)

/-- A surrogate that stands alone has the replacement character's. -/
def scalar : Text → Char
  | [u, v] => Char.ofNat (0x10000 + (u.toNat - 0xD800) * 0x400 + (v.toNat - 0xDC00))
  | [u] => if isHigh u || isLow u then '\uFFFD' else Char.ofNat u.toNat
  | _ => '\uFFFD'

def toString (t : Text) : String := String.ofList (t.characters.map scalar)

/-- What is left of a text that has been written out and read in again. -/
def wellFormed (t : Text) : Text := ofString t.toString

def isSpace (u : UInt16) : Bool :=
  (0x09 ≤ u && u ≤ 0x0D) || u == 0x20 || u == 0xA0 || u == 0x1680 ||
  (0x2000 ≤ u && u ≤ 0x200A) || u == 0x2028 || u == 0x2029 || u == 0x202F ||
  u == 0x205F || u == 0x3000 || u == 0xFEFF

def trimLeft (t : Text) : Text := t.dropWhile isSpace

def trimRight (t : Text) : Text := (t.reverse.dropWhile isSpace).reverse

def trim (t : Text) : Text := t.trimLeft.trimRight

/-- The order compares units from the left. -/
def less : Text → Text → Bool
  | _, [] => false
  | [], _ :: _ => true
  | a :: s, b :: t => a < b || (a == b && less s t)

def contains (t piece : Text) : Bool :=
  match t with
  | [] => piece.isEmpty
  | _ :: rest => piece.isPrefixOf t || contains rest piece

def join (separator : Text) : List Text → Text
  | [] => []
  | [t] => t
  | t :: rest => t ++ separator ++ join separator rest

def ofNat (n : Nat) : Text := ofString (Nat.repr n)

end Text

structure Location where
  line : Nat
  column : Nat
  deriving DecidableEq, Repr, Inhabited

namespace Location

def origin : Location := ⟨1, 0⟩

def right (at_ : Location) (units : Nat) : Location := ⟨at_.line, at_.column + units⟩

def nextLine (at_ : Location) : Location := ⟨at_.line + 1, 0⟩

end Location

end Loom
