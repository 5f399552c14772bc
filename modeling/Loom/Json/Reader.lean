import Loom.Json
import Loom.Decimal.Read

/-!
Reading data from its text. A surrogate may stand alone when it is written as an escape.
-/

namespace Loom.Json

def isBlank (u : UInt16) : Bool := u == 0x20 || u == 0x09 || u == 0x0A || u == 0x0D

def skipBlanks (t : Text) : Text := t.dropWhile isBlank

def unit? (a b c d : UInt16) : Option UInt16 := do
  let digit := Decimal.digitIn? 16
  let n := (((← digit a) * 16 + (← digit b)) * 16 + (← digit c)) * 16 + (← digit d)
  pure n.toUInt16

def escape? (u : UInt16) : Option UInt16 :=
  if u = 0x22 ∨ u = 0x5C ∨ u = 0x2F then some u
  else if u = 0x62 then some 0x08
  else if u = 0x66 then some 0x0C
  else if u = 0x6E then some 0x0A
  else if u = 0x72 then some 0x0D
  else if u = 0x74 then some 0x09
  else none

/-- `done` holds what came before, last unit first. -/
def readText (done : Text) : Text → Option (Text × Text)
  | [] => none
  | u :: rest =>
      if u = 0x22 then some (done.reverse, rest)
      else if u < 0x20 then none
      else if u = 0x5C then
        match rest with
        | [] => none
        | e :: tail =>
            if e = 0x75 then
              match tail with
              | a :: b :: c :: d :: after =>
                  match unit? a b c d with
                  | some v => readText (v :: done) after
                  | none => none
              | _ => none
            else
              match escape? e with
              | some v => readText (v :: done) tail
              | none => none
      else readText (u :: done) rest

def readNumber (t : Text) : Option (Float × Text) :=
  let (whole, rest) := Decimal.spanDigits t
  if whole.isEmpty || (whole.head? == some 0x30 && 1 < whole.length) then none
  else
    let fraction? : Option (Text × Text) :=
      match rest with
      | u :: tail =>
          if u = 0x2E then
            let (fraction, after) := Decimal.spanDigits tail
            if fraction.isEmpty then none else some (fraction, after)
          else some ([], rest)
      | [] => some ([], [])
    match fraction? with
    | none => none
    | some (fraction, rest) =>
        match rest with
        | u :: _ =>
            if u = 0x65 ∨ u = 0x45 then
              (Decimal.exponent? rest).map
                (fun p => (Decimal.assemble whole fraction p.1, p.2))
            else some (Decimal.assemble whole fraction 0, rest)
        | [] => some (Decimal.assemble whole fraction 0, [])

def after? (word t : Text) : Option Text :=
  if word.isPrefixOf t then some (t.drop word.length) else none

def readItems (value : Text → Option (Json × Text)) (done : List Json) :
    Nat → Text → Option (List Json × Text)
  | 0, _ => none
  | n + 1, t => do
      let (item, rest) ← value t
      match skipBlanks rest with
      | u :: tail =>
          if u = 0x2C then readItems value (item :: done) n tail
          else if u = 0x5D then some ((item :: done).reverse, tail)
          else none
      | [] => none

def readFields (value : Text → Option (Json × Text)) (done : List (Text × Json)) :
    Nat → Text → Option (List (Text × Json) × Text)
  | 0, _ => none
  | n + 1, t => do
      let rest ← after? [0x22] (skipBlanks t)
      let (key, rest) ← readText [] rest
      let rest ← after? [0x3A] (skipBlanks rest)
      let (item, rest) ← value rest
      match skipBlanks rest with
      | u :: tail =>
          if u = 0x2C then readFields value ((key, item) :: done) n tail
          else if u = 0x7D then some (((key, item) :: done).reverse, tail)
          else none
      | [] => none

/-- The fuel bounds the depth of the value and the number of items at each depth. -/
def readValue : (fuel : Nat) → Text → Option (Json × Text)
  | 0, _ => none
  | fuel + 1, t =>
      match skipBlanks t with
      | [] => none
      | u :: rest =>
          if u = 0x22 then (readText [] rest).map (fun r => (str r.1, r.2))
          else if u = 0x5B then
            match after? [0x5D] (skipBlanks rest) with
            | some tail => some (arr [], tail)
            | none => (readItems (readValue fuel) [] fuel rest).map
                (fun r => (arr r.1, r.2))
          else if u = 0x7B then
            match after? [0x7D] (skipBlanks rest) with
            | some tail => some (obj [], tail)
            | none => (readFields (readValue fuel) [] fuel rest).map
                (fun r => (ofFields r.1, r.2))
          -- a minus takes no second one, nor a blank, behind it
          else if u = 0x2D then (readNumber rest).map (fun r => (num (-r.1), r.2))
          else if Decimal.isDigit u then
            (readNumber (u :: rest)).map (fun r => (num r.1, r.2))
          else if u = 0x74 then (after? "true" (u :: rest)).map ((bool true, ·))
          else if u = 0x66 then (after? "false" (u :: rest)).map ((bool false, ·))
          else (after? "null" (u :: rest)).map ((null, ·))

def read? (t : Text) : Option Json :=
  match readValue (t.length + 1) t with
  | some (value, rest) => if (skipBlanks rest).isEmpty then some value else none
  | none => none

end Loom.Json
