import Loom.Decimal.Read
import Loom.Fault

/-!
Cutting source text into tokens. The lexer walks over the units once; each begins a piece of the
text, or belongs to the piece that an earlier unit began.
-/

namespace Loom

def SyntaxFault.located (fault : SyntaxFault) (loc : Location) : Diagnostic :=
  ⟨.malformed fault, some loc, none⟩

namespace Lexer

def isBlank (u : UInt16) : Bool := u == 0x20 || u == 0x09 || u == 0x0D

def isLineEnd (u : UInt16) : Bool := u == 0x0A

def isQuote (u : UInt16) : Bool := u == 0x22

def isBackslash (u : UInt16) : Bool := u == 0x5C

def isIdentStart (u : UInt16) : Bool :=
  (0x61 ≤ u && u ≤ 0x7A) || (0x41 ≤ u && u ≤ 0x5A) || u == 0x5F

def isIdentPart (u : UInt16) : Bool := isIdentStart u || Decimal.isDigit u

def numberText (t : Text) : Text :=
  let (whole, rest) := Decimal.spanDigits t
  match rest with
  | point :: d :: tail =>
      if point = 0x2E ∧ Decimal.isDigit d then
        whole ++ point :: (d :: tail).takeWhile Decimal.isDigit
      else whole
  | _ => whole

def wordText (t : Text) : Text := t.takeWhile isIdentPart

def commentText (t : Text) : Text := t.takeWhile (fun u => !isLineEnd u)

def wordLexeme (word : Text) : Lexeme :=
  match Keyword.ofText? word with
  | some keyword => .keyword keyword
  | none => .ident word

def escape? (u : UInt16) : Option UInt16 :=
  if u = 0x22 ∨ u = 0x5C ∨ u = 0x24 then some u
  else if u = 0x6E then some 0x0A
  else if u = 0x74 then some 0x09
  else none

/-- The length up to the closing brace; `quoted` holds within a string of the code. -/
def codeLength : (quoted : Bool) → (braces : Nat) → Text → Except SyntaxFault Nat
  | true, _, [] => .error .unterminatedString
  | false, _, [] => .error .unterminatedInterpolation
  | true, braces, u :: rest =>
      if isQuote u then (· + 1) <$> codeLength false braces rest
      else if isLineEnd u then .error .unterminatedString
      else if isBackslash u then
        -- the next unit is passed over with it, so that no escaped quote ends the string
        match rest with
        | [] => .error .unterminatedString
        | _ :: tail => (· + 2) <$> codeLength true braces tail
      else (· + 1) <$> codeLength true braces rest
  | false, braces, u :: rest =>
      if isLineEnd u then .error .unterminatedInterpolation
      else if isQuote u then (· + 1) <$> codeLength true braces rest
      else if u = 0x7B then (· + 1) <$> codeLength false (braces + 1) rest
      else if u = 0x7D then
        match braces with
        | 0 => .ok 0
        | outer + 1 => (· + 1) <$> codeLength false outer rest
      else (· + 1) <$> codeLength false braces rest

def code? (t : Text) : Except SyntaxFault Text := do
  let length ← codeLength false 0 t
  let code := t.take length
  if (Text.trim code).isEmpty then .error .emptyInterpolation else .ok code

def consUnit (u : UInt16) : List StringPart → List StringPart
  | .text t :: parts => .text (u :: t) :: parts
  | parts => .text [u] :: parts

/-- With the number of units up to and with the closing quote; `skip` counts units that belong to a
part already read. -/
def stringParts (start : Location) :
    (skip : Nat) → Text → Location → Except Diagnostic (List StringPart × Nat)
  | _, [], _ => .error (SyntaxFault.unterminatedString.located start)
  | skip + 1, _ :: rest, loc => do
      let (parts, n) ← stringParts start skip rest (loc.right 1)
      pure (parts, n + 1)
  | 0, u :: rest, loc =>
      if isLineEnd u then .error (SyntaxFault.unterminatedString.located start)
      else if isQuote u then .ok ([], 1)
      else if isBackslash u then
        match rest.head?.bind escape? with
        | none => .error ((SyntaxFault.unknownEscape (rest.take 1)).located loc)
        | some v => do
            let (parts, n) ← stringParts start 1 rest (loc.right 1)
            pure (consUnit v parts, n + 1)
      else if u = 0x24 ∧ rest.head? = some 0x7B then
        match code? (rest.drop 1) with
        | .error fault => .error (fault.located loc)
        | .ok code => do
            -- the opening brace, the code and its closing brace are behind this unit
            let (parts, n) ← stringParts start (code.length + 2) rest (loc.right 1)
            pure (.code code (loc.right 2) :: parts, n + 1)
      else do
        let (parts, n) ← stringParts start 0 rest (loc.right 1)
        pure (consUnit u parts, n + 1)

def stringLexeme (written : Text) (loc : Location) : Except Diagnostic (Lexeme × Nat) := do
  let (parts, n) ← stringParts loc 0 (written.drop 1) (loc.right 1)
  -- an empty literal has one empty part
  let parts := if parts.isEmpty then [.text []] else parts
  pure (.string (written.take (n + 1)) parts, n + 1)

def piece (u : UInt16) (source : Text) (loc : Location) :
    Except Diagnostic (Option Lexeme × Nat) :=
  if isBlank u then .ok (none, 1)
  else if isLineEnd u then .ok (some .newline, 1)
  else if u = 0x23 then .ok (none, (commentText source).length)
  else if Decimal.isDigit u then
    let digits := numberText source
    .ok (some (.number digits), digits.length)
  else if isIdentStart u then
    let word := wordText source
    .ok (some (wordLexeme word), word.length)
  else if isQuote u then do
    let (lexeme, n) ← stringLexeme source loc
    pure (some lexeme, n)
  else
    match Symbol.inFront? source with
    | some s => .ok (some (.symbol s), s.text.length)
    | none => .error ((SyntaxFault.unexpectedCharacter u).located loc)

/-- After `skip` units that belong to a token already read. -/
def scan : (skip : Nat) → Text → Location → Except Diagnostic (List Token)
  | _, [], loc => .ok [⟨.eof, loc⟩]
  | skip + 1, _ :: rest, loc => scan skip rest (loc.right 1)
  | 0, u :: rest, loc => do
      let (lexeme?, length) ← piece u (u :: rest) loc
      let tokens ← scan (length - 1) rest (if isLineEnd u then loc.nextLine else loc.right 1)
      match lexeme? with
      | some lexeme => pure (⟨lexeme, loc⟩ :: tokens)
      | none => pure tokens

end Lexer

def tokenize (source : Text) (start : Location) : Except Diagnostic (List Token) :=
  Lexer.scan 0 source start

end Loom
