import Loom.Program
import Loom.Token.Lexer

/-!
Reading tokens one after another. Past the last token a cursor shows the end of input, which is
never taken off.
-/

namespace Loom.Grammar

structure Cursor where
  tokens : List Token
  stop : Location

def Cursor.ofTokens (tokens : List Token) : Cursor :=
  match tokens.getLast? with
  | some last => ⟨tokens.dropLast, last.loc⟩
  | none => ⟨[], .origin⟩

abbrev Parse := StateT Cursor (Except Diagnostic)

def peek : Parse Token := fun c =>
  match c.tokens with
  | [] => .ok (⟨.eof, c.stop⟩, c)
  | t :: _ => .ok (t, c)

def peekSecond : Parse Token := fun c =>
  match c.tokens with
  | _ :: t :: _ => .ok (t, c)
  | _ => .ok (⟨.eof, c.stop⟩, c)

def advance : Parse Token := fun c =>
  match c.tokens with
  | [] => .ok (⟨.eof, c.stop⟩, c)
  | t :: rest => .ok (t, { c with tokens := rest })

/-- A loop that takes a token on each pass goes round no more often than this. -/
def remaining : Parse Nat := fun c => .ok (c.tokens.length, c)

def failAt {α : Type} (loc : Location) (fault : SyntaxFault) : Parse α :=
  fun _ => .error (fault.located loc)

def fail {α : Type} (fault : SyntaxFault) : Parse α := do
  failAt (← peek).loc fault

def isNewline (t : Token) : Bool := t.lexeme == .newline

def skipNewlines : Parse Unit := fun c =>
  .ok ((), { c with tokens := c.tokens.dropWhile isNewline })

def next (lexeme : Lexeme) : Parse Bool := do
  pure ((← peek).lexeme == lexeme)

def nextSymbol (s : Symbol) : Parse Bool := next (.symbol s)

def accept (lexeme : Lexeme) : Parse Bool := do
  if ← next lexeme then
    let _ ← advance
    pure true
  else pure false

def acceptSymbol (s : Symbol) : Parse Bool := accept (.symbol s)

def acceptKeyword (k : Keyword) : Parse Bool := accept (.keyword k)

def expect (lexeme : Lexeme) (what : Expected) : Parse Token := do
  let t ← peek
  if t.lexeme == lexeme then advance
  else failAt t.loc (.expected what t.lexeme)

def expectSymbol (s : Symbol) (what : Expected) : Parse Token := expect (.symbol s) what

def expectKeyword (k : Keyword) (what : Expected) : Parse Token := expect (.keyword k) what

def expectNewline (what : Expected) : Parse Token := expect .newline what

def expectName (what : Expected) : Parse (Text × Token) := do
  let t ← peek
  match t.lexeme with
  | .ident name => do
      let _ ← advance
      pure (name, t)
  | found => failAt t.loc (.expected what found)

def endStatement : Parse Unit := do
  if ← next .eof then pure ()
  else
    let _ ← expectNewline .endOfLine
    pure ()

def moreNames : Nat → Parse (List Text)
  | 0 => pure []
  | n + 1 => do
      if ← acceptSymbol .comma then
        let (name, _) ← expectName .name
        let rest ← moreNames n
        pure (name :: rest)
      else pure []

def nameList : Parse (List Text) := do
  let (name, _) ← expectName .name
  let rest ← moreNames (← remaining)
  pure (name :: rest)

/-- Up to a closing symbol, which is not taken. A comma may stand before it. -/
def items {α : Type} (close : Symbol) (item : Parse α) : Nat → Parse (List α)
  | 0 => pure []
  | n + 1 => do
      if ← nextSymbol close then pure []
      else
        let first ← item
        skipNewlines
        if ← acceptSymbol .comma then
          skipNewlines
          let rest ← items close item n
          pure (first :: rest)
        else pure [first]

/-- The items of a bracket, whose opening symbol is taken already. -/
def delimited {α : Type} (close : Symbol) (what : Expected) (item : Parse α) :
    Parse (List α) := do
  skipNewlines
  let list ← items close item ((← remaining) + 1)
  let _ ← expectSymbol close what
  pure list

end Loom.Grammar
