import Loom.Text

/-!
Tokens. A lexeme says what a piece of source text is, and keeps as much of the
text as is needed to write it out again: `Lexeme.text` is that piece.
-/

namespace Loom

inductive Keyword where
  | ifKw | elsifKw | elseKw | forKw | asKw | breakKw | continueKw
  | funcKw | returnKw | endKw | useKw | importKw | nativeKw | emitKw
  | notKw | andKw | orKw | xorKw | refKw | newKw
  | trueKw | falseKw | nullKw
  deriving DecidableEq, Repr

namespace Keyword

def all : List Keyword :=
  [ifKw, elsifKw, elseKw, forKw, asKw, breakKw, continueKw, funcKw, returnKw, endKw, useKw,
    importKw, nativeKw, emitKw, notKw, andKw, orKw, xorKw, refKw, newKw, trueKw, falseKw, nullKw]

def text : Keyword → Text
  | ifKw => "if"
  | elsifKw => "elsif"
  | elseKw => "else"
  | forKw => "for"
  | asKw => "as"
  | breakKw => "break"
  | continueKw => "continue"
  | funcKw => "func"
  | returnKw => "return"
  | endKw => "end"
  | useKw => "use"
  | importKw => "import"
  | nativeKw => "native"
  | emitKw => "emit"
  | notKw => "not"
  | andKw => "and"
  | orKw => "or"
  | xorKw => "xor"
  | refKw => "ref"
  | newKw => "new"
  | trueKw => "true"
  | falseKw => "false"
  | nullKw => "null"

def ofText? (word : Text) : Option Keyword := all.find? (fun k => k.text == word)

end Keyword

inductive Symbol where
  | plus | minus | star | slash | percent | ampersand
  | less | lessEqual | greater | greaterEqual | equal | notEqual
  | assign | addAssign | subtractAssign | multiplyAssign | divideAssign | remainderAssign
  | arrow
  | openParen | closeParen | openBracket | closeBracket | openBrace | closeBrace
  | comma | dot | colon
  deriving DecidableEq, Repr

namespace Symbol

def text : Symbol → Text
  | plus => "+"
  | minus => "-"
  | star => "*"
  | slash => "/"
  | percent => "%"
  | ampersand => "&"
  | less => "<"
  | lessEqual => "<="
  | greater => ">"
  | greaterEqual => ">="
  | equal => "=="
  | notEqual => "!="
  | assign => "="
  | addAssign => "+="
  | subtractAssign => "-="
  | multiplyAssign => "*="
  | divideAssign => "/="
  | remainderAssign => "%="
  | arrow => "=>"
  | openParen => "("
  | closeParen => ")"
  | openBracket => "["
  | closeBracket => "]"
  | openBrace => "\x7b"
  | closeBrace => "\x7d"
  | comma => ","
  | dot => "."
  | colon => ":"

/-- The symbols of two units; they win over a symbol of one. -/
def pairs : List Symbol :=
  [arrow, equal, notEqual, lessEqual, greaterEqual, addAssign, subtractAssign, multiplyAssign,
    divideAssign, remainderAssign]

def singles : List Symbol :=
  [openParen, closeParen, openBracket, closeBracket, openBrace, closeBrace, comma, dot, colon,
    plus, minus, star, slash, percent, ampersand, less, greater, assign]

def inFront? (source : Text) : Option Symbol :=
  match pairs.find? (fun s => s.text == source.take 2) with
  | some symbol => some symbol
  | none => singles.find? (fun s => s.text == source.take 1)

end Symbol

/-- A string literal is plain text with code between; the code is kept as
source text together with the place where it begins. -/
inductive StringPart where
  | text (value : Text)
  | code (source : Text) (loc : Location)
  deriving DecidableEq, Repr

inductive Lexeme where
  | number (digits : Text)
  | string (written : Text) (parts : List StringPart)
  | ident (name : Text)
  | keyword (word : Keyword)
  | symbol (s : Symbol)
  | newline
  | eof
  deriving DecidableEq, Repr

namespace Lexeme

def text : Lexeme → Text
  | number digits => digits
  | string written _ => written
  | ident name => name
  | keyword word => word.text
  | symbol s => s.text
  | newline => [0x0A]
  | eof => []

def description : Lexeme → Text
  | eof => "end of input"
  | newline => "end of line"
  | string _ _ => "string literal"
  | lexeme => "'" ++ lexeme.text ++ "'"

end Lexeme

/-- The classes of tokens. -/
inductive TokenKind where
  | number | string | identifier | keyword
  | plus | minus | star | slash | percent | ampersand
  | compare | assign | compoundAssign | arrow
  | openParen | closeParen | openBracket | closeBracket | openBrace | closeBrace
  | comma | dot | colon
  | newline | eof
  deriving DecidableEq, Repr

def Symbol.kind : Symbol → TokenKind
  | plus => .plus
  | minus => .minus
  | star => .star
  | slash => .slash
  | percent => .percent
  | ampersand => .ampersand
  | less | lessEqual | greater | greaterEqual | equal | notEqual => .compare
  | assign => .assign
  | addAssign | subtractAssign | multiplyAssign | divideAssign | remainderAssign =>
      .compoundAssign
  | arrow => .arrow
  | openParen => .openParen
  | closeParen => .closeParen
  | openBracket => .openBracket
  | closeBracket => .closeBracket
  | openBrace => .openBrace
  | closeBrace => .closeBrace
  | comma => .comma
  | dot => .dot
  | colon => .colon

def Lexeme.kind : Lexeme → TokenKind
  | number _ => .number
  | string _ _ => .string
  | ident _ => .identifier
  | keyword _ => .keyword
  | symbol s => s.kind
  | newline => .newline
  | eof => .eof

structure Token where
  lexeme : Lexeme
  loc : Location
  deriving DecidableEq, Repr

end Loom
