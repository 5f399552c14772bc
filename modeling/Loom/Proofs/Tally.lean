import Loom.Proofs.Lexing
import Loom.Proofs.Reading.Outcome
import Loom.Repl

/-!
What a text leaves open. The interactive loop counts words and brackets, token by
token; the grammar knows that some of the words it counts are no blocks. Here the
two counts stand side by side, and what the second one comes to is followed
through the reading of a text: at any cursor, what has been opened so far and what
the tokens ahead will open add up to the same.
-/

namespace Loom

namespace Repl

/-- What is known of the line in front of a token: whether nothing of it has been
read yet, and whether what was read last asks for more, be it on the next line. -/
structure Place where
  atStart : Bool
  goesOn : Bool

/-- Whether something has to follow a lexeme, with line ends in between if need be. -/
def asksMore : Lexeme → Bool
  | .symbol .closeParen | .symbol .closeBracket | .symbol .closeBrace => false
  | .symbol .dot | .symbol .arrow => false
  | .symbol _ => true
  | .keyword .andKw | .keyword .orKw | .keyword .xorKw => true
  | _ => false

def Place.behind (p : Place) (lexeme : Lexeme) : Place :=
  if lexeme = .newline then ⟨true, p.goesOn⟩ else ⟨false, asksMore lexeme⟩

/-- What `opened` counts too much for a token: the word of a hash key as if it began
or ended a block, and a conditional expression that has a line's first place as if
it were a statement. -/
def misread (p : Place) (t : Token) (rest : List Token) : Int :=
  match t.lexeme with
  | .keyword .forKw => if p.goesOn then 1 else 0
  | .keyword .endKw => if p.goesOn then -1 else 0
  | .keyword .ifKw => if p.atStart && p.goesOn then 1 else 0
  | .keyword .funcKw =>
      if opensBlock rest && (rest.head?.map Token.lexeme == some (.symbol .colon)) then 1 else 0
  | _ => 0

def misreadIn (p : Place) : List Token → Int
  | [] => 0
  | t :: rest => misread p t rest + misreadIn (p.behind t.lexeme) rest

def blocksAt (p : Place) (t : Token) (rest : List Token) : Int :=
  (opened p.atStart t rest).1 - misread p t rest

def blocksIn (p : Place) : List Token → Int
  | [] => 0
  | t :: rest => blocksAt p t rest + blocksIn (p.behind t.lexeme) rest

def nesting : Lexeme → Int
  | .symbol .openParen | .symbol .openBracket | .symbol .openBrace => 1
  | .symbol .closeParen | .symbol .closeBracket | .symbol .closeBrace => -1
  | _ => 0

def bracketsIn : List Token → Int
  | [] => 0
  | t :: rest => nesting t.lexeme + bracketsIn rest

theorem opened_snd (atStart : Bool) (t : Token) (rest : List Token) :
    (opened atStart t rest).2 = nesting t.lexeme := by
  unfold opened nesting
  split <;> simp_all

theorem behind_atStart (p : Place) (lexeme : Lexeme) :
    (p.behind lexeme).atStart = (lexeme == Lexeme.newline) := by
  unfold Place.behind
  by_cases is : lexeme = .newline <;> simp [is]

/-- The loop's count is the real one and what it counts too much. -/
theorem balance_eq (p : Place) (tokens : List Token) :
    balance p.atStart tokens = (blocksIn p tokens + misreadIn p tokens, bracketsIn tokens) := by
  induction tokens generalizing p with
  | nil => rfl
  | cons t rest ih =>
      have behind := ih (p.behind t.lexeme)
      rw [behind_atStart] at behind
      simp only [balance, behind, opened_snd, blocksIn, misreadIn, bracketsIn, blocksAt]
      ext
      · simp only
        omega
      · rfl

/-! The tokens that matter neither as blocks nor as brackets. -/

/-- A lexeme that opens and closes nothing and asks for nothing more. -/
def isPlain : Lexeme → Bool
  | .number _ | .string _ _ | .ident _ => true
  | .symbol .dot | .symbol .arrow => true
  | .keyword .ifKw | .keyword .forKw | .keyword .funcKw | .keyword .endKw => false
  | .keyword .andKw | .keyword .orKw | .keyword .xorKw => false
  | .keyword _ => true
  | _ => false

theorem asksMore_of_plain {lexeme : Lexeme} (plain : isPlain lexeme = true) :
    asksMore lexeme = false := by
  unfold isPlain at plain
  split at plain <;> simp_all [asksMore]

theorem nesting_of_plain {lexeme : Lexeme} (plain : isPlain lexeme = true) :
    nesting lexeme = 0 := by
  unfold isPlain at plain
  split at plain <;> simp_all [nesting]

theorem blocksAt_of_plain {p : Place} {t : Token} {rest : List Token}
    (plain : isPlain t.lexeme = true) : blocksAt p t rest = 0 := by
  unfold isPlain at plain
  unfold blocksAt opened misread
  split at plain <;> simp_all

theorem blocksAt_of_asksMore {p : Place} {t : Token} {rest : List Token}
    (on : asksMore t.lexeme = true) : blocksAt p t rest = 0 := by
  unfold asksMore at on
  unfold blocksAt opened misread
  split at on <;> simp_all
  split <;> simp_all

theorem blocksAt_of_closing {p : Place} {t : Token} {rest : List Token}
    (closes : nesting t.lexeme = -1) : blocksAt p t rest = 0 := by
  unfold nesting at closes
  unfold blocksAt opened misread
  split at closes <;> simp_all

theorem asksMore_of_closing {lexeme : Lexeme} (closes : nesting lexeme = -1) :
    asksMore lexeme = false := by
  unfold nesting at closes
  split at closes <;> simp_all [asksMore]

theorem asksMore_of_opening {lexeme : Lexeme} (opens : nesting lexeme = 1) :
    asksMore lexeme = true := by
  unfold nesting at opens
  split at opens <;> simp_all [asksMore]

/-! Which functions have a block is told from what follows their parameters. -/

def isListed (t : Token) : Bool :=
  match t.lexeme with
  | .ident _ => true
  | .symbol .comma => true
  | _ => false

def bodyOpens : List Token → Bool
  | t :: _ => t.lexeme != Lexeme.symbol .arrow
  | [] => true

def blockFollows : List Token → Bool
  | t :: rest =>
      bodyOpens (if t.lexeme == Lexeme.keyword .useKw then rest.dropWhile isListed else t :: rest)
  | [] => true

theorem opensBlock_cons {t : Token} {rest : List Token}
    (inside : t.lexeme ≠ .symbol .closeParen) : opensBlock (t :: rest) = opensBlock rest := by
  have h : (t.lexeme != Lexeme.symbol .closeParen) = true := by simpa using inside
  simp only [opensBlock, List.dropWhile_cons, h, if_true]

theorem opensBlock_close {t : Token} {rest : List Token}
    (closes : t.lexeme = .symbol .closeParen) : opensBlock (t :: rest) = blockFollows rest := by
  have h : (t.lexeme != Lexeme.symbol .closeParen) = false := by simp [closes]
  simp only [opensBlock, List.dropWhile_cons, h]
  cases rest <;> rfl

end Repl

end Loom
