import Loom.Decimal.Read
import Loom.Grammar.Cursor

/-!
Expressions. Each level of precedence is written in terms of the next higher one; where the
grammar turns back to a lower level it goes through `Rules`, and does so only after it has taken
a token.
-/

namespace Loom.Grammar

structure Context where
  inFunction : Bool
  loopDepth : Nat
  scopeRoot : Bool
  topLevel : Bool
  deriving DecidableEq, Repr

def Context.program : Context := ⟨false, 0, true, true⟩

def Context.function : Context := ⟨true, 0, true, false⟩

def Context.branch (ctx : Context) : Context := { ctx with scopeRoot := false, topLevel := false }

def Context.loop (ctx : Context) : Context :=
  { ctx with loopDepth := ctx.loopDepth + 1, scopeRoot := false, topLevel := false }

inductive Ending where
  | input | endKeyword | branchKeyword
  deriving DecidableEq, Repr

/-- Whether a token, left in place, ends the statements. -/
def Ending.stops : Ending → Lexeme → Bool
  | endKeyword, .keyword .endKw => true
  | branchKeyword, .keyword .endKw => true
  | branchKeyword, .keyword .elseKw => true
  | branchKeyword, .keyword .elsifKw => true
  | _, _ => false

/-- The rules that the grammar comes back to from inside itself. -/
structure Rules where
  expression : Parse Expr
  negation : Parse Expr
  unary : Parse Expr
  block : Context → Ending → Parse Block

def chainFrom (op? : Lexeme → Option BinaryOp) (operand : Parse Expr) :
    Nat → Expr → Parse Expr
  | 0, left => pure left
  | n + 1, left => do
      let t ← peek
      match op? t.lexeme with
      | none => pure left
      | some op => do
          let _ ← advance
          skipNewlines
          let right ← operand
          chainFrom op? operand n (.binary op left right t.loc)

def chain (op? : Lexeme → Option BinaryOp) (operand : Parse Expr) : Parse Expr := do
  let left ← operand
  -- what is left is counted only where an operator asks for it
  if (op? (← peek).lexeme).isSome then chainFrom op? operand (← remaining) left
  else pure left

def concatOp? : Lexeme → Option BinaryOp
  | .symbol .ampersand => some .concat
  | _ => none

def orOp? : Lexeme → Option BinaryOp
  | .keyword .orKw => some .or
  | .keyword .xorKw => some .xor
  | _ => none

def andOp? : Lexeme → Option BinaryOp
  | .keyword .andKw => some .and
  | _ => none

def compareOp? : Lexeme → Option BinaryOp
  | .symbol .less => some .less
  | .symbol .lessEqual => some .lessEqual
  | .symbol .greater => some .greater
  | .symbol .greaterEqual => some .greaterEqual
  | .symbol .equal => some .equal
  | .symbol .notEqual => some .notEqual
  | _ => none

def sumOp? : Lexeme → Option BinaryOp
  | .symbol .plus => some .add
  | .symbol .minus => some .subtract
  | _ => none

def productOp? : Lexeme → Option BinaryOp
  | .symbol .star => some .multiply
  | .symbol .slash => some .divide
  | .symbol .percent => some .remainder
  | _ => none

def interpolation (rules : Rules) (source : Text) (loc : Location) : Except Diagnostic Expr := do
  let tokens ← tokenize source loc
  let read : Parse Expr := do
    let e ← rules.expression
    let t ← peek
    if t.lexeme == .eof then pure e
    else failAt t.loc (.unexpectedInInterpolation t.lexeme)
  let (e, _) ← read (.ofTokens tokens)
  pure e

def segments (rules : Rules) : List StringPart → Except Diagnostic (List Segment)
  | [] => pure []
  | .text value :: rest => do
      let rest ← segments rules rest
      pure (.text value :: rest)
  | .code source loc :: rest => do
      let e ← interpolation rules source loc
      let rest ← segments rules rest
      pure (.code e :: rest)

def plainText? : List StringPart → Option Text
  | [] => some []
  | .text value :: rest => (plainText? rest).map (value ++ ·)
  | .code _ _ :: _ => none

/-- A hash key is a word, a number as it is written, or a string without code. -/
def hashKey : Parse Text := do
  let t ← peek
  match t.lexeme with
  | .ident name => do
      let _ ← advance
      pure name
  | .keyword word => do
      let _ ← advance
      pure word.text
  | .number digits => do
      let _ ← advance
      pure digits
  | .string _ parts =>
      match plainText? parts with
      | some key => do
          let _ ← advance
          pure key
      | none => failAt t.loc .interpolatedKey
  | found => failAt t.loc (.expectedKey found)

def hashEntry (rules : Rules) : Parse Entry := do
  let key ← hashKey
  let _ ← expectSymbol .colon .colon
  skipNewlines
  let value ← rules.expression
  pure ⟨key, value⟩

/-- A hash from its opening brace on, with the place of the brace. -/
def hashEntries (rules : Rules) : Parse (List Entry × Location) := do
  let t ← expectSymbol .openBrace .openBrace
  let entries ← delimited .closeBrace .closeBrace (hashEntry rules)
  pure (entries, t.loc)

def parameters (taken : List Text) : Nat → Parse (List Text)
  | 0 => pure taken
  | n + 1 => do
      if ← nextSymbol .closeParen then pure taken
      else
        let (name, t) ← expectName .parameterName
        if taken.contains name then failAt t.loc (.duplicateParameter name)
        else
          skipNewlines
          if ← acceptSymbol .comma then
            skipNewlines
            parameters (taken ++ [name]) n
          else pure (taken ++ [name])

def sharedNames : Parse (List Text) := do
  if ← acceptKeyword .useKw then nameList else pure []

/-- Behind an arrow the body is one expression to return, otherwise statements up to `end`. -/
def procedure (rules : Rules) : Parse Procedure := do
  let _ ← expectSymbol .openParen .openParen
  skipNewlines
  let params ← parameters [] ((← remaining) + 1)
  let _ ← expectSymbol .closeParen .closeParen
  let uses ← sharedNames
  if ← nextSymbol .arrow then
    -- the body that is made up has the place of the arrow
    let arrow ← advance
    let value ← rules.expression
    pure ⟨params, uses, ⟨[.giveBack (some value) arrow.loc], arrow.loc⟩, .unset⟩
  else
    let _ ← expectNewline .bodyStart
    -- no loop around the function is one that its body could leave
    let body ← rules.block .function .endKeyword
    let _ ← expectKeyword .endKw .endKeyword
    pure ⟨params, uses, body, .unset⟩

def separator : Parse Unit := do
  skipNewlines
  let _ ← expectSymbol .comma .comma
  skipNewlines

/-- A conditional, whose `if` at `loc` is taken already. -/
def choice (rules : Rules) (loc : Location) : Parse Expr := do
  let _ ← expectSymbol .openParen .conditionalParen
  skipNewlines
  let condition ← rules.expression
  separator
  let consequent ← rules.expression
  separator
  let alternate ← rules.expression
  skipNewlines
  let _ ← expectSymbol .closeParen .closeParen
  pure (.choice condition consequent alternate loc)

def reference (loc : Location) : Parse Expr := do
  let (first, _) ← expectName .referenceName
  if ← acceptSymbol .dot then
    let (name, _) ← expectName .memberName
    pure (.ref (some first) name loc)
  else pure (.ref none first loc)

def keywordExpression (rules : Rules) (word : Keyword) (loc : Location) : Parse Expr := do
  match word with
  | .trueKw => do
      let _ ← advance
      pure (.bool true loc)
  | .falseKw => do
      let _ ← advance
      pure (.bool false loc)
  | .nullKw => do
      let _ ← advance
      pure (.null loc)
  | .newKw => do
      let _ ← advance
      if ← nextSymbol .openBrace then
        let (entries, hashLoc) ← hashEntries rules
        pure (.new entries hashLoc loc)
      else fail .newWithoutBrace
  | .refKw => do
      let _ ← advance
      reference loc
  | .funcKw => do
      let _ ← advance
      let p ← procedure rules
      pure (.lambda p loc)
  | .ifKw => do
      let _ ← advance
      choice rules loc
  | word => failAt loc (.unexpectedKeyword word)

def primary (rules : Rules) : Parse Expr := do
  let t ← peek
  match t.lexeme with
  | .number digits => do
      let _ ← advance
      pure (.number (Decimal.literalValue digits) t.loc)
  | .string _ parts => do
      let _ ← advance
      let segments ← (segments rules parts : Except Diagnostic (List Segment))
      pure (.string segments t.loc)
  | .ident name => do
      let _ ← advance
      pure (.ident name t.loc)
  | .symbol .openParen => do
      let _ ← advance
      skipNewlines
      let e ← rules.expression
      skipNewlines
      let _ ← expectSymbol .closeParen .closeParen
      pure e
  | .symbol .openBracket => do
      let _ ← advance
      let elements ← delimited .closeBracket .closeBracket rules.expression
      pure (.array elements t.loc)
  | .symbol .openBrace => do
      let (entries, loc) ← hashEntries rules
      pure (.hash entries loc)
  | .keyword word => keywordExpression rules word t.loc
  | found => failAt t.loc (.unexpected found)

def suffixes (rules : Rules) : Nat → Expr → Parse Expr
  | 0, e => pure e
  | n + 1, e => do
      let t ← peek
      match t.lexeme with
      | .symbol .openParen => do
          let _ ← advance
          let args ← delimited .closeParen .closeParen rules.expression
          suffixes rules n (.call e args t.loc)
      | .symbol .dot => do
          let _ ← advance
          let (name, _) ← expectName .fieldName
          suffixes rules n (.field e name t.loc)
      | .symbol .openBracket => do
          let _ ← advance
          skipNewlines
          let position ← rules.expression
          skipNewlines
          let _ ← expectSymbol .closeBracket .closeBracket
          suffixes rules n (.index e position t.loc)
      | _ => pure e

/-- Whether a token goes on with the expression in front of it. -/
def beginsSuffix : Lexeme → Bool
  | .symbol .openParen | .symbol .dot | .symbol .openBracket => true
  | _ => false

def access (rules : Rules) : Parse Expr := do
  let e ← primary rules
  if beginsSuffix (← peek).lexeme then suffixes rules (← remaining) e
  else pure e

def negated (operand : Expr) (loc : Location) : Expr :=
  match operand with
  -- a minus in front of a number literal becomes a part of it
  | .number value _ => .number (-value) loc
  | e => .unary .negate e loc

def unary (rules : Rules) : Parse Expr := do
  let t ← peek
  if t.lexeme == .symbol .minus then
    let _ ← advance
    let operand ← rules.unary
    pure (negated operand t.loc)
  else access rules

def product (rules : Rules) : Parse Expr := chain productOp? (unary rules)

def sum (rules : Rules) : Parse Expr := chain sumOp? (product rules)

def comparison (rules : Rules) : Parse Expr := chain compareOp? (sum rules)

def negation (rules : Rules) : Parse Expr := do
  let t ← peek
  if t.lexeme == .keyword .notKw then
    let _ ← advance
    let operand ← rules.negation
    pure (.unary .not operand t.loc)
  else comparison rules

def conjunction (rules : Rules) : Parse Expr := chain andOp? (negation rules)

def disjunction (rules : Rules) : Parse Expr := chain orOp? (conjunction rules)

def expression (rules : Rules) : Parse Expr := chain concatOp? (disjunction rules)

end Loom.Grammar
