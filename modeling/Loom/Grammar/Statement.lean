import Loom.Dyadic
import Loom.Grammar.Expression

/-!
Statements, and the grammar as a whole. What may stand where is decided here, by the context that
a rule is given. Where a rule is given a place, the word that stands there is taken already.
Every rule that is come back to has taken a token since, so the text cannot be nested deeper
than it is long.
-/

namespace Loom

namespace Grammar

def definition (rules : Rules) (loc : Location) : Parse Stmt := do
  let (name, _) ← expectName .functionName
  let p ← procedure rules
  endStatement
  pure (.define name p loc)

def branch (rules : Rules) (ctx : Context) : Parse Branch := do
  let condition ← rules.expression
  let _ ← expectNewline .endOfLineAfterCondition
  let body ← rules.block ctx.branch .branchKeyword
  pure ⟨condition, body⟩

def moreBranches (rules : Rules) (ctx : Context) : Nat → Parse (List Branch)
  | 0 => pure []
  | n + 1 => do
      if ← acceptKeyword .elsifKw then
        let b ← branch rules ctx
        let rest ← moreBranches rules ctx n
        pure (b :: rest)
      else pure []

def alternative (rules : Rules) (ctx : Context) : Parse (Option Block) := do
  if ← acceptKeyword .elseKw then
    let _ ← expectNewline .endOfLineAfterElse
    let body ← rules.block ctx.branch .endKeyword
    pure (some body)
  else pure none

def conditional (rules : Rules) (ctx : Context) (loc : Location) : Parse Stmt := do
  let first ← branch rules ctx
  let others ← moreBranches rules ctx (← remaining)
  let alternate ← alternative rules ctx
  let _ ← expectKeyword .endKw .endKeyword
  endStatement
  pure (.cond (first :: others) alternate loc)

def namedAs (what : Expected) : Parse (Option Text) := do
  if ← acceptKeyword .asKw then
    let (name, _) ← expectName what
    pure (some name)
  else pure none

/-- With `as` it goes through a collection, without it runs while its condition holds. -/
def loop (rules : Rules) (ctx : Context) (loc : Location) : Parse Stmt := do
  let subject ← rules.expression
  let item? ← namedAs .loopVariable
  let _ ← expectNewline .endOfLine
  let body ← rules.block ctx.loop .endKeyword
  let _ ← expectKeyword .endKw .endKeyword
  endStatement
  match item? with
  | some item => pure (.forEach item subject body loc)
  | none => pure (.whileLoop subject body loc)

/-- How many loops a `break` or `continue` names: one unless a number follows. -/
def loopDepth : Parse Nat := do
  let t ← peek
  match t.lexeme with
  | .number digits => do
      let _ ← advance
      -- a literal such as `2.0` is a whole number too
      match wholeOf? (Decimal.literalValue digits) with
      | some (.ofNat (depth + 1)) => pure (depth + 1)
      | _ => failAt t.loc (.invalidLoopDepth digits)
  | _ => pure 1

def loopControl (ctx : Context) (word : Keyword) (loc : Location) : Parse Nat := do
  let depth ← loopDepth
  if ctx.loopDepth < depth then
    if ctx.loopDepth = 0 then failAt loc (.outsideLoop word)
    else failAt loc (.tooFewLoops word depth ctx.loopDepth)
  else
    endStatement
    pure depth

def returnedValue (rules : Rules) : Parse (Option Expr) := do
  let t ← peek
  if t.lexeme == .newline || t.lexeme == .eof then pure none
  else
    let e ← rules.expression
    pure (some e)

def returning (rules : Rules) (ctx : Context) (loc : Location) : Parse Stmt := do
  if !ctx.inFunction then failAt loc .returnOutsideFunction
  else
    let value ← returnedValue rules
    endStatement
    pure (.giveBack value loc)

def emission (rules : Rules) (loc : Location) : Parse Stmt := do
  let value ← rules.expression
  let key ← namedAs .outputName
  endStatement
  pure (.emit value key loc)

def sharing (ctx : Context) (loc : Location) : Parse Stmt := do
  if !ctx.scopeRoot then failAt loc .misplacedUse
  else
    let names ← nameList
    endStatement
    pure (.use names loc)

def importing (ctx : Context) (loc : Location) : Parse Stmt := do
  if !ctx.topLevel then failAt loc .misplacedImport
  else
    let native ← acceptKeyword .nativeKw
    let modules ← nameList
    endStatement
    pure (.imports native modules loc)

def assignOp? : Lexeme → Option AssignOp
  | .symbol .assign => some .set
  | .symbol .addAssign => some .add
  | .symbol .subtractAssign => some .subtract
  | .symbol .multiplyAssign => some .multiply
  | .symbol .divideAssign => some .divide
  | .symbol .remainderAssign => some .remainder
  | _ => none

/-- A statement without a leading keyword assigns to a target or calls. -/
def assignmentOrCall (rules : Rules) : Parse Stmt := do
  let start ← peek
  -- no token has been taken yet, so this is the rule itself and not the one in `rules`
  let e ← expression rules
  let t ← peek
  match assignOp? t.lexeme with
  | some op => do
      let _ ← advance
      match e.target? with
      | none => failAt start.loc .invalidTarget
      | some target => do
          skipNewlines
          let value ← rules.expression
          endStatement
          pure (.assign target op value start.loc)
  | none =>
      match e with
      | .call callee args callLoc => do
          endStatement
          pure (.call callee args callLoc start.loc)
      | _ => failAt start.loc .notAStatement

def statement (rules : Rules) (ctx : Context) : Parse Stmt := do
  let t ← peek
  match t.lexeme with
  | .keyword .funcKw => do
      -- a lambda is no statement, and is refused at what stands for its name
      let second ← peekSecond
      match second.lexeme with
      | .ident _ => do
          let _ ← advance
          definition rules t.loc
      | _ => failAt second.loc .unnamedFunction
  | .keyword .ifKw => do
      let _ ← advance
      conditional rules ctx t.loc
  | .keyword .forKw => do
      let _ ← advance
      loop rules ctx t.loc
  | .keyword .breakKw => do
      let _ ← advance
      let depth ← loopControl ctx .breakKw t.loc
      pure (.leave depth t.loc)
  | .keyword .continueKw => do
      let _ ← advance
      let depth ← loopControl ctx .continueKw t.loc
      pure (.next depth t.loc)
  | .keyword .returnKw => do
      let _ ← advance
      returning rules ctx t.loc
  | .keyword .emitKw => do
      let _ ← advance
      emission rules t.loc
  | .keyword .useKw => do
      let _ ← advance
      sharing ctx t.loc
  | .keyword .importKw => do
      let _ ← advance
      importing ctx t.loc
  | _ => assignmentOrCall rules

/-- Each pass takes a token, so one pass more than there are tokens is enough. -/
def statements (rules : Rules) (ctx : Context) (ending : Ending) : Nat → Parse (List Stmt)
  | 0 => fail .nesting
  | n + 1 => do
      skipNewlines
      let t ← peek
      if t.lexeme == .eof then
        if ending = .input then pure [] else failAt t.loc .missingEnd
      else if ending.stops t.lexeme then pure []
      else
        let first ← statement rules ctx
        let rest ← statements rules ctx ending n
        pure (first :: rest)

def block (rules : Rules) (ctx : Context) (ending : Ending) : Parse Block := do
  let t ← peek
  let list ← statements rules ctx ending ((← remaining) + 1)
  pure ⟨list, t.loc⟩

def rules : (fuel : Nat) → Rules
  | 0 =>
      { expression := fail .nesting
        negation := fail .nesting
        unary := fail .nesting
        block := fun _ _ => fail .nesting }
  | fuel + 1 =>
      { expression := fun c => expression (rules fuel) c
        negation := fun c => negation (rules fuel) c
        unary := fun c => unary (rules fuel) c
        block := fun ctx ending c => block (rules fuel) ctx ending c }

def program (rules : Rules) : Parse Program := do
  let b ← block rules .program .input
  pure ⟨b.statements, b.loc⟩

end Grammar

def parse (source : Text) : Except Diagnostic Program := do
  let tokens ← tokenize source .origin
  let (program, _) ← Grammar.program (Grammar.rules (source.length + 1)) (.ofTokens tokens)
  pure program

/-- Reads a source text as a program; a fault names the file it is from. -/
def parseFile (source : Text) (file : Option Text) : Except Diagnostic Program :=
  match parse source with
  | .ok program => .ok program
  | .error d => .error (d.locate .origin file)

end Loom
