import Loom.Interpreter

/-!
The interactive loop, as a step for each line. Lines are gathered until every block and bracket in
them is closed, and then run together.
-/

namespace Loom

def version : Text := "0.1.0"

inductive Output where
  | out (line : Text)
  | err (line : Text)
  | write (text : Text)
  | prompt (text : Text)
  | input (line : Text)
  deriving DecidableEq, Repr

def Emission.output (emission : Emission) : Output :=
  match emission.key with
  | some key => .out (key ++ ": " ++ emission.line)
  | none => .out emission.line

def Failure.report : Failure → Text
  | .program d => d.message
  | .host fault => "Error: " ++ fault.message

def Stop.report : Stop → Text
  | .failed failure => failure.report
  | .outOfFuel => "Error: out of fuel"

namespace Repl

/-- A `func` opens a block unless an arrow follows its parameters and the names it shares. -/
def opensBlock (tokens : List Token) : Bool :=
  -- parameters are names, so the first closing parenthesis is theirs
  let behind := (tokens.dropWhile (fun t => t.lexeme != Lexeme.symbol .closeParen)).drop 1
  let isListed (t : Token) : Bool :=
    match t.lexeme with
    | .ident _ => true
    | .symbol .comma => true
    | _ => false
  let behind :=
    match behind with
    | t :: rest => if t.lexeme == Lexeme.keyword .useKw then rest.dropWhile isListed else behind
    | [] => []
  match behind with
  | t :: _ => t.lexeme != Lexeme.symbol .arrow
  | [] => true

def opened (atStart : Bool) (t : Token) (rest : List Token) : Int × Int :=
  match t.lexeme with
  | .symbol .openParen | .symbol .openBracket | .symbol .openBrace => (0, 1)
  | .symbol .closeParen | .symbol .closeBracket | .symbol .closeBrace => (0, -1)
  | .keyword .endKw => (-1, 0)
  | .keyword .forKw => (1, 0)
  -- within a line `if` begins a conditional expression, which has no `end`
  | .keyword .ifKw => (if atStart then 1 else 0, 0)
  | .keyword .funcKw => (if opensBlock rest then 1 else 0, 0)
  | _ => (0, 0)

def balance (atStart : Bool) : List Token → Int × Int
  | [] => (0, 0)
  | t :: rest =>
      let (blocks, brackets) := opened atStart t rest
      let (moreBlocks, moreBrackets) := balance (t.lexeme == Lexeme.newline) rest
      (blocks + moreBlocks, brackets + moreBrackets)

end Repl

/-- A text that cannot be cut into tokens counts as complete, so that its fault is reported. -/
def isIncomplete (source : Text) : Bool :=
  match tokenize source .origin with
  | .error _ => false
  | .ok tokens =>
      let (blocks, brackets) := Repl.balance true tokens
      0 < blocks || 0 < brackets

inductive Repl.Ending where
  | quit
  | failed (failure : Failure)

def Repl.Ending.failure? : Repl.Ending → Option Failure
  | quit => none
  | failed failure => some failure

structure Repl where
  interpreter : Interpreter
  buffer : Text
  ended : Option Repl.Ending

namespace Repl

def prompt : Text := "loom> "

def continuation : Text := "  ... "

def farewell : Output := .out "\nGoodbye!"

def greeting : List Output :=
  [.out ("Loom REPL v" ++ version), .out "Type :help for commands, :quit to exit.\n",
    .prompt prompt]

def help : List Output :=
  [.out "",
    .out "REPL Commands:",
    .out "  :help, :h       Show this help message",
    .out "  :quit, :q       Exit the REPL",
    .out "  :env            Show all global variables",
    .out "  :reset          Reset the interpreter state",
    .out "",
    .out "Tips:",
    .out "  - Blocks continue until their closing \u0060end\u0060",
    .out "  - Use \u0060emit expr\u0060 to print a value",
    .out "  - Variables persist between inputs",
    .out ""]

def preview (t : Text) : Text := if 60 < t.length then t.take 57 ++ "..." else t

def Listed.output (l : Listed) : Output :=
  .out ("  " ++ l.name ++ ": " ++ l.type.text ++ " = " ++ preview l.text)

def listing (interpreter : Interpreter) : List Text → List Output × Option Failure
  | [] => ([], none)
  | name :: rest =>
      match Interpreter.list interpreter.state [name] with
      | .ok listed =>
          let (later, failure?) := listing interpreter rest
          (listed.map Listed.output ++ later, failure?)
      | .error failure => ([], some failure)

def environment (interpreter : Interpreter) : List Output × Option Failure :=
  match listing interpreter interpreter.names with
  | ([], none) => ([.out "", .out "  (no user-defined variables, only builtins)", .out ""], none)
  | (lines, none) => (.out "" :: lines ++ [.out ""], none)
  | (lines, some failure) => (.out "" :: lines, some failure)

def command (repl : Repl) (line : Text) : Repl × List Output :=
  let word : Text := line.takeWhile (fun u => !Text.isSpace u)
  let is (names : List String) : Bool := names.any (fun n => Text.ofString n == word)
  if is [":help", ":h"] then (repl, help ++ [.prompt prompt])
  else if is [":quit", ":q", ":exit"] then ({ repl with ended := some .quit }, [farewell])
  else if is [":env"] then
    match environment repl.interpreter with
    | (shown, none) => (repl, shown ++ [.prompt prompt])
    -- only what runs an input catches failures
    | (shown, some failure) => ({ repl with ended := some (.failed failure) }, shown)
  else if is [":reset"] then
    ({ repl with interpreter := repl.interpreter.reset },
      [.out "Interpreter state reset.", .prompt prompt])
  else
    (repl,
      [.out ("Unknown command: " ++ word ++ ". Type :help for available commands."),
        .prompt prompt])

/-- Runs what has been gathered; a failure is shown and the loop goes on. -/
def submit (interpreter : Interpreter) (input : Text) : Interpreter × List Output :=
  if input.isEmpty then (interpreter, [])
  else
    let (result, interpreter) := interpreter.runSource input none
    let (emitted, interpreter) := interpreter.takeEmitted
    let shown := emitted.map Emission.output
    match result with
    | .ok _ => (interpreter, shown)
    | .error stop => (interpreter, shown ++ [.err ("  " ++ stop.report)])

def step (repl : Repl) (line : Text) : Repl × List Output :=
  let trimmed := Text.trim line
  if repl.buffer.isEmpty && trimmed.head? == some 0x3A then repl.command trimmed
  else
    let buffer := if repl.buffer.isEmpty then line else repl.buffer ++ [0x0A] ++ line
    if isIncomplete buffer then ({ repl with buffer := buffer }, [.write continuation])
    else
      let (interpreter, shown) := submit repl.interpreter (Text.trim buffer)
      ({ repl with interpreter := interpreter, buffer := [] }, shown ++ [.prompt prompt])

def start (host : Host) : Repl := ⟨.new host [], [], none⟩

/-- With what is put out comes the failure that ended the loop, if one did. -/
def session (repl : Repl) : List Text → List Output × Option Failure
  | [] => ([farewell], none)
  | line :: rest =>
      let (next, shown) := repl.step line
      match next.ended with
      | some ending => (.input line :: shown, ending.failure?)
      | none =>
          let (later, failure?) := session next rest
          (.input line :: shown ++ later, failure?)

end Repl

end Loom
