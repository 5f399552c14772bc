import Loom.Decimal.Shortest
import Loom.Issue
import Loom.Token

/-!
Everything that can go wrong with a program, by cause. The wording of each
cause is in one place, and a diagnostic is a cause with the place and the file
that the statements around it have given it.
-/

namespace Loom

/-- What the parser waited for when it met another token. -/
inductive Expected where
  | functionName | openParen | closeParen | closeBracket | openBrace | closeBrace
  | parameterName | name | bodyStart | endOfLine | endOfLineAfterCondition
  | endOfLineAfterElse | loopVariable | outputName | fieldName | referenceName
  | memberName | conditionalParen | comma | colon | endKeyword
  deriving DecidableEq, Repr

def Expected.text : Expected → Text
  | functionName => "function name"
  | openParen => "'('"
  | closeParen => "')'"
  | closeBracket => "']'"
  | openBrace => "'\x7b'"
  | closeBrace => "'\x7d'"
  | parameterName => "parameter name"
  | name => "name"
  | bodyStart => "'=>' or end of line"
  | endOfLine => "end of line"
  | endOfLineAfterCondition => "end of line after condition"
  | endOfLineAfterElse => "end of line after 'else'"
  | loopVariable => "loop variable name"
  | outputName => "output name"
  | fieldName => "field name after '.'"
  | referenceName => "function name after 'ref'"
  | memberName => "function name"
  | conditionalParen => "'(' after 'if' in an expression"
  | comma => "','"
  | colon => "':' after hash key"
  | endKeyword => "'end'"

inductive SyntaxFault where
  | unexpectedCharacter (unit : UInt16)
  | unterminatedString
  | unknownEscape (escape : Text)
  | unterminatedInterpolation
  | emptyInterpolation
  | expected (what : Expected) (found : Lexeme)
  | unexpected (found : Lexeme)
  | unexpectedInInterpolation (found : Lexeme)
  | unexpectedKeyword (word : Keyword)
  | missingEnd
  | unnamedFunction
  | duplicateParameter (name : Text)
  | invalidLoopDepth (written : Text)
  | outsideLoop (word : Keyword)
  | tooFewLoops (word : Keyword) (depth : Nat) (loops : Nat)
  | returnOutsideFunction
  | misplacedUse
  | misplacedImport
  | invalidTarget
  | notAStatement
  | newWithoutBrace
  | interpolatedKey
  | expectedKey (found : Lexeme)
  | malformedTree (issue : Issue)
  /-- The text is nested deeper than it is long; no text is. -/
  | nesting
  deriving DecidableEq, Repr

def SyntaxFault.message : SyntaxFault → Text
  | unexpectedCharacter unit => "Unexpected character '" ++ [unit] ++ "'"
  | unterminatedString => "Unterminated string literal"
  | unknownEscape escape => "Unknown escape sequence '\\" ++ escape ++ "'"
  | unterminatedInterpolation => "Unterminated interpolation in string literal"
  | emptyInterpolation => "Empty interpolation in string literal"
  | expected what found => "Expected " ++ what.text ++ " but found " ++ found.description
  | unexpected found => "Unexpected " ++ found.description
  | unexpectedInInterpolation found => "Unexpected " ++ found.description ++ " in interpolation"
  | unexpectedKeyword word => "Unexpected keyword '" ++ word.text ++ "'"
  | missingEnd => "Expected 'end' but found end of input"
  | unnamedFunction => "Expected function name after 'func'"
  | duplicateParameter name => "Duplicate parameter '" ++ name ++ "'"
  | invalidLoopDepth written => "Invalid loop depth '" ++ written ++ "'"
  | outsideLoop word => "'" ++ word.text ++ "' outside of a loop"
  | tooFewLoops word depth loops =>
      "'" ++ word.text ++ " " ++ Decimal.natText depth ++ "' exceeds the " ++
        Text.ofNat loops ++ " enclosing loop(s)"
  | returnOutsideFunction => "'return' outside of a function"
  | misplacedUse => "'use' is only allowed at the top of a program or function body"
  | misplacedImport => "'import' is only allowed at the top level of a program"
  | invalidTarget => "Invalid assignment target"
  | notAStatement => "Expected an assignment or a function call"
  | newWithoutBrace => "Expected '\x7b' after 'new'"
  | interpolatedKey => "Hash keys cannot contain interpolation"
  | expectedKey found => "Expected hash key but found " ++ found.description
  | malformedTree issue =>
      "malformed syntax tree at " ++ issue.place ++ ": " ++ issue.mismatch.message
  | nesting => "nested too deeply"

/-- The types of values, as programs see them. -/
inductive TypeName where
  | null | boolean | number | string | array | hash | function | native
  deriving DecidableEq, Repr

def TypeName.text : TypeName → Text
  | null => "Null"
  | boolean => "Boolean"
  | number => "Number"
  | string => "String"
  | array => "Array"
  | hash => "Hash"
  | function => "Function"
  | native => "NativeFunction"

/-- A value of a type that an operation does not take. -/
inductive TypeFault where
  | expectsNumber (operation : Text) (got : TypeName)
  | expectsString (operation : Text) (got : TypeName)
  | fractionalBounds (first last : Float)
  | setField (field : Text) (got : TypeName)
  | readField (field : Text) (got : TypeName)
  | indexInto (got : TypeName)
  | referenceFrom (name : Text) (got : TypeName) (container : Text)
  | reference (got : TypeName)
  | compare (left right : TypeName)
  | iterate (got : TypeName)
  | addTo (got : TypeName)
  | findIn (got : TypeName)
  | count (got : TypeName)
  | keysOf (got : TypeName)
  | removeFrom (got : TypeName)
  | toNumber (got : TypeName)
  | handler (got : TypeName)
  | toHost (got : TypeName)
  | cyclicToHost (got : TypeName)

def TypeFault.message : TypeFault → Text
  | expectsNumber operation got => operation ++ " expects a Number, got " ++ got.text
  | expectsString operation got => operation ++ " expects a String, got " ++ got.text
  | fractionalBounds first last =>
      "RangeArray expects integer bounds, got " ++ Decimal.text first ++ " and " ++
        Decimal.text last
  | setField field got => "cannot set field '" ++ field ++ "' on " ++ got.text
  | readField field got => "cannot read field '" ++ field ++ "' of " ++ got.text
  | indexInto got => "cannot index into " ++ got.text
  | referenceFrom name got container =>
      "cannot read '" ++ name ++ "' from " ++ got.text ++ " '" ++ container ++ "'"
  | reference got => "ref expects a function, got " ++ got.text
  | compare left right => "cannot compare " ++ left.text ++ " with " ++ right.text
  | iterate got => "cannot iterate over " ++ got.text
  | addTo got => "Add expects an Array, got " ++ got.text
  | findIn got => "Find expects an Array, Hash or String, got " ++ got.text
  | count got => "Cannot count " ++ got.text
  | keysOf got => "Keys expects a Hash, got " ++ got.text
  | removeFrom got => "Remove expects an Array or Hash, got " ++ got.text
  | toNumber got => "Cannot convert " ++ got.text ++ " to Number"
  | handler got => "SetHandler expects a function as handler, got " ++ got.text
  | toHost got => "Cannot convert " ++ got.text ++ " to a host value"
  | cyclicToHost got => "Cannot convert a cyclic " ++ got.text ++ " to a host value"

inductive RuntimeFault where
  | returnOutsideFunction
  | outsideLoop
  | outsideLoopIn (name : Text)
  | notAFunction (name : Text) (got : TypeName)
  | callDepth (limit : Nat) (name : Text)
  | stackExhausted (name : Text)
  | alreadyLocal (name : Text)
  | divisionByZero
  | moduloByZero
  | indexOutOfRange (index : Float) (length : Nat)
  | unknownNative (name : Text)
  | moduleNotFound (name : Text)
  | circularImport (name : Text)
  | notANumber (text : Text)
  | loopRunning

def RuntimeFault.message : RuntimeFault → Text
  | returnOutsideFunction => "'return' outside of a function"
  | outsideLoop => "'break' or 'continue' outside of a loop"
  | outsideLoopIn name => "'break' or 'continue' outside of a loop in '" ++ name ++ "'"
  | notAFunction name got => "'" ++ name ++ "' is not a function (got " ++ got.text ++ ")"
  | callDepth limit name =>
      "maximum call depth of " ++ Decimal.natText limit ++ " exceeded in '" ++ name ++ "'"
  | stackExhausted name => "call stack exhausted in '" ++ name ++ "'"
  | alreadyLocal name => "cannot use '" ++ name ++ "': it is already a local variable"
  | divisionByZero => "division by zero"
  | moduloByZero => "modulo by zero"
  | indexOutOfRange index length =>
      "index " ++ Decimal.text index ++ " out of range for array of length " ++ Text.ofNat length
  | unknownNative name => "unknown native module '" ++ name ++ "'"
  | moduleNotFound name => "module '" ++ name ++ "' not found"
  | circularImport name => "circular import of module '" ++ name ++ "'"
  | notANumber text => "Cannot convert '" ++ text ++ "' to Number"
  | loopRunning => "StartLoop called while the event loop is already running"

inductive FaultKind where
  | syntaxError | nameError | arityError | typeError | runtimeError
  deriving DecidableEq, Repr

def FaultKind.text : FaultKind → Text
  | syntaxError => "SyntaxError"
  | nameError => "NameError"
  | arityError => "ArityError"
  | typeError => "TypeError"
  | runtimeError => "RuntimeError"

inductive Fault where
  | malformed (cause : SyntaxFault)
  | undefinedName (name : Text)
  | arity (callee : Text) (expected received : Nat)
  | wrongType (cause : TypeFault)
  | runtime (cause : RuntimeFault)

namespace Fault

def kind : Fault → FaultKind
  | malformed _ => .syntaxError
  | undefinedName _ => .nameError
  | arity _ _ _ => .arityError
  | wrongType _ => .typeError
  | runtime _ => .runtimeError

def message : Fault → Text
  | malformed cause => cause.message
  | undefinedName name => "undefined variable '" ++ name ++ "'"
  | arity callee expected received =>
      let plural : Text := if expected = 1 then [] else "s"
      "'" ++ callee ++ "' expects " ++ Text.ofNat expected ++ " argument" ++ plural ++
        ", got " ++ Text.ofNat received
  | wrongType cause => cause.message
  | runtime cause => cause.message

end Fault

/-- A fault with what is known of the place where it arose. -/
structure Diagnostic where
  fault : Fault
  loc : Option Location
  file : Option Text

namespace Diagnostic

/-- Gives a place and a file where there are none: of several statements around a fault the
innermost one's place counts. -/
def locate (d : Diagnostic) (loc : Location) (file : Option Text) : Diagnostic :=
  { d with loc := d.loc.orElse (fun _ => some loc), file := d.file.orElse (fun _ => file) }

def place (d : Diagnostic) : Text :=
  match d.loc with
  | none => []
  | some loc =>
      let file : Text := match d.file with
        | some file => file ++ ", "
        | none => []
      " [" ++ file ++ "line " ++ Decimal.natText loc.line ++ ", col " ++
        Decimal.natText loc.column ++ "]"

def message (d : Diagnostic) : Text := d.fault.kind.text ++ d.place ++ ": " ++ d.fault.message

end Diagnostic

/-- What goes wrong outside the language itself. -/
inductive HostFault where
  /-- An operation met an array slot that holds nothing. -/
  | missingValue
  | directoryRead
  | fileNotFound (path : Text)
  | invalidJson (file : Text)
  | invalidEvents (issues : List Issue)
  deriving DecidableEq, Repr

def HostFault.message : HostFault → Text
  | missingValue => "Cannot read properties of undefined (reading 'kind')"
  | directoryRead => "EISDIR: illegal operation on a directory, read"
  | fileNotFound path => "File not found: " ++ path
  | invalidJson file => "Invalid JSON in " ++ file ++ ": <reason>"
  | invalidEvents issues =>
      "Invalid events file: " ++
        Text.join "; " (issues.map (fun i => i.place ++ ": " ++ i.mismatch.message))

/-- Why something failed: a fault of the program, or trouble outside it, which
has no place in the program. -/
inductive Failure where
  | program (diagnostic : Diagnostic)
  | host (fault : HostFault)

def Failure.message : Failure → Text
  | program diagnostic => diagnostic.message
  | host fault => fault.message

/-- A fault that nothing has located yet. -/
def Failure.of (fault : Fault) : Failure := .program ⟨fault, none, none⟩

def Failure.locate (failure : Failure) (loc : Location) (file : Option Text) : Failure :=
  match failure with
  | program diagnostic => .program (diagnostic.locate loc file)
  | host fault => .host fault

end Loom
