import Loom.Text

/-!
Programs as trees. Every node carries the place it was written at. A procedure also carries a
site, which tells it from all others; `Program.withSites` gives sites out.
-/

namespace Loom

inductive UnaryOp where
  | negate | not
  deriving DecidableEq, Repr

def UnaryOp.text : UnaryOp → Text
  | negate => "-"
  | not => "not"

inductive BinaryOp where
  | add | subtract | multiply | divide | remainder
  | less | lessEqual | greater | greaterEqual | equal | notEqual
  | and | or | xor
  | concat
  deriving DecidableEq, Repr

namespace BinaryOp

def all : List BinaryOp :=
  [add, subtract, multiply, divide, remainder, less, lessEqual, greater, greaterEqual, equal,
    notEqual, and, or, xor, concat]

def text : BinaryOp → Text
  | add => "+"
  | subtract => "-"
  | multiply => "*"
  | divide => "/"
  | remainder => "%"
  | less => "<"
  | lessEqual => "<="
  | greater => ">"
  | greaterEqual => ">="
  | equal => "=="
  | notEqual => "!="
  | and => "and"
  | or => "or"
  | xor => "xor"
  | concat => "&"

end BinaryOp

inductive AssignOp where
  | set | add | subtract | multiply | divide | remainder
  deriving DecidableEq, Repr

namespace AssignOp

def all : List AssignOp := [set, add, subtract, multiply, divide, remainder]

def text : AssignOp → Text
  | set => "="
  | add => "+="
  | subtract => "-="
  | multiply => "*="
  | divide => "/="
  | remainder => "%="

/-- The operator that a compound assignment applies to the old value. -/
def binary? : AssignOp → Option BinaryOp
  | set => none
  | add => some .add
  | subtract => some .subtract
  | multiply => some .multiply
  | divide => some .divide
  | remainder => some .remainder

end AssignOp

/-- Which program a procedure is part of. -/
inductive Origin where
  /-- One that a host has made, by the number that the host gave it. -/
  | host (program : Nat)
  /-- One that was read for an interpreter, counted from its first. -/
  | read (program : Nat)
  deriving DecidableEq, Repr

/-- What tells a procedure from all others: its program, and its number there. -/
structure Site where
  origin : Origin
  number : Nat
  deriving DecidableEq, Repr

namespace Site

/-- Stands where no site has been given out. -/
def unset : Site := ⟨.host 0, 0⟩

def next (site : Site) : Site := { site with number := site.number + 1 }

end Site

mutual

inductive Expr where
  | number (value : Float) (loc : Location)
  | bool (value : Bool) (loc : Location)
  | null (loc : Location)
  | string (segments : List Segment) (loc : Location)
  | ident (name : Text) (loc : Location)
  | array (elements : List Expr) (loc : Location)
  | hash (entries : List Entry) (loc : Location)
  /-- A hash whose `ref` entries become methods. -/
  | new (entries : List Entry) (hashLoc : Location) (loc : Location)
  | ref (container : Option Text) (name : Text) (loc : Location)
  | lambda (procedure : Procedure) (loc : Location)
  | call (callee : Expr) (args : List Expr) (loc : Location)
  | field (object : Expr) (name : Text) (loc : Location)
  | index (object : Expr) (position : Expr) (loc : Location)
  | choice (condition : Expr) (consequent : Expr) (alternate : Expr) (loc : Location)
  | unary (op : UnaryOp) (operand : Expr) (loc : Location)
  | binary (op : BinaryOp) (left : Expr) (right : Expr) (loc : Location)

inductive Segment where
  | text (value : Text)
  | code (value : Expr)

structure Entry where
  key : Text
  value : Expr

/-- What functions and lambdas have in common. -/
structure Procedure where
  params : List Text
  uses : List Text
  body : Block
  site : Site

structure Block where
  statements : List Stmt
  loc : Location

inductive Target where
  | ident (name : Text) (loc : Location)
  | field (object : Expr) (name : Text) (loc : Location)
  | index (object : Expr) (position : Expr) (loc : Location)

structure Branch where
  condition : Expr
  body : Block

inductive Stmt where
  | define (name : Text) (procedure : Procedure) (loc : Location)
  | cond (branches : List Branch) (alternate : Option Block) (loc : Location)
  | forEach (item : Text) (subject : Expr) (body : Block) (loc : Location)
  | whileLoop (condition : Expr) (body : Block) (loc : Location)
  | assign (target : Target) (op : AssignOp) (value : Expr) (loc : Location)
  | use (names : List Text) (loc : Location)
  | giveBack (value : Option Expr) (loc : Location)
  | emit (value : Expr) (key : Option Text) (loc : Location)
  | imports (native : Bool) (modules : List Text) (loc : Location)
  | leave (depth : Nat) (loc : Location)
  | next (depth : Nat) (loc : Location)
  | call (callee : Expr) (args : List Expr) (callLoc : Location) (loc : Location)

end

structure Program where
  statements : List Stmt
  loc : Location

namespace Expr

def tag : Expr → Text
  | number _ _ => "NumberLiteral"
  | bool _ _ => "BooleanLiteral"
  | null _ => "NullLiteral"
  | string _ _ => "StringLiteral"
  | ident _ _ => "Identifier"
  | array _ _ => "ArrayLiteral"
  | hash _ _ => "HashLiteral"
  | new _ _ _ => "New"
  | ref _ _ _ => "RefExpr"
  | lambda _ _ => "Lambda"
  | call _ _ _ => "Call"
  | field _ _ _ => "FieldAccess"
  | index _ _ _ => "IndexAccess"
  | choice _ _ _ _ => "Conditional"
  | unary _ _ _ => "UnaryOp"
  | binary _ _ _ _ => "BinaryOp"

def calleeName : Expr → Text
  | ident name _ => name
  | field object name _ => object.calleeName ++ "." ++ name
  | ref (some container) name _ => container ++ "." ++ name
  | ref none name _ => name
  | lambda _ _ => "<lambda>"
  | e => "<" ++ e.tag ++ ">"

/-- What stands on the left of an assignment: a name, a field or an element. -/
def target? : Expr → Option Target
  | ident name loc => some (.ident name loc)
  | field object name loc => some (.field object name loc)
  | index object position loc => some (.index object position loc)
  | _ => none

def isRef : Expr → Bool
  | ref _ _ _ => true
  | _ => false

end Expr

namespace Stmt

def loc : Stmt → Location
  | define _ _ loc | cond _ _ loc | forEach _ _ _ loc | whileLoop _ _ loc | assign _ _ _ loc
  | use _ loc | giveBack _ loc | emit _ _ loc | imports _ _ loc | leave _ loc | next _ loc
  | call _ _ _ loc => loc

def isImport : Stmt → Bool
  | imports _ _ _ => true
  | _ => false

def isDefinition : Stmt → Bool
  | define _ _ _ => true
  | _ => false

end Stmt

end Loom
