import Loom.Fault
import Loom.Program
import Loom.Verdict

/-!
Programs read from plain data. Data that is not a program tree is refused with
its first issue; fields that a node does not have are passed over.
-/

namespace Loom

namespace Shape

def location : Check Location :=
  .object (fun path data =>
    Location.mk <$> Check.field "line" (.whole 1) path data
      <*> Check.field "column" (.whole 0) path data)

/-- The shapes that nodes hold inside them. -/
structure Shapes where
  expression : Check Expr
  block : Check Block

def entry (shapes : Shapes) : Check Entry :=
  .object (fun path data =>
    Entry.mk <$> Check.field "key" .text path data
      <*> Check.field "value" shapes.expression path data)

/-- The entries of a hash literal and its place. -/
def hash (shapes : Shapes) : Check (List Entry × Location) :=
  .object (fun path data =>
    (fun _ entries loc => (entries, loc)) <$> Check.tag "type" "HashLiteral" path data
      <*> Check.field "entries" (.list (entry shapes)) path data
      <*> Check.field "loc" location path data)

def call (shapes : Shapes) : Check (Expr × List Expr × Location) :=
  .object (fun path data =>
    (fun _ callee args loc => (callee, args, loc)) <$> Check.tag "type" "Call" path data
      <*> Check.field "callee" shapes.expression path data
      <*> Check.field "args" (.list shapes.expression) path data
      <*> Check.field "loc" location path data)

def segment (shapes : Shapes) : Check Segment :=
  .oneOf "kind" (fun kind =>
    if kind = Text.ofString "text" then
      some (fun path data => Segment.text <$> Check.field "value" .text path data)
    else if kind = Text.ofString "interpolation" then
      some (fun path data =>
        Segment.code <$> Check.field "expression" shapes.expression path data)
    else none)

/-- The parameters, shared names and body that a procedure's node has. -/
def procedure (shapes : Shapes) : Check Procedure := fun path data =>
  (fun params uses body => ⟨params, uses, body, .unset⟩)
    <$> Check.field "params" (.list .identifier) path data
    <*> Check.field "uses" (.list .identifier) path data
    <*> Check.field "body" shapes.block path data

def unaryOp? (t : Text) : Option UnaryOp := [UnaryOp.negate, .not].find? (fun op => op.text == t)

def binaryOp? (t : Text) : Option BinaryOp := BinaryOp.all.find? (fun op => op.text == t)

def assignOp? (t : Text) : Option AssignOp := AssignOp.all.find? (fun op => op.text == t)

def identifierNode : Check (Text × Location) := fun path data =>
  Prod.mk <$> Check.field "name" .identifier path data
    <*> Check.field "loc" location path data

def fieldNode (shapes : Shapes) : Check (Expr × Text × Location) := fun path data =>
  (fun object name loc => (object, name, loc))
    <$> Check.field "object" shapes.expression path data
    <*> Check.field "field" .identifier path data
    <*> Check.field "loc" location path data

def indexNode (shapes : Shapes) : Check (Expr × Expr × Location) := fun path data =>
  (fun object position loc => (object, position, loc))
    <$> Check.field "object" shapes.expression path data
    <*> Check.field "index" shapes.expression path data
    <*> Check.field "loc" location path data

def expressions (shapes : Shapes) : Table (Check Expr) :=
  [("Call", fun path data =>
      (fun c => .call c.1 c.2.1 c.2.2) <$> call shapes path data),
    ("FieldAccess", fun path data =>
      (fun f => .field f.1 f.2.1 f.2.2) <$> fieldNode shapes path data),
    ("IndexAccess", fun path data =>
      (fun i => .index i.1 i.2.1 i.2.2) <$> indexNode shapes path data),
    ("HashLiteral", fun path data => (fun h => .hash h.1 h.2) <$> hash shapes path data),
    ("Identifier", fun path data => (fun i => .ident i.1 i.2) <$> identifierNode path data),
    ("New", fun path data =>
      (fun h loc => .new h.1 h.2 loc) <$> Check.field "hash" (hash shapes) path data
        <*> Check.field "loc" location path data),
    ("ArrayLiteral", fun path data =>
      .array <$> Check.field "elements" (.list shapes.expression) path data
        <*> Check.field "loc" location path data),
    ("BinaryOp", fun path data =>
      .binary <$> Check.field "operator" (.word binaryOp?) path data
        <*> Check.field "left" shapes.expression path data
        <*> Check.field "right" shapes.expression path data
        <*> Check.field "loc" location path data),
    ("UnaryOp", fun path data =>
      .unary <$> Check.field "operator" (.word unaryOp?) path data
        <*> Check.field "operand" shapes.expression path data
        <*> Check.field "loc" location path data),
    ("StringLiteral", fun path data =>
      .string <$> Check.field "segments" (.list (segment shapes)) path data
        <*> Check.field "loc" location path data),
    ("NumberLiteral", fun path data =>
      .number <$> Check.field "value" .finite path data
        <*> Check.field "loc" location path data),
    ("BooleanLiteral", fun path data =>
      .bool <$> Check.field "value" .bool path data <*> Check.field "loc" location path data),
    ("NullLiteral", fun path data => .null <$> Check.field "loc" location path data),
    ("RefExpr", fun path data =>
      (fun name container loc => .ref container name loc)
        <$> Check.field "name" .identifier path data
        <*> Check.field "module" (.nullable .identifier) path data
        <*> Check.field "loc" location path data),
    ("Lambda", fun path data =>
      .lambda <$> procedure shapes path data <*> Check.field "loc" location path data),
    ("Conditional", fun path data =>
      .choice <$> Check.field "condition" shapes.expression path data
        <*> Check.field "consequent" shapes.expression path data
        <*> Check.field "alternate" shapes.expression path data
        <*> Check.field "loc" location path data)]

def expression (shapes : Shapes) : Check Expr :=
  .oneOf "type" (fun kind => Table.find? kind (expressions shapes))

def targets (shapes : Shapes) : Table (Check Target) :=
  [("Identifier", fun path data => (fun i => .ident i.1 i.2) <$> identifierNode path data),
    ("FieldAccess", fun path data =>
      (fun f => .field f.1 f.2.1 f.2.2) <$> fieldNode shapes path data),
    ("IndexAccess", fun path data =>
      (fun i => .index i.1 i.2.1 i.2.2) <$> indexNode shapes path data)]

def target (shapes : Shapes) : Check Target :=
  .oneOf "type" (fun kind => Table.find? kind (targets shapes))

def branch (shapes : Shapes) : Check Branch :=
  .object (fun path data =>
    Branch.mk <$> Check.field "condition" shapes.expression path data
      <*> Check.field "body" shapes.block path data)

def statements (shapes : Shapes) : Table (Check Stmt) :=
  [("FunctionDef", fun path data =>
      .define <$> Check.field "name" .identifier path data
        <*> procedure shapes path data
        <*> Check.field "loc" location path data),
    ("If", fun path data =>
      .cond <$> Check.field "branches" (.filledList (branch shapes)) path data
        <*> Check.field "alternate" (.nullable shapes.block) path data
        <*> Check.field "loc" location path data),
    ("For", fun path data =>
      (fun subject item body loc => .forEach item subject body loc)
        <$> Check.field "iterable" shapes.expression path data
        <*> Check.field "variable" .identifier path data
        <*> Check.field "body" shapes.block path data
        <*> Check.field "loc" location path data),
    ("While", fun path data =>
      .whileLoop <$> Check.field "condition" shapes.expression path data
        <*> Check.field "body" shapes.block path data
        <*> Check.field "loc" location path data),
    ("Assignment", fun path data =>
      .assign <$> Check.field "target" (target shapes) path data
        <*> Check.field "operator" (.word assignOp?) path data
        <*> Check.field "value" shapes.expression path data
        <*> Check.field "loc" location path data),
    ("Use", fun path data =>
      .use <$> Check.field "names" (.filledList .identifier) path data
        <*> Check.field "loc" location path data),
    ("Return", fun path data =>
      .giveBack <$> Check.field "value" (.nullable shapes.expression) path data
        <*> Check.field "loc" location path data),
    ("Emit", fun path data =>
      .emit <$> Check.field "value" shapes.expression path data
        <*> Check.field "key" (.nullable .identifier) path data
        <*> Check.field "loc" location path data),
    ("Import", fun path data =>
      .imports <$> Check.field "native" .bool path data
        <*> Check.field "modules" (.filledList .identifier) path data
        <*> Check.field "loc" location path data),
    ("Break", fun path data =>
      .leave <$> Check.field "depth" (.whole 1) path data
        <*> Check.field "loc" location path data),
    ("Continue", fun path data =>
      .next <$> Check.field "depth" (.whole 1) path data
        <*> Check.field "loc" location path data),
    ("ExpressionStatement", fun path data =>
      (fun c loc => .call c.1 c.2.1 c.2.2 loc)
        <$> Check.field "expression" (call shapes) path data
        <*> Check.field "loc" location path data)]

def statement (shapes : Shapes) : Check Stmt :=
  .oneOf "type" (fun kind => Table.find? kind (statements shapes))

def block (shapes : Shapes) : Check Block :=
  .object (fun path data =>
    (fun _ statements loc => ⟨statements, loc⟩) <$> Check.tag "type" "Block" path data
      <*> Check.field "statements" (.list (statement shapes)) path data
      <*> Check.field "loc" location path data)

/-- The shapes of data nested at most `fuel` deep. -/
def shapes : (fuel : Nat) → Shapes
  | 0 =>
      { expression := fun path _ => .aborted [⟨path, .invalidInput⟩]
        block := fun path _ => .aborted [⟨path, .invalidInput⟩] }
  | fuel + 1 =>
      { expression := fun path data => expression (shapes fuel) path data
        block := fun path data => block (shapes fuel) path data }

def program (shapes : Shapes) : Check Program :=
  .object (fun path data =>
    (fun _ statements loc => ⟨statements, loc⟩) <$> Check.tag "type" "Program" path data
      <*> Check.field "statements" (.list (statement shapes)) path data
      <*> Check.field "loc" location path data)

end Shape

/-- Reads data as a program. A node lies deeper in the data than the one that
holds it, so the depth of the data bounds the nesting of the program. -/
def Program.ofTree (data : Json) : Except Diagnostic Program :=
  match Shape.program (Shape.shapes data.depth) [] data with
  | .valid program => .ok program
  | .dirty (issue :: _) | .aborted (issue :: _) =>
      .error ⟨.malformed (.malformedTree issue), none, none⟩
  | .dirty [] | .aborted [] => .error ⟨.malformed .nesting, none, none⟩

end Loom
