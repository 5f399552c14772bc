import Loom.Program.Shape
import Loom.Program.Tree
import Loom.Proofs.Tree.Check

/-!
Programs as data describes them: what fields the record of each node has to have,
and what they hold. A record may have other fields, and they say nothing.
-/

namespace Loom

def Location.DescribedBy (loc : Location) (data : Json) : Prop :=
  data.Has "line" (Json.Counts 1 loc.line) ∧ data.Has "column" (Json.Counts 0 loc.column)

/-- A record that names the kind of a node, and its place. -/
def Json.IsNode (kind : Text) (loc : Location) (data : Json) : Prop :=
  data.Has "type" (· = .str kind) ∧ data.Has "loc" loc.DescribedBy

mutual

/-- The data is an expression, whatever other fields its records have. -/
def Expr.DescribedBy : Expr → Json → Prop
  | .number value loc, data =>
      data.IsNode "NumberLiteral" loc ∧
        data.Has "value" fun d => d = .num value ∧ value.isInf = false ∧ value.isNaN = false
  | .bool value loc, data =>
      data.IsNode "BooleanLiteral" loc ∧ data.Has "value" (· = .bool value)
  | .null loc, data => data.IsNode "NullLiteral" loc
  | .string segments loc, data =>
      data.IsNode "StringLiteral" loc ∧
        data.Has "segments" (Json.Lists fun items => Segment.AllDescribedBy segments items)
  | .ident name loc, data =>
      data.IsNode "Identifier" loc ∧ data.Has "name" (Json.Named name)
  | .array elements loc, data =>
      data.IsNode "ArrayLiteral" loc ∧
        data.Has "elements" (Json.Lists fun items => Expr.AllDescribedBy elements items)
  | .hash entries loc, data =>
      data.IsNode "HashLiteral" loc ∧
        data.Has "entries" (Json.Lists fun items => Entry.AllDescribedBy entries items)
  | .new entries hashLoc loc, data =>
      data.IsNode "New" loc ∧
        data.Has "hash" fun d => d.IsNode "HashLiteral" hashLoc ∧
          d.Has "entries" (Json.Lists fun items => Entry.AllDescribedBy entries items)
  | .ref container name loc, data =>
      data.IsNode "RefExpr" loc ∧ data.Has "name" (Json.Named name) ∧
        data.Has "module" (Json.Maybe Json.Named container)
  | .lambda procedure loc, data => data.IsNode "Lambda" loc ∧ procedure.DescribedBy data
  | .call callee args loc, data =>
      data.IsNode "Call" loc ∧ data.Has "callee" (fun d => callee.DescribedBy d) ∧
        data.Has "args" (Json.Lists fun items => Expr.AllDescribedBy args items)
  | .field object name loc, data =>
      data.IsNode "FieldAccess" loc ∧ data.Has "object" (fun d => object.DescribedBy d) ∧
        data.Has "field" (Json.Named name)
  | .index object position loc, data =>
      data.IsNode "IndexAccess" loc ∧ data.Has "object" (fun d => object.DescribedBy d) ∧
        data.Has "index" (fun d => position.DescribedBy d)
  | .choice condition consequent alternate loc, data =>
      data.IsNode "Conditional" loc ∧ data.Has "condition" (fun d => condition.DescribedBy d) ∧
        data.Has "consequent" (fun d => consequent.DescribedBy d) ∧
        data.Has "alternate" (fun d => alternate.DescribedBy d)
  | .unary op operand loc, data =>
      data.IsNode "UnaryOp" loc ∧ data.Has "operator" (· = .str op.text) ∧
        data.Has "operand" (fun d => operand.DescribedBy d)
  | .binary op left right loc, data =>
      data.IsNode "BinaryOp" loc ∧ data.Has "operator" (· = .str op.text) ∧
        data.Has "left" (fun d => left.DescribedBy d) ∧
        data.Has "right" (fun d => right.DescribedBy d)

def Expr.AllDescribedBy : List Expr → List Json → Prop
  | [], items => items = []
  | e :: rest, items =>
      ∃ item others, items = item :: others ∧ e.DescribedBy item ∧ Expr.AllDescribedBy rest others

def Segment.DescribedBy : Segment → Json → Prop
  | .text value, data =>
      data.Has "kind" (· = .str "text") ∧ data.Has "value" (· = .str value)
  | .code value, data =>
      data.Has "kind" (· = .str "interpolation") ∧
        data.Has "expression" (fun d => value.DescribedBy d)

def Segment.AllDescribedBy : List Segment → List Json → Prop
  | [], items => items = []
  | segment :: rest, items =>
      ∃ item others, items = item :: others ∧ segment.DescribedBy item ∧
        Segment.AllDescribedBy rest others

def Entry.DescribedBy : Entry → Json → Prop
  | ⟨key, value⟩, data =>
      data.Has "key" (· = .str key) ∧ data.Has "value" (fun d => value.DescribedBy d)

def Entry.AllDescribedBy : List Entry → List Json → Prop
  | [], items => items = []
  | entry :: rest, items =>
      ∃ item others, items = item :: others ∧ entry.DescribedBy item ∧
        Entry.AllDescribedBy rest others

/-- The fields that a procedure's node has. A procedure that was just read has no
site yet. -/
def Procedure.DescribedBy : Procedure → Json → Prop
  | ⟨params, uses, body, site⟩, data =>
      site = .unset ∧ data.Has "params" (Json.Names params) ∧ data.Has "uses" (Json.Names uses) ∧
        data.Has "body" (fun d => body.DescribedBy d)

def Block.DescribedBy : Block → Json → Prop
  | ⟨statements, loc⟩, data =>
      data.IsNode "Block" loc ∧
        data.Has "statements" (Json.Lists fun items => Stmt.AllDescribedBy statements items)

def Target.DescribedBy : Target → Json → Prop
  | .ident name loc, data => data.IsNode "Identifier" loc ∧ data.Has "name" (Json.Named name)
  | .field object name loc, data =>
      data.IsNode "FieldAccess" loc ∧ data.Has "object" (fun d => object.DescribedBy d) ∧
        data.Has "field" (Json.Named name)
  | .index object position loc, data =>
      data.IsNode "IndexAccess" loc ∧ data.Has "object" (fun d => object.DescribedBy d) ∧
        data.Has "index" (fun d => position.DescribedBy d)

def Branch.DescribedBy : Branch → Json → Prop
  | ⟨condition, body⟩, data =>
      data.Has "condition" (fun d => condition.DescribedBy d) ∧
        data.Has "body" (fun d => body.DescribedBy d)

def Branch.AllDescribedBy : List Branch → List Json → Prop
  | [], items => items = []
  | branch :: rest, items =>
      ∃ item others, items = item :: others ∧ branch.DescribedBy item ∧
        Branch.AllDescribedBy rest others

/-- The data is a statement, whatever other fields its records have. -/
def Stmt.DescribedBy : Stmt → Json → Prop
  | .define name procedure loc, data =>
      data.IsNode "FunctionDef" loc ∧ data.Has "name" (Json.Named name) ∧
        procedure.DescribedBy data
  | .cond branches none loc, data =>
      data.IsNode "If" loc ∧ branches ≠ [] ∧
        data.Has "branches" (Json.Lists fun items => Branch.AllDescribedBy branches items) ∧
        data.Has "alternate" (· = .null)
  | .cond branches (some alternate) loc, data =>
      data.IsNode "If" loc ∧ branches ≠ [] ∧
        data.Has "branches" (Json.Lists fun items => Branch.AllDescribedBy branches items) ∧
        data.Has "alternate" (fun d => alternate.DescribedBy d)
  | .forEach item subject body loc, data =>
      data.IsNode "For" loc ∧ data.Has "iterable" (fun d => subject.DescribedBy d) ∧
        data.Has "variable" (Json.Named item) ∧ data.Has "body" (fun d => body.DescribedBy d)
  | .whileLoop condition body loc, data =>
      data.IsNode "While" loc ∧ data.Has "condition" (fun d => condition.DescribedBy d) ∧
        data.Has "body" (fun d => body.DescribedBy d)
  | .assign target op value loc, data =>
      data.IsNode "Assignment" loc ∧ data.Has "target" (fun d => target.DescribedBy d) ∧
        data.Has "operator" (· = .str op.text) ∧ data.Has "value" (fun d => value.DescribedBy d)
  | .use names loc, data =>
      data.IsNode "Use" loc ∧ names ≠ [] ∧ data.Has "names" (Json.Names names)
  | .giveBack none loc, data => data.IsNode "Return" loc ∧ data.Has "value" (· = .null)
  | .giveBack (some value) loc, data =>
      data.IsNode "Return" loc ∧ data.Has "value" (fun d => value.DescribedBy d)
  | .emit value key loc, data =>
      data.IsNode "Emit" loc ∧ data.Has "value" (fun d => value.DescribedBy d) ∧
        data.Has "key" (Json.Maybe Json.Named key)
  | .imports native modules loc, data =>
      data.IsNode "Import" loc ∧ data.Has "native" (· = .bool native) ∧ modules ≠ [] ∧
        data.Has "modules" (Json.Names modules)
  | .leave depth loc, data => data.IsNode "Break" loc ∧ data.Has "depth" (Json.Counts 1 depth)
  | .next depth loc, data => data.IsNode "Continue" loc ∧ data.Has "depth" (Json.Counts 1 depth)
  | .call callee args callLoc loc, data =>
      data.IsNode "ExpressionStatement" loc ∧
        data.Has "expression" fun d => d.IsNode "Call" callLoc ∧
          d.Has "callee" (fun d => callee.DescribedBy d) ∧
          d.Has "args" (Json.Lists fun items => Expr.AllDescribedBy args items)

def Stmt.AllDescribedBy : List Stmt → List Json → Prop
  | [], items => items = []
  | s :: rest, items =>
      ∃ item others, items = item :: others ∧ s.DescribedBy item ∧ Stmt.AllDescribedBy rest others

end

/-- The data is a program, whatever other fields its records have. -/
def Program.DescribedBy (program : Program) (data : Json) : Prop :=
  data.IsNode "Program" program.loc ∧
    data.Has "statements" (Json.Lists (List.Forall₂ Stmt.DescribedBy program.statements))

theorem Expr.allDescribedBy_iff (list : List Expr) (items : List Json) :
    Expr.AllDescribedBy list items ↔ List.Forall₂ Expr.DescribedBy list items := by
  induction list generalizing items with
  | nil => simp [Expr.AllDescribedBy]
  | cons e rest ih => cases items <;> simp [Expr.AllDescribedBy, ih]

theorem Segment.allDescribedBy_iff (list : List Segment) (items : List Json) :
    Segment.AllDescribedBy list items ↔ List.Forall₂ Segment.DescribedBy list items := by
  induction list generalizing items with
  | nil => simp [Segment.AllDescribedBy]
  | cons segment rest ih => cases items <;> simp [Segment.AllDescribedBy, ih]

theorem Entry.allDescribedBy_iff (list : List Entry) (items : List Json) :
    Entry.AllDescribedBy list items ↔ List.Forall₂ Entry.DescribedBy list items := by
  induction list generalizing items with
  | nil => simp [Entry.AllDescribedBy]
  | cons entry rest ih => cases items <;> simp [Entry.AllDescribedBy, ih]

theorem Branch.allDescribedBy_iff (list : List Branch) (items : List Json) :
    Branch.AllDescribedBy list items ↔ List.Forall₂ Branch.DescribedBy list items := by
  induction list generalizing items with
  | nil => simp [Branch.AllDescribedBy]
  | cons branch rest ih => cases items <;> simp [Branch.AllDescribedBy, ih]

theorem Stmt.allDescribedBy_iff (list : List Stmt) (items : List Json) :
    Stmt.AllDescribedBy list items ↔ List.Forall₂ Stmt.DescribedBy list items := by
  induction list generalizing items with
  | nil => simp [Stmt.AllDescribedBy]
  | cons s rest ih => cases items <;> simp [Stmt.AllDescribedBy, ih]

end Loom
