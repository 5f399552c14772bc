import Loom.Json
import Loom.Program

/-!
Programs written as plain data: each node is a record that names its kind first
and its place last.
-/

namespace Loom

namespace TreeForm

def node (kind : Text) (fields : List (Text × Json)) (loc : Location) : Json :=
  let place := Json.obj
    [("line", .num (Float.ofNat loc.line)), ("column", .num (Float.ofNat loc.column))]
  .obj (("type", .str kind) :: (fields ++ ([("loc", place)] : Table Json)))

def names (list : List Text) : Json := .arr (list.map .str)

def name? : Option Text → Json
  | some name => .str name
  | none => .null

end TreeForm

open TreeForm

variable (number : Float → Json)

mutual

/-- An expression as data; `number` writes the values of number literals. -/
def Expr.toTree : Expr → Json
  | .number value loc => node "NumberLiteral" [("value", number value)] loc
  | .bool value loc => node "BooleanLiteral" [("value", .bool value)] loc
  | .null loc => node "NullLiteral" [] loc
  | .string segments loc =>
      node "StringLiteral" [("segments", .arr (Segment.allToTree segments))] loc
  | .ident name loc => node "Identifier" [("name", .str name)] loc
  | .array elements loc => node "ArrayLiteral" [("elements", .arr (Expr.allToTree elements))] loc
  | .hash entries loc => node "HashLiteral" [("entries", .arr (Entry.allToTree entries))] loc
  | .new entries hashLoc loc =>
      let hash := node "HashLiteral" [("entries", .arr (Entry.allToTree entries))] hashLoc
      node "New" [("hash", hash)] loc
  | .ref container name loc =>
      node "RefExpr" [("name", .str name), ("module", name? container)] loc
  | .lambda ⟨params, uses, body, _⟩ loc =>
      node "Lambda" [("params", names params), ("uses", names uses), ("body", body.toTree)] loc
  | .call callee args loc =>
      node "Call" [("callee", callee.toTree), ("args", .arr (Expr.allToTree args))] loc
  | .field object name loc =>
      node "FieldAccess" [("object", object.toTree), ("field", .str name)] loc
  | .index object position loc =>
      node "IndexAccess" [("object", object.toTree), ("index", position.toTree)] loc
  | .choice condition consequent alternate loc =>
      node "Conditional"
        [("condition", condition.toTree), ("consequent", consequent.toTree),
          ("alternate", alternate.toTree)] loc
  | .unary op operand loc =>
      node "UnaryOp" [("operator", .str op.text), ("operand", operand.toTree)] loc
  | .binary op left right loc =>
      node "BinaryOp"
        [("operator", .str op.text), ("left", left.toTree), ("right", right.toTree)] loc

def Expr.allToTree : List Expr → List Json
  | [] => []
  | e :: rest => e.toTree :: Expr.allToTree rest

def Segment.allToTree : List Segment → List Json
  | [] => []
  | .text value :: rest =>
      .obj [("kind", .str "text"), ("value", .str value)] :: Segment.allToTree rest
  | .code value :: rest =>
      .obj [("kind", .str "interpolation"), ("expression", value.toTree)] ::
        Segment.allToTree rest

def Entry.allToTree : List Entry → List Json
  | [] => []
  | ⟨key, value⟩ :: rest =>
      .obj [("key", .str key), ("value", value.toTree)] :: Entry.allToTree rest

def Block.toTree : Block → Json
  | ⟨statements, loc⟩ => node "Block" [("statements", .arr (Stmt.allToTree statements))] loc

def Target.toTree : Target → Json
  | .ident name loc => node "Identifier" [("name", .str name)] loc
  | .field object name loc =>
      node "FieldAccess" [("object", object.toTree), ("field", .str name)] loc
  | .index object position loc =>
      node "IndexAccess" [("object", object.toTree), ("index", position.toTree)] loc

def Branch.allToTree : List Branch → List Json
  | [] => []
  | ⟨condition, body⟩ :: rest =>
      .obj [("condition", condition.toTree), ("body", body.toTree)] :: Branch.allToTree rest

def Stmt.toTree : Stmt → Json
  | .define name ⟨params, uses, body, _⟩ loc =>
      node "FunctionDef"
        [("name", .str name), ("params", names params), ("uses", names uses),
          ("body", body.toTree)] loc
  | .cond branches none loc =>
      node "If" [("branches", .arr (Branch.allToTree branches)), ("alternate", .null)] loc
  | .cond branches (some alternate) loc =>
      node "If"
        [("branches", .arr (Branch.allToTree branches)), ("alternate", alternate.toTree)] loc
  | .forEach item subject body loc =>
      node "For"
        [("iterable", subject.toTree), ("variable", .str item), ("body", body.toTree)] loc
  | .whileLoop condition body loc =>
      node "While" [("condition", condition.toTree), ("body", body.toTree)] loc
  | .assign target op value loc =>
      node "Assignment"
        [("target", target.toTree), ("operator", .str op.text), ("value", value.toTree)] loc
  | .use list loc => node "Use" [("names", names list)] loc
  | .giveBack none loc => node "Return" [("value", .null)] loc
  | .giveBack (some value) loc => node "Return" [("value", value.toTree)] loc
  | .emit value key loc => node "Emit" [("value", value.toTree), ("key", name? key)] loc
  | .imports native modules loc =>
      node "Import" [("native", .bool native), ("modules", names modules)] loc
  | .leave depth loc => node "Break" [("depth", .num (Float.ofNat depth))] loc
  | .next depth loc => node "Continue" [("depth", .num (Float.ofNat depth))] loc
  | .call callee args callLoc loc =>
      let call :=
        node "Call" [("callee", callee.toTree), ("args", .arr (Expr.allToTree args))] callLoc
      node "ExpressionStatement" [("expression", call)] loc

def Stmt.allToTree : List Stmt → List Json
  | [] => []
  | s :: rest => s.toTree :: Stmt.allToTree rest

end

/-- A program as data; `number` writes the values of number literals. -/
def Program.toTree (program : Program) : Json :=
  node "Program" [("statements", .arr (Stmt.allToTree number program.statements))] program.loc

end Loom
