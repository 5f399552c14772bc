import Loom.Proofs.Double
import Loom.Program
import Loom.Verdict

/-!
Trees that can be told as plain data. Names are spelled as names, lists that may not be
empty are not, and places and loop depths are numbers that a double can hold. Whether a
number literal has room in a double is another matter, and asked for apart.
-/

namespace Loom

/-- A place behind which some units of text more can stand, before its numbers are larger
than those that doubles count one by one. -/
def Location.HasRoom (loc : Location) (units : Nat) : Prop :=
  1 ≤ loc.line ∧ loc.line + loc.column + units ≤ 2 ^ 53

/-- A count of loops that a double can hold. -/
def IsLoopDepth (depth : Nat) : Prop :=
  1 ≤ depth ∧ wholeOf? (Float.ofNat depth) = some (depth : Int)

mutual

def Expr.WellFormed : Expr → Prop
  | .number value loc => loc.HasRoom 0 ∧ value.isNaN = false
  | .bool _ loc => loc.HasRoom 0
  | .null loc => loc.HasRoom 0
  | .string segments loc => loc.HasRoom 0 ∧ Segment.AllWellFormed segments
  | .ident name loc => loc.HasRoom 0 ∧ Check.isIdentifier name = true
  | .array elements loc => loc.HasRoom 0 ∧ Expr.AllWellFormed elements
  | .hash entries loc => loc.HasRoom 0 ∧ Entry.AllWellFormed entries
  | .new entries hashLoc loc =>
      loc.HasRoom 0 ∧ hashLoc.HasRoom 0 ∧ Entry.AllWellFormed entries
  | .ref container name loc =>
      loc.HasRoom 0 ∧ Check.isIdentifier name = true ∧
        ∀ outer, container = some outer → Check.isIdentifier outer = true
  | .lambda procedure loc => loc.HasRoom 0 ∧ procedure.WellFormed
  | .call callee args loc => loc.HasRoom 0 ∧ callee.WellFormed ∧ Expr.AllWellFormed args
  | .field object name loc =>
      loc.HasRoom 0 ∧ object.WellFormed ∧ Check.isIdentifier name = true
  | .index object position loc => loc.HasRoom 0 ∧ object.WellFormed ∧ position.WellFormed
  | .choice condition consequent alternate loc =>
      loc.HasRoom 0 ∧ condition.WellFormed ∧ consequent.WellFormed ∧ alternate.WellFormed
  | .unary _ operand loc => loc.HasRoom 0 ∧ operand.WellFormed
  | .binary _ left right loc => loc.HasRoom 0 ∧ left.WellFormed ∧ right.WellFormed

def Expr.AllWellFormed : List Expr → Prop
  | [] => True
  | e :: rest => e.WellFormed ∧ Expr.AllWellFormed rest

def Segment.AllWellFormed : List Segment → Prop
  | [] => True
  | .text _ :: rest => Segment.AllWellFormed rest
  | .code value :: rest => value.WellFormed ∧ Segment.AllWellFormed rest

/-- A key may be spelled anyhow. -/
def Entry.AllWellFormed : List Entry → Prop
  | [] => True
  | ⟨_, value⟩ :: rest => value.WellFormed ∧ Entry.AllWellFormed rest

/-- A procedure that was just read, and so has no site yet. -/
def Procedure.WellFormed : Procedure → Prop
  | ⟨params, uses, body, site⟩ =>
      site = .unset ∧ (∀ name ∈ params, Check.isIdentifier name = true) ∧
        (∀ name ∈ uses, Check.isIdentifier name = true) ∧ body.WellFormed

def Block.WellFormed : Block → Prop
  | ⟨statements, loc⟩ => loc.HasRoom 0 ∧ Stmt.AllWellFormed statements

def Target.WellFormed : Target → Prop
  | .ident name loc => loc.HasRoom 0 ∧ Check.isIdentifier name = true
  | .field object name loc =>
      loc.HasRoom 0 ∧ object.WellFormed ∧ Check.isIdentifier name = true
  | .index object position loc => loc.HasRoom 0 ∧ object.WellFormed ∧ position.WellFormed

def Branch.AllWellFormed : List Branch → Prop
  | [] => True
  | ⟨condition, body⟩ :: rest =>
      condition.WellFormed ∧ body.WellFormed ∧ Branch.AllWellFormed rest

def Stmt.WellFormed : Stmt → Prop
  | .define name procedure loc =>
      loc.HasRoom 0 ∧ Check.isIdentifier name = true ∧ procedure.WellFormed
  | .cond branches none loc => loc.HasRoom 0 ∧ branches ≠ [] ∧ Branch.AllWellFormed branches
  | .cond branches (some alternate) loc =>
      loc.HasRoom 0 ∧ branches ≠ [] ∧ Branch.AllWellFormed branches ∧ alternate.WellFormed
  | .forEach item subject body loc =>
      loc.HasRoom 0 ∧ Check.isIdentifier item = true ∧ subject.WellFormed ∧ body.WellFormed
  | .whileLoop condition body loc => loc.HasRoom 0 ∧ condition.WellFormed ∧ body.WellFormed
  | .assign target _ value loc => loc.HasRoom 0 ∧ target.WellFormed ∧ value.WellFormed
  | .use names loc =>
      loc.HasRoom 0 ∧ names ≠ [] ∧ ∀ name ∈ names, Check.isIdentifier name = true
  | .giveBack none loc => loc.HasRoom 0
  | .giveBack (some value) loc => loc.HasRoom 0 ∧ value.WellFormed
  | .emit value key loc =>
      loc.HasRoom 0 ∧ value.WellFormed ∧
        ∀ name, key = some name → Check.isIdentifier name = true
  | .imports _ modules loc =>
      loc.HasRoom 0 ∧ modules ≠ [] ∧ ∀ name ∈ modules, Check.isIdentifier name = true
  | .leave depth loc => loc.HasRoom 0 ∧ IsLoopDepth depth
  | .next depth loc => loc.HasRoom 0 ∧ IsLoopDepth depth
  | .call callee args callLoc loc =>
      loc.HasRoom 0 ∧ callLoc.HasRoom 0 ∧ callee.WellFormed ∧ Expr.AllWellFormed args

def Stmt.AllWellFormed : List Stmt → Prop
  | [] => True
  | s :: rest => s.WellFormed ∧ Stmt.AllWellFormed rest

end

def Program.WellFormed (program : Program) : Prop :=
  program.loc.HasRoom 0 ∧ Stmt.AllWellFormed program.statements

theorem Expr.allWellFormed_iff (list : List Expr) :
    Expr.AllWellFormed list ↔ ∀ e ∈ list, e.WellFormed := by
  induction list with
  | nil => simp [Expr.AllWellFormed]
  | cons e rest ih => simp [Expr.AllWellFormed, ih]

theorem Entry.allWellFormed_iff (list : List Entry) :
    Entry.AllWellFormed list ↔ ∀ entry ∈ list, entry.value.WellFormed := by
  induction list with
  | nil => simp [Entry.AllWellFormed]
  | cons entry rest ih =>
      cases entry
      simp [Entry.AllWellFormed, ih]

theorem Segment.allWellFormed_iff (list : List Segment) :
    Segment.AllWellFormed list ↔ ∀ e, .code e ∈ list → e.WellFormed := by
  induction list with
  | nil => simp [Segment.AllWellFormed]
  | cons segment rest ih => cases segment <;> simp [Segment.AllWellFormed, ih]

theorem Branch.allWellFormed_iff (list : List Branch) :
    Branch.AllWellFormed list ↔ ∀ b ∈ list, b.condition.WellFormed ∧ b.body.WellFormed := by
  induction list with
  | nil => simp [Branch.AllWellFormed]
  | cons b rest ih =>
      cases b
      simp [Branch.AllWellFormed, ih, and_assoc]

theorem Stmt.allWellFormed_iff (list : List Stmt) :
    Stmt.AllWellFormed list ↔ ∀ s ∈ list, s.WellFormed := by
  induction list with
  | nil => simp [Stmt.AllWellFormed]
  | cons s rest ih => simp [Stmt.AllWellFormed, ih]

theorem Location.HasRoom.less {loc : Location} {units fewer : Nat} (room : loc.HasRoom units)
    (less : fewer ≤ units) : loc.HasRoom fewer :=
  ⟨room.1, Nat.le_trans (Nat.add_le_add_left less _) room.2⟩

/-! The numbers that the literals of a tree stand for. -/

mutual

/-- The values of an expression's number literals. -/
def Expr.literals : Expr → List Float
  | .number value _ => [value]
  | .bool _ _ => []
  | .null _ => []
  | .string segments _ => Segment.allLiterals segments
  | .ident _ _ => []
  | .array elements _ => Expr.allLiterals elements
  | .hash entries _ => Entry.allLiterals entries
  | .new entries _ _ => Entry.allLiterals entries
  | .ref _ _ _ => []
  | .lambda procedure _ => procedure.literals
  | .call callee args _ => callee.literals ++ Expr.allLiterals args
  | .field object _ _ => object.literals
  | .index object position _ => object.literals ++ position.literals
  | .choice condition consequent alternate _ =>
      condition.literals ++ (consequent.literals ++ alternate.literals)
  | .unary _ operand _ => operand.literals
  | .binary _ left right _ => left.literals ++ right.literals

def Expr.allLiterals : List Expr → List Float
  | [] => []
  | e :: rest => e.literals ++ Expr.allLiterals rest

def Segment.allLiterals : List Segment → List Float
  | [] => []
  | .text _ :: rest => Segment.allLiterals rest
  | .code value :: rest => value.literals ++ Segment.allLiterals rest

def Entry.allLiterals : List Entry → List Float
  | [] => []
  | ⟨_, value⟩ :: rest => value.literals ++ Entry.allLiterals rest

def Procedure.literals : Procedure → List Float
  | ⟨_, _, body, _⟩ => body.literals

def Block.literals : Block → List Float
  | ⟨statements, _⟩ => Stmt.allLiterals statements

def Target.literals : Target → List Float
  | .ident _ _ => []
  | .field object _ _ => object.literals
  | .index object position _ => object.literals ++ position.literals

def Branch.allLiterals : List Branch → List Float
  | [] => []
  | ⟨condition, body⟩ :: rest =>
      condition.literals ++ (body.literals ++ Branch.allLiterals rest)

def Stmt.literals : Stmt → List Float
  | .define _ procedure _ => procedure.literals
  | .cond branches none _ => Branch.allLiterals branches
  | .cond branches (some alternate) _ => Branch.allLiterals branches ++ alternate.literals
  | .forEach _ subject body _ => subject.literals ++ body.literals
  | .whileLoop condition body _ => condition.literals ++ body.literals
  | .assign target _ value _ => target.literals ++ value.literals
  | .use _ _ => []
  | .giveBack none _ => []
  | .giveBack (some value) _ => value.literals
  | .emit value _ _ => value.literals
  | .imports _ _ _ => []
  | .leave _ _ => []
  | .next _ _ => []
  | .call callee args _ _ => callee.literals ++ Expr.allLiterals args

def Stmt.allLiterals : List Stmt → List Float
  | [] => []
  | s :: rest => s.literals ++ Stmt.allLiterals rest

end

/-- The values of a program's number literals. -/
def Program.literals (program : Program) : List Float := Stmt.allLiterals program.statements

end Loom
