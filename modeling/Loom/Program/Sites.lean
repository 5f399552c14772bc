import Loom.Program

/-!
Numbering the procedures of a program from outside in and left to right. Two
procedures get different sites even if they read the same, so that functions
made from different places of a program can be told apart.
-/

namespace Loom

abbrev Numbering (α : Type) := Site → α × Site

mutual

def Expr.withSites : Expr → Numbering Expr
  | .string segments loc => fun n =>
      let (segments, n) := Segment.allWithSites segments n
      (.string segments loc, n)
  | .array elements loc => fun n =>
      let (elements, n) := Expr.allWithSites elements n
      (.array elements loc, n)
  | .hash entries loc => fun n =>
      let (entries, n) := Entry.allWithSites entries n
      (.hash entries loc, n)
  | .new entries hashLoc loc => fun n =>
      let (entries, n) := Entry.allWithSites entries n
      (.new entries hashLoc loc, n)
  | .lambda procedure loc => fun n =>
      let (procedure, n) := procedure.withSites n
      (.lambda procedure loc, n)
  | .call callee args loc => fun n =>
      let (callee, n) := callee.withSites n
      let (args, n) := Expr.allWithSites args n
      (.call callee args loc, n)
  | .field object name loc => fun n =>
      let (object, n) := object.withSites n
      (.field object name loc, n)
  | .index object position loc => fun n =>
      let (object, n) := object.withSites n
      let (position, n) := position.withSites n
      (.index object position loc, n)
  | .choice condition consequent alternate loc => fun n =>
      let (condition, n) := condition.withSites n
      let (consequent, n) := consequent.withSites n
      let (alternate, n) := alternate.withSites n
      (.choice condition consequent alternate loc, n)
  | .unary op operand loc => fun n =>
      let (operand, n) := operand.withSites n
      (.unary op operand loc, n)
  | .binary op left right loc => fun n =>
      let (left, n) := left.withSites n
      let (right, n) := right.withSites n
      (.binary op left right loc, n)
  | leaf => fun n => (leaf, n)

def Expr.allWithSites : List Expr → Numbering (List Expr)
  | [] => fun n => ([], n)
  | e :: rest => fun n =>
      let (e, n) := e.withSites n
      let (rest, n) := Expr.allWithSites rest n
      (e :: rest, n)

def Segment.allWithSites : List Segment → Numbering (List Segment)
  | [] => fun n => ([], n)
  | .text value :: rest => fun n =>
      let (rest, n) := Segment.allWithSites rest n
      (.text value :: rest, n)
  | .code value :: rest => fun n =>
      let (value, n) := value.withSites n
      let (rest, n) := Segment.allWithSites rest n
      (.code value :: rest, n)

def Entry.allWithSites : List Entry → Numbering (List Entry)
  | [] => fun n => ([], n)
  | ⟨key, value⟩ :: rest => fun n =>
      let (value, n) := value.withSites n
      let (rest, n) := Entry.allWithSites rest n
      (⟨key, value⟩ :: rest, n)

/-- A procedure takes its own site before those inside it. -/
def Procedure.withSites : Procedure → Numbering Procedure
  | ⟨params, uses, body, _⟩ => fun n =>
      let (body, m) := body.withSites n.next
      (⟨params, uses, body, n⟩, m)

def Block.withSites : Block → Numbering Block
  | ⟨statements, loc⟩ => fun n =>
      let (statements, n) := Stmt.allWithSites statements n
      (⟨statements, loc⟩, n)

def Target.withSites : Target → Numbering Target
  | .ident name loc => fun n => (.ident name loc, n)
  | .field object name loc => fun n =>
      let (object, n) := object.withSites n
      (.field object name loc, n)
  | .index object position loc => fun n =>
      let (object, n) := object.withSites n
      let (position, n) := position.withSites n
      (.index object position loc, n)

def Branch.allWithSites : List Branch → Numbering (List Branch)
  | [] => fun n => ([], n)
  | ⟨condition, body⟩ :: rest => fun n =>
      let (condition, n) := condition.withSites n
      let (body, n) := body.withSites n
      let (rest, n) := Branch.allWithSites rest n
      (⟨condition, body⟩ :: rest, n)

def Stmt.withSites : Stmt → Numbering Stmt
  | .define name procedure loc => fun n =>
      let (procedure, n) := procedure.withSites n
      (.define name procedure loc, n)
  | .cond branches none loc => fun n =>
      let (branches, n) := Branch.allWithSites branches n
      (.cond branches none loc, n)
  | .cond branches (some alternate) loc => fun n =>
      let (branches, n) := Branch.allWithSites branches n
      let (alternate, n) := alternate.withSites n
      (.cond branches (some alternate) loc, n)
  | .forEach item subject body loc => fun n =>
      let (subject, n) := subject.withSites n
      let (body, n) := body.withSites n
      (.forEach item subject body loc, n)
  | .whileLoop condition body loc => fun n =>
      let (condition, n) := condition.withSites n
      let (body, n) := body.withSites n
      (.whileLoop condition body loc, n)
  | .assign target op value loc => fun n =>
      let (target, n) := target.withSites n
      let (value, n) := value.withSites n
      (.assign target op value loc, n)
  | .giveBack (some value) loc => fun n =>
      let (value, n) := value.withSites n
      (.giveBack (some value) loc, n)
  | .emit value key loc => fun n =>
      let (value, n) := value.withSites n
      (.emit value key loc, n)
  | .call callee args callLoc loc => fun n =>
      let (callee, n) := callee.withSites n
      let (args, n) := Expr.allWithSites args n
      (.call callee args callLoc loc, n)
  | leaf => fun n => (leaf, n)

def Stmt.allWithSites : List Stmt → Numbering (List Stmt)
  | [] => fun n => ([], n)
  | s :: rest => fun n =>
      let (s, n) := s.withSites n
      let (rest, n) := Stmt.allWithSites rest n
      (s :: rest, n)

end

/-- The program with its sites. They depend on nothing but its origin, so a program that is
run again has the same. -/
def Program.withSites (program : Program) (origin : Origin) : Program :=
  ⟨(Stmt.allWithSites program.statements ⟨origin, 0⟩).1, program.loc⟩

/-- A program that a host has made, with the number that tells it from the others. -/
structure HostProgram where
  program : Program
  number : Nat

def HostProgram.numbered (made : HostProgram) : Program :=
  made.program.withSites (.host made.number)

end Loom
