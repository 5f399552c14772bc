import Mathlib.Data.List.Forall2
import Loom.Program
import Loom.Token

/-!
Trees and tokens with other places. Two of them are equal up to their places when they
become the same once all their places are put to one.
-/

namespace Loom

mutual

/-- An expression with what is put for its places. -/
def Expr.relocated (f : Location → Location) : Expr → Expr
  | .number value loc => .number value (f loc)
  | .bool value loc => .bool value (f loc)
  | .null loc => .null (f loc)
  | .string segments loc => .string (Segment.allRelocated f segments) (f loc)
  | .ident name loc => .ident name (f loc)
  | .array elements loc => .array (Expr.allRelocated f elements) (f loc)
  | .hash entries loc => .hash (Entry.allRelocated f entries) (f loc)
  | .new entries hashLoc loc => .new (Entry.allRelocated f entries) (f hashLoc) (f loc)
  | .ref container name loc => .ref container name (f loc)
  | .lambda procedure loc => .lambda (procedure.relocated f) (f loc)
  | .call callee args loc => .call (callee.relocated f) (Expr.allRelocated f args) (f loc)
  | .field object name loc => .field (object.relocated f) name (f loc)
  | .index object position loc => .index (object.relocated f) (position.relocated f) (f loc)
  | .choice condition consequent alternate loc =>
      .choice (condition.relocated f) (consequent.relocated f) (alternate.relocated f) (f loc)
  | .unary op operand loc => .unary op (operand.relocated f) (f loc)
  | .binary op left right loc => .binary op (left.relocated f) (right.relocated f) (f loc)

def Expr.allRelocated (f : Location → Location) : List Expr → List Expr
  | [] => []
  | e :: rest => e.relocated f :: Expr.allRelocated f rest

def Segment.allRelocated (f : Location → Location) : List Segment → List Segment
  | [] => []
  | .text value :: rest => .text value :: Segment.allRelocated f rest
  | .code value :: rest => .code (value.relocated f) :: Segment.allRelocated f rest

def Entry.allRelocated (f : Location → Location) : List Entry → List Entry
  | [] => []
  | ⟨key, value⟩ :: rest => ⟨key, value.relocated f⟩ :: Entry.allRelocated f rest

def Procedure.relocated (f : Location → Location) : Procedure → Procedure
  | ⟨params, uses, body, site⟩ => ⟨params, uses, body.relocated f, site⟩

def Block.relocated (f : Location → Location) : Block → Block
  | ⟨statements, loc⟩ => ⟨Stmt.allRelocated f statements, f loc⟩

def Target.relocated (f : Location → Location) : Target → Target
  | .ident name loc => .ident name (f loc)
  | .field object name loc => .field (object.relocated f) name (f loc)
  | .index object position loc => .index (object.relocated f) (position.relocated f) (f loc)

def Branch.allRelocated (f : Location → Location) : List Branch → List Branch
  | [] => []
  | ⟨condition, body⟩ :: rest =>
      ⟨condition.relocated f, body.relocated f⟩ :: Branch.allRelocated f rest

def Stmt.relocated (f : Location → Location) : Stmt → Stmt
  | .define name procedure loc => .define name (procedure.relocated f) (f loc)
  | .cond branches none loc => .cond (Branch.allRelocated f branches) none (f loc)
  | .cond branches (some alternate) loc =>
      .cond (Branch.allRelocated f branches) (some (alternate.relocated f)) (f loc)
  | .forEach item subject body loc =>
      .forEach item (subject.relocated f) (body.relocated f) (f loc)
  | .whileLoop condition body loc =>
      .whileLoop (condition.relocated f) (body.relocated f) (f loc)
  | .assign target op value loc =>
      .assign (target.relocated f) op (value.relocated f) (f loc)
  | .use names loc => .use names (f loc)
  | .giveBack none loc => .giveBack none (f loc)
  | .giveBack (some value) loc => .giveBack (some (value.relocated f)) (f loc)
  | .emit value key loc => .emit (value.relocated f) key (f loc)
  | .imports native modules loc => .imports native modules (f loc)
  | .leave depth loc => .leave depth (f loc)
  | .next depth loc => .next depth (f loc)
  | .call callee args callLoc loc =>
      .call (callee.relocated f) (Expr.allRelocated f args) (f callLoc) (f loc)

def Stmt.allRelocated (f : Location → Location) : List Stmt → List Stmt
  | [] => []
  | s :: rest => s.relocated f :: Stmt.allRelocated f rest

end

def Program.relocated (f : Location → Location) (program : Program) : Program :=
  ⟨Stmt.allRelocated f program.statements, f program.loc⟩

/-- An expression with all its places put to one. -/
def Expr.unplaced (e : Expr) : Expr := e.relocated fun _ => .origin

def Program.unplaced (program : Program) : Program := program.relocated fun _ => .origin

/-- A part of a string with what is put for its place. -/
def StringPart.relocated (f : Location → Location) : StringPart → StringPart
  | .text value => .text value
  | .code source loc => .code source (f loc)

def Lexeme.relocated (f : Location → Location) : Lexeme → Lexeme
  | .string written parts => .string written (parts.map (StringPart.relocated f))
  | lexeme => lexeme

def Token.relocated (f : Location → Location) (t : Token) : Token :=
  ⟨t.lexeme.relocated f, f t.loc⟩

/-! A tree whose places are left as they are is the same tree. -/

mutual

theorem Expr.relocated_id (e : Expr) : e.relocated (fun loc => loc) = e := by
  cases e with
  | number | bool | null | ident | ref => rfl
  | string segments loc => rw [Expr.relocated, Segment.allRelocated_id]
  | array elements loc => rw [Expr.relocated, Expr.allRelocated_id]
  | hash entries loc | new entries hashLoc loc => rw [Expr.relocated, Entry.allRelocated_id]
  | lambda procedure loc => rw [Expr.relocated, Procedure.relocated_id]
  | call callee args loc => rw [Expr.relocated, Expr.relocated_id, Expr.allRelocated_id]
  | field object name loc | unary op object loc => rw [Expr.relocated, Expr.relocated_id]
  | index object position loc | binary op object position loc =>
      rw [Expr.relocated, Expr.relocated_id object, Expr.relocated_id position]
  | choice condition consequent alternate loc =>
      rw [Expr.relocated, Expr.relocated_id condition, Expr.relocated_id consequent,
        Expr.relocated_id alternate]

theorem Expr.allRelocated_id (list : List Expr) :
    Expr.allRelocated (fun loc => loc) list = list := by
  cases list with
  | nil => rfl
  | cons e rest => rw [Expr.allRelocated, Expr.relocated_id, Expr.allRelocated_id]

theorem Segment.allRelocated_id (list : List Segment) :
    Segment.allRelocated (fun loc => loc) list = list := by
  match list with
  | [] => rfl
  | .text value :: rest => rw [Segment.allRelocated, Segment.allRelocated_id]
  | .code value :: rest =>
      rw [Segment.allRelocated, Expr.relocated_id, Segment.allRelocated_id]

theorem Entry.allRelocated_id (list : List Entry) :
    Entry.allRelocated (fun loc => loc) list = list := by
  match list with
  | [] => rfl
  | ⟨key, value⟩ :: rest => rw [Entry.allRelocated, Expr.relocated_id, Entry.allRelocated_id]

theorem Procedure.relocated_id (p : Procedure) : p.relocated (fun loc => loc) = p := by
  obtain ⟨params, uses, body, site⟩ := p
  rw [Procedure.relocated, Block.relocated_id]

theorem Block.relocated_id (b : Block) : b.relocated (fun loc => loc) = b := by
  obtain ⟨statements, loc⟩ := b
  rw [Block.relocated, Stmt.allRelocated_id]

theorem Target.relocated_id (target : Target) : target.relocated (fun loc => loc) = target := by
  cases target with
  | ident => rfl
  | field object name loc => rw [Target.relocated, Expr.relocated_id]
  | index object position loc =>
      rw [Target.relocated, Expr.relocated_id object, Expr.relocated_id position]

theorem Branch.allRelocated_id (list : List Branch) :
    Branch.allRelocated (fun loc => loc) list = list := by
  match list with
  | [] => rfl
  | ⟨condition, body⟩ :: rest =>
      rw [Branch.allRelocated, Expr.relocated_id, Block.relocated_id, Branch.allRelocated_id]

theorem Stmt.relocated_id (s : Stmt) : s.relocated (fun loc => loc) = s := by
  match s with
  | .use _ _ | .giveBack none _ | .imports _ _ _ | .leave _ _ | .next _ _ => rfl
  | .define name procedure loc => rw [Stmt.relocated, Procedure.relocated_id]
  | .cond branches none loc => rw [Stmt.relocated, Branch.allRelocated_id]
  | .cond branches (some alternate) loc =>
      rw [Stmt.relocated, Branch.allRelocated_id, Block.relocated_id]
  | .forEach item subject body loc =>
      rw [Stmt.relocated, Expr.relocated_id, Block.relocated_id]
  | .whileLoop condition body loc =>
      rw [Stmt.relocated, Expr.relocated_id, Block.relocated_id]
  | .assign target op value loc => rw [Stmt.relocated, Target.relocated_id, Expr.relocated_id]
  | .giveBack (some value) loc => rw [Stmt.relocated, Expr.relocated_id]
  | .emit value key loc => rw [Stmt.relocated, Expr.relocated_id]
  | .call callee args callLoc loc =>
      rw [Stmt.relocated, Expr.relocated_id, Expr.allRelocated_id]

theorem Stmt.allRelocated_id (list : List Stmt) :
    Stmt.allRelocated (fun loc => loc) list = list := by
  cases list with
  | nil => rfl
  | cons s rest => rw [Stmt.allRelocated, Stmt.relocated_id, Stmt.allRelocated_id]

end

section

variable {f g : Location → Location}

theorem Expr.allRelocated_of_same {list list' : List Expr}
    (same : List.Forall₂ (fun e e' => e.relocated f = e'.relocated g) list list') :
    Expr.allRelocated f list = Expr.allRelocated g list' := by
  induction same with
  | nil => rfl
  | cons first _ ih => rw [Expr.allRelocated, Expr.allRelocated, first, ih]

/-- Entries that are the same up to places. -/
def Entry.Same (f g : Location → Location) (entry entry' : Entry) : Prop :=
  entry.key = entry'.key ∧ entry.value.relocated f = entry'.value.relocated g

theorem Entry.allRelocated_of_same {list list' : List Entry}
    (same : List.Forall₂ (Entry.Same f g) list list') :
    Entry.allRelocated f list = Entry.allRelocated g list' := by
  induction same with
  | nil => rfl
  | @cons entry entry' _ _ first _ ih =>
      obtain ⟨key, value⟩ := entry
      obtain ⟨key', value'⟩ := entry'
      obtain ⟨rfl, first⟩ := first
      exact congrArg₂ List.cons (congrArg (Entry.mk key) first) ih

/-- What an assignment may change is told without the places. -/
theorem Expr.target?_relocated (e : Expr) :
    (e.relocated f).target? = e.target?.map (Target.relocated f) := by
  cases e <;> simp only [Expr.relocated, Expr.target?, Option.map_none, Option.map_some,
    Target.relocated]

theorem Lexeme.text_relocated (lexeme : Lexeme) : (lexeme.relocated f).text = lexeme.text := by
  cases lexeme <;> rfl

/-- Lexemes that are the same up to places are the same, or strings with the same parts. -/
theorem Lexeme.relocated_cases {l l' : Lexeme} (same : l.relocated f = l'.relocated g) :
    (l' = l ∧ l.kind ≠ .string) ∨ ∃ written parts parts', l = .string written parts ∧
      l' = .string written parts' ∧
      parts.map (StringPart.relocated f) = parts'.map (StringPart.relocated g) := by
  cases l with
  | string written parts =>
      cases l' with
      | string written' parts' =>
          simp only [Lexeme.relocated, Lexeme.string.injEq] at same
          obtain ⟨rfl, same⟩ := same
          exact .inr ⟨written, parts, parts', rfl, rfl, same⟩
      | _ => cases same
  | symbol s =>
      cases l' with
      | symbol s' =>
          cases same
          exact .inl ⟨rfl, by cases s <;> decide⟩
      | _ => cases same
  | _ =>
      cases l' with
      | string written' parts' => cases same
      | _ => exact .inl ⟨same.symm, nofun⟩

end

end Loom
