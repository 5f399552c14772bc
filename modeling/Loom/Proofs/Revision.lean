import Loom.Eval.Statement

/-!
Trees with other numbers in their literals and other sites. Whatever is asked of a
tree but these is the same, and its procedures are numbered in the same order.
-/

namespace Loom

/-- What is put for the numbers of a tree and for its sites. -/
structure Revision where
  number : Float → Float
  site : Site → Site

namespace Revision

/-- Leaves a tree as it is. -/
def nothing : Revision := ⟨id, id⟩

/-- Changes numbers as before, and puts other sites for those that are given out. -/
def numbered (r : Revision) (σ : Site → Site) : Revision := ⟨r.number, σ⟩

end Revision

mutual

/-- An expression with what is put for its numbers and its sites. -/
def Expr.revised (r : Revision) : Expr → Expr
  | .number value loc => .number (r.number value) loc
  | .string segments loc => .string (Segment.allRevised r segments) loc
  | .array elements loc => .array (Expr.allRevised r elements) loc
  | .hash entries loc => .hash (Entry.allRevised r entries) loc
  | .new entries hashLoc loc => .new (Entry.allRevised r entries) hashLoc loc
  | .lambda procedure loc => .lambda (procedure.revised r) loc
  | .call callee args loc => .call (callee.revised r) (Expr.allRevised r args) loc
  | .field object name loc => .field (object.revised r) name loc
  | .index object position loc => .index (object.revised r) (position.revised r) loc
  | .choice condition consequent alternate loc =>
      .choice (condition.revised r) (consequent.revised r) (alternate.revised r) loc
  | .unary op operand loc => .unary op (operand.revised r) loc
  | .binary op left right loc => .binary op (left.revised r) (right.revised r) loc
  | .bool value loc => .bool value loc
  | .null loc => .null loc
  | .ident name loc => .ident name loc
  | .ref container name loc => .ref container name loc

def Expr.allRevised (r : Revision) : List Expr → List Expr
  | [] => []
  | e :: rest => e.revised r :: Expr.allRevised r rest

def Segment.allRevised (r : Revision) : List Segment → List Segment
  | [] => []
  | .text value :: rest => .text value :: Segment.allRevised r rest
  | .code value :: rest => .code (value.revised r) :: Segment.allRevised r rest

def Entry.allRevised (r : Revision) : List Entry → List Entry
  | [] => []
  | ⟨key, value⟩ :: rest => ⟨key, value.revised r⟩ :: Entry.allRevised r rest

def Procedure.revised (r : Revision) : Procedure → Procedure
  | ⟨params, uses, body, site⟩ => ⟨params, uses, body.revised r, r.site site⟩

def Block.revised (r : Revision) : Block → Block
  | ⟨statements, loc⟩ => ⟨Stmt.allRevised r statements, loc⟩

def Target.revised (r : Revision) : Target → Target
  | .ident name loc => .ident name loc
  | .field object name loc => .field (object.revised r) name loc
  | .index object position loc => .index (object.revised r) (position.revised r) loc

def Branch.allRevised (r : Revision) : List Branch → List Branch
  | [] => []
  | ⟨condition, body⟩ :: rest =>
      ⟨condition.revised r, body.revised r⟩ :: Branch.allRevised r rest

def Stmt.revised (r : Revision) : Stmt → Stmt
  | .define name procedure loc => .define name (procedure.revised r) loc
  | .cond branches none loc => .cond (Branch.allRevised r branches) none loc
  | .cond branches (some alternate) loc =>
      .cond (Branch.allRevised r branches) (some (alternate.revised r)) loc
  | .forEach item subject body loc => .forEach item (subject.revised r) (body.revised r) loc
  | .whileLoop condition body loc => .whileLoop (condition.revised r) (body.revised r) loc
  | .assign target op value loc => .assign (target.revised r) op (value.revised r) loc
  | .giveBack (some value) loc => .giveBack (some (value.revised r)) loc
  | .emit value key loc => .emit (value.revised r) key loc
  | .call callee args callLoc loc => .call (callee.revised r) (Expr.allRevised r args) callLoc loc
  | .use names loc => .use names loc
  | .giveBack none loc => .giveBack none loc
  | .imports native modules loc => .imports native modules loc
  | .leave depth loc => .leave depth loc
  | .next depth loc => .next depth loc

def Stmt.allRevised (r : Revision) : List Stmt → List Stmt
  | [] => []
  | s :: rest => s.revised r :: Stmt.allRevised r rest

end

def Program.revised (r : Revision) (program : Program) : Program :=
  ⟨Stmt.allRevised r program.statements, program.loc⟩

section

variable (r : Revision)

theorem Expr.isRef_revised (e : Expr) : (e.revised r).isRef = e.isRef := by
  cases e <;> simp only [Expr.revised, Expr.isRef]

theorem Expr.calleeName_revised (e : Expr) : (e.revised r).calleeName = e.calleeName := by
  cases e with
  | field object name loc =>
      have inner := Expr.calleeName_revised object
      simp only [Expr.revised, Expr.calleeName, inner]
  | ref container name loc => cases container <;> simp only [Expr.revised, Expr.calleeName]
  | _ => simp only [Expr.revised, Expr.calleeName, Expr.tag]

theorem Stmt.revised_keeps (s : Stmt) :
    (s.revised r).loc = s.loc ∧ (s.revised r).isImport = s.isImport ∧
      (s.revised r).isDefinition = s.isDefinition := by
  cases s with
  | cond branches alternate loc =>
      cases alternate <;>
        simp only [Stmt.revised, Stmt.loc, Stmt.isImport, Stmt.isDefinition, and_self]
  | giveBack value loc =>
      cases value <;>
        simp only [Stmt.revised, Stmt.loc, Stmt.isImport, Stmt.isDefinition, and_self]
  | _ => simp only [Stmt.revised, Stmt.loc, Stmt.isImport, Stmt.isDefinition, and_self]

theorem Block.statements_revised (block : Block) :
    (block.revised r).statements = Stmt.allRevised r block.statements := by
  cases block
  simp only [Block.revised]

theorem Procedure.site_revised (procedure : Procedure) :
    (procedure.revised r).site = r.site procedure.site := by
  cases procedure
  simp only [Procedure.revised]

theorem Procedure.revised_keeps (procedure : Procedure) :
    (procedure.revised r).params = procedure.params ∧
      (procedure.revised r).uses = procedure.uses ∧
      (procedure.revised r).body.statements = Stmt.allRevised r procedure.body.statements := by
  obtain ⟨params, uses, body, site⟩ := procedure
  simp only [Procedure.revised, Block.statements_revised, and_self]

theorem Stmt.allRevised_eq (list : List Stmt) :
    Stmt.allRevised r list = list.map (Stmt.revised r) := by
  induction list with
  | nil => rfl
  | cons s rest ih => simp only [Stmt.allRevised, List.map_cons, ih]

/-- The order in which statements run is that of their kinds. -/
theorem inOrder_revised (list : List Stmt) :
    Eval.inOrder (Stmt.allRevised r list) = Stmt.allRevised r (Eval.inOrder list) := by
  have imports : Stmt.isImport ∘ Stmt.revised r = Stmt.isImport :=
    funext fun s => (s.revised_keeps r).2.1
  have definitions : Stmt.isDefinition ∘ Stmt.revised r = Stmt.isDefinition :=
    funext fun s => (s.revised_keeps r).2.2
  have others : (fun s : Stmt => !s.isImport && !s.isDefinition) ∘ Stmt.revised r =
      fun s => !s.isImport && !s.isDefinition :=
    funext fun s => by simp only [Function.comp_apply, s.revised_keeps r]
  simp only [Eval.inOrder, Stmt.allRevised_eq, List.filter_map, List.map_append, imports,
    definitions, others]

/-- A change of sites that goes on within a program as the numbers do. -/
structure Renumbering where
  site : Site → Site
  site_next : ∀ n, site n.next = (site n).next

/-! Sites are given out in the same order. -/

variable (σ : Renumbering)

mutual

theorem Expr.withSites_revised (e : Expr) (n : Site) :
    (e.revised r).withSites (σ.site n) =
      ((e.withSites n).1.revised (r.numbered σ.site), σ.site (e.withSites n).2) := by
  match e with
  | .string segments loc =>
      simp only [Expr.revised, Expr.withSites, Segment.allWithSites_revised]
  | .array elements loc => simp only [Expr.revised, Expr.withSites, Expr.allWithSites_revised]
  | .hash entries loc => simp only [Expr.revised, Expr.withSites, Entry.allWithSites_revised]
  | .new entries hashLoc loc => simp only [Expr.revised, Expr.withSites, Entry.allWithSites_revised]
  | .lambda procedure loc => simp only [Expr.revised, Expr.withSites, Procedure.withSites_revised]
  | .call callee args loc =>
      simp only [Expr.revised, Expr.withSites, Expr.withSites_revised callee,
        Expr.allWithSites_revised]
  | .field object name loc =>
      simp only [Expr.revised, Expr.withSites, Expr.withSites_revised object]
  | .index object position loc =>
      simp only [Expr.revised, Expr.withSites, Expr.withSites_revised object,
        Expr.withSites_revised position]
  | .choice condition consequent alternate loc =>
      simp only [Expr.revised, Expr.withSites, Expr.withSites_revised condition,
        Expr.withSites_revised consequent, Expr.withSites_revised alternate]
  | .unary op operand loc =>
      simp only [Expr.revised, Expr.withSites, Expr.withSites_revised operand]
  | .binary op left right loc =>
      simp only [Expr.revised, Expr.withSites, Expr.withSites_revised left,
        Expr.withSites_revised right]
  | .number value loc => simp only [Expr.revised, Expr.withSites, Revision.numbered]
  | .bool value loc => simp only [Expr.revised, Expr.withSites]
  | .null loc => simp only [Expr.revised, Expr.withSites]
  | .ident name loc => simp only [Expr.revised, Expr.withSites]
  | .ref container name loc => simp only [Expr.revised, Expr.withSites]

theorem Expr.allWithSites_revised (list : List Expr) (n : Site) :
    Expr.allWithSites (Expr.allRevised r list) (σ.site n) =
      (Expr.allRevised (r.numbered σ.site) (Expr.allWithSites list n).1,
        σ.site (Expr.allWithSites list n).2) := by
  match list with
  | [] => simp only [Expr.allRevised, Expr.allWithSites]
  | e :: rest =>
      simp only [Expr.allRevised, Expr.allWithSites, Expr.withSites_revised e,
        Expr.allWithSites_revised rest]

theorem Segment.allWithSites_revised (list : List Segment) (n : Site) :
    Segment.allWithSites (Segment.allRevised r list) (σ.site n) =
      (Segment.allRevised (r.numbered σ.site) (Segment.allWithSites list n).1,
        σ.site (Segment.allWithSites list n).2) := by
  match list with
  | [] => simp only [Segment.allRevised, Segment.allWithSites]
  | .text value :: rest =>
      simp only [Segment.allRevised, Segment.allWithSites, Segment.allWithSites_revised rest]
  | .code value :: rest =>
      simp only [Segment.allRevised, Segment.allWithSites, Expr.withSites_revised value,
        Segment.allWithSites_revised rest]

theorem Entry.allWithSites_revised (list : List Entry) (n : Site) :
    Entry.allWithSites (Entry.allRevised r list) (σ.site n) =
      (Entry.allRevised (r.numbered σ.site) (Entry.allWithSites list n).1,
        σ.site (Entry.allWithSites list n).2) := by
  match list with
  | [] => simp only [Entry.allRevised, Entry.allWithSites]
  | ⟨key, value⟩ :: rest =>
      simp only [Entry.allRevised, Entry.allWithSites, Expr.withSites_revised value,
        Entry.allWithSites_revised rest]

theorem Procedure.withSites_revised (procedure : Procedure) (n : Site) :
    (procedure.revised r).withSites (σ.site n) =
      ((procedure.withSites n).1.revised (r.numbered σ.site),
        σ.site (procedure.withSites n).2) := by
  match procedure with
  | ⟨params, uses, body, site⟩ =>
      simp only [Procedure.revised, Procedure.withSites, ← σ.site_next,
        Block.withSites_revised body, Revision.numbered]

theorem Block.withSites_revised (block : Block) (n : Site) :
    (block.revised r).withSites (σ.site n) =
      ((block.withSites n).1.revised (r.numbered σ.site), σ.site (block.withSites n).2) := by
  match block with
  | ⟨statements, loc⟩ =>
      simp only [Block.revised, Block.withSites, Stmt.allWithSites_revised statements]

theorem Target.withSites_revised (target : Target) (n : Site) :
    (target.revised r).withSites (σ.site n) =
      ((target.withSites n).1.revised (r.numbered σ.site), σ.site (target.withSites n).2) := by
  match target with
  | .ident name loc => simp only [Target.revised, Target.withSites]
  | .field object name loc =>
      simp only [Target.revised, Target.withSites, Expr.withSites_revised object]
  | .index object position loc =>
      simp only [Target.revised, Target.withSites, Expr.withSites_revised object,
        Expr.withSites_revised position]

theorem Branch.allWithSites_revised (list : List Branch) (n : Site) :
    Branch.allWithSites (Branch.allRevised r list) (σ.site n) =
      (Branch.allRevised (r.numbered σ.site) (Branch.allWithSites list n).1,
        σ.site (Branch.allWithSites list n).2) := by
  match list with
  | [] => simp only [Branch.allRevised, Branch.allWithSites]
  | ⟨condition, body⟩ :: rest =>
      simp only [Branch.allRevised, Branch.allWithSites, Expr.withSites_revised condition,
        Block.withSites_revised body, Branch.allWithSites_revised rest]

theorem Stmt.withSites_revised (s : Stmt) (n : Site) :
    (s.revised r).withSites (σ.site n) =
      ((s.withSites n).1.revised (r.numbered σ.site), σ.site (s.withSites n).2) := by
  match s with
  | .define name procedure loc =>
      simp only [Stmt.revised, Stmt.withSites, Procedure.withSites_revised procedure]
  | .cond branches none loc => simp only [Stmt.revised, Stmt.withSites, Branch.allWithSites_revised]
  | .cond branches (some alternate) loc =>
      simp only [Stmt.revised, Stmt.withSites, Branch.allWithSites_revised,
        Block.withSites_revised alternate]
  | .forEach item subject body loc =>
      simp only [Stmt.revised, Stmt.withSites, Expr.withSites_revised subject,
        Block.withSites_revised body]
  | .whileLoop condition body loc =>
      simp only [Stmt.revised, Stmt.withSites, Expr.withSites_revised condition,
        Block.withSites_revised body]
  | .assign target op value loc =>
      simp only [Stmt.revised, Stmt.withSites, Target.withSites_revised target,
        Expr.withSites_revised value]
  | .giveBack (some value) loc =>
      simp only [Stmt.revised, Stmt.withSites, Expr.withSites_revised value]
  | .emit value key loc => simp only [Stmt.revised, Stmt.withSites, Expr.withSites_revised value]
  | .call callee args callLoc loc =>
      simp only [Stmt.revised, Stmt.withSites, Expr.withSites_revised callee,
        Expr.allWithSites_revised]
  | .use names loc => simp only [Stmt.revised, Stmt.withSites]
  | .giveBack none loc => simp only [Stmt.revised, Stmt.withSites]
  | .imports native modules loc => simp only [Stmt.revised, Stmt.withSites]
  | .leave depth loc => simp only [Stmt.revised, Stmt.withSites]
  | .next depth loc => simp only [Stmt.revised, Stmt.withSites]

theorem Stmt.allWithSites_revised (list : List Stmt) (n : Site) :
    Stmt.allWithSites (Stmt.allRevised r list) (σ.site n) =
      (Stmt.allRevised (r.numbered σ.site) (Stmt.allWithSites list n).1,
        σ.site (Stmt.allWithSites list n).2) := by
  match list with
  | [] => simp only [Stmt.allRevised, Stmt.allWithSites]
  | s :: rest =>
      simp only [Stmt.allRevised, Stmt.allWithSites, Stmt.withSites_revised s,
        Stmt.allWithSites_revised rest]

end

theorem Program.withSites_revised (program : Program) {origin origin' : Origin}
    (start : σ.site ⟨origin, 0⟩ = ⟨origin', 0⟩) :
    (program.revised r).withSites origin' =
      (program.withSites origin).revised (r.numbered σ.site) := by
  simp only [Program.withSites, Program.revised, ← start, Stmt.allWithSites_revised r σ]

end

/-! Revising nothing. -/

mutual

theorem Expr.revised_nothing (e : Expr) : e.revised .nothing = e := by
  match e with
  | .number value loc => simp only [Expr.revised, Revision.nothing, id]
  | .string segments loc => simp only [Expr.revised, Segment.allRevised_nothing segments]
  | .array elements loc => simp only [Expr.revised, Expr.allRevised_nothing elements]
  | .hash entries loc => simp only [Expr.revised, Entry.allRevised_nothing entries]
  | .new entries hashLoc loc => simp only [Expr.revised, Entry.allRevised_nothing entries]
  | .lambda procedure loc => simp only [Expr.revised, Procedure.revised_nothing procedure]
  | .call callee args loc =>
      simp only [Expr.revised, Expr.revised_nothing callee, Expr.allRevised_nothing args]
  | .field object name loc => simp only [Expr.revised, Expr.revised_nothing object]
  | .index object position loc =>
      simp only [Expr.revised, Expr.revised_nothing object, Expr.revised_nothing position]
  | .choice condition consequent alternate loc =>
      simp only [Expr.revised, Expr.revised_nothing condition, Expr.revised_nothing consequent,
        Expr.revised_nothing alternate]
  | .unary op operand loc => simp only [Expr.revised, Expr.revised_nothing operand]
  | .binary op left right loc =>
      simp only [Expr.revised, Expr.revised_nothing left, Expr.revised_nothing right]
  | .bool value loc => simp only [Expr.revised]
  | .null loc => simp only [Expr.revised]
  | .ident name loc => simp only [Expr.revised]
  | .ref container name loc => simp only [Expr.revised]

theorem Expr.allRevised_nothing (list : List Expr) : Expr.allRevised .nothing list = list := by
  match list with
  | [] => rfl
  | e :: rest => simp only [Expr.allRevised, Expr.revised_nothing e, Expr.allRevised_nothing rest]

theorem Segment.allRevised_nothing (list : List Segment) :
    Segment.allRevised .nothing list = list := by
  match list with
  | [] => rfl
  | .text value :: rest => simp only [Segment.allRevised, Segment.allRevised_nothing rest]
  | .code value :: rest =>
      simp only [Segment.allRevised, Expr.revised_nothing value, Segment.allRevised_nothing rest]

theorem Entry.allRevised_nothing (list : List Entry) : Entry.allRevised .nothing list = list := by
  match list with
  | [] => rfl
  | ⟨key, value⟩ :: rest =>
      simp only [Entry.allRevised, Expr.revised_nothing value, Entry.allRevised_nothing rest]

theorem Procedure.revised_nothing (procedure : Procedure) :
    procedure.revised .nothing = procedure := by
  match procedure with
  | ⟨params, uses, body, site⟩ =>
      have same := Block.revised_nothing body
      simp only [Revision.nothing] at same
      simp only [Procedure.revised, Revision.nothing, same, id]

theorem Block.revised_nothing (block : Block) : block.revised .nothing = block := by
  match block with
  | ⟨statements, loc⟩ => simp only [Block.revised, Stmt.allRevised_nothing statements]

theorem Target.revised_nothing (target : Target) : target.revised .nothing = target := by
  match target with
  | .ident name loc => simp only [Target.revised]
  | .field object name loc => simp only [Target.revised, Expr.revised_nothing object]
  | .index object position loc =>
      simp only [Target.revised, Expr.revised_nothing object, Expr.revised_nothing position]

theorem Branch.allRevised_nothing (list : List Branch) :
    Branch.allRevised .nothing list = list := by
  match list with
  | [] => rfl
  | ⟨condition, body⟩ :: rest =>
      simp only [Branch.allRevised, Expr.revised_nothing condition, Block.revised_nothing body,
        Branch.allRevised_nothing rest]

theorem Stmt.revised_nothing (s : Stmt) : s.revised .nothing = s := by
  match s with
  | .define name procedure loc => simp only [Stmt.revised, Procedure.revised_nothing procedure]
  | .cond branches none loc => simp only [Stmt.revised, Branch.allRevised_nothing branches]
  | .cond branches (some alternate) loc =>
      simp only [Stmt.revised, Branch.allRevised_nothing branches, Block.revised_nothing alternate]
  | .forEach item subject body loc =>
      simp only [Stmt.revised, Expr.revised_nothing subject, Block.revised_nothing body]
  | .whileLoop condition body loc =>
      simp only [Stmt.revised, Expr.revised_nothing condition, Block.revised_nothing body]
  | .assign target op value loc =>
      simp only [Stmt.revised, Target.revised_nothing target, Expr.revised_nothing value]
  | .giveBack (some value) loc => simp only [Stmt.revised, Expr.revised_nothing value]
  | .emit value key loc => simp only [Stmt.revised, Expr.revised_nothing value]
  | .call callee args callLoc loc =>
      simp only [Stmt.revised, Expr.revised_nothing callee, Expr.allRevised_nothing args]
  | .use names loc => simp only [Stmt.revised]
  | .giveBack none loc => simp only [Stmt.revised]
  | .imports native modules loc => simp only [Stmt.revised]
  | .leave depth loc => simp only [Stmt.revised]
  | .next depth loc => simp only [Stmt.revised]

theorem Stmt.allRevised_nothing (list : List Stmt) : Stmt.allRevised .nothing list = list := by
  match list with
  | [] => rfl
  | s :: rest => simp only [Stmt.allRevised, Stmt.revised_nothing s, Stmt.allRevised_nothing rest]

end

theorem Program.revised_nothing (program : Program) : program.revised .nothing = program := by
  simp only [Program.revised, Stmt.allRevised_nothing]

end Loom
