import Loom.Program.Sites

/-!
The names that a program speaks of: those of its variables, parameters, functions, loop
items, shared names and imported modules. The keys of hashes and the names of fields are
no names of variables. Numbering the procedures of a tree changes none of them.
-/

namespace Loom

mutual

def Expr.names : Expr → List Text
  | .number _ _ | .bool _ _ | .null _ => []
  | .string segments _ => Segment.allNames segments
  | .ident name _ => [name]
  | .array elements _ => Expr.allNames elements
  | .hash entries _ => Entry.allNames entries
  | .new entries _ _ => Entry.allNames entries
  -- the member of a container is a field of it
  | .ref container name _ => [container.getD name]
  | .lambda procedure _ => procedure.names
  | .call callee args _ => callee.names ++ Expr.allNames args
  | .field object _ _ => object.names
  | .index object position _ => object.names ++ position.names
  | .choice condition consequent alternate _ =>
      condition.names ++ (consequent.names ++ alternate.names)
  | .unary _ operand _ => operand.names
  | .binary _ left right _ => left.names ++ right.names

def Expr.allNames : List Expr → List Text
  | [] => []
  | e :: rest => e.names ++ Expr.allNames rest

def Segment.allNames : List Segment → List Text
  | [] => []
  | .text _ :: rest => Segment.allNames rest
  | .code value :: rest => value.names ++ Segment.allNames rest

def Entry.allNames : List Entry → List Text
  | [] => []
  | ⟨_, value⟩ :: rest => value.names ++ Entry.allNames rest

def Procedure.names : Procedure → List Text
  | ⟨params, uses, body, _⟩ => params ++ (uses ++ body.names)

def Block.names : Block → List Text
  | ⟨statements, _⟩ => Stmt.allNames statements

def Target.names : Target → List Text
  | .ident name _ => [name]
  | .field object _ _ => object.names
  | .index object position _ => object.names ++ position.names

def Branch.allNames : List Branch → List Text
  | [] => []
  | ⟨condition, body⟩ :: rest => condition.names ++ (body.names ++ Branch.allNames rest)

def Stmt.names : Stmt → List Text
  | .define name procedure _ => name :: procedure.names
  | .cond branches none _ => Branch.allNames branches
  | .cond branches (some alternate) _ => Branch.allNames branches ++ alternate.names
  | .forEach item subject body _ => item :: (subject.names ++ body.names)
  | .whileLoop condition body _ => condition.names ++ body.names
  | .assign target _ value _ => target.names ++ value.names
  | .use names _ => names
  | .giveBack none _ => []
  | .giveBack (some value) _ => value.names
  | .emit value _ _ => value.names
  | .imports _ modules _ => modules
  | .leave _ _ | .next _ _ => []
  | .call callee args _ _ => callee.names ++ Expr.allNames args

def Stmt.allNames : List Stmt → List Text
  | [] => []
  | s :: rest => s.names ++ Stmt.allNames rest

end

def Program.names (program : Program) : List Text := Stmt.allNames program.statements

/-! Numbering procedures. -/

mutual

theorem Expr.names_withSites : (e : Expr) → (n : Site) → (e.withSites n).1.names = e.names
  | .number _ _, _ | .bool _ _, _ | .null _, _ | .ident _ _, _ | .ref _ _ _, _ => by
      simp only [Expr.withSites]
  | .string segments _, n => by
      simp only [Expr.withSites, Expr.names, Segment.allNames_withSites segments n]
  | .array elements _, n => by
      simp only [Expr.withSites, Expr.names, Expr.allNames_withSites elements n]
  | .hash entries _, n => by
      simp only [Expr.withSites, Expr.names, Entry.allNames_withSites entries n]
  | .new entries _ _, n => by
      simp only [Expr.withSites, Expr.names, Entry.allNames_withSites entries n]
  | .lambda procedure _, n => by
      simp only [Expr.withSites, Expr.names, Procedure.names_withSites procedure n]
  | .call callee args _, n => by
      simp only [Expr.withSites, Expr.names, Expr.names_withSites callee n,
        Expr.allNames_withSites args _]
  | .field object _ _, n => by
      simp only [Expr.withSites, Expr.names, Expr.names_withSites object n]
  | .index object position _, n => by
      simp only [Expr.withSites, Expr.names, Expr.names_withSites object n,
        Expr.names_withSites position _]
  | .choice condition consequent alternate _, n => by
      simp only [Expr.withSites, Expr.names, Expr.names_withSites condition n,
        Expr.names_withSites consequent _, Expr.names_withSites alternate _]
  | .unary _ operand _, n => by
      simp only [Expr.withSites, Expr.names, Expr.names_withSites operand n]
  | .binary _ left right _, n => by
      simp only [Expr.withSites, Expr.names, Expr.names_withSites left n,
        Expr.names_withSites right _]

theorem Expr.allNames_withSites : (list : List Expr) → (n : Site) →
    Expr.allNames (Expr.allWithSites list n).1 = Expr.allNames list
  | [], _ => rfl
  | e :: rest, n => by
      simp only [Expr.allWithSites, Expr.allNames, Expr.names_withSites e n,
        Expr.allNames_withSites rest _]

theorem Segment.allNames_withSites : (list : List Segment) → (n : Site) →
    Segment.allNames (Segment.allWithSites list n).1 = Segment.allNames list
  | [], _ => rfl
  | .text _ :: rest, n => by
      simp only [Segment.allWithSites, Segment.allNames, Segment.allNames_withSites rest n]
  | .code value :: rest, n => by
      simp only [Segment.allWithSites, Segment.allNames, Expr.names_withSites value n,
        Segment.allNames_withSites rest _]

theorem Entry.allNames_withSites : (list : List Entry) → (n : Site) →
    Entry.allNames (Entry.allWithSites list n).1 = Entry.allNames list
  | [], _ => rfl
  | ⟨_, value⟩ :: rest, n => by
      simp only [Entry.allWithSites, Entry.allNames, Expr.names_withSites value n,
        Entry.allNames_withSites rest _]

theorem Procedure.names_withSites : (p : Procedure) → (n : Site) →
    (p.withSites n).1.names = p.names
  | ⟨_, _, body, _⟩, n => by
      simp only [Procedure.withSites, Procedure.names, Block.names_withSites body n.next]

theorem Block.names_withSites : (b : Block) → (n : Site) → (b.withSites n).1.names = b.names
  | ⟨statements, _⟩, n => by
      simp only [Block.withSites, Block.names, Stmt.allNames_withSites statements n]

theorem Target.names_withSites : (t : Target) → (n : Site) → (t.withSites n).1.names = t.names
  | .ident _ _, _ => rfl
  | .field object _ _, n => by
      simp only [Target.withSites, Target.names, Expr.names_withSites object n]
  | .index object position _, n => by
      simp only [Target.withSites, Target.names, Expr.names_withSites object n,
        Expr.names_withSites position _]

theorem Branch.allNames_withSites : (list : List Branch) → (n : Site) →
    Branch.allNames (Branch.allWithSites list n).1 = Branch.allNames list
  | [], _ => rfl
  | ⟨condition, body⟩ :: rest, n => by
      simp only [Branch.allWithSites, Branch.allNames, Expr.names_withSites condition n,
        Block.names_withSites body _, Branch.allNames_withSites rest _]

theorem Stmt.names_withSites : (s : Stmt) → (n : Site) → (s.withSites n).1.names = s.names
  | .define _ procedure _, n => by
      simp only [Stmt.withSites, Stmt.names, Procedure.names_withSites procedure n]
  | .cond branches none _, n => by
      simp only [Stmt.withSites, Stmt.names, Branch.allNames_withSites branches n]
  | .cond branches (some alternate) _, n => by
      simp only [Stmt.withSites, Stmt.names, Branch.allNames_withSites branches n,
        Block.names_withSites alternate _]
  | .forEach _ subject body _, n => by
      simp only [Stmt.withSites, Stmt.names, Expr.names_withSites subject n,
        Block.names_withSites body _]
  | .whileLoop condition body _, n => by
      simp only [Stmt.withSites, Stmt.names, Expr.names_withSites condition n,
        Block.names_withSites body _]
  | .assign target _ value _, n => by
      simp only [Stmt.withSites, Stmt.names, Target.names_withSites target n,
        Expr.names_withSites value _]
  | .giveBack (some value) _, n => by
      simp only [Stmt.withSites, Stmt.names, Expr.names_withSites value n]
  | .emit value _ _, n => by
      simp only [Stmt.withSites, Stmt.names, Expr.names_withSites value n]
  | .call callee args _ _, n => by
      simp only [Stmt.withSites, Stmt.names, Expr.names_withSites callee n,
        Expr.allNames_withSites args _]
  | .use _ _, _ | .giveBack none _, _ | .imports _ _ _, _ | .leave _ _, _ | .next _ _, _ => by
      simp only [Stmt.withSites]

theorem Stmt.allNames_withSites : (list : List Stmt) → (n : Site) →
    Stmt.allNames (Stmt.allWithSites list n).1 = Stmt.allNames list
  | [], _ => rfl
  | s :: rest, n => by
      simp only [Stmt.allWithSites, Stmt.allNames, Stmt.names_withSites s n,
        Stmt.allNames_withSites rest _]

end

theorem Program.names_withSites (program : Program) (origin : Origin) :
    (program.withSites origin).names = program.names :=
  Stmt.allNames_withSites program.statements _

/-! What speaks of no hidden name. -/

/-- Whether none of some names is hidden. -/
def Clear (hidden names : List Text) : Prop := ∀ name ∈ names, name ∉ hidden

variable {hidden : List Text}

theorem clear_append {names more : List Text} :
    Clear hidden (names ++ more) ↔ Clear hidden names ∧ Clear hidden more :=
  List.forall_mem_append

theorem clear_cons {name : Text} {names : List Text} :
    Clear hidden (name :: names) ↔ name ∉ hidden ∧ Clear hidden names :=
  List.forall_mem_cons

theorem clear_singleton {name : Text} : Clear hidden [name] ↔ name ∉ hidden := by
  simp [Clear]

theorem clear_of_none (names : List Text) : Clear [] names := fun _ _ => List.not_mem_nil

theorem Clear.stmt {list : List Stmt} (clear : Clear hidden (Stmt.allNames list)) :
    ∀ s ∈ list, Clear hidden s.names := by
  induction list with
  | nil => simp
  | cons s rest ih =>
      rw [Stmt.allNames, clear_append] at clear
      exact List.forall_mem_cons.mpr ⟨clear.1, ih clear.2⟩

end Loom
