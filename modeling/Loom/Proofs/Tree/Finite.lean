import Loom.Proofs.Tree.Written

/-!
What is read from the written form of a tree. The data names the kinds of the tree's nodes,
so that nothing else than such nodes is read from it; and since a number that is not finite
is written as null, which is no number, all literals of a tree from which something is read
are finite.
-/

namespace Loom

open TreeForm
open List (forall_mem_append)

/-- The names of the kinds of expressions, in the order of their constructors. -/
def Expr.kinds : List Text :=
  ["NumberLiteral", "BooleanLiteral", "NullLiteral", "StringLiteral", "Identifier",
    "ArrayLiteral", "HashLiteral", "New", "RefExpr", "Lambda", "Call", "FieldAccess",
    "IndexAccess", "Conditional", "UnaryOp", "BinaryOp"]

/-- The names of the kinds of targets, in the order of their constructors. -/
def Target.kinds : List Text := ["Identifier", "FieldAccess", "IndexAccess"]

/-- The names of the kinds of statements, in the order of their constructors. -/
def Stmt.kinds : List Text :=
  ["FunctionDef", "If", "For", "While", "Assignment", "Use", "Return", "Emit", "Import",
    "Break", "Continue", "ExpressionStatement"]

/-- A record that names the kind which is at a place of a list. -/
def Json.IsOfKind (kinds : List Text) (i : Nat) (data : Json) : Prop :=
  data.Has "type" fun name => ∃ kind, kinds[i]? = some kind ∧ name = .str kind

theorem Expr.kind_described {e : Expr} {data : Json} (described : e.DescribedBy data) :
    data.IsOfKind Expr.kinds e.ctorIdx := by
  cases e with
  | null loc => exact described.1.mono fun _ named => ⟨_, rfl, named⟩
  | _ => exact described.1.1.mono fun _ named => ⟨_, rfl, named⟩

theorem Target.kind_described {target : Target} {data : Json}
    (described : target.DescribedBy data) : data.IsOfKind Target.kinds target.ctorIdx := by
  cases target <;> exact described.1.1.mono fun _ named => ⟨_, rfl, named⟩

theorem Stmt.kind_described {s : Stmt} {data : Json} (described : s.DescribedBy data) :
    data.IsOfKind Stmt.kinds s.ctorIdx := by
  cases s with
  | cond branches alternate loc =>
      cases alternate <;> exact described.1.1.mono fun _ named => ⟨_, rfl, named⟩
  | giveBack value loc =>
      cases value <;> exact described.1.1.mono fun _ named => ⟨_, rfl, named⟩
  | _ => exact described.1.1.mono fun _ named => ⟨_, rfl, named⟩

theorem Expr.kind_toTree (e : Expr) : (e.toTree .num).IsOfKind Expr.kinds e.ctorIdx := by
  cases e with
  | lambda procedure loc =>
      cases procedure
      exact ⟨_, rfl, _, rfl, rfl⟩
  | _ => exact ⟨_, rfl, _, rfl, rfl⟩

theorem Target.kind_toTree (target : Target) :
    (target.toTree .num).IsOfKind Target.kinds target.ctorIdx := by
  cases target <;> exact ⟨_, rfl, _, rfl, rfl⟩

theorem Stmt.kind_toTree (s : Stmt) : (s.toTree .num).IsOfKind Stmt.kinds s.ctorIdx := by
  cases s with
  | define name procedure loc =>
      cases procedure
      exact ⟨_, rfl, _, rfl, rfl⟩
  | cond branches alternate loc => cases alternate <;> exact ⟨_, rfl, _, rfl, rfl⟩
  | giveBack value loc => cases value <;> exact ⟨_, rfl, _, rfl, rfl⟩
  | _ => exact ⟨_, rfl, _, rfl, rfl⟩

/-- Written data is of the kind that it was before, and of no other. -/
theorem same_kind {kinds : List Text} (distinct : kinds.Nodup) {i j : Nat} {data : Json}
    (read : data.written.IsOfKind kinds i) (is : data.IsOfKind kinds j) : i = j := by
  obtain ⟨_, found, kind, at_i, named⟩ := Json.written_has_iff.mp read
  obtain ⟨_, found', kind', at_j, rfl⟩ := is
  cases found.symm.trans found'
  cases named
  exact (List.getElem?_inj (List.getElem?_eq_some_iff.mp at_i).1 distinct).mp
    (at_i.trans at_j.symm)

theorem Expr.same_kind {e read : Expr} (described : read.DescribedBy (e.toTree .num).written) :
    read.ctorIdx = e.ctorIdx :=
  Loom.same_kind (by decide +kernel) (kind_described described) e.kind_toTree

theorem Target.same_kind {target read : Target}
    (described : read.DescribedBy (target.toTree .num).written) :
    read.ctorIdx = target.ctorIdx :=
  Loom.same_kind (by decide +kernel) (kind_described described) target.kind_toTree

theorem Stmt.same_kind {s read : Stmt} (described : read.DescribedBy (s.toTree .num).written) :
    read.ctorIdx = s.ctorIdx :=
  Loom.same_kind (by decide +kernel) (kind_described described) s.kind_toTree

/-- What is read in a field of a written record is what the field is, as it is written. -/
theorem has_written {key : Text} {data value : Json} {describes : Json → Prop}
    (found : data.field? key = some value) (has : data.written.Has key describes) :
    describes value.written := by
  obtain ⟨_, found', holds⟩ := Json.written_has_iff.mp has
  cases found'.symm.trans found
  exact holds

theorem lists_written {items : List Json} {describes : List Json → Prop}
    (listed : (Json.arr items).written.Lists describes) : describes (Json.writtenItems items) := by
  obtain ⟨_, same, holds⟩ := listed
  cases Json.arr.inj same
  exact holds

theorem finite_written {value x : Float} {other : Json} (is : (Json.num value).written = other)
    (number : other = .num x) : value.isInf = false := by
  subst is
  cases infinite : value.isInf with
  | false => rfl
  | true =>
      simp only [Json.written, infinite, Bool.or_true, if_true] at number
      cases number

mutual

/-- An expression that is read from a tree as it is written has finite literals there. -/
theorem Expr.finite_of_described (e read : Expr)
    (described : read.DescribedBy (e.toTree .num).written) :
    ∀ x ∈ e.literals, x.isInf = false := by
  have same := Expr.same_kind described
  match e with
  | .number value loc =>
      cases read with
      | number value' loc' =>
          obtain ⟨_, held⟩ := described
          exact List.forall_mem_singleton.mpr
            (finite_written rfl (has_written rfl held).1)
      | _ => cases same
  | .bool _ _ => exact List.forall_mem_nil _
  | .null _ => exact List.forall_mem_nil _
  | .string segments loc =>
      cases read with
      | string segments' loc' =>
          obtain ⟨_, held⟩ := described
          have listed := lists_written (has_written rfl held)
          exact Segment.allFinite_of_described segments segments' listed
      | _ => cases same
  | .ident _ _ => exact List.forall_mem_nil _
  | .array elements loc =>
      cases read with
      | array elements' loc' =>
          obtain ⟨_, held⟩ := described
          have listed := lists_written (has_written rfl held)
          exact Expr.allFinite_of_described elements elements' listed
      | _ => cases same
  | .hash entries loc =>
      cases read with
      | hash entries' loc' =>
          obtain ⟨_, held⟩ := described
          have listed := lists_written (has_written rfl held)
          exact Entry.allFinite_of_described entries entries' listed
      | _ => cases same
  | .new entries hashLoc loc =>
      cases read with
      | new entries' hashLoc' loc' =>
          obtain ⟨_, hash⟩ := described
          obtain ⟨_, held⟩ := has_written rfl hash
          have listed := lists_written (has_written rfl held)
          exact Entry.allFinite_of_described entries entries' listed
      | _ => cases same
  | .ref _ _ _ => exact List.forall_mem_nil _
  | .lambda ⟨params, uses, body, site⟩ loc =>
      cases read with
      | lambda procedure' loc' =>
          obtain ⟨params', uses', body', site'⟩ := procedure'
          obtain ⟨_, _, _, _, held⟩ := described
          exact body.finite_of_described body' (has_written rfl held)
      | _ => cases same
  | .call callee args loc =>
      cases read with
      | call callee' args' loc' =>
          obtain ⟨_, called, given⟩ := described
          have listed := lists_written (has_written rfl given)
          exact forall_mem_append.mpr
            ⟨callee.finite_of_described callee' (has_written rfl called),
              Expr.allFinite_of_described args args' listed⟩
      | _ => cases same
  | .field object name loc =>
      cases read with
      | field object' name' loc' =>
          obtain ⟨_, held, _⟩ := described
          exact object.finite_of_described object' (has_written rfl held)
      | _ => cases same
  | .index object position loc =>
      cases read with
      | index object' position' loc' =>
          obtain ⟨_, first, second⟩ := described
          exact forall_mem_append.mpr
            ⟨object.finite_of_described object' (has_written rfl first),
              position.finite_of_described position' (has_written rfl second)⟩
      | _ => cases same
  | .choice condition consequent alternate loc =>
      cases read with
      | choice condition' consequent' alternate' loc' =>
          obtain ⟨_, first, second, third⟩ := described
          exact forall_mem_append.mpr
            ⟨condition.finite_of_described condition' (has_written rfl first),
              forall_mem_append.mpr
                ⟨consequent.finite_of_described consequent' (has_written rfl second),
                  alternate.finite_of_described alternate' (has_written rfl third)⟩⟩
      | _ => cases same
  | .unary op operand loc =>
      cases read with
      | unary op' operand' loc' =>
          obtain ⟨_, _, held⟩ := described
          exact operand.finite_of_described operand' (has_written rfl held)
      | _ => cases same
  | .binary op left right loc =>
      cases read with
      | binary op' left' right' loc' =>
          obtain ⟨_, _, first, second⟩ := described
          exact forall_mem_append.mpr
            ⟨left.finite_of_described left' (has_written rfl first),
              right.finite_of_described right' (has_written rfl second)⟩
      | _ => cases same
termination_by structural e

theorem Expr.allFinite_of_described (list read : List Expr)
    (described : Expr.AllDescribedBy read (Json.writtenItems (Expr.allToTree .num list))) :
    ∀ x ∈ Expr.allLiterals list, x.isInf = false := by
  match list, read with
  | [], _ => exact List.forall_mem_nil _
  | _ :: _, [] => cases described
  | e :: rest, e' :: rest' =>
      obtain ⟨_, _, same, first, others⟩ := described
      obtain ⟨rfl, rfl⟩ := List.cons.inj same
      exact forall_mem_append.mpr
        ⟨e.finite_of_described e' first, Expr.allFinite_of_described rest rest' others⟩
termination_by structural list

theorem Segment.allFinite_of_described (list read : List Segment)
    (described : Segment.AllDescribedBy read (Json.writtenItems (Segment.allToTree .num list))) :
    ∀ x ∈ Segment.allLiterals list, x.isInf = false := by
  match list, read with
  | [], _ => exact List.forall_mem_nil _
  | .text _ :: _, [] => cases described
  | .code _ :: _, [] => cases described
  | .text value :: rest, _ :: rest' =>
      obtain ⟨_, _, same, _, others⟩ := described
      obtain ⟨rfl, rfl⟩ := List.cons.inj same
      exact Segment.allFinite_of_described rest rest' others
  | .code value :: rest, segment :: rest' =>
      obtain ⟨_, _, same, first, others⟩ := described
      obtain ⟨rfl, rfl⟩ := List.cons.inj same
      cases segment with
      | text value' =>
          have named : (Json.str "interpolation").written = .str "text" := has_written rfl first.1
          exact absurd (Json.str.inj named) (by decide)
      | code value' =>
          exact forall_mem_append.mpr
            ⟨value.finite_of_described value' (has_written rfl first.2),
              Segment.allFinite_of_described rest rest' others⟩
termination_by structural list

theorem Entry.allFinite_of_described (list read : List Entry)
    (described : Entry.AllDescribedBy read (Json.writtenItems (Entry.allToTree .num list))) :
    ∀ x ∈ Entry.allLiterals list, x.isInf = false := by
  match list, read with
  | [], _ => exact List.forall_mem_nil _
  | ⟨_, _⟩ :: _, [] => cases described
  | ⟨key, value⟩ :: rest, ⟨key', value'⟩ :: rest' =>
      obtain ⟨_, _, same, first, others⟩ := described
      obtain ⟨rfl, rfl⟩ := List.cons.inj same
      exact forall_mem_append.mpr
        ⟨value.finite_of_described value' (has_written rfl first.2),
          Entry.allFinite_of_described rest rest' others⟩
termination_by structural list

theorem Block.finite_of_described (block read : Block)
    (described : read.DescribedBy (block.toTree .num).written) :
    ∀ x ∈ block.literals, x.isInf = false := by
  match block, read with
  | ⟨statements, loc⟩, ⟨statements', loc'⟩ =>
      obtain ⟨_, held⟩ := described
      exact Stmt.allFinite_of_described statements statements'
        (lists_written (has_written rfl held))
termination_by structural block

theorem Target.finite_of_described (target read : Target)
    (described : read.DescribedBy (target.toTree .num).written) :
    ∀ x ∈ target.literals, x.isInf = false := by
  have same := Target.same_kind described
  match target with
  | .ident _ _ => exact List.forall_mem_nil _
  | .field object name loc =>
      cases read with
      | field object' name' loc' =>
          obtain ⟨_, held, _⟩ := described
          exact object.finite_of_described object' (has_written rfl held)
      | _ => cases same
  | .index object position loc =>
      cases read with
      | index object' position' loc' =>
          obtain ⟨_, first, second⟩ := described
          exact forall_mem_append.mpr
            ⟨object.finite_of_described object' (has_written rfl first),
              position.finite_of_described position' (has_written rfl second)⟩
      | _ => cases same
termination_by structural target

theorem Branch.allFinite_of_described (list read : List Branch)
    (described : Branch.AllDescribedBy read (Json.writtenItems (Branch.allToTree .num list))) :
    ∀ x ∈ Branch.allLiterals list, x.isInf = false := by
  match list, read with
  | [], _ => exact List.forall_mem_nil _
  | ⟨_, _⟩ :: _, [] => cases described
  | ⟨condition, body⟩ :: rest, ⟨condition', body'⟩ :: rest' =>
      obtain ⟨_, _, same, first, others⟩ := described
      obtain ⟨rfl, rfl⟩ := List.cons.inj same
      exact forall_mem_append.mpr
        ⟨condition.finite_of_described condition' (has_written rfl first.1),
          forall_mem_append.mpr
            ⟨body.finite_of_described body' (has_written rfl first.2),
              Branch.allFinite_of_described rest rest' others⟩⟩
termination_by structural list

/-- A statement that is read from a tree as it is written has finite literals there. -/
theorem Stmt.finite_of_described (s read : Stmt)
    (described : read.DescribedBy (s.toTree .num).written) :
    ∀ x ∈ s.literals, x.isInf = false := by
  have same := Stmt.same_kind described
  match s with
  | .define name ⟨params, uses, body, site⟩ loc =>
      cases read with
      | define name' procedure' loc' =>
          obtain ⟨params', uses', body', site'⟩ := procedure'
          obtain ⟨_, _, _, _, _, held⟩ := described
          exact body.finite_of_described body' (has_written rfl held)
      | _ => cases same
  | .cond branches none loc =>
      cases read with
      | cond branches' alternate' loc' =>
          have held : (Json.arr (Branch.allToTree .num branches)).written.Lists
              (Branch.AllDescribedBy branches') := by
            cases alternate' with
            | none => exact has_written rfl described.2.2.1
            | some block => exact has_written rfl described.2.2.1
          exact Branch.allFinite_of_described branches branches' (lists_written held)
      | _ => cases same
  | .cond branches (some alternate) loc =>
      cases read with
      | cond branches' alternate' loc' =>
          cases alternate' with
          | none =>
              obtain ⟨_, _, _, absent⟩ := described
              cases alternate
              cases has_written rfl absent
          | some alternate' =>
              obtain ⟨_, _, held, other⟩ := described
              exact forall_mem_append.mpr
                ⟨Branch.allFinite_of_described branches branches'
                    (lists_written (has_written rfl held)),
                  alternate.finite_of_described alternate' (has_written rfl other)⟩
      | _ => cases same
  | .forEach item subject body loc =>
      cases read with
      | forEach item' subject' body' loc' =>
          obtain ⟨_, first, _, second⟩ := described
          exact forall_mem_append.mpr
            ⟨subject.finite_of_described subject' (has_written rfl first),
              body.finite_of_described body' (has_written rfl second)⟩
      | _ => cases same
  | .whileLoop condition body loc =>
      cases read with
      | whileLoop condition' body' loc' =>
          obtain ⟨_, first, second⟩ := described
          exact forall_mem_append.mpr
            ⟨condition.finite_of_described condition' (has_written rfl first),
              body.finite_of_described body' (has_written rfl second)⟩
      | _ => cases same
  | .assign target op value loc =>
      cases read with
      | assign target' op' value' loc' =>
          obtain ⟨_, first, _, second⟩ := described
          exact forall_mem_append.mpr
            ⟨target.finite_of_described target' (has_written rfl first),
              value.finite_of_described value' (has_written rfl second)⟩
      | _ => cases same
  | .use _ _ => exact List.forall_mem_nil _
  | .giveBack none _ => exact List.forall_mem_nil _
  | .giveBack (some value) loc =>
      cases read with
      | giveBack value' loc' =>
          cases value' with
          | none =>
              obtain ⟨_, absent⟩ := described
              have nothing : (value.toTree .num).written = .null := has_written rfl absent
              obtain ⟨fields, tree⟩ := value.kind_toTree.isRecord
              rw [tree] at nothing
              cases nothing
          | some value' =>
              obtain ⟨_, held⟩ := described
              exact value.finite_of_described value' (has_written rfl held)
      | _ => cases same
  | .emit value key loc =>
      cases read with
      | emit value' key' loc' =>
          obtain ⟨_, held, _⟩ := described
          exact value.finite_of_described value' (has_written rfl held)
      | _ => cases same
  | .imports _ _ _ => exact List.forall_mem_nil _
  | .leave _ _ => exact List.forall_mem_nil _
  | .next _ _ => exact List.forall_mem_nil _
  | .call callee args callLoc loc =>
      cases read with
      | call callee' args' callLoc' loc' =>
          obtain ⟨_, expression⟩ := described
          obtain ⟨_, called, given⟩ := has_written rfl expression
          exact forall_mem_append.mpr
            ⟨callee.finite_of_described callee' (has_written rfl called),
              Expr.allFinite_of_described args args' (lists_written (has_written rfl given))⟩
      | _ => cases same
termination_by structural s

theorem Stmt.allFinite_of_described (list read : List Stmt)
    (described : Stmt.AllDescribedBy read (Json.writtenItems (Stmt.allToTree .num list))) :
    ∀ x ∈ Stmt.allLiterals list, x.isInf = false := by
  match list, read with
  | [], _ => exact List.forall_mem_nil _
  | _ :: _, [] => cases described
  | s :: rest, s' :: rest' =>
      obtain ⟨_, _, same, first, others⟩ := described
      obtain ⟨rfl, rfl⟩ := List.cons.inj same
      exact forall_mem_append.mpr
        ⟨s.finite_of_described s' first, Stmt.allFinite_of_described rest rest' others⟩
termination_by structural list

end

theorem Program.finite_of_described (program read : Program)
    (described : read.DescribedBy (program.toTree .num).written) :
    ∀ x ∈ program.literals, x.isInf = false := by
  obtain ⟨_, held⟩ := described
  have listed := lists_written (has_written rfl held)
  exact Stmt.allFinite_of_described program.statements read.statements
    ((Stmt.allDescribedBy_iff _ _).mpr listed)

/-- Something is read from the written form of a well-formed tree exactly when its literals
are finite, and then it is the tree without signs of zeros. -/
theorem Program.ofTree_written_iff (program read : Program) (formed : program.WellFormed) :
    Program.ofTree (program.toTree .num).written = .ok read ↔
      (∀ x ∈ program.literals, x.isInf = false) ∧ read = program.revised .plain := by
  have whole := fun finite =>
    (Program.ofTree_ok_iff _ _).mpr (program.described_written formed finite)
  constructor
  · intro is
    have finite := program.finite_of_described read ((Program.ofTree_ok_iff _ read).mp is)
    exact ⟨finite, Except.ok.inj (is.symm.trans (whole finite))⟩
  · rintro ⟨finite, rfl⟩
    exact whole finite

end Loom
