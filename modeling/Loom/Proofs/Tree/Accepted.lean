import Loom.Proofs.Similarity
import Loom.Proofs.Tree.Described
import Mathlib.Data.List.Nodup

/-!
The shapes of nodes against what describes them. A check of a node reads the node
off any data that describes it, and no other; the names of the kinds tell the nodes
apart, so a check of several kinds never takes one for another.
-/

namespace Loom

open Check Verdict

theorem Json.Has.not_null {key : Text} {describes : Json → Prop} :
    ¬ Json.null.Has key describes := by
  rintro ⟨_, found, _⟩
  cases found

theorem Expr.not_describedBy_null (e : Expr) : ¬ e.DescribedBy .null := by
  intro described
  cases e with
  | null loc => exact Json.Has.not_null described.1
  | _ => exact Json.Has.not_null described.1.1

theorem Block.not_describedBy_null (block : Block) : ¬ block.DescribedBy .null := by
  cases block
  intro described
  exact Json.Has.not_null described.1.1

namespace Shape

theorem reads_location (n : Nat) : Reads n location Location.DescribedBy := by
  intro path data loc _
  have deep : data.depth ≤ data.depth + 1 := Nat.le_succ _
  simp only [location, object_iff, valid_map₂, field_iff (reads_whole _ (Nat.le_refl 1)) deep,
    field_iff (reads_whole _ (Nat.zero_le 1)) deep]
  constructor
  · rintro ⟨⟨line, column, first, second, rfl⟩, _⟩
    exact ⟨first, second⟩
  · rintro ⟨first, second⟩
    exact ⟨⟨loc.line, loc.column, first, second, rfl⟩, first.isRecord⟩

/-- The shapes take what is nested at most `n` deep exactly where it is described. -/
structure Faithful (n : Nat) (shapes : Shapes) : Prop where
  expression : Reads n shapes.expression Expr.DescribedBy
  block : Reads n shapes.block Block.DescribedBy

theorem reads_names (n : Nat) : Reads n (list identifier) Json.Names :=
  (reads_identifier n).list

/-- Different words are told apart by their spelling. -/
theorem find?_spelling {α : Type} {all : List α} {spelling : α → Text} (complete : ∀ a, a ∈ all)
    (distinct : (all.map spelling).Nodup) (t : Text) (a : α) :
    all.find? (fun b => spelling b == t) = some a ↔ t = spelling a := by
  constructor
  · intro found
    have spelled : (spelling a == t) = true :=
      List.find?_some (p := fun b => spelling b == t) found
    exact (beq_iff_eq.mp spelled).symm
  · rintro rfl
    cases found : all.find? (fun b => spelling b == spelling a) with
    | none => simpa using List.find?_eq_none.mp found a (complete a)
    | some b =>
        have spelled : (spelling b == spelling a) = true :=
          List.find?_some (p := fun b => spelling b == spelling a) found
        rw [List.inj_on_of_nodup_map distinct (complete b) (complete a) (beq_iff_eq.mp spelled)]

theorem reads_name? (n : Nat) : Reads n (nullable identifier) (Json.Maybe Json.Named) :=
  (reads_identifier n).nullable fun _ named => Json.noConfusion named.1

theorem reads_binaryOp (n : Nat) : Reads n (word binaryOp?) fun op data => data = .str op.text :=
  reads_word n (find?_spelling (fun op => by cases op <;> decide) (by decide))

theorem reads_unaryOp (n : Nat) : Reads n (word unaryOp?) fun op data => data = .str op.text :=
  reads_word n (find?_spelling (fun op => by cases op <;> decide) (by decide))

theorem reads_assignOp (n : Nat) : Reads n (word assignOp?) fun op data => data = .str op.text :=
  reads_word n (find?_spelling (fun op => by cases op <;> decide) (by decide))

section

variable {n : Nat} {shapes : Shapes} (faithful : Faithful n shapes)
include faithful

theorem reads_expressions :
    Reads n (list shapes.expression) fun es data => data.Lists (Expr.AllDescribedBy es) := by
  intro path data es shallow
  rw [faithful.expression.list path data es shallow]
  simp only [Json.Lists, Expr.allDescribedBy_iff]

theorem reads_entry : Reads n (entry shapes) Entry.DescribedBy := by
  intro path data found shallow
  have deep : data.depth ≤ n + 1 := Nat.le_succ_of_le shallow
  simp only [entry, object_iff, valid_map₂, field_iff (reads_text n) deep,
    field_iff faithful.expression deep]
  constructor
  · rintro ⟨⟨key, value, first, second, rfl⟩, _⟩
    exact ⟨first, second⟩
  · obtain ⟨key, value⟩ := found
    rintro ⟨first, second⟩
    exact ⟨⟨key, value, first, second, rfl⟩, first.isRecord⟩

theorem reads_entries :
    Reads n (list (entry shapes)) fun entries data =>
      data.Lists (Entry.AllDescribedBy entries) := by
  intro path data entries shallow
  rw [(reads_entry faithful).list path data entries shallow]
  simp only [Json.Lists, Entry.allDescribedBy_iff]

theorem reads_segment : Reads n (segment shapes) Segment.DescribedBy := by
  intro path data found shallow
  have deep : data.depth ≤ n + 1 := Nat.le_succ_of_le shallow
  simp only [segment, oneOf_iff]
  constructor
  · rintro ⟨kind, shape, named, known, valid⟩
    split at known
    · rename_i same
      subst same
      cases known
      simp only [valid_map, field_iff (reads_text n) deep] at valid
      obtain ⟨value, held, rfl⟩ := valid
      exact ⟨named, held⟩
    · split at known
      · rename_i same
        subst same
        cases known
        simp only [valid_map, field_iff faithful.expression deep] at valid
        obtain ⟨value, held, rfl⟩ := valid
        exact ⟨named, held⟩
      · cases known
  · intro described
    cases found with
    | text value =>
        refine ⟨_, _, described.1, if_pos rfl, ?_⟩
        simp only [valid_map, field_iff (reads_text n) deep]
        exact ⟨value, described.2, rfl⟩
    | code value =>
        refine ⟨_, _, described.1, (if_neg (by decide)).trans (if_pos rfl), ?_⟩
        simp only [valid_map, field_iff faithful.expression deep]
        exact ⟨value, described.2, rfl⟩

theorem reads_segments :
    Reads n (list (segment shapes)) fun segments data =>
      data.Lists (Segment.AllDescribedBy segments) := by
  intro path data segments shallow
  rw [(reads_segment faithful).list path data segments shallow]
  simp only [Json.Lists, Segment.allDescribedBy_iff]

theorem reads_hash : Reads (n + 1) (hash shapes) fun found data =>
    data.IsNode "HashLiteral" found.2 ∧
      data.Has "entries" (Json.Lists (Entry.AllDescribedBy found.1)) := by
  intro path data found deep
  simp only [hash, object_iff, valid_map₃, tag_iff, field_iff (reads_entries faithful) deep,
    field_iff (reads_location n) deep]
  constructor
  · rintro ⟨⟨_, entries, loc, tagged, held, placed, rfl⟩, _⟩
    exact ⟨⟨tagged, placed⟩, held⟩
  · rintro ⟨⟨tagged, placed⟩, held⟩
    exact ⟨⟨(), found.1, found.2, tagged, held, placed, rfl⟩, held.isRecord⟩

theorem reads_call : Reads (n + 1) (call shapes) fun found data =>
    data.IsNode "Call" found.2.2 ∧ data.Has "callee" found.1.DescribedBy ∧
      data.Has "args" (Json.Lists (Expr.AllDescribedBy found.2.1)) := by
  intro path data found deep
  simp only [call, object_iff, valid_map₄, tag_iff, field_iff faithful.expression deep,
    field_iff (reads_expressions faithful) deep, field_iff (reads_location n) deep]
  constructor
  · rintro ⟨⟨_, callee, args, loc, tagged, called, given, placed, rfl⟩, _⟩
    exact ⟨⟨tagged, placed⟩, called, given⟩
  · rintro ⟨⟨tagged, placed⟩, called, given⟩
    exact ⟨⟨(), found.1, found.2.1, found.2.2, tagged, called, given, placed, rfl⟩,
      called.isRecord⟩

theorem reads_procedure : Reads (n + 1) (procedure shapes) Procedure.DescribedBy := by
  intro path data found deep
  simp only [procedure, valid_map₃, field_iff (reads_names n) deep, field_iff faithful.block deep]
  constructor
  · rintro ⟨params, uses, body, first, second, third, rfl⟩
    exact ⟨rfl, first, second, third⟩
  · obtain ⟨params, uses, body, site⟩ := found
    rintro ⟨rfl, first, second, third⟩
    exact ⟨params, uses, body, first, second, third, rfl⟩

omit faithful in
theorem identifierNode_iff {path : List Text} {data : Json} {name : Text} {loc : Location}
    (deep : data.depth ≤ n + 1) :
    identifierNode path data = .valid (name, loc) ↔
      data.Has "name" (Json.Named name) ∧ data.Has "loc" loc.DescribedBy := by
  simp [identifierNode, valid_map₂, field_iff (reads_identifier n) deep,
    field_iff (reads_location n) deep]

theorem fieldNode_iff {path : List Text} {data : Json} {object : Expr} {name : Text}
    {loc : Location} (deep : data.depth ≤ n + 1) :
    fieldNode shapes path data = .valid (object, name, loc) ↔
      data.Has "object" object.DescribedBy ∧ data.Has "field" (Json.Named name) ∧
        data.Has "loc" loc.DescribedBy := by
  simp [fieldNode, valid_map₃, field_iff faithful.expression deep,
    field_iff (reads_identifier n) deep, field_iff (reads_location n) deep]

theorem indexNode_iff {path : List Text} {data : Json} {object position : Expr}
    {loc : Location} (deep : data.depth ≤ n + 1) :
    indexNode shapes path data = .valid (object, position, loc) ↔
      data.Has "object" object.DescribedBy ∧ data.Has "index" position.DescribedBy ∧
        data.Has "loc" loc.DescribedBy := by
  simp [indexNode, valid_map₃, field_iff faithful.expression deep,
    field_iff (reads_location n) deep]

/-! Fields that several kinds of nodes have. -/

omit faithful in
theorem place_iff {path : List Text} {data : Json} {loc : Location} (deep : data.depth ≤ n + 1) :
    field "loc" location path data = .valid loc ↔ data.Has "loc" loc.DescribedBy :=
  field_iff (reads_location n) deep

omit faithful in
theorem named_iff {path : List Text} {data : Json} {key name : Text} (deep : data.depth ≤ n + 1) :
    field key identifier path data = .valid name ↔ data.Has key (Json.Named name) :=
  field_iff (reads_identifier n) deep

omit faithful in
theorem depth_iff {path : List Text} {data : Json} {count : Nat} (deep : data.depth ≤ n + 1) :
    field "depth" (whole 1) path data = .valid count ↔ data.Has "depth" (Json.Counts 1 count) :=
  field_iff (reads_whole n (Nat.le_refl 1)) deep

theorem inner_iff {path : List Text} {data : Json} {key : Text} {e : Expr}
    (deep : data.depth ≤ n + 1) :
    field key shapes.expression path data = .valid e ↔ data.Has key e.DescribedBy :=
  field_iff faithful.expression deep

theorem body_iff {path : List Text} {data : Json} {key : Text} {b : Block}
    (deep : data.depth ≤ n + 1) :
    field key shapes.block path data = .valid b ↔ data.Has key b.DescribedBy :=
  field_iff faithful.block deep

/-- What a check of one kind finds is of that kind. -/
theorem described_of_valid {path : List Text} {data : Json} {kind : Text} {shape : Check Expr}
    (deep : data.depth ≤ n + 1) (named : data.Has "type" (· = .str kind))
    (known : (kind, shape) ∈ expressions shapes) {e : Expr} (valid : shape path data = .valid e) :
    e.DescribedBy data := by
  simp only [expressions, List.mem_cons, List.not_mem_nil, or_false, Prod.mk.injEq] at known
  rcases known with ⟨rfl, rfl⟩ | ⟨rfl, rfl⟩ | ⟨rfl, rfl⟩ | ⟨rfl, rfl⟩ | ⟨rfl, rfl⟩ | ⟨rfl, rfl⟩ |
    ⟨rfl, rfl⟩ | ⟨rfl, rfl⟩ | ⟨rfl, rfl⟩ | ⟨rfl, rfl⟩ | ⟨rfl, rfl⟩ | ⟨rfl, rfl⟩ | ⟨rfl, rfl⟩ |
    ⟨rfl, rfl⟩ | ⟨rfl, rfl⟩ | ⟨rfl, rfl⟩
  · simp only [valid_map, reads_call faithful path data _ deep] at valid
    obtain ⟨c, held, rfl⟩ := valid
    exact held
  · simp only [valid_map, Prod.exists, fieldNode_iff faithful deep] at valid
    obtain ⟨object, name, loc, ⟨first, second, placed⟩, rfl⟩ := valid
    exact ⟨⟨named, placed⟩, first, second⟩
  · simp only [valid_map, Prod.exists, indexNode_iff faithful deep] at valid
    obtain ⟨object, position, loc, ⟨first, second, placed⟩, rfl⟩ := valid
    exact ⟨⟨named, placed⟩, first, second⟩
  · simp only [valid_map, reads_hash faithful path data _ deep] at valid
    obtain ⟨h, held, rfl⟩ := valid
    exact held
  · simp only [valid_map, Prod.exists, identifierNode_iff deep] at valid
    obtain ⟨name, loc, ⟨spelled, placed⟩, rfl⟩ := valid
    exact ⟨⟨named, placed⟩, spelled⟩
  · simp only [valid_map₂, Prod.exists, field_iff ((reads_hash faithful).mono (Nat.le_succ n)) deep,
      place_iff deep] at valid
    obtain ⟨entries, hashLoc, loc, held, placed, rfl⟩ := valid
    exact ⟨⟨named, placed⟩, held⟩
  · simp only [valid_map₂, field_iff (reads_expressions faithful) deep, place_iff deep] at valid
    obtain ⟨elements, loc, held, placed, rfl⟩ := valid
    exact ⟨⟨named, placed⟩, held⟩
  · simp only [valid_map₄, field_iff (reads_binaryOp n) deep, inner_iff faithful deep,
      place_iff deep] at valid
    obtain ⟨op, left, right, loc, spelled, first, second, placed, rfl⟩ := valid
    exact ⟨⟨named, placed⟩, spelled, first, second⟩
  · simp only [valid_map₃, field_iff (reads_unaryOp n) deep, inner_iff faithful deep,
      place_iff deep] at valid
    obtain ⟨op, operand, loc, spelled, held, placed, rfl⟩ := valid
    exact ⟨⟨named, placed⟩, spelled, held⟩
  · simp only [valid_map₂, field_iff (reads_segments faithful) deep, place_iff deep] at valid
    obtain ⟨segments, loc, held, placed, rfl⟩ := valid
    exact ⟨⟨named, placed⟩, held⟩
  · simp only [valid_map₂, field_iff (reads_finite n) deep, place_iff deep] at valid
    obtain ⟨value, loc, held, placed, rfl⟩ := valid
    exact ⟨⟨named, placed⟩, held⟩
  · simp only [valid_map₂, field_iff (reads_bool n) deep, place_iff deep] at valid
    obtain ⟨value, loc, held, placed, rfl⟩ := valid
    exact ⟨⟨named, placed⟩, held⟩
  · simp only [valid_map, place_iff deep] at valid
    obtain ⟨loc, placed, rfl⟩ := valid
    exact ⟨named, placed⟩
  · simp only [valid_map₃, field_iff (reads_identifier n) deep, field_iff (reads_name? n) deep,
      place_iff deep] at valid
    obtain ⟨name, container, loc, spelled, held, placed, rfl⟩ := valid
    exact ⟨⟨named, placed⟩, spelled, held⟩
  · simp only [valid_map₂, reads_procedure faithful path data _ deep, place_iff deep] at valid
    obtain ⟨procedure, loc, held, placed, rfl⟩ := valid
    exact ⟨⟨named, placed⟩, held⟩
  · simp only [valid_map₄, inner_iff faithful deep, place_iff deep] at valid
    obtain ⟨condition, consequent, alternate, loc, first, second, third, placed, rfl⟩ := valid
    exact ⟨⟨named, placed⟩, first, second, third⟩

/-- What the data describes is found by the check of its kind. -/
theorem valid_of_described {path : List Text} {data : Json} (deep : data.depth ≤ n + 1) {e : Expr}
    (described : e.DescribedBy data) : ∃ kind shape, data.Has "type" (· = .str kind) ∧
      Table.find? kind (expressions shapes) = some shape ∧ shape path data = .valid e := by
  cases e with
  | number value loc =>
      obtain ⟨⟨named, placed⟩, held⟩ := described
      refine ⟨_, _, named, rfl, ?_⟩
      simp only [valid_map₂, field_iff (reads_finite n) deep, place_iff deep]
      exact ⟨value, loc, held, placed, rfl⟩
  | bool value loc =>
      obtain ⟨⟨named, placed⟩, held⟩ := described
      refine ⟨_, _, named, rfl, ?_⟩
      simp only [valid_map₂, field_iff (reads_bool n) deep, place_iff deep]
      exact ⟨value, loc, held, placed, rfl⟩
  | null loc =>
      obtain ⟨named, placed⟩ := described
      refine ⟨_, _, named, rfl, ?_⟩
      simp only [valid_map, place_iff deep]
      exact ⟨loc, placed, rfl⟩
  | string segments loc =>
      obtain ⟨⟨named, placed⟩, held⟩ := described
      refine ⟨_, _, named, rfl, ?_⟩
      simp only [valid_map₂, field_iff (reads_segments faithful) deep, place_iff deep]
      exact ⟨segments, loc, held, placed, rfl⟩
  | ident name loc =>
      obtain ⟨⟨named, placed⟩, spelled⟩ := described
      refine ⟨_, _, named, rfl, ?_⟩
      simp only [valid_map, Prod.exists, identifierNode_iff deep]
      exact ⟨name, loc, ⟨spelled, placed⟩, rfl⟩
  | array elements loc =>
      obtain ⟨⟨named, placed⟩, held⟩ := described
      refine ⟨_, _, named, rfl, ?_⟩
      simp only [valid_map₂, field_iff (reads_expressions faithful) deep, place_iff deep]
      exact ⟨elements, loc, held, placed, rfl⟩
  | hash entries loc =>
      refine ⟨_, _, described.1.1, rfl, ?_⟩
      simp only [valid_map, reads_hash faithful path data _ deep]
      exact ⟨(entries, loc), described, rfl⟩
  | new entries hashLoc loc =>
      obtain ⟨⟨named, placed⟩, held⟩ := described
      refine ⟨_, _, named, rfl, ?_⟩
      simp only [valid_map₂, field_iff ((reads_hash faithful).mono (Nat.le_succ n)) deep,
        place_iff deep]
      exact ⟨(entries, hashLoc), loc, held, placed, rfl⟩
  | ref container name loc =>
      obtain ⟨⟨named, placed⟩, spelled, held⟩ := described
      refine ⟨_, _, named, rfl, ?_⟩
      simp only [valid_map₃, field_iff (reads_identifier n) deep, field_iff (reads_name? n) deep,
        place_iff deep]
      exact ⟨name, container, loc, spelled, held, placed, rfl⟩
  | lambda procedure loc =>
      obtain ⟨⟨named, placed⟩, held⟩ := described
      refine ⟨_, _, named, rfl, ?_⟩
      simp only [valid_map₂, reads_procedure faithful path data _ deep, place_iff deep]
      exact ⟨procedure, loc, held, placed, rfl⟩
  | call callee args loc =>
      refine ⟨_, _, described.1.1, rfl, ?_⟩
      simp only [valid_map, reads_call faithful path data _ deep]
      exact ⟨(callee, args, loc), described, rfl⟩
  | field object name loc =>
      obtain ⟨⟨named, placed⟩, first, second⟩ := described
      refine ⟨_, _, named, rfl, ?_⟩
      simp only [valid_map, Prod.exists, fieldNode_iff faithful deep]
      exact ⟨object, name, loc, ⟨first, second, placed⟩, rfl⟩
  | index object position loc =>
      obtain ⟨⟨named, placed⟩, first, second⟩ := described
      refine ⟨_, _, named, rfl, ?_⟩
      simp only [valid_map, Prod.exists, indexNode_iff faithful deep]
      exact ⟨object, position, loc, ⟨first, second, placed⟩, rfl⟩
  | choice condition consequent alternate loc =>
      obtain ⟨⟨named, placed⟩, first, second, third⟩ := described
      refine ⟨_, _, named, rfl, ?_⟩
      simp only [valid_map₄, inner_iff faithful deep, place_iff deep]
      exact ⟨condition, consequent, alternate, loc, first, second, third, placed, rfl⟩
  | unary op operand loc =>
      obtain ⟨⟨named, placed⟩, spelled, held⟩ := described
      refine ⟨_, _, named, rfl, ?_⟩
      simp only [valid_map₃, field_iff (reads_unaryOp n) deep, inner_iff faithful deep,
        place_iff deep]
      exact ⟨op, operand, loc, spelled, held, placed, rfl⟩
  | binary op left right loc =>
      obtain ⟨⟨named, placed⟩, spelled, first, second⟩ := described
      refine ⟨_, _, named, rfl, ?_⟩
      simp only [valid_map₄, field_iff (reads_binaryOp n) deep, inner_iff faithful deep,
        place_iff deep]
      exact ⟨op, left, right, loc, spelled, first, second, placed, rfl⟩

theorem reads_expression : Reads (n + 1) (expression shapes) Expr.DescribedBy := by
  intro path data e deep
  simp only [expression, oneOf_iff]
  constructor
  · rintro ⟨kind, shape, named, known, valid⟩
    exact described_of_valid faithful deep named (Table.mem_of_find? kind shape _ known) valid
  · exact valid_of_described faithful deep

theorem reads_target : Reads n (target shapes) Target.DescribedBy := by
  intro path data found shallow
  have deep : data.depth ≤ n + 1 := Nat.le_succ_of_le shallow
  simp only [target, oneOf_iff]
  constructor
  · rintro ⟨kind, shape, named, known, valid⟩
    have member := Table.mem_of_find? kind shape _ known
    simp only [targets, List.mem_cons, List.not_mem_nil, or_false, Prod.mk.injEq] at member
    rcases member with ⟨rfl, rfl⟩ | ⟨rfl, rfl⟩ | ⟨rfl, rfl⟩
    · simp only [valid_map, Prod.exists, identifierNode_iff deep] at valid
      obtain ⟨name, loc, ⟨spelled, placed⟩, rfl⟩ := valid
      exact ⟨⟨named, placed⟩, spelled⟩
    · simp only [valid_map, Prod.exists, fieldNode_iff faithful deep] at valid
      obtain ⟨object, name, loc, ⟨first, second, placed⟩, rfl⟩ := valid
      exact ⟨⟨named, placed⟩, first, second⟩
    · simp only [valid_map, Prod.exists, indexNode_iff faithful deep] at valid
      obtain ⟨object, position, loc, ⟨first, second, placed⟩, rfl⟩ := valid
      exact ⟨⟨named, placed⟩, first, second⟩
  · intro described
    cases found with
    | ident name loc =>
        obtain ⟨⟨named, placed⟩, spelled⟩ := described
        refine ⟨_, _, named, rfl, ?_⟩
        simp only [valid_map, Prod.exists, identifierNode_iff deep]
        exact ⟨name, loc, ⟨spelled, placed⟩, rfl⟩
    | field object name loc =>
        obtain ⟨⟨named, placed⟩, first, second⟩ := described
        refine ⟨_, _, named, rfl, ?_⟩
        simp only [valid_map, Prod.exists, fieldNode_iff faithful deep]
        exact ⟨object, name, loc, ⟨first, second, placed⟩, rfl⟩
    | index object position loc =>
        obtain ⟨⟨named, placed⟩, first, second⟩ := described
        refine ⟨_, _, named, rfl, ?_⟩
        simp only [valid_map, Prod.exists, indexNode_iff faithful deep]
        exact ⟨object, position, loc, ⟨first, second, placed⟩, rfl⟩

theorem reads_branches :
    Reads n (filledList (branch shapes)) fun branches data =>
      branches ≠ [] ∧ data.Lists (Branch.AllDescribedBy branches) := by
  have each : Reads n (branch shapes) Branch.DescribedBy := by
    intro path data found shallow
    have deep : data.depth ≤ n + 1 := Nat.le_succ_of_le shallow
    simp only [branch, object_iff, valid_map₂, field_iff faithful.expression deep,
      field_iff faithful.block deep]
    constructor
    · rintro ⟨⟨condition, body, first, second, rfl⟩, _⟩
      exact ⟨first, second⟩
    · obtain ⟨condition, body⟩ := found
      rintro ⟨first, second⟩
      exact ⟨⟨condition, body, first, second, rfl⟩, first.isRecord⟩
  intro path data branches shallow
  rw [each.filledList path data branches shallow]
  simp only [Json.Lists, Branch.allDescribedBy_iff]

theorem reads_expression? : Reads n (nullable shapes.expression) (Json.Maybe Expr.DescribedBy) :=
  faithful.expression.nullable Expr.not_describedBy_null

theorem reads_block? : Reads n (nullable shapes.block) (Json.Maybe Block.DescribedBy) :=
  faithful.block.nullable Block.not_describedBy_null

theorem described_of_valid_statement {path : List Text} {data : Json} {kind : Text}
    {shape : Check Stmt} (deep : data.depth ≤ n + 1) (named : data.Has "type" (· = .str kind))
    (known : (kind, shape) ∈ statements shapes) {s : Stmt} (valid : shape path data = .valid s) :
    s.DescribedBy data := by
  simp only [statements, List.mem_cons, List.not_mem_nil, or_false, Prod.mk.injEq] at known
  rcases known with ⟨rfl, rfl⟩ | ⟨rfl, rfl⟩ | ⟨rfl, rfl⟩ | ⟨rfl, rfl⟩ | ⟨rfl, rfl⟩ | ⟨rfl, rfl⟩ |
    ⟨rfl, rfl⟩ | ⟨rfl, rfl⟩ | ⟨rfl, rfl⟩ | ⟨rfl, rfl⟩ | ⟨rfl, rfl⟩ | ⟨rfl, rfl⟩
  · simp only [valid_map₃, reads_procedure faithful path data _ deep, named_iff deep,
      place_iff deep] at valid
    obtain ⟨name, procedure, loc, first, second, placed, rfl⟩ := valid
    exact ⟨⟨named, placed⟩, first, second⟩
  · simp only [valid_map₃, field_iff (reads_branches faithful) deep,
      field_iff (reads_block? faithful) deep, place_iff deep] at valid
    obtain ⟨branches, alternate, loc, ⟨value, found, filled, held⟩, other, placed, rfl⟩ := valid
    cases alternate with
    | none => exact ⟨⟨named, placed⟩, filled, ⟨value, found, held⟩, other⟩
    | some block => exact ⟨⟨named, placed⟩, filled, ⟨value, found, held⟩, other⟩
  · simp only [valid_map₄, inner_iff faithful deep, named_iff deep, body_iff faithful deep,
      place_iff deep] at valid
    obtain ⟨subject, item, block, loc, first, second, third, placed, rfl⟩ := valid
    exact ⟨⟨named, placed⟩, first, second, third⟩
  · simp only [valid_map₃, inner_iff faithful deep, body_iff faithful deep, place_iff deep] at valid
    obtain ⟨condition, block, loc, first, second, placed, rfl⟩ := valid
    exact ⟨⟨named, placed⟩, first, second⟩
  · simp only [valid_map₄, field_iff (reads_target faithful) deep,
      field_iff (reads_assignOp n) deep, inner_iff faithful deep, place_iff deep] at valid
    obtain ⟨target, op, value, loc, first, second, third, placed, rfl⟩ := valid
    exact ⟨⟨named, placed⟩, first, second, third⟩
  · simp only [valid_map₂, field_iff (reads_identifier n).filledList deep, place_iff deep] at valid
    obtain ⟨names, loc, ⟨value, found, filled, held⟩, placed, rfl⟩ := valid
    exact ⟨⟨named, placed⟩, filled, value, found, held⟩
  · simp only [valid_map₂, field_iff (reads_expression? faithful) deep, place_iff deep] at valid
    obtain ⟨value, loc, held, placed, rfl⟩ := valid
    cases value with
    | none => exact ⟨⟨named, placed⟩, held⟩
    | some value => exact ⟨⟨named, placed⟩, held⟩
  · simp only [valid_map₃, field_iff (reads_name? n) deep, inner_iff faithful deep,
      place_iff deep] at valid
    obtain ⟨value, key, loc, first, second, placed, rfl⟩ := valid
    exact ⟨⟨named, placed⟩, first, second⟩
  · simp only [valid_map₃, field_iff (reads_identifier n).filledList deep,
      field_iff (reads_bool n) deep, place_iff deep] at valid
    obtain ⟨native, modules, loc, first, ⟨value, found, filled, held⟩, placed, rfl⟩ := valid
    exact ⟨⟨named, placed⟩, first, filled, value, found, held⟩
  · simp only [valid_map₂, depth_iff deep, place_iff deep] at valid
    obtain ⟨depth, loc, held, placed, rfl⟩ := valid
    exact ⟨⟨named, placed⟩, held⟩
  · simp only [valid_map₂, depth_iff deep, place_iff deep] at valid
    obtain ⟨depth, loc, held, placed, rfl⟩ := valid
    exact ⟨⟨named, placed⟩, held⟩
  · simp only [valid_map₂, field_iff ((reads_call faithful).mono (Nat.le_succ n)) deep,
      place_iff deep] at valid
    obtain ⟨c, loc, held, placed, rfl⟩ := valid
    exact ⟨⟨named, placed⟩, held⟩

theorem valid_of_described_statement {path : List Text} {data : Json} (deep : data.depth ≤ n + 1)
    {s : Stmt} (described : s.DescribedBy data) :
    ∃ kind shape, data.Has "type" (· = .str kind) ∧
      Table.find? kind (statements shapes) = some shape ∧ shape path data = .valid s := by
  cases s with
  | define name procedure loc =>
      obtain ⟨⟨named, placed⟩, first, second⟩ := described
      refine ⟨_, _, named, rfl, ?_⟩
      simp only [valid_map₃, reads_procedure faithful path data _ deep, named_iff deep,
        place_iff deep]
      exact ⟨name, procedure, loc, first, second, placed, rfl⟩
  | cond branches alternate loc =>
      have parts : data.IsNode "If" loc ∧ branches ≠ [] ∧
          data.Has "branches" (Json.Lists (Branch.AllDescribedBy branches)) ∧
          data.Has "alternate" (Json.Maybe Block.DescribedBy alternate) := by
        cases alternate with
        | none => exact described
        | some block => exact described
      obtain ⟨⟨named, placed⟩, filled, ⟨value, found, held⟩, other⟩ := parts
      refine ⟨_, _, named, rfl, ?_⟩
      simp only [valid_map₃, field_iff (reads_branches faithful) deep,
        field_iff (reads_block? faithful) deep, place_iff deep]
      exact ⟨branches, alternate, loc, ⟨value, found, filled, held⟩, other, placed, rfl⟩
  | forEach item subject block loc =>
      obtain ⟨⟨named, placed⟩, first, second, third⟩ := described
      refine ⟨_, _, named, rfl, ?_⟩
      simp only [valid_map₄, inner_iff faithful deep, named_iff deep, body_iff faithful deep,
        place_iff deep]
      exact ⟨subject, item, block, loc, first, second, third, placed, rfl⟩
  | whileLoop condition block loc =>
      obtain ⟨⟨named, placed⟩, first, second⟩ := described
      refine ⟨_, _, named, rfl, ?_⟩
      simp only [valid_map₃, inner_iff faithful deep, body_iff faithful deep, place_iff deep]
      exact ⟨condition, block, loc, first, second, placed, rfl⟩
  | assign target op value loc =>
      obtain ⟨⟨named, placed⟩, first, second, third⟩ := described
      refine ⟨_, _, named, rfl, ?_⟩
      simp only [valid_map₄, field_iff (reads_target faithful) deep,
        field_iff (reads_assignOp n) deep, inner_iff faithful deep, place_iff deep]
      exact ⟨target, op, value, loc, first, second, third, placed, rfl⟩
  | use names loc =>
      obtain ⟨⟨named, placed⟩, filled, value, found, held⟩ := described
      refine ⟨_, _, named, rfl, ?_⟩
      simp only [valid_map₂, field_iff (reads_identifier n).filledList deep, place_iff deep]
      exact ⟨names, loc, ⟨value, found, filled, held⟩, placed, rfl⟩
  | giveBack value loc =>
      have parts : data.IsNode "Return" loc ∧
          data.Has "value" (Json.Maybe Expr.DescribedBy value) := by
        cases value with
        | none => exact described
        | some value => exact described
      obtain ⟨⟨named, placed⟩, held⟩ := parts
      refine ⟨_, _, named, rfl, ?_⟩
      simp only [valid_map₂, field_iff (reads_expression? faithful) deep, place_iff deep]
      exact ⟨value, loc, held, placed, rfl⟩
  | emit value key loc =>
      obtain ⟨⟨named, placed⟩, first, second⟩ := described
      refine ⟨_, _, named, rfl, ?_⟩
      simp only [valid_map₃, field_iff (reads_name? n) deep, inner_iff faithful deep,
        place_iff deep]
      exact ⟨value, key, loc, first, second, placed, rfl⟩
  | imports native modules loc =>
      obtain ⟨⟨named, placed⟩, first, filled, value, found, held⟩ := described
      refine ⟨_, _, named, rfl, ?_⟩
      simp only [valid_map₃, field_iff (reads_identifier n).filledList deep,
        field_iff (reads_bool n) deep, place_iff deep]
      exact ⟨native, modules, loc, first, ⟨value, found, filled, held⟩, placed, rfl⟩
  | leave depth loc =>
      obtain ⟨⟨named, placed⟩, held⟩ := described
      refine ⟨_, _, named, rfl, ?_⟩
      simp only [valid_map₂, depth_iff deep, place_iff deep]
      exact ⟨depth, loc, held, placed, rfl⟩
  | next depth loc =>
      obtain ⟨⟨named, placed⟩, held⟩ := described
      refine ⟨_, _, named, rfl, ?_⟩
      simp only [valid_map₂, depth_iff deep, place_iff deep]
      exact ⟨depth, loc, held, placed, rfl⟩
  | call callee args callLoc loc =>
      obtain ⟨⟨named, placed⟩, held⟩ := described
      refine ⟨_, _, named, rfl, ?_⟩
      simp only [valid_map₂, field_iff ((reads_call faithful).mono (Nat.le_succ n)) deep,
        place_iff deep]
      exact ⟨(callee, args, callLoc), loc, held, placed, rfl⟩

theorem reads_statement : Reads (n + 1) (statement shapes) Stmt.DescribedBy := by
  intro path data s deep
  simp only [statement, oneOf_iff]
  constructor
  · rintro ⟨kind, shape, named, known, valid⟩
    exact described_of_valid_statement faithful deep named (Table.mem_of_find? kind shape _ known)
      valid
  · exact valid_of_described_statement faithful deep

theorem reads_statements :
    Reads n (list (statement shapes)) fun list data =>
      data.Lists (List.Forall₂ Stmt.DescribedBy list) :=
  ((reads_statement faithful).mono (Nat.le_succ n)).list

/-- A node of which only its statements matter. -/
theorem valid_statements_iff {α : Type} {kind : Text} {make : List Stmt → Location → α}
    (injective : ∀ {statements statements' loc loc'},
      make statements loc = make statements' loc' → statements = statements' ∧ loc = loc')
    {path : List Text} {data : Json} (deep : data.depth ≤ n + 1) {statements : List Stmt}
    {loc : Location} :
    object (fun path data =>
      (fun _ statements loc => make statements loc) <$> tag "type" kind path data
        <*> field "statements" (list (statement shapes)) path data
        <*> field "loc" location path data) path data = .valid (make statements loc) ↔
      data.IsNode kind loc ∧
        data.Has "statements" (Json.Lists (List.Forall₂ Stmt.DescribedBy statements)) := by
  simp only [object_iff, valid_map₃, tag_iff, field_iff (reads_statements faithful) deep,
    field_iff (reads_location n) deep]
  constructor
  · rintro ⟨⟨_, _, _, tagged, held, placed, same⟩, _⟩
    obtain ⟨rfl, rfl⟩ := injective same
    exact ⟨⟨tagged, placed⟩, held⟩
  · rintro ⟨⟨tagged, placed⟩, held⟩
    exact ⟨⟨(), statements, loc, tagged, held, placed, rfl⟩, held.isRecord⟩

theorem reads_block : Reads (n + 1) (block shapes) Block.DescribedBy := by
  intro path data found deep
  obtain ⟨statements, loc⟩ := found
  simp only [Block.DescribedBy, Stmt.allDescribedBy_iff]
  exact valid_statements_iff faithful (by simp) deep

theorem reads_program : Reads (n + 1) (program shapes) Program.DescribedBy := by
  intro path data found deep
  exact valid_statements_iff faithful (by simp) deep

end

/-! The nodes of several kinds are unions of the nodes of each, since no two bear one name. -/

theorem segment_eq_union (shapes : Shapes) :
    segment shapes = union
      [member "kind" "text" fun path data => Segment.text <$> field "value" text path data,
        member "kind" "interpolation" fun path data =>
          Segment.code <$> field "expression" shapes.expression path data] := by
  let table : Table (Check Segment) :=
    [("text", fun path data => Segment.text <$> field "value" text path data),
      ("interpolation", fun path data =>
        Segment.code <$> field "expression" shapes.expression path data)]
  have distinct : [Text.ofString "text", "interpolation"].Nodup := by decide
  rw [segment]
  refine Eq.trans ?_ (union_eq_oneOf "kind" table distinct).symm
  simp only [table, Table.find?, eq_comm]

theorem expression_eq_union (shapes : Shapes) :
    expression shapes =
      union ((expressions shapes).map fun entry => member "type" entry.1 entry.2) := by
  have distinct : ((expressions (Shape.shapes 0)).map Prod.fst).Nodup := by decide +kernel
  exact (union_eq_oneOf "type" (expressions shapes) distinct).symm

theorem target_eq_union (shapes : Shapes) :
    target shapes = union ((targets shapes).map fun entry => member "type" entry.1 entry.2) := by
  have distinct : ((targets (Shape.shapes 0)).map Prod.fst).Nodup := by decide +kernel
  exact (union_eq_oneOf "type" (targets shapes) distinct).symm

theorem statement_eq_union (shapes : Shapes) :
    statement shapes =
      union ((statements shapes).map fun entry => member "type" entry.1 entry.2) := by
  have distinct : ((statements (Shape.shapes 0)).map Prod.fst).Nodup := by decide +kernel
  exact (union_eq_oneOf "type" (statements shapes) distinct).symm

/-- Data that is no record describes no node. -/
theorem faithful_zero : Faithful 0 (shapes 0) := by
  have flat : ∀ {data : Json}, data.depth ≤ 0 → ∀ {key : Text} {describes : Json → Prop},
      ¬ data.Has key describes := by
    intro data shallow key describes has
    obtain ⟨fields, rfl⟩ := has.isRecord
    simp [Json.depth] at shallow
  constructor
  · intro path data e shallow
    refine ⟨nofun, fun described => ?_⟩
    cases e with
    | null loc => exact absurd described.1 (flat shallow)
    | _ => exact absurd described.1.1 (flat shallow)
  · intro path data found shallow
    refine ⟨nofun, fun described => ?_⟩
    cases found
    exact absurd described.1.1 (flat shallow)

/-- Each level of shapes reads nodes one level deeper than the one below. -/
theorem faithful_shapes (n : Nat) : Faithful n (shapes n) := by
  induction n with
  | zero => exact faithful_zero
  | succ n ih => exact ⟨reads_expression ih, reads_block ih⟩

end Shape

/-- Data is read as a program exactly when it describes it. -/
theorem Program.ofTree_ok_iff (data : Json) (program : Program) :
    Program.ofTree data = .ok program ↔ program.DescribedBy data := by
  have reads := Shape.reads_program (Shape.faithful_shapes data.depth) [] data program
    (Nat.le_succ _)
  rw [← reads, Program.ofTree]
  cases Shape.program (Shape.shapes data.depth) [] data with
  | valid found => simp
  | dirty issues => cases issues <;> simp
  | aborted issues => cases issues <;> simp

end Loom
