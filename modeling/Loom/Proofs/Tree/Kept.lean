import Loom.Proofs.Tree.Accepted

/-!
The tree of a program against the data it was read from. It has the declared fields
of each record and nothing else, and what they hold is what the data holds; read
again, it gives the same program.
-/

namespace Loom

open TreeForm

namespace Json

mutual

/-- Some data with fields of its records left out. A number may lose the sign of
zero, as a column does. -/
def KeptFrom : Json → Json → Prop
  | null, data => data = .null
  | bool b, data => data = .bool b
  | num x, data => ∃ y, data = .num y ∧ (y == x) = true
  | str t, data => data = .str t
  | arr items, data => data.Lists fun others => AllKeptFrom items others
  | obj fields, data => (∃ others, data = .obj others) ∧ FieldsKeptFrom fields data

def AllKeptFrom : List Json → List Json → Prop
  | [], others => others = []
  | item :: rest, others =>
      ∃ other remaining, others = other :: remaining ∧ item.KeptFrom other ∧
        AllKeptFrom rest remaining

def FieldsKeptFrom : List (Text × Json) → Json → Prop
  | [], _ => True
  | (key, value) :: rest, data =>
      data.Has key (fun other => value.KeptFrom other) ∧ FieldsKeptFrom rest data

end

theorem fieldsKeptFrom_append (fields more : List (Text × Json)) (data : Json) :
    FieldsKeptFrom (fields ++ more) data ↔
      FieldsKeptFrom fields data ∧ FieldsKeptFrom more data := by
  induction fields with
  | nil => simp [FieldsKeptFrom]
  | cons field rest ih => simp [FieldsKeptFrom, ih, and_assoc]

theorem kept_count {least n : Nat} {data : Json} (counts : data.Counts least n) :
    (num (Float.ofNat n)).KeptFrom data := by
  obtain ⟨x, rfl, whole, _⟩ := counts
  exact ⟨x, rfl, Double.beq_ofNat whole⟩

theorem counts_again {least n : Nat} {data : Json} (counts : data.Counts least n) :
    (num (Float.ofNat n)).Counts least n := by
  obtain ⟨x, rfl, whole, enough⟩ := counts
  exact ⟨_, rfl, wholeOf?_ofNat_of_known whole, enough⟩

theorem kept_number {x : Float} {data : Json}
    (held : data = .num x ∧ x.isInf = false ∧ x.isNaN = false) : (num x).KeptFrom data :=
  ⟨x, held.1, (Double.beq_iff_like x x).mpr ⟨.same _, held.2.2⟩⟩

theorem kept_names {list : List Text} {data : Json} (named : data.Names list) :
    (TreeForm.names list).KeptFrom data := by
  obtain ⟨items, rfl, each⟩ := named
  refine ⟨items, rfl, ?_⟩
  induction each with
  | nil => rfl
  | cons first _ ih =>
      obtain ⟨rfl, _⟩ := first
      exact ⟨_, _, rfl, rfl, ih⟩

theorem names_again {list : List Text} {data : Json} (named : data.Names list) :
    (TreeForm.names list).Names list := by
  obtain ⟨items, rfl, each⟩ := named
  refine ⟨_, rfl, ?_⟩
  induction each with
  | nil => exact .nil
  | cons first _ ih => exact .cons ⟨rfl, first.2⟩ ih

theorem kept_name? {name : Option Text} {data : Json} (named : Maybe Named name data) :
    (TreeForm.name? name).KeptFrom data := by
  cases name with
  | none => exact named
  | some name => exact named.1

theorem name?_again {name : Option Text} {data : Json} (named : Maybe Named name data) :
    Maybe Named name (TreeForm.name? name) := by
  cases name with
  | none => rfl
  | some name => exact ⟨rfl, named.2⟩

end Json

section

variable {kind : Text} {fields : List (Text × Json)} {loc : Location} {data : Json}

theorem kept_node (node : data.IsNode kind loc) (kept : Json.FieldsKeptFrom fields data) :
    (TreeForm.node kind fields loc).KeptFrom data := by
  refine ⟨node.1.isRecord, node.1.mono fun _ same => same, ?_⟩
  rw [Json.fieldsKeptFrom_append]
  refine ⟨kept, node.2.mono fun place described => ?_, trivial⟩
  exact ⟨described.1.isRecord, described.1.mono fun _ => Json.kept_count,
    described.2.mono fun _ => Json.kept_count, trivial⟩

theorem find?_append (key : Text) (fields more : List (Text × Json)) :
    Table.find? key (fields ++ more) = (Table.find? key fields).or (Table.find? key more) := by
  induction fields with
  | nil => rfl
  | cons field rest ih =>
      obtain ⟨k, value⟩ := field
      by_cases same : k = key <;> simp [Table.find?, same, ih]

theorem node_again (node : data.IsNode kind loc) (absent : Table.find? "loc" fields = none) :
    (TreeForm.node kind fields loc).IsNode kind loc := by
  obtain ⟨_, _, _, ⟨_, _, line⟩, ⟨_, _, column⟩⟩ := node
  have placed : (TreeForm.node kind fields loc).field? "loc" =
      some (.obj [("line", .num (Float.ofNat loc.line)),
        ("column", .num (Float.ofNat loc.column))]) := by
    show Table.find? "loc" (fields ++ _) = _
    rw [find?_append, absent]
    rfl
  exact ⟨⟨_, rfl, rfl⟩, _, placed, ⟨_, rfl, Json.counts_again line⟩,
    _, rfl, Json.counts_again column⟩

theorem node_has {key : Text} {value : Json} {describes : Json → Prop}
    (other : Text.ofString "type" ≠ key) (found : Table.find? key fields = some value)
    (holds : describes value) : (TreeForm.node kind fields loc).Has key describes := by
  refine ⟨value, ?_, holds⟩
  show (if Text.ofString "type" = key then _ else Table.find? key (fields ++ _)) = _
  rw [if_neg other, find?_append, found]
  rfl

end

theorem kept_procedure {params uses : List Text} {body : Block} {site : Site} {data tree : Json}
    (described : Procedure.DescribedBy ⟨params, uses, body, site⟩ data)
    (inner : ∀ d, body.DescribedBy d → tree.KeptFrom d) :
    Json.FieldsKeptFrom [("params", names params), ("uses", names uses), ("body", tree)] data := by
  obtain ⟨_, first, second, held⟩ := described
  exact ⟨first.mono fun _ => Json.kept_names, second.mono fun _ => Json.kept_names,
    held.mono inner, trivial⟩

mutual

/-- The tree of an expression holds what the data holds, and nothing else. -/
theorem Expr.kept (e : Expr) (data : Json) (described : e.DescribedBy data) :
    (e.toTree .num).KeptFrom data := by
  match e with
  | .number value loc =>
      exact kept_node described.1 ⟨described.2.mono fun _ => Json.kept_number, trivial⟩
  | .bool value loc => exact kept_node described.1 ⟨described.2, trivial⟩
  | .null loc => exact kept_node described trivial
  | .string segments loc =>
      exact kept_node described.1
        ⟨described.2.mono fun _ listed => listed.mono (Segment.allKept segments), trivial⟩
  | .ident name loc =>
      exact kept_node described.1 ⟨described.2.mono fun _ named => named.1, trivial⟩
  | .array elements loc =>
      exact kept_node described.1
        ⟨described.2.mono fun _ listed => listed.mono (Expr.allKept elements), trivial⟩
  | .hash entries loc =>
      exact kept_node described.1
        ⟨described.2.mono fun _ listed => listed.mono (Entry.allKept entries), trivial⟩
  | .new entries hashLoc loc =>
      refine kept_node described.1 ⟨described.2.mono fun hash held => ?_, trivial⟩
      exact kept_node held.1
        ⟨held.2.mono fun _ listed => listed.mono (Entry.allKept entries), trivial⟩
  | .ref container name loc =>
      obtain ⟨node, named, within⟩ := described
      exact kept_node node ⟨named.mono fun _ named => named.1,
        within.mono fun _ => Json.kept_name?, trivial⟩
  | .lambda ⟨params, uses, body, site⟩ loc =>
      exact kept_node described.1 (kept_procedure described.2 body.kept)
  | .call callee args loc =>
      obtain ⟨node, called, given⟩ := described
      exact kept_node node ⟨called.mono callee.kept,
        given.mono fun _ listed => listed.mono (Expr.allKept args), trivial⟩
  | .field object name loc =>
      obtain ⟨node, held, named⟩ := described
      exact kept_node node ⟨held.mono object.kept, named.mono fun _ named => named.1, trivial⟩
  | .index object position loc =>
      obtain ⟨node, first, second⟩ := described
      exact kept_node node ⟨first.mono object.kept, second.mono position.kept, trivial⟩
  | .choice condition consequent alternate loc =>
      obtain ⟨node, first, second, third⟩ := described
      exact kept_node node ⟨first.mono condition.kept, second.mono consequent.kept,
        third.mono alternate.kept, trivial⟩
  | .unary op operand loc =>
      obtain ⟨node, spelled, held⟩ := described
      exact kept_node node ⟨spelled, held.mono operand.kept, trivial⟩
  | .binary op left right loc =>
      obtain ⟨node, spelled, first, second⟩ := described
      exact kept_node node ⟨spelled, first.mono left.kept, second.mono right.kept, trivial⟩

theorem Expr.allKept (list : List Expr) (items : List Json)
    (described : Expr.AllDescribedBy list items) :
    Json.AllKeptFrom (Expr.allToTree .num list) items := by
  match list with
  | [] => exact described
  | e :: rest =>
      obtain ⟨item, others, rfl, first, remaining⟩ := described
      exact ⟨item, others, rfl, e.kept item first, Expr.allKept rest others remaining⟩

theorem Segment.allKept (list : List Segment) (items : List Json)
    (described : Segment.AllDescribedBy list items) :
    Json.AllKeptFrom (Segment.allToTree .num list) items := by
  match list with
  | [] => exact described
  | .text value :: rest =>
      obtain ⟨item, others, rfl, ⟨kind, held⟩, remaining⟩ := described
      exact ⟨item, others, rfl, ⟨kind.isRecord, kind, held, trivial⟩,
        Segment.allKept rest others remaining⟩
  | .code value :: rest =>
      obtain ⟨item, others, rfl, ⟨kind, held⟩, remaining⟩ := described
      exact ⟨item, others, rfl, ⟨kind.isRecord, kind, held.mono value.kept, trivial⟩,
        Segment.allKept rest others remaining⟩

theorem Entry.allKept (list : List Entry) (items : List Json)
    (described : Entry.AllDescribedBy list items) :
    Json.AllKeptFrom (Entry.allToTree .num list) items := by
  match list with
  | [] => exact described
  | ⟨key, value⟩ :: rest =>
      obtain ⟨item, others, rfl, ⟨spelled, held⟩, remaining⟩ := described
      exact ⟨item, others, rfl, ⟨spelled.isRecord, spelled, held.mono value.kept, trivial⟩,
        Entry.allKept rest others remaining⟩

theorem Block.kept (block : Block) (data : Json) (described : block.DescribedBy data) :
    (block.toTree .num).KeptFrom data := by
  match block with
  | ⟨statements, loc⟩ =>
      exact kept_node described.1
        ⟨described.2.mono fun _ listed => listed.mono (Stmt.allKept statements), trivial⟩

theorem Target.kept (target : Target) (data : Json) (described : target.DescribedBy data) :
    (target.toTree .num).KeptFrom data := by
  match target with
  | .ident name loc =>
      exact kept_node described.1 ⟨described.2.mono fun _ named => named.1, trivial⟩
  | .field object name loc =>
      obtain ⟨node, held, named⟩ := described
      exact kept_node node ⟨held.mono object.kept, named.mono fun _ named => named.1, trivial⟩
  | .index object position loc =>
      obtain ⟨node, first, second⟩ := described
      exact kept_node node ⟨first.mono object.kept, second.mono position.kept, trivial⟩

theorem Branch.allKept (list : List Branch) (items : List Json)
    (described : Branch.AllDescribedBy list items) :
    Json.AllKeptFrom (Branch.allToTree .num list) items := by
  match list with
  | [] => exact described
  | ⟨condition, body⟩ :: rest =>
      obtain ⟨item, others, rfl, ⟨first, second⟩, remaining⟩ := described
      exact ⟨item, others, rfl,
        ⟨first.isRecord, first.mono condition.kept, second.mono body.kept, trivial⟩,
        Branch.allKept rest others remaining⟩

theorem Stmt.kept (s : Stmt) (data : Json) (described : s.DescribedBy data) :
    (s.toTree .num).KeptFrom data := by
  match s with
  | .define name ⟨params, uses, body, site⟩ loc =>
      obtain ⟨node, named, held⟩ := described
      exact kept_node node ⟨named.mono fun _ named => named.1, kept_procedure held body.kept⟩
  | .cond branches none loc =>
      obtain ⟨node, _, listed, nothing⟩ := described
      exact kept_node node
        ⟨listed.mono fun _ listed => listed.mono (Branch.allKept branches), nothing, trivial⟩
  | .cond branches (some alternate) loc =>
      obtain ⟨node, _, listed, held⟩ := described
      exact kept_node node
        ⟨listed.mono fun _ listed => listed.mono (Branch.allKept branches),
          held.mono alternate.kept, trivial⟩
  | .forEach item subject body loc =>
      obtain ⟨node, first, named, second⟩ := described
      exact kept_node node ⟨first.mono subject.kept, named.mono fun _ named => named.1,
        second.mono body.kept, trivial⟩
  | .whileLoop condition body loc =>
      obtain ⟨node, first, second⟩ := described
      exact kept_node node ⟨first.mono condition.kept, second.mono body.kept, trivial⟩
  | .assign target op value loc =>
      obtain ⟨node, first, spelled, second⟩ := described
      exact kept_node node ⟨first.mono target.kept, spelled, second.mono value.kept, trivial⟩
  | .use names loc =>
      obtain ⟨node, _, named⟩ := described
      exact kept_node node ⟨named.mono fun _ => Json.kept_names, trivial⟩
  | .giveBack none loc => exact kept_node described.1 ⟨described.2, trivial⟩
  | .giveBack (some value) loc =>
      exact kept_node described.1 ⟨described.2.mono value.kept, trivial⟩
  | .emit value key loc =>
      obtain ⟨node, held, named⟩ := described
      exact kept_node node ⟨held.mono value.kept, named.mono fun _ => Json.kept_name?, trivial⟩
  | .imports native modules loc =>
      obtain ⟨node, flag, _, named⟩ := described
      exact kept_node node ⟨flag, named.mono fun _ => Json.kept_names, trivial⟩
  | .leave depth loc =>
      exact kept_node described.1 ⟨described.2.mono fun _ => Json.kept_count, trivial⟩
  | .next depth loc =>
      exact kept_node described.1 ⟨described.2.mono fun _ => Json.kept_count, trivial⟩
  | .call callee args callLoc loc =>
      refine kept_node described.1 ⟨described.2.mono fun call held => ?_, trivial⟩
      obtain ⟨node, called, given⟩ := held
      exact kept_node node ⟨called.mono callee.kept,
        given.mono fun _ listed => listed.mono (Expr.allKept args), trivial⟩

theorem Stmt.allKept (list : List Stmt) (items : List Json)
    (described : Stmt.AllDescribedBy list items) :
    Json.AllKeptFrom (Stmt.allToTree .num list) items := by
  match list with
  | [] => exact described
  | s :: rest =>
      obtain ⟨item, others, rfl, first, remaining⟩ := described
      exact ⟨item, others, rfl, s.kept item first, Stmt.allKept rest others remaining⟩

end

theorem Program.kept (program : Program) (data : Json) (described : program.DescribedBy data) :
    (program.toTree .num).KeptFrom data := by
  refine kept_node described.1 ⟨described.2.mono fun _ listed => ?_, trivial⟩
  refine listed.mono fun items each => ?_
  exact Stmt.allKept _ items ((Stmt.allDescribedBy_iff _ items).mpr each)

/-! The tree of a program describes the program as the data did. -/

theorem procedure_again {params uses : List Text} {body : Block} {site : Site}
    {data result tree : Json} (described : Procedure.DescribedBy ⟨params, uses, body, site⟩ data)
    (first : result.Has "params" (· = names params)) (second : result.Has "uses" (· = names uses))
    (third : result.Has "body" (· = tree))
    (inner : ∀ d, body.DescribedBy d → body.DescribedBy tree) :
    Procedure.DescribedBy ⟨params, uses, body, site⟩ result := by
  obtain ⟨unplaced, ⟨_, _, named⟩, ⟨_, _, shared⟩, ⟨d, _, held⟩⟩ := described
  refine ⟨unplaced, first.mono ?_, second.mono ?_, third.mono ?_⟩
  · rintro _ rfl
    exact Json.names_again named
  · rintro _ rfl
    exact Json.names_again shared
  · rintro _ rfl
    exact inner d held

mutual

theorem Expr.again (e : Expr) (data : Json) (described : e.DescribedBy data) :
    e.DescribedBy (e.toTree .num) := by
  match e with
  | .number value loc =>
      obtain ⟨place, _, _, _, held⟩ := described
      exact ⟨node_again place rfl, node_has (by decide) rfl ⟨rfl, held⟩⟩
  | .bool value loc => exact ⟨node_again described.1 rfl, node_has (by decide) rfl rfl⟩
  | .null loc => exact node_again described rfl
  | .string segments loc =>
      obtain ⟨place, _, _, items, _, listed⟩ := described
      exact ⟨node_again place rfl,
        node_has (by decide) rfl ⟨_, rfl, Segment.allAgain segments items listed⟩⟩
  | .ident name loc =>
      obtain ⟨place, _, _, _, named⟩ := described
      exact ⟨node_again place rfl, node_has (by decide) rfl ⟨rfl, named⟩⟩
  | .array elements loc =>
      obtain ⟨place, _, _, items, _, listed⟩ := described
      exact ⟨node_again place rfl,
        node_has (by decide) rfl ⟨_, rfl, Expr.allAgain elements items listed⟩⟩
  | .hash entries loc =>
      obtain ⟨place, _, _, items, _, listed⟩ := described
      exact ⟨node_again place rfl,
        node_has (by decide) rfl ⟨_, rfl, Entry.allAgain entries items listed⟩⟩
  | .new entries hashLoc loc =>
      obtain ⟨place, _, _, inner, _, _, items, _, listed⟩ := described
      exact ⟨node_again place rfl, node_has (by decide) rfl ⟨node_again inner rfl,
        node_has (by decide) rfl ⟨_, rfl, Entry.allAgain entries items listed⟩⟩⟩
  | .ref container name loc =>
      obtain ⟨place, ⟨_, _, _, named⟩, ⟨_, _, within⟩⟩ := described
      exact ⟨node_again place rfl, node_has (by decide) rfl ⟨rfl, named⟩,
        node_has (by decide) rfl (Json.name?_again within)⟩
  | .lambda ⟨params, uses, body, site⟩ loc =>
      exact ⟨node_again described.1 rfl,
        procedure_again described.2 (node_has (by decide) rfl rfl) (node_has (by decide) rfl rfl)
          (node_has (by decide) rfl rfl) body.again⟩
  | .call callee args loc =>
      obtain ⟨place, ⟨d, _, called⟩, ⟨_, _, items, _, given⟩⟩ := described
      exact ⟨node_again place rfl, node_has (by decide) rfl (callee.again d called),
        node_has (by decide) rfl ⟨_, rfl, Expr.allAgain args items given⟩⟩
  | .field object name loc =>
      obtain ⟨place, ⟨d, _, held⟩, ⟨_, _, _, named⟩⟩ := described
      exact ⟨node_again place rfl, node_has (by decide) rfl (object.again d held),
        node_has (by decide) rfl ⟨rfl, named⟩⟩
  | .index object position loc =>
      obtain ⟨place, ⟨d, _, first⟩, ⟨d', _, second⟩⟩ := described
      exact ⟨node_again place rfl, node_has (by decide) rfl (object.again d first),
        node_has (by decide) rfl (position.again d' second)⟩
  | .choice condition consequent alternate loc =>
      obtain ⟨place, ⟨d, _, first⟩, ⟨d', _, second⟩, ⟨d'', _, third⟩⟩ := described
      exact ⟨node_again place rfl, node_has (by decide) rfl (condition.again d first),
        node_has (by decide) rfl (consequent.again d' second),
        node_has (by decide) rfl (alternate.again d'' third)⟩
  | .unary op operand loc =>
      obtain ⟨place, _, ⟨d, _, held⟩⟩ := described
      exact ⟨node_again place rfl, node_has (by decide) rfl rfl,
        node_has (by decide) rfl (operand.again d held)⟩
  | .binary op left right loc =>
      obtain ⟨place, _, ⟨d, _, first⟩, ⟨d', _, second⟩⟩ := described
      exact ⟨node_again place rfl, node_has (by decide) rfl rfl,
        node_has (by decide) rfl (left.again d first),
        node_has (by decide) rfl (right.again d' second)⟩

theorem Expr.allAgain (list : List Expr) (items : List Json)
    (described : Expr.AllDescribedBy list items) :
    Expr.AllDescribedBy list (Expr.allToTree .num list) := by
  match list with
  | [] => rfl
  | e :: rest =>
      obtain ⟨item, others, _, first, remaining⟩ := described
      exact ⟨_, _, rfl, e.again item first, Expr.allAgain rest others remaining⟩

theorem Segment.allAgain (list : List Segment) (items : List Json)
    (described : Segment.AllDescribedBy list items) :
    Segment.AllDescribedBy list (Segment.allToTree .num list) := by
  match list with
  | [] => rfl
  | .text value :: rest =>
      obtain ⟨item, others, _, first, remaining⟩ := described
      exact ⟨_, _, rfl, ⟨⟨_, rfl, rfl⟩, _, rfl, rfl⟩, Segment.allAgain rest others remaining⟩
  | .code value :: rest =>
      obtain ⟨item, others, _, ⟨_, d, _, held⟩, remaining⟩ := described
      exact ⟨_, _, rfl, ⟨⟨_, rfl, rfl⟩, _, rfl, value.again d held⟩,
        Segment.allAgain rest others remaining⟩

theorem Entry.allAgain (list : List Entry) (items : List Json)
    (described : Entry.AllDescribedBy list items) :
    Entry.AllDescribedBy list (Entry.allToTree .num list) := by
  match list with
  | [] => rfl
  | ⟨key, value⟩ :: rest =>
      obtain ⟨item, others, _, ⟨_, d, _, held⟩, remaining⟩ := described
      exact ⟨_, _, rfl, ⟨⟨_, rfl, rfl⟩, _, rfl, value.again d held⟩,
        Entry.allAgain rest others remaining⟩

theorem Block.again (block : Block) (data : Json) (described : block.DescribedBy data) :
    block.DescribedBy (block.toTree .num) := by
  match block with
  | ⟨statements, loc⟩ =>
      obtain ⟨place, _, _, items, _, listed⟩ := described
      exact ⟨node_again place rfl,
        node_has (by decide) rfl ⟨_, rfl, Stmt.allAgain statements items listed⟩⟩

theorem Target.again (target : Target) (data : Json) (described : target.DescribedBy data) :
    target.DescribedBy (target.toTree .num) := by
  match target with
  | .ident name loc =>
      obtain ⟨place, _, _, _, named⟩ := described
      exact ⟨node_again place rfl, node_has (by decide) rfl ⟨rfl, named⟩⟩
  | .field object name loc =>
      obtain ⟨place, ⟨d, _, held⟩, ⟨_, _, _, named⟩⟩ := described
      exact ⟨node_again place rfl, node_has (by decide) rfl (object.again d held),
        node_has (by decide) rfl ⟨rfl, named⟩⟩
  | .index object position loc =>
      obtain ⟨place, ⟨d, _, first⟩, ⟨d', _, second⟩⟩ := described
      exact ⟨node_again place rfl, node_has (by decide) rfl (object.again d first),
        node_has (by decide) rfl (position.again d' second)⟩

theorem Branch.allAgain (list : List Branch) (items : List Json)
    (described : Branch.AllDescribedBy list items) :
    Branch.AllDescribedBy list (Branch.allToTree .num list) := by
  match list with
  | [] => rfl
  | ⟨condition, body⟩ :: rest =>
      obtain ⟨item, others, _, ⟨⟨d, _, first⟩, ⟨d', _, second⟩⟩, remaining⟩ := described
      exact ⟨_, _, rfl, ⟨⟨_, rfl, condition.again d first⟩, _, rfl, body.again d' second⟩,
        Branch.allAgain rest others remaining⟩

theorem Stmt.again (s : Stmt) (data : Json) (described : s.DescribedBy data) :
    s.DescribedBy (s.toTree .num) := by
  match s with
  | .define name ⟨params, uses, body, site⟩ loc =>
      obtain ⟨place, ⟨_, _, _, named⟩, held⟩ := described
      exact ⟨node_again place rfl, node_has (by decide) rfl ⟨rfl, named⟩,
        procedure_again held (node_has (by decide) rfl rfl) (node_has (by decide) rfl rfl)
          (node_has (by decide) rfl rfl) body.again⟩
  | .cond branches none loc =>
      obtain ⟨place, filled, ⟨_, _, items, _, listed⟩, _⟩ := described
      exact ⟨node_again place rfl, filled,
        node_has (by decide) rfl ⟨_, rfl, Branch.allAgain branches items listed⟩,
        node_has (by decide) rfl rfl⟩
  | .cond branches (some alternate) loc =>
      obtain ⟨place, filled, ⟨_, _, items, _, listed⟩, ⟨d, _, held⟩⟩ := described
      exact ⟨node_again place rfl, filled,
        node_has (by decide) rfl ⟨_, rfl, Branch.allAgain branches items listed⟩,
        node_has (by decide) rfl (alternate.again d held)⟩
  | .forEach item subject body loc =>
      obtain ⟨place, ⟨d, _, first⟩, ⟨_, _, _, named⟩, ⟨d', _, second⟩⟩ := described
      exact ⟨node_again place rfl, node_has (by decide) rfl (subject.again d first),
        node_has (by decide) rfl ⟨rfl, named⟩, node_has (by decide) rfl (body.again d' second)⟩
  | .whileLoop condition body loc =>
      obtain ⟨place, ⟨d, _, first⟩, ⟨d', _, second⟩⟩ := described
      exact ⟨node_again place rfl, node_has (by decide) rfl (condition.again d first),
        node_has (by decide) rfl (body.again d' second)⟩
  | .assign target op value loc =>
      obtain ⟨place, ⟨d, _, first⟩, _, ⟨d', _, second⟩⟩ := described
      exact ⟨node_again place rfl, node_has (by decide) rfl (target.again d first),
        node_has (by decide) rfl rfl, node_has (by decide) rfl (value.again d' second)⟩
  | .use names loc =>
      obtain ⟨place, filled, ⟨_, _, named⟩⟩ := described
      exact ⟨node_again place rfl, filled, node_has (by decide) rfl (Json.names_again named)⟩
  | .giveBack none loc => exact ⟨node_again described.1 rfl, node_has (by decide) rfl rfl⟩
  | .giveBack (some value) loc =>
      obtain ⟨place, ⟨d, _, held⟩⟩ := described
      exact ⟨node_again place rfl, node_has (by decide) rfl (value.again d held)⟩
  | .emit value key loc =>
      obtain ⟨place, ⟨d, _, held⟩, ⟨_, _, named⟩⟩ := described
      exact ⟨node_again place rfl, node_has (by decide) rfl (value.again d held),
        node_has (by decide) rfl (Json.name?_again named)⟩
  | .imports native modules loc =>
      obtain ⟨place, _, filled, ⟨_, _, named⟩⟩ := described
      exact ⟨node_again place rfl, node_has (by decide) rfl rfl, filled,
        node_has (by decide) rfl (Json.names_again named)⟩
  | .leave depth loc =>
      obtain ⟨place, ⟨_, _, counts⟩⟩ := described
      exact ⟨node_again place rfl, node_has (by decide) rfl (Json.counts_again counts)⟩
  | .next depth loc =>
      obtain ⟨place, ⟨_, _, counts⟩⟩ := described
      exact ⟨node_again place rfl, node_has (by decide) rfl (Json.counts_again counts)⟩
  | .call callee args callLoc loc =>
      obtain ⟨place, ⟨_, _, inner, ⟨d, _, called⟩, ⟨_, _, items, _, given⟩⟩⟩ := described
      exact ⟨node_again place rfl, node_has (by decide) rfl ⟨node_again inner rfl,
        node_has (by decide) rfl (callee.again d called),
        node_has (by decide) rfl ⟨_, rfl, Expr.allAgain args items given⟩⟩⟩

theorem Stmt.allAgain (list : List Stmt) (items : List Json)
    (described : Stmt.AllDescribedBy list items) :
    Stmt.AllDescribedBy list (Stmt.allToTree .num list) := by
  match list with
  | [] => rfl
  | s :: rest =>
      obtain ⟨item, others, _, first, remaining⟩ := described
      exact ⟨_, _, rfl, s.again item first, Stmt.allAgain rest others remaining⟩

end

theorem Program.again (program : Program) (data : Json) (described : program.DescribedBy data) :
    program.DescribedBy (program.toTree .num) := by
  obtain ⟨place, _, _, items, _, each⟩ := described
  have listed := Stmt.allAgain _ items ((Stmt.allDescribedBy_iff _ items).mpr each)
  exact ⟨node_again place rfl,
    node_has (by decide) rfl ⟨_, rfl, (Stmt.allDescribedBy_iff _ _).mp listed⟩⟩

theorem kind_of_ofTree_error (data : Json) (d : Diagnostic)
    (failed : Program.ofTree data = .error d) : d.fault.kind = .syntaxError := by
  unfold Program.ofTree at failed
  split at failed
  all_goals cases failed
  all_goals rfl

/-- Data is read as a program exactly when it is the tree of one, whatever other
fields its records have. The program's own tree is the data without those fields, and
it is read as the program again. What is no tree of a program is a syntax error. -/
theorem tree_read_iff_described (data : Json) :
    (∀ program, Program.ofTree data = .ok program ↔ program.DescribedBy data) ∧
    (∀ program, Program.ofTree data = .ok program →
      (program.toTree .num).KeptFrom data ∧
        Program.ofTree (program.toTree .num) = .ok program) ∧
    ((¬ ∃ program : Program, program.DescribedBy data) →
      ∃ d, Program.ofTree data = .error d ∧ d.fault.kind = .syntaxError) := by
  refine ⟨Program.ofTree_ok_iff data, ?_, ?_⟩
  · intro program read
    have described := (Program.ofTree_ok_iff data program).mp read
    exact ⟨program.kept data described,
      (Program.ofTree_ok_iff _ program).mpr (program.again data described)⟩
  · intro none
    cases read : Program.ofTree data with
    | ok program => exact absurd ⟨program, (Program.ofTree_ok_iff data program).mp read⟩ none
    | error d => exact ⟨d, rfl, kind_of_ofTree_error data d read⟩

/-- A tree with notes that no node declares. -/
def annotated : Json :=
  let place := Json.obj [("line", .num 1), ("column", .num (-0)), ("note", .str "here")]
  let value := Json.obj [("type", .str "NullLiteral"), ("note", .null), ("loc", place)]
  let statement := Json.obj
    [("key", .str "out"), ("type", .str "Emit"), ("value", value), ("loc", place)]
  .obj [("note", .arr [.null]), ("type", .str "Program"), ("statements", .arr [statement]),
    ("loc", place)]

/-- The program without the notes. -/
def unannotated : Program := ⟨[.emit (.null ⟨1, 0⟩) (some "out") ⟨1, 0⟩], ⟨1, 0⟩⟩

theorem annotated_read : Program.ofTree annotated = .ok unannotated ∧
    (unannotated.toTree .num).KeptFrom annotated ∧
    Program.ofTree (unannotated.toTree .num) = .ok unannotated := by
  have one : wholeOf? 1 = some 1 := by decide +kernel
  have none : wholeOf? (-0) = some 0 := by decide +kernel
  have place : Location.DescribedBy ⟨1, 0⟩
      (.obj [("line", .num 1), ("column", .num (-0)), ("note", .str "here")]) :=
    ⟨⟨_, rfl, _, rfl, one, by decide⟩, _, rfl, _, rfl, none, by decide⟩
  have law := tree_read_iff_described annotated
  have read := (law.1 unannotated).mpr
    ⟨⟨⟨_, rfl, rfl⟩, _, rfl, place⟩, _, rfl, _, rfl,
      .cons ⟨⟨⟨_, rfl, rfl⟩, _, rfl, place⟩, ⟨_, rfl, ⟨_, rfl, rfl⟩, _, rfl, place⟩,
        _, rfl, rfl, by decide⟩ .nil⟩
  exact ⟨read, law.2.1 _ read⟩

end Loom
