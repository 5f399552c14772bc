import Loom.Json.Writer
import Loom.Proofs.Revision
import Loom.Proofs.Tree.Kept
import Loom.Proofs.WellFormed

/-!
Trees as they are written out. The written form of data has no sign of zero, and null for
what is no finite number. A well-formed tree is read from it again, but for the signs of
zeros, if all its number literals are finite; if one is not, nothing is read from it.
-/

namespace Loom

open TreeForm

namespace Json

mutual

/-- The data that the written form of some data is for. -/
def written : Json → Json
  | num x => if x.isNaN || x.isInf then null else num (plainNumber x)
  | arr items => arr (writtenItems items)
  | obj fields => obj (writtenFields fields)
  | data => data

def writtenItems : List Json → List Json
  | [] => []
  | item :: rest => item.written :: writtenItems rest

def writtenFields : List (Text × Json) → List (Text × Json)
  | [] => []
  | (key, value) :: rest => (key, value.written) :: writtenFields rest

end

theorem writeNumber_written (indented : Bool) (depth : Nat) (x : Float) :
    (num x).written.writeAt indented depth = (num x).writeAt indented depth := by
  have looks := plainNumber_plainNumber x
  by_cases other : (x.isNaN || x.isInf) = true
  · simp only [written, writeAt, writeNumber, other, if_true]
  · simp only [written, writeAt, writeNumber, isNaN_plain looks, isInf_plain looks,
      text_plain looks, if_neg other]

theorem isEmpty_writtenItems (items : List Json) :
    (writtenItems items).isEmpty = items.isEmpty := by
  cases items <;> rfl

theorem isEmpty_writtenFields (fields : List (Text × Json)) :
    (writtenFields fields).isEmpty = fields.isEmpty := by
  cases fields <;> rfl

mutual

/-- Data and what its written form is for are written the same. -/
theorem writeAt_written (indented : Bool) (depth : Nat) (data : Json) :
    data.written.writeAt indented depth = data.writeAt indented depth := by
  match data with
  | null => rfl
  | bool _ => rfl
  | num x => exact writeNumber_written indented depth x
  | str _ => rfl
  | arr items =>
      simp only [written, writeAt, isEmpty_writtenItems,
        writeItems_written indented (depth + 1) items]
  | obj fields =>
      simp only [written, writeAt, isEmpty_writtenFields,
        writeFields_written indented (depth + 1) fields]

theorem writeItems_written (indented : Bool) (depth : Nat) (items : List Json) :
    writeItems indented depth (writtenItems items) = writeItems indented depth items := by
  match items with
  | [] => rfl
  | item :: rest =>
      simp only [writtenItems, writeItems, isEmpty_writtenItems,
        writeAt_written indented depth item, writeItems_written indented depth rest]

theorem writeFields_written (indented : Bool) (depth : Nat) (fields : List (Text × Json)) :
    writeFields indented depth (writtenFields fields) = writeFields indented depth fields := by
  match fields with
  | [] => rfl
  | (key, value) :: rest =>
      simp only [writtenFields, writeFields, isEmpty_writtenFields,
        writeAt_written indented depth value, writeFields_written indented depth rest]

end

theorem find?_writtenFields (key : Text) (fields : List (Text × Json)) :
    Table.find? key (writtenFields fields) = (Table.find? key fields).map written := by
  induction fields with
  | nil => rfl
  | cons field rest ih =>
      obtain ⟨k, value⟩ := field
      by_cases same : k = key <;> simp [writtenFields, Table.find?, same, ih]

/-- A record as it is written has the fields that it has, as they are written. -/
theorem written_has_iff {key : Text} {describes : Json → Prop} {data : Json} :
    data.written.Has key describes ↔ data.Has key (fun value => describes value.written) := by
  cases data with
  | obj fields => simp [Has, written, field?, find?_writtenFields]
  | num x =>
      simp only [written]
      split <;> simp [Has, field?]
  | _ => simp [Has, written, field?]

theorem written_num {x : Float} (number : x.isNaN = false) (finite : x.isInf = false) :
    (num x).written = num (plainNumber x) := by
  simp only [written, number, finite, Bool.or_self, Bool.false_eq_true, if_false]

/-- A count that is written is the same count. -/
theorem Counts.written {least n : Nat} {data : Json} (counts : data.Counts least n) :
    data.written.Counts least n := by
  obtain ⟨x, rfl, whole, enough⟩ := counts
  obtain ⟨number, finite⟩ := Double.finite_of_whole whole
  refine ⟨plainNumber x, written_num number finite, ?_, enough⟩
  rw [wholeOf?_plain (plainNumber_plainNumber x), whole]

theorem counts_ofNat {least n : Nat} (small : n ≤ 2 ^ 53) (enough : least ≤ n) :
    (num (Float.ofNat n)).Counts least n :=
  ⟨_, rfl, Double.wholeOf?_ofNat small, enough⟩

theorem names_written {list : List Text}
    (named : ∀ name ∈ list, Check.isIdentifier name = true) :
    (TreeForm.names list).written.Names list := by
  refine ⟨_, rfl, ?_⟩
  induction list with
  | nil => exact .nil
  | cons name rest ih =>
      obtain ⟨first, others⟩ := List.forall_mem_cons.mp named
      exact .cons ⟨rfl, first⟩ (ih others)

theorem name?_written {name : Option Text}
    (named : ∀ t, name = some t → Check.isIdentifier t = true) :
    Maybe Named name (TreeForm.name? name).written := by
  cases name with
  | none => rfl
  | some t => exact ⟨rfl, named t rfl⟩

end Json

/-! Nodes as they are written. -/

section

variable {kind : Text} {fields : List (Text × Json)} {loc : Location}

theorem written_node (placed : loc.HasRoom 0) (absent : Table.find? "loc" fields = none) :
    (node kind fields loc).written.IsNode kind loc := by
  obtain ⟨first, room⟩ := placed
  have place : (node kind fields loc).field? "loc" =
      some (.obj [("line", .num (Float.ofNat loc.line)),
        ("column", .num (Float.ofNat loc.column))]) := by
    show Table.find? "loc" (fields ++ _) = _
    rw [find?_append, absent]
    rfl
  have line : (Json.num (Float.ofNat loc.line)).Counts 1 loc.line :=
    Json.counts_ofNat (by omega) first
  have column : (Json.num (Float.ofNat loc.column)).Counts 0 loc.column :=
    Json.counts_ofNat (by omega) (Nat.zero_le _)
  exact ⟨Json.written_has_iff.mpr ⟨_, rfl, rfl⟩,
    Json.written_has_iff.mpr ⟨_, place, Json.written_has_iff.mpr ⟨_, rfl, line.written⟩,
      Json.written_has_iff.mpr ⟨_, rfl, column.written⟩⟩⟩

theorem written_has {key : Text} {value : Json} {describes : Json → Prop}
    (other : Text.ofString "type" ≠ key) (found : Table.find? key fields = some value)
    (holds : describes value.written) : (node kind fields loc).written.Has key describes :=
  Json.written_has_iff.mpr (node_has other found holds)

end

/-- Zeros without a sign. -/
def Revision.plain : Revision := ⟨plainNumber, id⟩

open List (forall_mem_append)

theorem Branch.allRevised_ne_nil {r : Revision} {branches : List Branch} (filled : branches ≠ []) :
    Branch.allRevised r branches ≠ [] := by
  cases branches with
  | nil => exact absurd rfl filled
  | cons branch rest =>
      cases branch
      exact List.cons_ne_nil _ _

theorem written_procedure {params uses : List Text} {body : Block} {site : Site} {data tree : Json}
    (formed : Procedure.WellFormed ⟨params, uses, body, site⟩)
    (first : data.Has "params" (· = (names params).written))
    (second : data.Has "uses" (· = (names uses).written)) (third : data.Has "body" (· = tree))
    (inner : (body.revised .plain).DescribedBy tree) :
    (Procedure.revised .plain ⟨params, uses, body, site⟩).DescribedBy data := by
  obtain ⟨unplaced, named, shared, _⟩ := formed
  refine ⟨unplaced, first.mono ?_, second.mono ?_, third.mono ?_⟩
  · rintro _ rfl
    exact Json.names_written named
  · rintro _ rfl
    exact Json.names_written shared
  · rintro _ rfl
    exact inner

mutual

/-- A well-formed expression of finite numbers is read from its written form, but for the
signs of zeros. -/
theorem Expr.described_written (e : Expr) (formed : e.WellFormed)
    (finite : ∀ x ∈ e.literals, x.isInf = false) :
    (e.revised .plain).DescribedBy (e.toTree .num).written := by
  match e with
  | .number value loc =>
      obtain ⟨place, number⟩ := formed
      have bounded := finite value (List.mem_singleton_self value)
      have looks := plainNumber_plainNumber value
      refine ⟨written_node place rfl, written_has (by decide) rfl
        ⟨Json.written_num number bounded, ?_, ?_⟩⟩
      · exact (isInf_plain looks).trans bounded
      · exact (isNaN_plain looks).trans number
  | .bool value loc => exact ⟨written_node formed rfl, written_has (by decide) rfl rfl⟩
  | .null loc => exact written_node formed rfl
  | .string segments loc =>
      obtain ⟨place, inner⟩ := formed
      exact ⟨written_node place rfl, written_has (by decide) rfl
        ⟨_, rfl, Segment.allDescribed_written segments inner finite⟩⟩
  | .ident name loc =>
      obtain ⟨place, named⟩ := formed
      exact ⟨written_node place rfl, written_has (by decide) rfl ⟨rfl, named⟩⟩
  | .array elements loc =>
      obtain ⟨place, inner⟩ := formed
      exact ⟨written_node place rfl, written_has (by decide) rfl
        ⟨_, rfl, Expr.allDescribed_written elements inner finite⟩⟩
  | .hash entries loc =>
      obtain ⟨place, inner⟩ := formed
      exact ⟨written_node place rfl, written_has (by decide) rfl
        ⟨_, rfl, Entry.allDescribed_written entries inner finite⟩⟩
  | .new entries hashLoc loc =>
      obtain ⟨place, hashPlace, inner⟩ := formed
      exact ⟨written_node place rfl, written_has (by decide) rfl ⟨written_node hashPlace rfl,
        written_has (by decide) rfl ⟨_, rfl, Entry.allDescribed_written entries inner finite⟩⟩⟩
  | .ref container name loc =>
      obtain ⟨place, named, within⟩ := formed
      exact ⟨written_node place rfl, written_has (by decide) rfl ⟨rfl, named⟩,
        written_has (by decide) rfl (Json.name?_written within)⟩
  | .lambda ⟨params, uses, body, site⟩ loc =>
      obtain ⟨place, inner⟩ := formed
      exact ⟨written_node place rfl,
        written_procedure inner (written_has (by decide) rfl rfl) (written_has (by decide) rfl rfl)
          (written_has (by decide) rfl rfl) (body.described_written inner.2.2.2 finite)⟩
  | .call callee args loc =>
      obtain ⟨place, called, given⟩ := formed
      obtain ⟨first, second⟩ := forall_mem_append.mp finite
      exact ⟨written_node place rfl,
        written_has (by decide) rfl (callee.described_written called first),
        written_has (by decide) rfl ⟨_, rfl, Expr.allDescribed_written args given second⟩⟩
  | .field object name loc =>
      obtain ⟨place, held, named⟩ := formed
      exact ⟨written_node place rfl,
        written_has (by decide) rfl (object.described_written held finite),
        written_has (by decide) rfl ⟨rfl, named⟩⟩
  | .index object position loc =>
      obtain ⟨place, held, at_⟩ := formed
      obtain ⟨first, second⟩ := forall_mem_append.mp finite
      exact ⟨written_node place rfl,
        written_has (by decide) rfl (object.described_written held first),
        written_has (by decide) rfl (position.described_written at_ second)⟩
  | .choice condition consequent alternate loc =>
      obtain ⟨place, asked, taken, other⟩ := formed
      obtain ⟨first, rest⟩ := forall_mem_append.mp finite
      obtain ⟨second, third⟩ := forall_mem_append.mp rest
      exact ⟨written_node place rfl,
        written_has (by decide) rfl (condition.described_written asked first),
        written_has (by decide) rfl (consequent.described_written taken second),
        written_has (by decide) rfl (alternate.described_written other third)⟩
  | .unary op operand loc =>
      obtain ⟨place, held⟩ := formed
      exact ⟨written_node place rfl, written_has (by decide) rfl rfl,
        written_has (by decide) rfl (operand.described_written held finite)⟩
  | .binary op left right loc =>
      obtain ⟨place, one, other⟩ := formed
      obtain ⟨first, second⟩ := forall_mem_append.mp finite
      exact ⟨written_node place rfl, written_has (by decide) rfl rfl,
        written_has (by decide) rfl (left.described_written one first),
        written_has (by decide) rfl (right.described_written other second)⟩

theorem Expr.allDescribed_written (list : List Expr) (formed : Expr.AllWellFormed list)
    (finite : ∀ x ∈ Expr.allLiterals list, x.isInf = false) :
    Expr.AllDescribedBy (Expr.allRevised .plain list)
      (Json.writtenItems (Expr.allToTree .num list)) := by
  match list with
  | [] => rfl
  | e :: rest =>
      obtain ⟨first, second⟩ := forall_mem_append.mp finite
      exact ⟨_, _, rfl, e.described_written formed.1 first,
        Expr.allDescribed_written rest formed.2 second⟩

theorem Segment.allDescribed_written (list : List Segment) (formed : Segment.AllWellFormed list)
    (finite : ∀ x ∈ Segment.allLiterals list, x.isInf = false) :
    Segment.AllDescribedBy (Segment.allRevised .plain list)
      (Json.writtenItems (Segment.allToTree .num list)) := by
  match list with
  | [] => rfl
  | .text value :: rest =>
      exact ⟨_, _, rfl, ⟨⟨_, rfl, rfl⟩, _, rfl, rfl⟩,
        Segment.allDescribed_written rest formed finite⟩
  | .code value :: rest =>
      obtain ⟨first, second⟩ := forall_mem_append.mp finite
      exact ⟨_, _, rfl, ⟨⟨_, rfl, rfl⟩, _, rfl, value.described_written formed.1 first⟩,
        Segment.allDescribed_written rest formed.2 second⟩

theorem Entry.allDescribed_written (list : List Entry) (formed : Entry.AllWellFormed list)
    (finite : ∀ x ∈ Entry.allLiterals list, x.isInf = false) :
    Entry.AllDescribedBy (Entry.allRevised .plain list)
      (Json.writtenItems (Entry.allToTree .num list)) := by
  match list with
  | [] => rfl
  | ⟨key, value⟩ :: rest =>
      obtain ⟨first, second⟩ := forall_mem_append.mp finite
      exact ⟨_, _, rfl, ⟨⟨_, rfl, rfl⟩, _, rfl, value.described_written formed.1 first⟩,
        Entry.allDescribed_written rest formed.2 second⟩

theorem Block.described_written (block : Block) (formed : block.WellFormed)
    (finite : ∀ x ∈ block.literals, x.isInf = false) :
    (block.revised .plain).DescribedBy (block.toTree .num).written := by
  match block with
  | ⟨statements, loc⟩ =>
      exact ⟨written_node formed.1 rfl, written_has (by decide) rfl
        ⟨_, rfl, Stmt.allDescribed_written statements formed.2 finite⟩⟩

theorem Target.described_written (target : Target) (formed : target.WellFormed)
    (finite : ∀ x ∈ target.literals, x.isInf = false) :
    (target.revised .plain).DescribedBy (target.toTree .num).written := by
  match target with
  | .ident name loc =>
      obtain ⟨place, named⟩ := formed
      exact ⟨written_node place rfl, written_has (by decide) rfl ⟨rfl, named⟩⟩
  | .field object name loc =>
      obtain ⟨place, held, named⟩ := formed
      exact ⟨written_node place rfl,
        written_has (by decide) rfl (object.described_written held finite),
        written_has (by decide) rfl ⟨rfl, named⟩⟩
  | .index object position loc =>
      obtain ⟨place, held, at_⟩ := formed
      obtain ⟨first, second⟩ := forall_mem_append.mp finite
      exact ⟨written_node place rfl,
        written_has (by decide) rfl (object.described_written held first),
        written_has (by decide) rfl (position.described_written at_ second)⟩

theorem Branch.allDescribed_written (list : List Branch) (formed : Branch.AllWellFormed list)
    (finite : ∀ x ∈ Branch.allLiterals list, x.isInf = false) :
    Branch.AllDescribedBy (Branch.allRevised .plain list)
      (Json.writtenItems (Branch.allToTree .num list)) := by
  match list with
  | [] => rfl
  | ⟨condition, body⟩ :: rest =>
      obtain ⟨asked, inner, others⟩ := formed
      obtain ⟨first, remaining⟩ := forall_mem_append.mp finite
      obtain ⟨second, third⟩ := forall_mem_append.mp remaining
      exact ⟨_, _, rfl, ⟨⟨_, rfl, condition.described_written asked first⟩, _, rfl,
          body.described_written inner second⟩,
        Branch.allDescribed_written rest others third⟩

theorem Stmt.described_written (s : Stmt) (formed : s.WellFormed)
    (finite : ∀ x ∈ s.literals, x.isInf = false) :
    (s.revised .plain).DescribedBy (s.toTree .num).written := by
  match s with
  | .define name ⟨params, uses, body, site⟩ loc =>
      obtain ⟨place, named, inner⟩ := formed
      exact ⟨written_node place rfl, written_has (by decide) rfl ⟨rfl, named⟩,
        written_procedure inner (written_has (by decide) rfl rfl) (written_has (by decide) rfl rfl)
          (written_has (by decide) rfl rfl) (body.described_written inner.2.2.2 finite)⟩
  | .cond branches none loc =>
      obtain ⟨place, filled, inner⟩ := formed
      exact ⟨written_node place rfl, Branch.allRevised_ne_nil filled,
        written_has (by decide) rfl ⟨_, rfl, Branch.allDescribed_written branches inner finite⟩,
        written_has (by decide) rfl rfl⟩
  | .cond branches (some alternate) loc =>
      obtain ⟨place, filled, inner, other⟩ := formed
      obtain ⟨first, second⟩ := forall_mem_append.mp finite
      exact ⟨written_node place rfl, Branch.allRevised_ne_nil filled,
        written_has (by decide) rfl ⟨_, rfl, Branch.allDescribed_written branches inner first⟩,
        written_has (by decide) rfl (alternate.described_written other second)⟩
  | .forEach item subject body loc =>
      obtain ⟨place, named, each, inner⟩ := formed
      obtain ⟨first, second⟩ := forall_mem_append.mp finite
      exact ⟨written_node place rfl,
        written_has (by decide) rfl (subject.described_written each first),
        written_has (by decide) rfl ⟨rfl, named⟩,
        written_has (by decide) rfl (body.described_written inner second)⟩
  | .whileLoop condition body loc =>
      obtain ⟨place, asked, inner⟩ := formed
      obtain ⟨first, second⟩ := forall_mem_append.mp finite
      exact ⟨written_node place rfl,
        written_has (by decide) rfl (condition.described_written asked first),
        written_has (by decide) rfl (body.described_written inner second)⟩
  | .assign target op value loc =>
      obtain ⟨place, left, right⟩ := formed
      obtain ⟨first, second⟩ := forall_mem_append.mp finite
      exact ⟨written_node place rfl,
        written_has (by decide) rfl (target.described_written left first),
        written_has (by decide) rfl rfl,
        written_has (by decide) rfl (value.described_written right second)⟩
  | .use names loc =>
      obtain ⟨place, filled, named⟩ := formed
      exact ⟨written_node place rfl, filled,
        written_has (by decide) rfl (Json.names_written named)⟩
  | .giveBack none loc => exact ⟨written_node formed rfl, written_has (by decide) rfl rfl⟩
  | .giveBack (some value) loc =>
      exact ⟨written_node formed.1 rfl,
        written_has (by decide) rfl (value.described_written formed.2 finite)⟩
  | .emit value key loc =>
      obtain ⟨place, shown, named⟩ := formed
      exact ⟨written_node place rfl,
        written_has (by decide) rfl (value.described_written shown finite),
        written_has (by decide) rfl (Json.name?_written named)⟩
  | .imports native modules loc =>
      obtain ⟨place, filled, named⟩ := formed
      exact ⟨written_node place rfl, written_has (by decide) rfl rfl, filled,
        written_has (by decide) rfl (Json.names_written named)⟩
  | .leave depth loc =>
      obtain ⟨place, least, whole⟩ := formed
      have counts : (Json.num (Float.ofNat depth)).Counts 1 depth := ⟨_, rfl, whole, least⟩
      exact ⟨written_node place rfl, written_has (by decide) rfl counts.written⟩
  | .next depth loc =>
      obtain ⟨place, least, whole⟩ := formed
      have counts : (Json.num (Float.ofNat depth)).Counts 1 depth := ⟨_, rfl, whole, least⟩
      exact ⟨written_node place rfl, written_has (by decide) rfl counts.written⟩
  | .call callee args callLoc loc =>
      obtain ⟨place, callPlace, called, given⟩ := formed
      obtain ⟨first, second⟩ := forall_mem_append.mp finite
      exact ⟨written_node place rfl, written_has (by decide) rfl ⟨written_node callPlace rfl,
        written_has (by decide) rfl (callee.described_written called first),
        written_has (by decide) rfl ⟨_, rfl, Expr.allDescribed_written args given second⟩⟩⟩

theorem Stmt.allDescribed_written (list : List Stmt) (formed : Stmt.AllWellFormed list)
    (finite : ∀ x ∈ Stmt.allLiterals list, x.isInf = false) :
    Stmt.AllDescribedBy (Stmt.allRevised .plain list)
      (Json.writtenItems (Stmt.allToTree .num list)) := by
  match list with
  | [] => rfl
  | s :: rest =>
      obtain ⟨first, second⟩ := forall_mem_append.mp finite
      exact ⟨_, _, rfl, s.described_written formed.1 first,
        Stmt.allDescribed_written rest formed.2 second⟩

end

theorem Program.described_written (program : Program) (formed : program.WellFormed)
    (finite : ∀ x ∈ program.literals, x.isInf = false) :
    (program.revised .plain).DescribedBy (program.toTree .num).written :=
  ⟨written_node formed.1 rfl, written_has (by decide) rfl ⟨_, rfl,
    (Stmt.allDescribedBy_iff _ _).mp
      (Stmt.allDescribed_written program.statements formed.2 finite)⟩⟩

end Loom
