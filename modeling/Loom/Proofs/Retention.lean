import Loom.Proofs.Closed.Run
import Loom.Proofs.Confinement
import Loom.Proofs.OrderedHash

/-!
What a run does not take back. Whether it succeeds or fails, the names that were bound are
bound afterwards, the modules that were kept are kept, and arrays and hashes keep their
places. Control is where it was, so that the next run finds everything ready.
-/

namespace Loom

open Eval Interpreter

theorem Table.keys_prefix_insert {α : Type} (key : Text) (value : α) (table : Table α) :
    table.keys <+: (Table.insert key value table).keys := by
  rw [Table.keys_insert]
  split
  · exact List.prefix_refl _
  · exact List.prefix_append _ _

namespace ScopeTree

/-- Every scope still binds the names that it bound, in their order. -/
def KeepsNames (tree after : ScopeTree) : Prop :=
  ∀ id, tree.localNames id <+: after.localNames id

theorem keepsNames_refl (tree : ScopeTree) : tree.KeepsNames tree := fun _ => List.prefix_refl _

variable {tree middle after : ScopeTree}

theorem KeepsNames.trans (first : tree.KeepsNames middle) (second : middle.KeepsNames after) :
    tree.KeepsNames after := fun id => (first id).trans (second id)

theorem keepsNames_pushScope (tree : ScopeTree) (parent : Option Nat) (kind : ScopeKind)
    (there : ∀ p ∈ parent, p < tree.scopes.size) :
    tree.KeepsNames (tree.pushScope parent kind there) := by
  intro id
  rw [localNames, localNames, scope_pushScope]
  split
  · rename_i last
    have none : Table.keys (tree.scope id).cells = [] := by
      simp [scope, Scope.at, last, Table.keys]
    exact none ▸ List.nil_prefix
  · exact List.prefix_refl _

theorem keepsNames_bind (tree : ScopeTree) (id : Nat) (name : Text) (cell : Nat)
    (takes : tree.Takes cell name) : tree.KeepsNames (tree.bind id name cell takes) := by
  intro other
  simp only [localNames, scope, Scope.at, bind, getD_modify]
  split
  · exact Table.keys_prefix_insert _ _ _
  · exact List.prefix_refl _

theorem keepsNames_define (tree : ScopeTree) (id : Nat) (name : Text) (v : Value) :
    tree.KeepsNames (tree.define id name v) :=
  (tree.pushCell v).keepsNames_bind id name _ _

theorem keepsNames_share (tree : ScopeTree) (id : Nat) (name : Text) :
    tree.KeepsNames (tree.share id name) := by
  unfold share
  split
  · exact tree.keepsNames_bind _ _ _ _
  · exact (tree.keepsNames_define _ name .null).trans (keepsNames_bind _ _ _ _ _)

theorem keepsNames_declare (tree : ScopeTree) (id : Nat) (name : Text) (first? : Option Value) :
    tree.KeepsNames (tree.declare id name first?).2 := by
  unfold declare
  cases tree.lookup? id name with
  | some known => cases first? <;> exact tree.keepsNames_refl
  | none => cases first? <;> exact tree.keepsNames_define id name .null

theorem keepsNames_of_writes {scope : Nat} (writes : tree.Writes scope after) :
    tree.KeepsNames after := by
  cases writes with
  | define name v => exact tree.keepsNames_define scope name v
  | assign name v =>
      unfold ScopeTree.assign
      split
      · exact tree.keepsNames_refl
      · exact tree.keepsNames_define _ name v
  | share name => exact tree.keepsNames_share scope name
  | declare name first? => exact tree.keepsNames_declare _ name first?

theorem LeadsTo.keepsNames (leads : tree.LeadsTo after) : tree.KeepsNames after := by
  induction leads with
  | none tree => exact tree.keepsNames_refl
  | scope tree parent kind there => exact tree.keepsNames_pushScope parent kind there
  | writes scope writes => exact keepsNames_of_writes writes
  | andThen _ _ first second => exact first.trans second

end ScopeTree

namespace State

/-- Which variables the host shares, and which modules are kept, is still known. -/
structure KeepsTables (s t : State) : Prop where
  shared : s.shared.keys <+: t.shared.keys
  natives : s.nativeCache.keys <+: t.nativeCache.keys
  modules : ∀ path v, Table.find? path s.moduleCache = some v →
    Table.find? path t.moduleCache = some v

theorem keepsTables_of_same {s t : State} (shared : t.shared = s.shared)
    (natives : t.nativeCache = s.nativeCache) (modules : t.moduleCache = s.moduleCache) :
    s.KeepsTables t :=
  ⟨shared ▸ List.prefix_refl _, natives ▸ List.prefix_refl _, fun _ _ found => modules ▸ found⟩

theorem KeepsTables.trans {s t u : State} (first : s.KeepsTables t) (second : t.KeepsTables u) :
    s.KeepsTables u :=
  ⟨first.shared.trans second.shared, first.natives.trans second.natives,
    fun path v found => second.modules path v (first.modules path v found)⟩

/-- A module that was not kept before takes the place of none. -/
theorem KeepsTables.keeping {s t : State} {path : Text}
    (new : Table.find? path s.moduleCache = none) (inner : s.KeepsTables t) (heap : Heap)
    (place : Nat) : s.KeepsTables (t.keeping path heap place) where
  shared := inner.shared
  natives := inner.natives
  modules other v found := by
    have apart : path ≠ other := by
      rintro rfl
      cases new.symm.trans found
    exact (Table.find?_insert path other (.hash place) t.moduleCache).trans
      ((if_neg apart).trans (inner.modules other v found))

/-- What a later state still has of an earlier one. -/
structure Retains (s t : State) : Prop where
  globals : t.globals = s.globals
  names : s.scopes.KeepsNames t.scopes
  tables : s.KeepsTables t
  heap : s.heap.Spans t.heap
  grown : s.Grows t
  control : s.SameControl t

end State

theorem keepsTables_of_chain {terms : Terms} {base : Nat} {part : Part} {s t : State}
    (chain : Chain terms base part s t) : s.KeepsTables t := by
  have same (u : State) : u.KeepsTables u := State.keepsTables_of_same rfl rfl rfl
  induction chain with
  | andThen _ _ first second => exact first.trans second
  | data _ _ _ sources =>
      exact State.keepsTables_of_same sources.shared sources.natives sources.modules
  | declare s scope name first? _ _ =>
      exact ⟨Table.keys_prefix_insert _ _ _, (same s).natives, (same s).modules⟩
  | native s name v => exact ⟨(same s).shared, Table.keys_prefix_insert _ _ _, (same s).modules⟩
  | opened s name _ _ heap v =>
      exact ⟨(same s).shared, Table.keys_prefix_insert _ _ _, (same s).modules⟩
  | inFile s t file _ inner => exact ⟨inner.shared, inner.natives, inner.modules⟩
  | inCall s t _ inner => exact ⟨inner.shared, inner.natives, inner.modules⟩
  | broken s t path _ _ _ _ inner => exact ⟨inner.shared, inner.natives, inner.modules⟩
  | loaded s t path _ _ new heap place _ inner =>
      have kept : s.KeepsTables t := ⟨inner.shared, inner.natives, inner.modules⟩
      exact kept.keeping new heap place
  | handled _ _ inner => exact inner
  | whileRunning s t loop _ _ _ inner => exact ⟨inner.shared, inner.natives, inner.modules⟩
  | _ => exact State.keepsTables_of_same rfl rfl rfl

/-- Text that cannot be read does nothing. -/
theorem runSource_of_error {i : Interpreter} {source : Text} {file : Option Text} {d : Diagnostic}
    (failed : parseFile source file = .error d) :
    i.runSource source file = (.error (.failed (.program d)), i) := by
  simp only [runSource, serve, failed]

/-- Text that can be read does what its program does, as far as that comes. -/
theorem runSource_of_ok {i : Interpreter} {source : Text} {file : Option Text} {program : Program}
    (read : parseFile source file = .ok program) :
    (i.runSource source file).2 =
      { i with state := Eval.after (runRead (ordinary i.host) program file) i.state } := by
  simp only [runSource, serve, read, Discipline.step_eq]

/-- A program that is run takes nothing back, however it ends. -/
theorem retains_runRead {i : Interpreter} (closed : i.state.Closed) (program : Program)
    (file : Option Text) :
    i.state.Retains (Eval.after (runRead (ordinary i.host) program file) i.state) := by
  have ensured : Discipline.free.Ensures 0 i.state (runRead (ordinary i.host) program file) _ :=
    Discipline.ensures_runRead (Discipline.obeys_free i.host _) program.placed_of_lenient
      fun asked => asked.elim
  have effect := effect_of_ensures ensured (Nat.zero_le _)
  have kept := stays_runRead (Machine.closes_of i.host defaultFuel) program file i.state
    (Heap.spans_refl _) closed
  refine ⟨effect_globals effect, (leadsTo_of_chain effect).keepsNames,
    keepsTables_of_chain effect, ?_, effect_grows effect, effect_same_control effect⟩
  unfold Eval.after
  cases ran : runRead (ordinary i.host) program file i.state with
  | ok a t => exact (ran ▸ kept : Kept Any i.state (.ok a t)).1
  | error e t => exact (ran ▸ kept : Kept Any i.state (.error e t)).1

theorem State.retains_refl (s : State) : s.Retains s :=
  ⟨rfl, s.scopes.keepsNames_refl, State.keepsTables_of_same rfl rfl rfl, Heap.spans_refl _,
    State.grows_refl s, State.same_control_of rfl rfl rfl rfl⟩

theorem retains_runSource {i : Interpreter} (closed : i.state.Closed) (source : Text)
    (file : Option Text) : i.state.Retains (i.runSource source file).2.state := by
  cases read : parseFile source file with
  | ok program =>
      rw [runSource_of_ok read]
      exact retains_runRead closed program file
  | error d =>
      rw [runSource_of_error read]
      exact i.state.retains_refl

end Loom
