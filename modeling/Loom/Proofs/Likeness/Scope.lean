import Loom.Proofs.Likeness.Value
import Loom.Proofs.Scoping

/-!
Scopes behind others that were there before. The scopes of the other run hang below each
other as those of this one do, and none of them below one from before; so a name leads up
the same way, to the cell that is as far behind the others.
-/

namespace Loom

namespace Table

variable {α β : Type} (f : α → β)

/-- A table of what is made of the values of another. -/
def mapped (table : Table α) : Table β := table.map (fun entry => (entry.1, f entry.2))

theorem find?_mapped (key : Text) (table : Table α) :
    find? key (mapped f table) = (find? key table).map f := by
  induction table with
  | nil => rfl
  | cons entry rest ih =>
      obtain ⟨k, a⟩ := entry
      simp only [mapped, List.map_cons, find?] at ih ⊢
      split
      · rfl
      · exact ih

theorem insert_mapped (key : Text) (a : α) (table : Table α) :
    insert key (f a) (mapped f table) = mapped f (insert key a table) := by
  induction table with
  | nil => rfl
  | cons entry rest ih =>
      obtain ⟨k, b⟩ := entry
      simp only [mapped, insert, List.map_cons] at ih ⊢
      split
      · rfl
      · simp only [List.map_cons, ih]

theorem keys_mapped (table : Table α) : keys (mapped f table) = keys table := by
  simp [mapped, keys]

end Table

/-- A scope as the other run has it. -/
def Scope.behind (l : Likeness) (s : Scope) : Scope :=
  ⟨s.parent.map (l.before.scopes + ·), s.kind, Table.mapped (l.before.cells + ·) s.cells⟩

/-- Scopes in front of which others were there. -/
structure ScopeTree.Like (l : Likeness) (tree other : ScopeTree) : Prop where
  size : other.scopes.size = l.before.scopes + tree.scopes.size
  scope : ∀ id, other.scope (l.before.scopes + id) = (tree.scope id).behind l
  cells : other.cells.size = l.before.cells + tree.cells.size
  read : ∀ cell, Value.Like l (tree.read cell) (other.read (l.before.cells + cell))

namespace ScopeTree.Like

variable {l : Likeness} {tree other : ScopeTree} (same : tree.Like l other)
include same

theorem parent_eq (id : Nat) : (other.scope (l.before.scopes + id)).parent =
    (tree.scope id).parent.map (l.before.scopes + ·) := by
  rw [same.scope]
  rfl

theorem kind_eq (id : Nat) :
    (other.scope (l.before.scopes + id)).kind = (tree.scope id).kind := by
  rw [same.scope]
  rfl

theorem localCell?_eq (id : Nat) (name : Text) :
    other.localCell? (l.before.scopes + id) name =
      (tree.localCell? id name).map (l.before.cells + ·) := by
  show Table.find? name (other.scope (l.before.scopes + id)).cells = _
  rw [same.scope]
  exact Table.find?_mapped _ name (tree.scope id).cells

theorem localNames_eq (id : Nat) :
    other.localNames (l.before.scopes + id) = tree.localNames id := by
  rw [localNames, same.scope]
  exact Table.keys_mapped _ (tree.scope id).cells

theorem isBlock_eq (id : Nat) : other.isBlock (l.before.scopes + id) = tree.isBlock id := by
  rw [isBlock, same.kind_eq, isBlock]

/-- By induction on the way up: it never comes to a scope from before. -/
theorem chain_eq (id : Nat) :
    other.chain (l.before.scopes + id) = (tree.chain id).map (l.before.scopes + ·) := by
  induction id using tree.upward with
  | step id ih =>
      have parent := same.parent_eq id
      cases above : (tree.scope id).parent with
      | none =>
          rw [above] at parent
          rw [other.chain_of_top parent, tree.chain_of_top above]
          rfl
      | some p =>
          rw [above] at parent
          rw [other.chain_of_parent parent, tree.chain_of_parent above, ih p above]
          rfl

theorem reach_eq (ids : List Nat) :
    other.reach (ids.map (l.before.scopes + ·)) = (tree.reach ids).map (l.before.scopes + ·) := by
  induction ids with
  | nil => rfl
  | cons id above ih =>
      simp only [List.map_cons, reach, same.isBlock_eq, ih]
      split <;> rfl

theorem reached_eq (id : Nat) : other.reach (other.chain (l.before.scopes + id)) =
    (tree.reach (tree.chain id)).map (l.before.scopes + ·) := by
  rw [same.chain_eq, same.reach_eq]

/-- The first of some scopes that binds a name binds it to the same cell. -/
theorem findSome?_eq (ids : List Nat) (name : Text) :
    (ids.map (l.before.scopes + ·)).findSome? (fun s => other.localCell? s name) =
      (ids.findSome? (fun s => tree.localCell? s name)).map (l.before.cells + ·) := by
  induction ids with
  | nil => rfl
  | cons id above ih =>
      simp only [List.map_cons, List.findSome?_cons, same.localCell?_eq, ih]
      cases tree.localCell? id name <;> rfl

theorem lookup?_eq (id : Nat) (name : Text) :
    other.lookup? (l.before.scopes + id) name =
      (tree.lookup? id name).map (l.before.cells + ·) := by
  rw [lookup?, same.chain_eq]
  exact same.findSome?_eq (tree.chain id) name

theorem owner_eq (id : Nat) :
    other.owner (l.before.scopes + id) = l.before.scopes + tree.owner id := by
  rw [owner, same.reached_eq, List.getLast?_map, owner]
  cases (tree.reach (tree.chain id)).getLast? <;> rfl

theorem root_eq (id : Nat) :
    other.root (l.before.scopes + id) = l.before.scopes + tree.root id := by
  rw [root, same.chain_eq, List.getLast?_map, root]
  cases (tree.chain id).getLast? <;> rfl

theorem known?_eq (id : Nat) : other.known? (l.before.scopes + id) =
    (tree.known? id).map (l.before.scopes + ·) := by
  simp only [known?, same.size, Nat.add_lt_add_iff_left]
  split <;> rfl

theorem outerCell?_eq (id : Nat) (name : Text) :
    other.outerCell? (l.before.scopes + id) name =
      (tree.outerCell? id name).map (l.before.cells + ·) := by
  rw [outerCell?, same.owner_eq, same.parent_eq, outerCell?]
  cases (tree.scope (tree.owner id)).parent with
  | none => rfl
  | some p => exact same.lookup?_eq p name

theorem hidesOuter_eq (id : Nat) (name : Text) :
    other.hidesOuter (l.before.scopes + id) name = tree.hidesOuter id name := by
  simp only [hidesOuter, same.owner_eq, same.localCell?_eq, same.outerCell?_eq]
  cases tree.localCell? (tree.owner id) name <;> cases tree.outerCell? id name <;>
    simp [bne, Likeness.beq_shift]

theorem get? (id : Nat) (name : Text) :
    Option.Rel (Value.Like l) (tree.get? id name)
      (other.get? (l.before.scopes + id) name) := by
  simp only [ScopeTree.get?, same.lookup?_eq]
  cases tree.lookup? id name with
  | none => exact .none
  | some cell => exact .some (same.read cell)

theorem has_eq (id : Nat) (name : Text) :
    other.has (l.before.scopes + id) name = tree.has id name := by
  rw [has, same.lookup?_eq, has, Option.isSome_map]

/-! Changes. -/

theorem pushScope {parent parent' : Option Nat} (kind : ScopeKind)
    (there : ∀ p ∈ parent, p < tree.scopes.size) (there' : ∀ p ∈ parent', p < other.scopes.size)
    (above : parent' = parent.map (l.before.scopes + ·)) :
    (tree.pushScope parent kind there).Like l (other.pushScope parent' kind there') := by
  constructor
  case size => rw [pushScope_size, pushScope_size, same.size, Nat.add_assoc]
  case scope =>
    intro id
    rw [scope_pushScope, scope_pushScope, same.size]
    simp only [Nat.add_left_cancel_iff]
    split
    · rw [above]
      rfl
    · exact same.scope id
  case cells => exact same.cells
  case read => exact same.read

theorem newRoot : other.newRoot.1 = l.before.scopes + tree.newRoot.1 ∧
    tree.newRoot.2.Like l other.newRoot.2 :=
  ⟨same.size, same.pushScope .global (by simp) (by simp) rfl⟩

theorem child (id : Nat) (kind : ScopeKind) :
    (other.child (l.before.scopes + id) kind).1 = l.before.scopes + (tree.child id kind).1 ∧
      (tree.child id kind).2.Like l (other.child (l.before.scopes + id) kind).2 :=
  ⟨same.size, same.pushScope kind (tree.lt_size_of_known id) (other.lt_size_of_known _)
    (same.known?_eq id)⟩

theorem pushCell {v w : Value} (like : Value.Like l v w) :
    (tree.pushCell v).Like l (other.pushCell w) := by
  constructor
  case size => exact same.size
  case scope => exact same.scope
  case cells => simp only [ScopeTree.pushCell, Array.size_push, same.cells, Nat.add_assoc]
  case read =>
    intro cell
    simp only [ScopeTree.read, ScopeTree.pushCell, getD_push, same.cells,
      Nat.add_left_cancel_iff]
    split
    · exact like
    · exact same.read cell

theorem bind (id : Nat) (name : Text) {cell cell' : Nat} (bound : cell' = l.before.cells + cell)
    (takes : tree.Takes cell name) (takes' : other.Takes cell' name) :
    (tree.bind id name cell takes).Like l
      (other.bind (l.before.scopes + id) name cell' takes') := by
  constructor
  case size => rw [bind_size, bind_size, same.size]
  case scope =>
    intro place
    have scopes := same.scope place
    simp only [ScopeTree.scope] at scopes
    simp only [ScopeTree.scope, ScopeTree.bind, Scope.at, getD_modify, same.size,
      Nat.add_left_cancel_iff, Nat.add_lt_add_iff_left] at scopes ⊢
    split
    · rw [scopes, bound, Scope.behind, Table.insert_mapped]
      rfl
    · exact scopes
  case cells => exact same.cells
  case read => exact same.read

theorem define (id : Nat) (name : Text) {v w : Value} (like : Value.Like l v w) :
    (tree.define id name v).Like l (other.define (l.before.scopes + id) name w) :=
  (same.pushCell like).bind id name same.cells _ _

theorem write (cell : Nat) {v w : Value} (like : Value.Like l v w) :
    (tree.write cell v).Like l (other.write (l.before.cells + cell) w) := by
  constructor
  case size => exact same.size
  case scope => exact same.scope
  case cells => simpa [ScopeTree.write] using same.cells
  case read =>
    intro place
    by_cases hit : cell = place
    · subst hit
      have there := same.cells
      by_cases inside : cell < tree.cells.size
      · have inside' : l.before.cells + cell < other.cells.size := by omega
        simpa [ScopeTree.read, ScopeTree.write, Array.getD, inside, inside'] using like
      · have outside : ¬ l.before.cells + cell < other.cells.size := by omega
        simpa [ScopeTree.read, ScopeTree.write, Array.getD, inside, outside] using Value.Like.null
    · rw [read_write tree cell v place hit, read_write _ _ w _ (by omega)]
      exact same.read place

theorem assign (id : Nat) (name : Text) {v w : Value} (like : Value.Like l v w) :
    (tree.assign id name v).Like l (other.assign (l.before.scopes + id) name w) := by
  have found := same.findSome?_eq (tree.reach (tree.chain id)) name
  rw [← same.reached_eq] at found
  unfold ScopeTree.assign
  rw [found]
  cases (tree.reach (tree.chain id)).findSome? (fun s => tree.localCell? s name) with
  | some cell => exact same.write cell like
  | none =>
      have defined := same.define (tree.owner id) name like
      rw [← same.owner_eq] at defined
      exact defined

theorem share (id : Nat) (name : Text) :
    (tree.share id name).Like l (other.share (l.before.scopes + id) name) := by
  have outer := same.outerCell?_eq id name
  have owner := same.owner_eq id
  unfold ScopeTree.share
  split
  · rename_i cell found
    split
    · rename_i cell' found'
      rw [found, found'] at outer
      have bound : cell' = l.before.cells + cell := Option.some.inj outer
      have takes := other.takes_of_outerCell? _ name cell' found'
      have shared := same.bind (tree.owner id) name bound
        (tree.takes_of_outerCell? id name cell found) takes
      rw [← owner] at shared
      exact shared
    · rename_i none
      rw [found, none] at outer
      cases outer
  · rename_i nowhere
    split
    · rename_i cell' found'
      rw [nowhere, found'] at outer
      cases outer
    · have defined := same.define (tree.root id) name (v := .null) .null
      rw [← same.root_eq] at defined
      have takes := other.takes_define (other.root (l.before.scopes + id)) name .null
      have shared :=
        defined.bind (tree.owner id) name same.cells (tree.takes_define _ name .null) takes
      rw [← owner] at shared
      exact shared

theorem declare (id : Nat) (name : Text) {first? first?' : Option Value}
    (like : Option.Rel (Value.Like l) first? first?') :
    (other.declare (l.before.scopes + id) name first?').1 =
        l.before.cells + (tree.declare id name first?).1 ∧
      (tree.declare id name first?).2.Like l
        (other.declare (l.before.scopes + id) name first?').2 := by
  have defined := same.define id name (v := .null) .null
  simp only [ScopeTree.declare, same.lookup?_eq]
  cases tree.lookup? id name with
  | none =>
      cases like with
      | none => exact ⟨same.cells, defined⟩
      | some first =>
          have written := defined.write tree.cells.size first
          rw [← same.cells] at written
          exact ⟨same.cells, written⟩
  | some cell =>
      cases like with
      | none => exact ⟨rfl, same⟩
      | some first => exact ⟨rfl, same.write cell first⟩

end ScopeTree.Like

end Loom
