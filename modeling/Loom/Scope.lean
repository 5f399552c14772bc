import Loom.Value

/-!
Scopes. A scope binds names to cells; several names may share one cell. A name means the nearest
binding in the chain of a scope. A block hands what is assigned in it to its owner, the nearest
scope above that is not a block, and an assignment looks no further.
-/

namespace Loom

inductive ScopeKind where
  | global | function | block
  deriving DecidableEq, Repr

structure Scope where
  parent : Option Nat
  kind : ScopeKind
  cells : Table Nat

/-- Where there is no scope, an empty one that is no global scope. -/
def Scope.at (scopes : Array Scope) (id : Nat) : Scope := scopes.getD id ⟨none, .function, []⟩

def Scope.cellAt? (scopes : Array Scope) (id : Nat) (name : Text) : Option Nat :=
  Table.find? name (Scope.at scopes id).cells

/-- A scope's parent has a smaller number, a binding leads to a cell that is there, and a cell goes
by the same name wherever it is bound. -/
structure ScopeTree where
  scopes : Array Scope
  cells : Array Value
  below : ∀ id parent, (Scope.at scopes id).parent = some parent → parent < id
  bound : ∀ id name cell, Scope.cellAt? scopes id name = some cell → cell < cells.size
  named : ∀ id name other label cell, Scope.cellAt? scopes id name = some cell →
    Scope.cellAt? scopes other label = some cell → name = label

theorem Scope.cellAt?_push (scopes : Array Scope) (parent : Option Nat) (kind : ScopeKind)
    (id : Nat) (name : Text) :
    cellAt? (scopes.push ⟨parent, kind, []⟩) id name = cellAt? scopes id name := by
  simp only [cellAt?, Scope.at, getD_push]
  by_cases last : id = scopes.size
  · simp [last]
  · simp [last]

theorem Scope.parent_push (scopes : Array Scope) (parent : Option Nat) (kind : ScopeKind)
    (id : Nat) :
    (Scope.at (scopes.push ⟨parent, kind, []⟩) id).parent =
      if id = scopes.size then parent else (Scope.at scopes id).parent := by
  simp only [Scope.at, getD_push]
  split <;> rfl

theorem Scope.parent_bind (scopes : Array Scope) (id : Nat) (name : Text) (cell other : Nat) :
    (Scope.at (scopes.modify id (fun s => { s with cells := Table.insert name cell s.cells }))
      other).parent = (Scope.at scopes other).parent := by
  simp only [Scope.at, getD_modify]
  split <;> rfl

theorem Scope.cellAt?_bind (scopes : Array Scope) (id : Nat) (name : Text) (cell : Nat)
    (other : Nat) (label : Text) :
    cellAt? (scopes.modify id (fun s => { s with cells := Table.insert name cell s.cells }))
        other label =
      if other = id ∧ id < scopes.size ∧ label = name then some cell
      else cellAt? scopes other label := by
  simp only [cellAt?, Scope.at, getD_modify]
  by_cases here : other = id ∧ id < scopes.size
  · by_cases hit : label = name
    · simp [here, hit, Table.find?_insert]
    · simp [here, hit, Ne.symm hit, Table.find?_insert]
  · have elsewhere : ¬ (other = id ∧ id < scopes.size ∧ label = name) :=
      fun all => here ⟨all.1, all.2.1⟩
    simp [here, elsewhere]

namespace ScopeTree

def empty : ScopeTree :=
  { scopes := #[]
    cells := #[]
    below := by simp [Scope.at]
    bound := by simp [Scope.cellAt?, Scope.at, Table.find?]
    named := by simp [Scope.cellAt?, Scope.at, Table.find?] }

def scope (tree : ScopeTree) (id : Nat) : Scope := Scope.at tree.scopes id

def chainWithin (tree : ScopeTree) : (fuel : Nat) → (id : Nat) → List Nat
  | 0, id => [id]
  | fuel + 1, id =>
      match (tree.scope id).parent with
      | some parent => id :: tree.chainWithin fuel parent
      | none => [id]

def chain (tree : ScopeTree) (id : Nat) : List Nat :=
  -- a parent has a smaller number, so as many steps as the number reach the top
  tree.chainWithin id id

def localCell? (tree : ScopeTree) (id : Nat) (name : Text) : Option Nat :=
  Scope.cellAt? tree.scopes id name

def lookup? (tree : ScopeTree) (id : Nat) (name : Text) : Option Nat :=
  (tree.chain id).findSome? (fun s => tree.localCell? s name)

def read (tree : ScopeTree) (cell : Nat) : Value := tree.cells.getD cell .null

def write (tree : ScopeTree) (cell : Nat) (value : Value) : ScopeTree :=
  { tree with
    cells := tree.cells.setIfInBounds cell value
    bound := by simpa using tree.bound }

def get? (tree : ScopeTree) (id : Nat) (name : Text) : Option Value :=
  (tree.lookup? id name).map tree.read

def has (tree : ScopeTree) (id : Nat) (name : Text) : Bool := (tree.lookup? id name).isSome

def localNames (tree : ScopeTree) (id : Nat) : List Text := Table.keys (tree.scope id).cells

def isBlock (tree : ScopeTree) (id : Nat) : Bool := (tree.scope id).kind == .block

def reach (tree : ScopeTree) : List Nat → List Nat
  | [] => []
  | id :: above => if tree.isBlock id then id :: tree.reach above else [id]

def owner (tree : ScopeTree) (id : Nat) : Nat :=
  ((tree.reach (tree.chain id)).getLast?).getD id

def root (tree : ScopeTree) (id : Nat) : Nat := ((tree.chain id).getLast?).getD id

def pushScope (tree : ScopeTree) (parent : Option Nat) (kind : ScopeKind)
    (there : ∀ p ∈ parent, p < tree.scopes.size) : ScopeTree :=
  { tree with
    scopes := tree.scopes.push ⟨parent, kind, []⟩
    below := by
      intro id p above
      rw [Scope.parent_push] at above
      split at above
      · rename_i last
        exact last ▸ there p above
      · exact tree.below id p above
    bound := by simpa only [Scope.cellAt?_push] using tree.bound
    named := by simpa only [Scope.cellAt?_push] using tree.named }

def newRoot (tree : ScopeTree) : Nat × ScopeTree :=
  (tree.scopes.size, tree.pushScope none .global (by simp))

def known? (tree : ScopeTree) (id : Nat) : Option Nat :=
  if id < tree.scopes.size then some id else none

theorem known?_eq_some (tree : ScopeTree) (id p : Nat) :
    tree.known? id = some p ↔ id < tree.scopes.size ∧ id = p := by
  unfold known?
  split <;> simp [*]

theorem lt_size_of_known (tree : ScopeTree) (id : Nat) :
    ∀ p ∈ tree.known? id, p < tree.scopes.size := by
  intro p found
  obtain ⟨there, rfl⟩ := (tree.known?_eq_some id p).mp found
  exact there

def child (tree : ScopeTree) (id : Nat) (kind : ScopeKind) : Nat × ScopeTree :=
  (tree.scopes.size, tree.pushScope (tree.known? id) kind (tree.lt_size_of_known id))

def pushCell (tree : ScopeTree) (value : Value) : ScopeTree :=
  { tree with
    cells := tree.cells.push value
    bound := fun id name cell found => by
      simpa using Nat.lt_succ_of_lt (tree.bound id name cell found) }

/-- Whether a cell is there and bound to no name but one. -/
def Takes (tree : ScopeTree) (cell : Nat) (name : Text) : Prop :=
  cell < tree.cells.size ∧ ∀ id label, tree.localCell? id label = some cell → label = name

def bind (tree : ScopeTree) (id : Nat) (name : Text) (cell : Nat) (takes : tree.Takes cell name) :
    ScopeTree :=
  { tree with
    scopes := tree.scopes.modify id (fun s => { s with cells := Table.insert name cell s.cells })
    below := by simpa only [Scope.parent_bind] using tree.below
    bound := by
      intro other label found hit
      rw [Scope.cellAt?_bind] at hit
      split at hit
      · cases hit
        exact takes.1
      · exact tree.bound other label found hit
    named := by
      intro first left second right found hit hit'
      rw [Scope.cellAt?_bind] at hit hit'
      split at hit
      · rename_i bound
        cases hit
        split at hit'
        · rename_i bound'
          exact bound.2.2.trans bound'.2.2.symm
        · exact bound.2.2.trans (takes.2 second right hit').symm
      · split at hit'
        · rename_i bound'
          cases hit'
          exact (takes.2 first left hit).trans bound'.2.2.symm
        · exact tree.named first left second right found hit hit' }

theorem takes_pushCell (tree : ScopeTree) (value : Value) (name : Text) :
    (tree.pushCell value).Takes tree.cells.size name := by
  constructor
  · simp [pushCell]
  · intro id label found
    exact absurd (tree.bound id label _ found) (Nat.lt_irrefl _)

def define (tree : ScopeTree) (id : Nat) (name : Text) (value : Value) : ScopeTree :=
  (tree.pushCell value).bind id name tree.cells.size (tree.takes_pushCell value name)

/-- A name that has no cell within reach becomes a new variable of the owner. -/
def assign (tree : ScopeTree) (id : Nat) (name : Text) (value : Value) : ScopeTree :=
  match (tree.reach (tree.chain id)).findSome? (fun s => tree.localCell? s name) with
  | some cell => tree.write cell value
  | none => tree.define (tree.owner id) name value

def outerCell? (tree : ScopeTree) (id : Nat) (name : Text) : Option Nat :=
  (tree.scope (tree.owner id)).parent.bind (fun parent => tree.lookup? parent name)

/-- Whether a variable of the owner's own stands in the way of an outer one. -/
def hidesOuter (tree : ScopeTree) (id : Nat) (name : Text) : Bool :=
  let own? := tree.localCell? (tree.owner id) name
  -- a name shared before is bound to the outer cell itself and hides nothing
  own?.isSome && own? != tree.outerCell? id name

theorem takes_of_localCell? (tree : ScopeTree) (id : Nat) (name : Text) (cell : Nat)
    (found : tree.localCell? id name = some cell) : tree.Takes cell name :=
  ⟨tree.bound id name cell found, fun other label hit =>
    tree.named other label id name cell hit found⟩

theorem takes_of_lookup? (tree : ScopeTree) (id : Nat) (name : Text) (cell : Nat)
    (found : tree.lookup? id name = some cell) : tree.Takes cell name := by
  obtain ⟨holder, _, hit⟩ := List.exists_of_findSome?_eq_some found
  exact tree.takes_of_localCell? holder name cell hit

theorem takes_of_outerCell? (tree : ScopeTree) (id : Nat) (name : Text) (cell : Nat)
    (found : tree.outerCell? id name = some cell) : tree.Takes cell name := by
  obtain ⟨parent, _, hit⟩ := Option.bind_eq_some_iff.mp found
  exact tree.takes_of_lookup? parent name cell hit

theorem takes_define (tree : ScopeTree) (id : Nat) (name : Text) (value : Value) :
    (tree.define id name value).Takes tree.cells.size name := by
  constructor
  · simp [define, bind, pushCell]
  · intro other label found
    simp only [define, bind, pushCell, localCell?, Scope.cellAt?_bind] at found
    split at found
    · rename_i hit
      exact hit.2.2
    · exact absurd (tree.bound other label _ found) (Nat.lt_irrefl _)

/-- A name bound nowhere outside becomes a global variable that holds null. -/
def share (tree : ScopeTree) (id : Nat) (name : Text) : ScopeTree :=
  match found : tree.outerCell? id name with
  | some cell => tree.bind (tree.owner id) name cell (tree.takes_of_outerCell? id name cell found)
  | none =>
      -- the new variable has the next free cell, which the owner then takes too
      (tree.define (tree.root id) name .null).bind (tree.owner id) name tree.cells.size
        (tree.takes_define (tree.root id) name .null)

def shareOuter (tree : ScopeTree) (id : Nat) (name : Text) : Except RuntimeFault ScopeTree :=
  if tree.hidesOuter id name then .error (.alreadyLocal name) else .ok (tree.share id name)

def declare (tree : ScopeTree) (id : Nat) (name : Text) (first? : Option Value) :
    Nat × ScopeTree :=
  let ⟨cell, tree⟩ := match tree.lookup? id name with
    | some cell => (cell, tree)
    | none => (tree.cells.size, tree.define id name .null)
  match first? with
  | some value => (cell, tree.write cell value)
  | none => (cell, tree)

@[simp]
theorem write_scopes (tree : ScopeTree) (cell : Nat) (value : Value) :
    (tree.write cell value).scopes = tree.scopes := rfl

@[simp]
theorem bind_size (tree : ScopeTree) (id : Nat) (name : Text) (cell : Nat)
    (takes : tree.Takes cell name) :
    (tree.bind id name cell takes).scopes.size = tree.scopes.size := by
  simp [bind]

@[simp]
theorem define_size (tree : ScopeTree) (id : Nat) (name : Text) (value : Value) :
    (tree.define id name value).scopes.size = tree.scopes.size := by
  simp [define, pushCell]

@[simp]
theorem assign_size (tree : ScopeTree) (id : Nat) (name : Text) (value : Value) :
    (tree.assign id name value).scopes.size = tree.scopes.size := by
  unfold assign
  split <;> simp

@[simp]
theorem share_size (tree : ScopeTree) (id : Nat) (name : Text) :
    (tree.share id name).scopes.size = tree.scopes.size := by
  unfold share
  split <;> simp

@[simp]
theorem declare_size (tree : ScopeTree) (id : Nat) (name : Text) (first? : Option Value) :
    (tree.declare id name first?).2.scopes.size = tree.scopes.size := by
  unfold declare
  cases tree.lookup? id name <;> cases first? <;> simp

@[simp]
theorem pushScope_size (tree : ScopeTree) (parent : Option Nat) (kind : ScopeKind)
    (there : ∀ p ∈ parent, p < tree.scopes.size) :
    (tree.pushScope parent kind there).scopes.size = tree.scopes.size + 1 := by
  simp [pushScope]

end ScopeTree

end Loom
