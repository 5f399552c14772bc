import Loom.Proofs.Likeness.Scope
import Loom.Proofs.OrderedHash

/-!
Variables that no code speaks of. A tree of scopes stands beside another in which one scope
binds some more names, to cells that came in among the others. Both have the same scopes,
and every name but those leads to the same value, in a cell that is as far behind as cells
came in before it. Changes that speak of none of those names keep this so.
-/

namespace Loom

/-- Variables that only the second of two runs has. -/
structure Veil where
  /-- The names that are hidden from all code. -/
  names : List Text
  /-- The scope that binds them. -/
  home : Nat
  /-- The cell in front of which theirs came in. -/
  low : Nat
  /-- How many cells came in. -/
  more : Nat

/-- A cell as the second run numbers it. -/
def Veil.cell (veil : Veil) (c : Nat) : Nat := if c < veil.low then c else c + veil.more

/-- Where no cell has come in, the numbers are the same. -/
theorem Veil.cell_of_none {names : List Text} {home low : Nat} :
    (⟨names, home, low, 0⟩ : Veil).cell = id := by
  funext c
  simp [cell]

theorem Veil.cell_inj {veil : Veil} {c d : Nat} : veil.cell c = veil.cell d ↔ c = d := by
  unfold cell
  split <;> split <;> omega

namespace ScopeTree

/-! Trees of one shape. -/

namespace SameShape

variable {tree other : ScopeTree} (same : tree.SameShape other)
include same

theorem chain_eq (id : Nat) : other.chain id = tree.chain id := by
  induction id using tree.upward with
  | step id ih =>
      cases above : (tree.scope id).parent with
      | none => rw [tree.chain_of_top above, other.chain_of_top ((same.parent id).trans above)]
      | some p =>
          rw [tree.chain_of_parent above, other.chain_of_parent ((same.parent id).trans above),
            ih p above]

theorem reach_eq (ids : List Nat) : other.reach ids = tree.reach ids := by
  induction ids with
  | nil => rfl
  | cons id above ih =>
      have block : other.isBlock id = tree.isBlock id := by rw [isBlock, same.kind, isBlock]
      rw [reach, reach, block, ih]

theorem owner_eq (id : Nat) : other.owner id = tree.owner id := by
  rw [owner, owner, same.chain_eq, same.reach_eq]

theorem known?_eq (id : Nat) : other.known? id = tree.known? id := by
  rw [known?, known?, same.size]

theorem pushScope (parent : Option Nat) (kind : ScopeKind)
    (there : ∀ p ∈ parent, p < tree.scopes.size) (there' : ∀ p ∈ parent, p < other.scopes.size) :
    (tree.pushScope parent kind there).SameShape (other.pushScope parent kind there') := by
  constructor
  · rw [pushScope_size, pushScope_size, same.size]
  · intro id
    rw [scope_pushScope, scope_pushScope, same.size]
    split
    · rfl
    · exact same.kind id
  · intro id
    rw [scope_pushScope, scope_pushScope, same.size]
    split
    · rfl
    · exact same.parent id

end SameShape

theorem localNames_pushScope (tree : ScopeTree) (parent : Option Nat) (kind : ScopeKind)
    (there : ∀ p ∈ parent, p < tree.scopes.size) (id : Nat) :
    (tree.pushScope parent kind there).localNames id =
      if id = tree.scopes.size then [] else tree.localNames id := by
  rw [localNames, scope_pushScope]
  split <;> rfl

/-- A name that a scope binds anew comes last among those of the scope. -/
theorem localNames_bind (tree : ScopeTree) (id : Nat) (name : Text) (cell : Nat)
    (takes : tree.Takes cell name) (other : Nat) :
    (tree.bind id name cell takes).localNames other =
      if other = id ∧ id < tree.scopes.size ∧ name ∉ tree.localNames other then
        tree.localNames other ++ [name]
      else tree.localNames other := by
  have bound : (tree.bind id name cell takes).scope other =
      if other = id ∧ id < tree.scopes.size then
        { tree.scope other with cells := Table.insert name cell (tree.scope other).cells }
      else tree.scope other := getD_modify _ _ _ _ _
  rw [localNames, bound]
  by_cases here : other = id ∧ id < tree.scopes.size
  · rw [if_pos here, Table.keys_insert]
    by_cases known : name ∈ tree.localNames other
    · have old : ¬ (other = id ∧ id < tree.scopes.size ∧ name ∉ tree.localNames other) :=
        fun all => all.2.2 known
      rw [if_neg old]
      exact if_pos known
    · have new : other = id ∧ id < tree.scopes.size ∧ name ∉ tree.localNames other :=
        ⟨here.1, here.2, known⟩
      rw [if_pos new]
      exact if_neg known
  · have elsewhere : ¬ (other = id ∧ id < tree.scopes.size ∧ name ∉ tree.localNames other) :=
      fun all => here ⟨all.1, all.2.1⟩
    rw [if_neg here, if_neg elsewhere, localNames]

/-- Two trees of which the second has the hidden variables as well. -/
structure Veiled (veil : Veil) (tree other : ScopeTree) : Prop where
  shape : tree.SameShape other
  home : veil.home < tree.scopes.size
  low : veil.low ≤ tree.cells.size
  cells : other.cells.size = tree.cells.size + veil.more
  localCell? : ∀ id, ∀ name ∉ veil.names,
    other.localCell? id name = (tree.localCell? id name).map veil.cell
  unbound : ∀ id, ∀ name ∈ veil.names, tree.localCell? id name = none
  localNames : ∀ id, id ≠ veil.home → other.localNames id = tree.localNames id
  read : ∀ cell, other.read (veil.cell cell) = tree.read cell

/-- A tree beside itself: names that it does not bind are hidden, and no cell has come in. -/
theorem veiled_self {tree : ScopeTree} {names : List Text} {home low : Nat}
    (there : home < tree.scopes.size) (within : low ≤ tree.cells.size)
    (unbound : ∀ id, ∀ name ∈ names, tree.localCell? id name = none) :
    tree.Veiled ⟨names, home, low, 0⟩ tree := by
  refine ⟨tree.same_shape_refl, there, within, rfl, ?_, unbound, fun _ _ => rfl, ?_⟩
  · intro id name _
    rw [Veil.cell_of_none, Option.map_id_apply]
  · intro cell
    rw [Veil.cell_of_none, id]

namespace Veiled

variable {veil : Veil} {tree other : ScopeTree} (same : tree.Veiled veil other)
  {name : Text} (spoken : name ∉ veil.names)
include same

theorem fresh_cell : veil.cell tree.cells.size = other.cells.size := by
  rw [Veil.cell, if_neg (Nat.not_lt.mpr same.low), same.cells]

include spoken

theorem findSome?_eq (ids : List Nat) :
    ids.findSome? (fun s => other.localCell? s name) =
      (ids.findSome? (fun s => tree.localCell? s name)).map veil.cell := by
  induction ids with
  | nil => rfl
  | cons id above ih =>
      simp only [List.findSome?_cons, same.localCell? id name spoken, ih]
      cases tree.localCell? id name <;> rfl

theorem lookup?_eq (id : Nat) : other.lookup? id name = (tree.lookup? id name).map veil.cell := by
  rw [lookup?, same.shape.chain_eq]
  exact same.findSome?_eq spoken (tree.chain id)

theorem get?_eq (id : Nat) : other.get? id name = tree.get? id name := by
  rw [get?, get?, same.lookup?_eq spoken, Option.map_map]
  exact congrArg (fun read => (tree.lookup? id name).map read) (funext same.read)

theorem outerCell?_eq (id : Nat) :
    other.outerCell? id name = (tree.outerCell? id name).map veil.cell := by
  rw [outerCell?, same.shape.owner_eq, same.shape.parent, outerCell?]
  cases (tree.scope (tree.owner id)).parent with
  | none => rfl
  | some p => exact same.lookup?_eq spoken p

theorem hidesOuter_eq (id : Nat) : other.hidesOuter id name = tree.hidesOuter id name := by
  simp only [hidesOuter, same.shape.owner_eq, same.localCell? _ name spoken,
    same.outerCell?_eq spoken]
  cases tree.localCell? (tree.owner id) name with
  | none => rfl
  | some own =>
      cases tree.outerCell? id name with
      | none => rfl
      | some outer =>
          have cells : (veil.cell own == veil.cell outer) = (own == outer) := by
            rw [Bool.eq_iff_iff, beq_iff_eq, beq_iff_eq, Veil.cell_inj]
          simp [bne, cells]

omit spoken

/-- What a scope of the first tree binds is not hidden. -/
theorem spoken_of_local {id : Nat} (bound : name ∈ tree.localNames id) : name ∉ veil.names := by
  intro hidden
  have free : Table.find? name (tree.scope id).cells = none := same.unbound id name hidden
  exact Table.not_mem_keys_of_find? free bound

/-! Changes. -/

theorem pushScope (parent : Option Nat) (kind : ScopeKind)
    (there : ∀ p ∈ parent, p < tree.scopes.size) (there' : ∀ p ∈ parent, p < other.scopes.size) :
    (tree.pushScope parent kind there).Veiled veil (other.pushScope parent kind there') where
  shape := same.shape.pushScope parent kind there there'
  home := by
    rw [pushScope_size]
    exact Nat.lt_succ_of_lt same.home
  low := same.low
  cells := same.cells
  localCell? id name spoken := by
    rw [localCell?_pushScope, localCell?_pushScope]
    exact same.localCell? id name spoken
  unbound id name hidden := by
    rw [localCell?_pushScope]
    exact same.unbound id name hidden
  localNames id away := by
    rw [localNames_pushScope, localNames_pushScope, same.shape.size, same.localNames id away]
  read := same.read

/-- The scope of a new global scope is not the one that binds the hidden names. -/
theorem newRoot : other.newRoot.1 = tree.newRoot.1 ∧ tree.newRoot.1 ≠ veil.home ∧
    tree.newRoot.2.Veiled veil other.newRoot.2 :=
  ⟨same.shape.size, Nat.ne_of_gt same.home, same.pushScope none .global (by simp) (by simp)⟩

theorem child (id : Nat) (kind : ScopeKind) : (other.child id kind).1 = (tree.child id kind).1 ∧
    (tree.child id kind).2.Veiled veil (other.child id kind).2 := by
  refine ⟨same.shape.size, ?_⟩
  have pushed := same.pushScope (tree.known? id) kind (tree.lt_size_of_known id)
    (same.shape.known?_eq id ▸ other.lt_size_of_known id)
  simp only [ScopeTree.child, same.shape.known?_eq]
  exact pushed

theorem pushCell (v : Value) : (tree.pushCell v).Veiled veil (other.pushCell v) where
  shape := ⟨same.shape.size, same.shape.kind, same.shape.parent⟩
  home := same.home
  low := by
    rw [ScopeTree.pushCell, Array.size_push]
    exact Nat.le_succ_of_le same.low
  cells := by
    simp only [ScopeTree.pushCell, Array.size_push, same.cells]
    omega
  localCell? := same.localCell?
  unbound := same.unbound
  localNames := same.localNames
  read cell := by
    have old := same.read cell
    simp only [ScopeTree.read] at old
    simp only [ScopeTree.read, ScopeTree.pushCell, getD_push, ← same.fresh_cell, Veil.cell_inj, old]

include spoken in
theorem bind (id : Nat) {cell cell' : Nat} (bound : cell' = veil.cell cell)
    (takes : tree.Takes cell name) (takes' : other.Takes cell' name) :
    (tree.bind id name cell takes).Veiled veil (other.bind id name cell' takes') where
  shape :=
    ((tree.same_shape_bind id name cell takes).symm.trans same.shape).trans
      (other.same_shape_bind id name cell' takes')
  home := by
    rw [bind_size]
    exact same.home
  low := same.low
  cells := same.cells
  localCell? place label spoken := by
    rw [localCell?_bind, localCell?_bind, same.shape.size, bound,
      same.localCell? place label spoken]
    split <;> rfl
  unbound place label hidden := by
    have differ : label ≠ name := fun same => spoken (same ▸ hidden)
    rw [localCell?_bind, if_neg (fun here => differ here.2.2)]
    exact same.unbound place label hidden
  localNames place away := by
    rw [localNames_bind, localNames_bind, same.shape.size, same.localNames place away]
  read := same.read

include spoken in
theorem define (id : Nat) (v : Value) :
    (tree.define id name v).Veiled veil (other.define id name v) :=
  (same.pushCell v).bind spoken id same.fresh_cell.symm _ _

theorem write (cell : Nat) (v : Value) :
    (tree.write cell v).Veiled veil (other.write (veil.cell cell) v) where
  shape := ⟨same.shape.size, same.shape.kind, same.shape.parent⟩
  home := same.home
  low := by simpa [ScopeTree.write] using same.low
  cells := by simpa [ScopeTree.write] using same.cells
  localCell? := same.localCell?
  unbound := same.unbound
  localNames := same.localNames
  read place := by
    by_cases hit : cell = place
    · subst hit
      have inside : veil.cell cell < other.cells.size ↔ cell < tree.cells.size := by
        rw [Veil.cell, same.cells]
        have low := same.low
        split <;> omega
      by_cases there : cell < tree.cells.size
      · simp [ScopeTree.read, ScopeTree.write, Array.getD, inside, there]
      · simp [ScopeTree.read, ScopeTree.write, Array.getD, inside, there]
    · have elsewhere : veil.cell cell ≠ veil.cell place := fun same => hit (Veil.cell_inj.mp same)
      rw [read_write tree cell v place hit, read_write _ _ v _ elsewhere]
      exact same.read place

include spoken

theorem assign (id : Nat) (v : Value) :
    (tree.assign id name v).Veiled veil (other.assign id name v) := by
  unfold ScopeTree.assign
  rw [same.shape.chain_eq, same.shape.reach_eq, same.findSome?_eq spoken, same.shape.owner_eq]
  cases (tree.reach (tree.chain id)).findSome? (fun s => tree.localCell? s name) with
  | some cell => exact same.write cell v
  | none => exact same.define spoken (tree.owner id) v

theorem share (id : Nat) : (tree.share id name).Veiled veil (other.share id name) := by
  have outer := same.outerCell?_eq spoken id
  have owner := same.shape.owner_eq id
  unfold ScopeTree.share
  split
  · rename_i cell found
    split
    · rename_i cell' found'
      rw [found, found'] at outer
      have bound : cell' = veil.cell cell := Option.some.inj outer
      rw [owner]
      exact same.bind spoken (tree.owner id) bound _ _
    · rename_i none
      rw [found, none] at outer
      cases outer
  · rename_i nowhere
    split
    · rename_i cell' found'
      rw [nowhere, found'] at outer
      cases outer
    · have shared : ∀ root, root = tree.root id →
          Veiled veil ((tree.define (tree.root id) name .null).bind (tree.owner id) name
              tree.cells.size (tree.takes_define (tree.root id) name .null))
            ((other.define root name .null).bind (tree.owner id) name other.cells.size
              (other.takes_define root name .null)) := by
        rintro _ rfl
        exact (same.define spoken (tree.root id) .null).bind spoken (tree.owner id)
          same.fresh_cell.symm _ _
      rw [owner]
      exact shared _ (same.shape.root id)

theorem declare (id : Nat) (first? : Option Value) :
    (tree.declare id name first?).2.Veiled veil (other.declare id name first?).2 := by
  have defined := same.define spoken id .null
  simp only [ScopeTree.declare, same.lookup?_eq spoken]
  cases tree.lookup? id name with
  | none =>
      cases first? with
      | none => exact defined
      | some first =>
          have written := defined.write tree.cells.size first
          rw [same.fresh_cell] at written
          exact written
  | some cell =>
      cases first? with
      | none => exact same
      | some first => exact same.write cell first

end Veiled

end ScopeTree

end Loom
