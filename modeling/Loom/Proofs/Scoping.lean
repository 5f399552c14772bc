import Loom.Scope

/-!
What changes of scopes do to names. A scope that is there keeps its kind and the
place where it hangs; only what it binds may change. So what a name means changes
where a binding was made on the way up to the root, and nowhere else.
-/

namespace Loom

namespace ScopeTree

/-! What names mean in the scopes themselves after a change. -/

theorem localCell?_pushScope (tree : ScopeTree) (parent : Option Nat) (kind : ScopeKind)
    (there : ∀ p ∈ parent, p < tree.scopes.size) (id : Nat) (name : Text) :
    (tree.pushScope parent kind there).localCell? id name = tree.localCell? id name :=
  Scope.cellAt?_push tree.scopes parent kind id name

theorem localCell?_bind (tree : ScopeTree) (id : Nat) (name : Text) (cell : Nat)
    (takes : tree.Takes cell name) (other : Nat) (label : Text) :
    (tree.bind id name cell takes).localCell? other label =
      if other = id ∧ id < tree.scopes.size ∧ label = name then some cell
      else tree.localCell? other label :=
  Scope.cellAt?_bind tree.scopes id name cell other label

theorem localCell?_define (tree : ScopeTree) (id : Nat) (name : Text) (v : Value) (other : Nat)
    (label : Text) :
    (tree.define id name v).localCell? other label =
      if other = id ∧ id < tree.scopes.size ∧ label = name then some tree.cells.size
      else tree.localCell? other label :=
  localCell?_bind (tree.pushCell v) id name _ _ other label

theorem scope_bind_kind (tree : ScopeTree) (id : Nat) (name : Text) (cell : Nat)
    (takes : tree.Takes cell name) (other : Nat) :
    ((tree.bind id name cell takes).scope other).kind = (tree.scope other).kind := by
  simp only [scope, bind, Scope.at, getD_modify]
  split <;> rfl

theorem scope_bind_parent (tree : ScopeTree) (id : Nat) (name : Text) (cell : Nat)
    (takes : tree.Takes cell name) (other : Nat) :
    ((tree.bind id name cell takes).scope other).parent = (tree.scope other).parent := by
  simp only [scope, bind, Scope.at, getD_modify]
  split <;> rfl

theorem read_pushCell (tree : ScopeTree) (v : Value) (cell : Nat) (old : cell < tree.cells.size) :
    (tree.pushCell v).read cell = tree.read cell := by
  simp only [read, pushCell, getD_push]
  rw [if_neg (Nat.ne_of_lt old)]

theorem read_write (tree : ScopeTree) (cell : Nat) (v : Value) (other : Nat)
    (apart : cell ≠ other) : (tree.write cell v).read other = tree.read other := by
  by_cases inside : other < tree.cells.size
  · simp [read, write, Array.getD, inside, apart]
  · simp [read, write, Array.getD, inside]

/-- Two names that differ are never bound to one cell. -/
theorem cells_apart (tree : ScopeTree) (id other : Nat) (name label : Text) (cell cell' : Nat)
    (left : tree.localCell? id name = some cell) (right : tree.localCell? other label = some cell')
    (differ : name ≠ label) : cell ≠ cell' := by
  rintro rfl
  exact differ (tree.named id name other label cell left right)

/-! The way up from a scope. -/

section

variable (tree : ScopeTree)

/-- What holds of a scope when it holds of the one above holds of every scope. -/
theorem upward {motive : Nat → Prop}
    (step : ∀ id, (∀ p, (tree.scope id).parent = some p → motive p) → motive id) (id : Nat) :
    motive id := by
  induction id using Nat.strongRecOn with
  | ind id ih => exact step id (fun p above => ih p (tree.below id p above))

/-- More steps than the number of a scope lead no further. -/
theorem chainWithin_of_le (fuel : Nat) : ∀ id ≤ fuel, tree.chainWithin fuel id = tree.chain id := by
  induction fuel using Nat.strongRecOn with
  | ind fuel ih =>
      intro id low
      cases fuel with
      | zero => rw [Nat.le_zero.mp low, chain]
      | succ fuel =>
          rcases Nat.lt_or_eq_of_le low with less | rfl
          · cases above : (tree.scope id).parent with
            | none =>
                cases id with
                | zero => simp only [chainWithin, above, chain]
                | succ id => simp only [chainWithin, above, chain]
            | some p =>
                have small := tree.below id p above
                cases id with
                | zero => exact absurd small (Nat.not_lt_zero p)
                | succ id =>
                    simp only [chainWithin, above, chain]
                    rw [ih fuel (by omega) p (by omega), ih id (by omega) p (by omega)]
          · rfl

theorem chain_of_top {id : Nat} (top : (tree.scope id).parent = none) : tree.chain id = [id] := by
  cases id with
  | zero => rfl
  | succ id => simp only [chain, chainWithin, top]

theorem chain_of_parent {id p : Nat} (above : (tree.scope id).parent = some p) :
    tree.chain id = id :: tree.chain p := by
  have small := tree.below id p above
  cases id with
  | zero => exact absurd small (Nat.not_lt_zero p)
  | succ id =>
      simp only [chain, chainWithin, above]
      rw [tree.chainWithin_of_le id p (by omega), chain]

theorem le_of_mem_chain (id : Nat) : ∀ other ∈ tree.chain id, other ≤ id := by
  induction id using tree.upward with
  | step id ih =>
      intro other member
      cases above : (tree.scope id).parent with
      | none =>
          rw [tree.chain_of_top above, List.mem_singleton] at member
          exact Nat.le_of_eq member
      | some p =>
          rw [tree.chain_of_parent above] at member
          rcases List.mem_cons.mp member with rfl | further
          · exact Nat.le_refl _
          · have small := tree.below id p above
            have reached := ih p above other further
            omega

/-- A name means what the scope itself binds it to, or else what it means above. -/
theorem lookup?_eq (id : Nat) (name : Text) :
    tree.lookup? id name =
      (tree.localCell? id name).or
        ((tree.scope id).parent.bind (fun p => tree.lookup? p name)) := by
  cases above : (tree.scope id).parent with
  | none =>
      simp only [lookup?, tree.chain_of_top above, List.findSome?_cons, List.findSome?_nil]
      cases tree.localCell? id name <;> rfl
  | some p =>
      simp only [lookup?, tree.chain_of_parent above, List.findSome?_cons, Option.bind_some]
      cases tree.localCell? id name <;> rfl

theorem lookup?_of_local {id cell : Nat} {name : Text}
    (here : tree.localCell? id name = some cell) :
    tree.lookup? id name = some cell := by
  rw [lookup?_eq, here]
  rfl

theorem root_of_top {id : Nat} (top : (tree.scope id).parent = none) : tree.root id = id := by
  simp only [root, tree.chain_of_top top, List.getLast?_singleton, Option.getD_some]

theorem root_of_parent {id p : Nat} (above : (tree.scope id).parent = some p) :
    tree.root id = tree.root p := by
  have there : tree.chain p ≠ [] := by
    cases next : (tree.scope p).parent with
    | none => simp [tree.chain_of_top next]
    | some q => simp [tree.chain_of_parent next]
  simp only [root, tree.chain_of_parent above, List.getLast?_cons_of_ne_nil there]
  rw [List.getLast?_eq_some_getLast there]
  rfl

theorem root_le (id : Nat) : tree.root id ≤ id := by
  induction id using tree.upward with
  | step id ih =>
      cases above : (tree.scope id).parent with
      | none => exact Nat.le_of_eq (tree.root_of_top above)
      | some p =>
          have small := tree.below id p above
          have low := ih p above
          rw [tree.root_of_parent above]
          omega

/-- Nothing is above a root. -/
theorem parent_root (id : Nat) : (tree.scope (tree.root id)).parent = none := by
  induction id using tree.upward with
  | step id ih =>
      cases above : (tree.scope id).parent with
      | none => rw [tree.root_of_top above, above]
      | some p =>
          rw [tree.root_of_parent above]
          exact ih p above

/-- What a name means is bound below the same root. -/
theorem holder_of_lookup? (id : Nat) (name : Text) (cell : Nat)
    (found : tree.lookup? id name = some cell) :
    ∃ holder ≤ id, tree.localCell? holder name = some cell ∧ tree.root holder = tree.root id := by
  induction id using tree.upward with
  | step id ih =>
      rw [lookup?_eq] at found
      cases here : tree.localCell? id name with
      | some own =>
          rw [here] at found
          cases found
          exact ⟨id, Nat.le_refl _, here, rfl⟩
      | none =>
          rw [here, Option.none_or] at found
          obtain ⟨p, above, found⟩ := Option.bind_eq_some_iff.mp found
          obtain ⟨holder, low, bound, same⟩ := ih p above found
          have small := tree.below id p above
          exact ⟨holder, by omega, bound, same.trans (tree.root_of_parent above).symm⟩

/-- A name that means nothing is bound nowhere on the way up. -/
theorem unbound_of_lookup? (id : Nat) (name : Text) (missing : tree.lookup? id name = none) :
    tree.localCell? (tree.root id) name = none := by
  induction id using tree.upward with
  | step id ih =>
      rw [lookup?_eq, Option.or_eq_none_iff] at missing
      cases above : (tree.scope id).parent with
      | none =>
          rw [tree.root_of_top above]
          exact missing.1
      | some p =>
          rw [above] at missing
          rw [tree.root_of_parent above]
          exact ih p above missing.2

/-! Owners. -/

theorem owner_of_not_block {id : Nat} (function : tree.isBlock id = false) :
    tree.owner id = id := by
  cases above : (tree.scope id).parent with
  | none => simp [owner, tree.chain_of_top above, reach, function]
  | some p => simp [owner, tree.chain_of_parent above, reach, function]

theorem reach_eq_cons (id : Nat) : ∃ rest, tree.reach (tree.chain id) = id :: rest := by
  cases above : (tree.scope id).parent with
  | none =>
      rw [tree.chain_of_top above, reach]
      split <;> exact ⟨_, rfl⟩
  | some p =>
      rw [tree.chain_of_parent above, reach]
      split <;> exact ⟨_, rfl⟩

theorem owner_of_top {id : Nat} (top : (tree.scope id).parent = none) : tree.owner id = id := by
  rw [owner, tree.chain_of_top top, reach]
  split <;> rfl

theorem owner_of_block {id p : Nat} (block : tree.isBlock id = true)
    (above : (tree.scope id).parent = some p) : tree.owner id = tree.owner p := by
  obtain ⟨rest, reached⟩ := tree.reach_eq_cons p
  simp only [owner, tree.chain_of_parent above, reach, block, if_true, reached,
    List.getLast?_cons_cons]
  rw [List.getLast?_eq_some_getLast (List.cons_ne_nil p rest)]
  rfl

/-- A scope is its own owner, or has the owner of the scope above it. -/
theorem owner_cases (id : Nat) :
    tree.owner id = id ∨
      ∃ p, tree.isBlock id = true ∧ (tree.scope id).parent = some p ∧
        tree.owner id = tree.owner p := by
  cases block : tree.isBlock id with
  | false => exact .inl (tree.owner_of_not_block block)
  | true =>
      cases above : (tree.scope id).parent with
      | none => exact .inl (tree.owner_of_top above)
      | some p => exact .inr ⟨p, rfl, rfl, tree.owner_of_block block above⟩

theorem root_owner (id : Nat) : tree.root (tree.owner id) = tree.root id := by
  induction id using tree.upward with
  | step id ih =>
      rcases tree.owner_cases id with same | ⟨p, _, above, same⟩
      · rw [same]
      · rw [same, ih p above, tree.root_of_parent above]

theorem owner_mem_reach (id : Nat) : tree.owner id ∈ tree.reach (tree.chain id) := by
  obtain ⟨rest, reached⟩ := tree.reach_eq_cons id
  rw [owner, reached, List.getLast?_eq_some_getLast (List.cons_ne_nil id rest)]
  exact List.getLast_mem _

/-- A variable that an assignment does not find is none of the owner. -/
theorem unbound_of_reach (id : Nat) (name : Text)
    (missing : (tree.reach (tree.chain id)).findSome? (fun s => tree.localCell? s name) = none) :
    tree.localCell? (tree.owner id) name = none :=
  List.findSome?_eq_none_iff.mp missing _ (tree.owner_mem_reach id)

end

theorem outerCell?_of_parent {tree : ScopeTree} {id p : Nat}
    (above : (tree.scope (tree.owner id)).parent = some p) (name : Text) :
    tree.outerCell? id name = tree.lookup? p name := by
  rw [outerCell?, above, Option.bind_some]

/-- A name that means nothing outside the owner, and of which no variable of the
owner stands in the way, is not bound at the root. -/
theorem unbound_of_free {tree : ScopeTree} {id : Nat} {name : Text}
    (free : tree.hidesOuter id name = false) (missing : tree.outerCell? id name = none) :
    tree.localCell? (tree.root id) name = none := by
  rw [← tree.root_owner id]
  cases above : (tree.scope (tree.owner id)).parent with
  | none =>
      rw [tree.root_of_top above]
      simp only [hidesOuter, missing] at free
      cases own : tree.localCell? (tree.owner id) name with
      | none => rfl
      | some cell => simp [own] at free
  | some p =>
      rw [tree.root_of_parent above]
      rw [outerCell?_of_parent above] at missing
      exact tree.unbound_of_lookup? p name missing

/-- Binds several names in a scope, each to a new cell. -/
def defineAll (tree : ScopeTree) (id : Nat) : List (Text × Value) → ScopeTree
  | [] => tree
  | (name, v) :: rest => (tree.define id name v).defineAll id rest

@[simp]
theorem defineAll_size (tree : ScopeTree) (id : Nat) (entries : List (Text × Value)) :
    (tree.defineAll id entries).scopes.size = tree.scopes.size := by
  induction entries generalizing tree with
  | nil => rfl
  | cons entry rest ih => simp [defineAll, ih]

/-! What changes leave as it is. -/

/-- Two trees with the same scopes, which may bind other things. -/
structure SameShape (tree after : ScopeTree) : Prop where
  size : after.scopes.size = tree.scopes.size
  kind : ∀ id, (after.scope id).kind = (tree.scope id).kind
  parent : ∀ id, (after.scope id).parent = (tree.scope id).parent

theorem same_shape_refl (tree : ScopeTree) : tree.SameShape tree :=
  ⟨rfl, fun _ => rfl, fun _ => rfl⟩

theorem SameShape.symm {tree after : ScopeTree} (same : tree.SameShape after) :
    after.SameShape tree :=
  ⟨same.size.symm, fun id => (same.kind id).symm, fun id => (same.parent id).symm⟩

theorem SameShape.trans {s t u : ScopeTree} (first : s.SameShape t) (second : t.SameShape u) :
    s.SameShape u :=
  ⟨second.size.trans first.size, fun id => (second.kind id).trans (first.kind id),
    fun id => (second.parent id).trans (first.parent id)⟩

theorem same_shape_bind (tree : ScopeTree) (id : Nat) (name : Text) (cell : Nat)
    (takes : tree.Takes cell name) : tree.SameShape (tree.bind id name cell takes) :=
  ⟨tree.bind_size id name cell takes, tree.scope_bind_kind id name cell takes,
    tree.scope_bind_parent id name cell takes⟩

theorem same_shape_write (tree : ScopeTree) (cell : Nat) (v : Value) :
    tree.SameShape (tree.write cell v) := ⟨rfl, fun _ => rfl, fun _ => rfl⟩

theorem same_shape_define (tree : ScopeTree) (id : Nat) (name : Text) (v : Value) :
    tree.SameShape (tree.define id name v) := by
  have bound := same_shape_bind (tree.pushCell v) id name _ (tree.takes_pushCell v name)
  exact ⟨bound.size, bound.kind, bound.parent⟩

theorem same_shape_defineAll (tree : ScopeTree) (id : Nat) (entries : List (Text × Value)) :
    tree.SameShape (tree.defineAll id entries) := by
  induction entries generalizing tree with
  | nil => exact tree.same_shape_refl
  | cons entry rest ih => exact (tree.same_shape_define id entry.1 entry.2).trans (ih _)

theorem same_shape_assign (tree : ScopeTree) (id : Nat) (name : Text) (v : Value) :
    tree.SameShape (tree.assign id name v) := by
  unfold assign
  split
  · exact tree.same_shape_write _ v
  · exact tree.same_shape_define _ name v

theorem same_shape_share (tree : ScopeTree) (id : Nat) (name : Text) :
    tree.SameShape (tree.share id name) := by
  unfold share
  split
  · exact tree.same_shape_bind _ name _ _
  · exact (tree.same_shape_define _ name .null).trans (same_shape_bind _ _ name _ _)

theorem same_shape_declare (tree : ScopeTree) (id : Nat) (name : Text) (first? : Option Value) :
    tree.SameShape (tree.declare id name first?).2 := by
  unfold declare
  cases tree.lookup? id name with
  | some cell => cases first? <;> exact ⟨rfl, fun _ => rfl, fun _ => rfl⟩
  | none =>
      have defined := tree.same_shape_define id name .null
      cases first? with
      | none => exact defined
      | some v => exact defined.trans (same_shape_write _ _ v)

/-- A tree of which the scopes are still there, below scopes as before. -/
structure Extends (tree after : ScopeTree) : Prop where
  size : tree.scopes.size ≤ after.scopes.size
  kind : ∀ id < tree.scopes.size, (after.scope id).kind = (tree.scope id).kind
  parent : ∀ id < tree.scopes.size, (after.scope id).parent = (tree.scope id).parent

theorem SameShape.extends {tree after : ScopeTree} (same : tree.SameShape after) :
    tree.Extends after :=
  ⟨Nat.le_of_eq same.size.symm, fun id _ => same.kind id, fun id _ => same.parent id⟩

theorem extends_refl (tree : ScopeTree) : tree.Extends tree := tree.same_shape_refl.extends

theorem Extends.trans {s t u : ScopeTree} (first : s.Extends t) (second : t.Extends u) :
    s.Extends u :=
  ⟨Nat.le_trans first.size second.size,
    fun id there =>
      (second.kind id (Nat.lt_of_lt_of_le there first.size)).trans (first.kind id there),
    fun id there =>
      (second.parent id (Nat.lt_of_lt_of_le there first.size)).trans (first.parent id there)⟩

/-- Only a scope that is there is a global one. -/
theorem lt_size_of_global (tree : ScopeTree) {id : Nat}
    (global : (tree.scope id).kind = .global) : id < tree.scopes.size := by
  by_cases there : id < tree.scopes.size
  · exact there
  · simp [scope, Scope.at, Array.getD, there] at global

theorem Extends.global {tree after : ScopeTree} (grown : tree.Extends after) {id : Nat}
    (global : (tree.scope id).kind = .global) : (after.scope id).kind = .global := by
  rw [grown.kind id (tree.lt_size_of_global global)]
  exact global

theorem scope_pushScope (tree : ScopeTree) (parent : Option Nat) (kind : ScopeKind)
    (there : ∀ p ∈ parent, p < tree.scopes.size) (id : Nat) :
    (tree.pushScope parent kind there).scope id =
      if id = tree.scopes.size then ⟨parent, kind, []⟩ else tree.scope id :=
  getD_push tree.scopes ⟨parent, kind, []⟩ _ id

theorem extends_pushScope (tree : ScopeTree) (parent : Option Nat) (kind : ScopeKind)
    (there : ∀ p ∈ parent, p < tree.scopes.size) :
    tree.Extends (tree.pushScope parent kind there) := by
  have old : ∀ id < tree.scopes.size,
      (tree.pushScope parent kind there).scope id = tree.scope id := by
    intro id low
    rw [scope_pushScope, if_neg (Nat.ne_of_lt low)]
  exact ⟨by simp, fun id low => by rw [old id low], fun id low => by rw [old id low]⟩

theorem Extends.root {tree after : ScopeTree} (grown : tree.Extends after) (id : Nat)
    (there : id < tree.scopes.size) : after.root id = tree.root id := by
  induction id using tree.upward with
  | step id ih =>
      have same := grown.parent id there
      cases above : (tree.scope id).parent with
      | none => rw [tree.root_of_top above, after.root_of_top (same.trans above)]
      | some p =>
          have small := tree.below id p above
          rw [tree.root_of_parent above, after.root_of_parent (same.trans above)]
          exact ih p above (by omega)

theorem SameShape.root {tree after : ScopeTree} (same : tree.SameShape after) (id : Nat) :
    after.root id = tree.root id := by
  induction id using tree.upward with
  | step id ih =>
      cases above : (tree.scope id).parent with
      | none => rw [tree.root_of_top above, after.root_of_top ((same.parent id).trans above)]
      | some p =>
          rw [tree.root_of_parent above, after.root_of_parent ((same.parent id).trans above)]
          exact ih p above

/-- A name means what it meant if no scope on the way up binds it anew. -/
theorem Extends.lookup? {tree after : ScopeTree} (grown : tree.Extends after) (name : Text)
    (id : Nat) (there : id < tree.scopes.size)
    (kept : ∀ other ≤ id, after.localCell? other name = tree.localCell? other name) :
    after.lookup? id name = tree.lookup? id name := by
  induction id using tree.upward with
  | step id ih =>
      rw [lookup?_eq, lookup?_eq, grown.parent id there, kept id (Nat.le_refl _)]
      cases above : (tree.scope id).parent with
      | none => rfl
      | some p =>
          have small := tree.below id p above
          simp only [Option.bind_some]
          rw [ih p above (by omega) (fun other low => kept other (by omega))]

theorem lookup?_write (tree : ScopeTree) (cell : Nat) (v : Value) (id : Nat) (name : Text) :
    (tree.write cell v).lookup? id name = tree.lookup? id name := by
  induction id using tree.upward with
  | step id ih =>
      have parent : ((tree.write cell v).scope id).parent = (tree.scope id).parent := rfl
      have own : (tree.write cell v).localCell? id name = tree.localCell? id name := rfl
      rw [lookup?_eq, lookup?_eq, parent, own]
      cases above : (tree.scope id).parent with
      | none => rfl
      | some p => simp only [Option.bind_some, ih p above]

/-- A new variable of a root does not stand in the way of what a name means. -/
theorem lookup?_define_top (tree : ScopeTree) (top : Nat) (name : Text) (v : Value)
    (highest : (tree.scope top).parent = none) (unbound : tree.localCell? top name = none)
    (label : Text) (id cell : Nat) (found : tree.lookup? id label = some cell) :
    (tree.define top name v).lookup? id label = some cell := by
  induction id using tree.upward with
  | step id ih =>
      rw [lookup?_eq] at found
      rw [lookup?_eq, (tree.same_shape_define top name v).parent, localCell?_define]
      by_cases here : id = top ∧ top < tree.scopes.size ∧ label = name
      · obtain ⟨rfl, _, rfl⟩ := here
        rw [unbound, highest] at found
        cases found
      · rw [if_neg here]
        cases own : tree.localCell? id label with
        | some c =>
            rw [own] at found
            exact found
        | none =>
            rw [own, Option.none_or] at found
            obtain ⟨p, above, found⟩ := Option.bind_eq_some_iff.mp found
            rw [Option.none_or, above, Option.bind_some]
            exact ih p above found

/-- Below a root, a name that meant nothing means the root's new variable. -/
theorem lookup?_define_root (tree : ScopeTree) (name : Text) (v : Value) (id : Nat)
    (there : id < tree.scopes.size) (missing : tree.lookup? id name = none) :
    (tree.define (tree.root id) name v).lookup? id name = some tree.cells.size := by
  induction id using tree.upward with
  | step id ih =>
      have missing' := missing
      rw [lookup?_eq, Option.or_eq_none_iff] at missing
      rw [lookup?_eq, (tree.same_shape_define _ name v).parent, localCell?_define]
      cases above : (tree.scope id).parent with
      | none =>
          rw [if_pos ⟨(tree.root_of_top above).symm, by rwa [tree.root_of_top above], rfl⟩]
          rfl
      | some p =>
          have small := tree.below id p above
          rw [above, Option.bind_some] at missing
          have below : id ≠ tree.root id := by
            intro same
            have top := tree.parent_root id
            rw [← same, above] at top
            cases top
          rw [if_neg (fun here => below here.1), missing.1, Option.none_or, Option.bind_some,
            tree.root_of_parent above]
          exact ih p above (by omega) missing.2

/-! What each change binds. -/

/-- An assignment binds a name only where the owner has none of that name. -/
theorem localCell?_assign (tree : ScopeTree) (id : Nat) (name : Text) (v : Value) (other : Nat)
    (label : Text) :
    (tree.assign id name v).localCell? other label = tree.localCell? other label ∨
      tree.localCell? other label = none ∧ other = tree.owner id ∧ label = name ∧
        (tree.assign id name v).localCell? other label = some tree.cells.size := by
  unfold assign
  split
  · exact .inl rfl
  · rename_i missing
    rw [localCell?_define]
    by_cases here : other = tree.owner id ∧ tree.owner id < tree.scopes.size ∧ label = name
    · rw [if_pos here]
      obtain ⟨rfl, _, rfl⟩ := here
      exact .inr ⟨tree.unbound_of_reach id _ missing, rfl, rfl, rfl⟩
    · rw [if_neg here]
      exact .inl rfl

/-- A `use` binds the name in the owner, to what it means outside. -/
theorem localCell?_share_of_outer (tree : ScopeTree) (id : Nat) (name : Text) (cell : Nat)
    (outer : tree.outerCell? id name = some cell) (other : Nat) (label : Text) :
    (tree.share id name).localCell? other label =
      if other = tree.owner id ∧ tree.owner id < tree.scopes.size ∧ label = name then some cell
      else tree.localCell? other label := by
  unfold share
  split
  · rename_i found
    rw [outer] at found
    cases found
    exact localCell?_bind tree _ name _ _ other label
  · rename_i missing
    rw [outer] at missing
    cases missing

/-- A `use` of a name that means nothing outside makes a variable of the root, too. -/
theorem localCell?_share_of_none (tree : ScopeTree) (id : Nat) (name : Text)
    (outer : tree.outerCell? id name = none) (other : Nat) (label : Text) :
    (tree.share id name).localCell? other label =
      if other = tree.owner id ∧ tree.owner id < tree.scopes.size ∧ label = name then
        some tree.cells.size
      else (tree.define (tree.root id) name .null).localCell? other label := by
  unfold share
  split
  · rename_i found
    rw [outer] at found
    cases found
  · rw [localCell?_bind, define_size]

/-- A global scope gets a variable of a name only if it has none. -/
theorem localCell?_declare (tree : ScopeTree) (id : Nat) (name : Text) (first? : Option Value)
    (other : Nat) (label : Text) :
    (tree.declare id name first?).2.localCell? other label =
      if tree.lookup? id name = none then (tree.define id name .null).localCell? other label
      else tree.localCell? other label := by
  unfold declare
  cases tree.lookup? id name <;> cases first? <;> rfl

/-- What is bound to the scope that is made with it is of no matter to others. -/
theorem localCell?_defineAll_of_ne (tree : ScopeTree) (id : Nat) (entries : List (Text × Value))
    (other : Nat) (differ : other ≠ id) (label : Text) :
    (tree.defineAll id entries).localCell? other label = tree.localCell? other label := by
  induction entries generalizing tree with
  | nil => rfl
  | cons entry rest ih =>
      rw [defineAll, ih, localCell?_define, if_neg (fun here => differ here.1)]

end ScopeTree

end Loom
