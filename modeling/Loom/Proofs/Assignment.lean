import Loom.Proofs.Confinement
import Loom.Proofs.OrderedHash

/-!
What an assignment does to scopes. It looks for its name up to the owner and no
further. Where it finds a variable it writes to that one cell, which several names may
share; where it finds none, the owner gets a new variable, which then stands in the way
of what the name meant below the owner. What every other name means stays as it is.
-/

namespace Loom

namespace ScopeTree

variable {tree : ScopeTree}

/-! How far an assignment looks. -/

theorem owner_le (tree : ScopeTree) (id : Nat) : tree.owner id ≤ id := by
  induction id using tree.upward with
  | step id ih =>
      rcases tree.owner_cases id with same | ⟨p, _, above, same⟩
      · exact Nat.le_of_eq same
      · have small := tree.below id p above
        have low := ih p above
        omega

theorem reach_of_block {id p : Nat} (block : tree.isBlock id = true)
    (above : (tree.scope id).parent = some p) :
    tree.reach (tree.chain id) = id :: tree.reach (tree.chain p) := by
  rw [tree.chain_of_parent above, reach, if_pos block]

theorem reach_of_owner {id : Nat} (own : tree.owner id = id) :
    tree.reach (tree.chain id) = [id] := by
  cases above : (tree.scope id).parent with
  | none =>
      rw [tree.chain_of_top above]
      simp only [reach, ite_self]
  | some p =>
      cases block : tree.isBlock id with
      | false => simp [tree.chain_of_parent above, reach, block]
      | true =>
          -- the owner of a block that hangs somewhere is further up
          have small := tree.below id p above
          have low := tree.owner_le p
          rw [tree.owner_of_block block above] at own
          omega

/-- An assignment looks through the scopes on the way up that have the same owner. -/
theorem mem_reach_iff (id holder : Nat) :
    holder ∈ tree.reach (tree.chain id) ↔
      holder ∈ tree.chain id ∧ tree.owner holder = tree.owner id := by
  induction id using tree.upward with
  | step id ih =>
      rcases tree.owner_cases id with own | ⟨p, block, above, same⟩
      · rw [tree.reach_of_owner own, List.mem_singleton]
        constructor
        · rintro rfl
          exact ⟨tree.self_mem_chain holder, rfl⟩
        · rintro ⟨member, same⟩
          have low := tree.owner_le holder
          have high := tree.le_of_mem_chain id holder member
          omega
      · rw [tree.reach_of_block block above, tree.chain_of_parent above, List.mem_cons,
          List.mem_cons, ih p above, same]
        constructor
        · rintro (rfl | ⟨further, inside⟩)
          · exact ⟨.inl rfl, same⟩
          · exact ⟨.inr further, inside⟩
        · rintro ⟨rfl | further, inside⟩
          · exact .inl rfl
          · exact .inr ⟨further, inside⟩

theorem reach_prefix (tree : ScopeTree) (list : List Nat) : tree.reach list <+: list := by
  induction list with
  | nil => exact List.prefix_refl _
  | cons id above ih =>
      rw [reach]
      split
      · exact List.cons_prefix_cons.mpr ⟨rfl, ih⟩
      · exact ⟨above, rfl⟩

/-- What an assignment writes to is what its name means. -/
theorem lookup?_of_target? {id cell : Nat} {name : Text}
    (found : tree.target? id name = some cell) :
    tree.lookup? id name = some cell := by
  obtain ⟨beyond, whole⟩ := tree.reach_prefix (tree.chain id)
  rw [target?] at found
  rw [lookup?, ← whole, List.findSome?_append, found, Option.some_or]

/-! Names that are looked for past an owner. -/

theorem head?_chain (tree : ScopeTree) (id : Nat) : (tree.chain id).head? = some id := by
  cases above : (tree.scope id).parent with
  | none => rw [tree.chain_of_top above, List.head?_cons]
  | some p => rw [tree.chain_of_parent above, List.head?_cons]

/-- Whether a scope at or below an owner looks for a name above the owner: no scope on
the way up binds it, the owner included. -/
def LooksPast (tree : ScopeTree) (id owner : Nat) (name : Text) : Prop :=
  ∃ inner outer, tree.chain id = inner ++ owner :: outer ∧
    tree.localCell? owner name = none ∧ ∀ s ∈ inner, tree.localCell? s name = none

theorem looksPast_self {owner : Nat} {name : Text} (free : tree.localCell? owner name = none) :
    tree.LooksPast owner owner name := by
  cases above : (tree.scope owner).parent with
  | none => exact ⟨[], [], tree.chain_of_top above, free, by simp⟩
  | some p => exact ⟨[], _, tree.chain_of_parent above, free, by simp⟩

theorem LooksPast.unbound {id owner : Nat} {name : Text} (past : tree.LooksPast id owner name) :
    tree.localCell? id name = none := by
  obtain ⟨inner, outer, chain, free, unbound⟩ := past
  have first : (inner ++ owner :: outer).head? = some id := chain ▸ tree.head?_chain id
  cases inner with
  | nil =>
      cases first
      exact free
  | cons nearest inner =>
      cases first
      exact unbound id List.mem_cons_self

/-- Below a scope that hangs under another, a name is looked for past an owner further
up if it is so from there. -/
theorem looksPast_iff_of_parent {id p owner : Nat} {name : Text}
    (above : (tree.scope id).parent = some p) (differ : id ≠ owner) :
    tree.LooksPast id owner name ↔
      tree.localCell? id name = none ∧ tree.LooksPast p owner name := by
  constructor
  · intro past
    refine ⟨past.unbound, ?_⟩
    obtain ⟨inner, outer, chain, free, unbound⟩ := past
    rw [tree.chain_of_parent above] at chain
    cases inner with
    | nil => exact absurd (List.cons.inj chain).1 differ
    | cons next inner =>
        exact ⟨inner, outer, (List.cons.inj chain).2, free,
          fun s member => unbound s (List.mem_cons_of_mem _ member)⟩
  · rintro ⟨here, inner, outer, chain, free, unbound⟩
    refine ⟨id :: inner, outer, by rw [tree.chain_of_parent above, chain]; rfl, free, ?_⟩
    intro s member
    rcases List.mem_cons.mp member with rfl | further
    · exact here
    · exact unbound s further

theorem not_looksPast_of_top {id owner : Nat} {name : Text}
    (above : (tree.scope id).parent = none) (differ : id ≠ owner) :
    ¬ tree.LooksPast id owner name := by
  rintro ⟨inner, outer, chain, -, -⟩
  rw [tree.chain_of_top above] at chain
  cases inner with
  | nil => exact differ (List.cons.inj chain).1
  | cons next inner => simp at chain

/-- A name that an assignment does not find is looked for past the owner. -/
theorem looksPast_owner {id : Nat} {name : Text} (missing : tree.target? id name = none) :
    tree.LooksPast id (tree.owner id) name := by
  induction id using tree.upward with
  | step id ih =>
      have free := tree.unbound_of_reach id name missing
      rcases tree.owner_cases id with own | ⟨p, block, above, same⟩
      · rw [own] at free ⊢
        exact looksPast_self free
      · have small := tree.below id p above
        have low := tree.owner_le p
        rw [target?, tree.reach_of_block block above, List.findSome?_cons] at missing
        cases own : tree.localCell? id name with
        | some cell =>
            rw [own] at missing
            cases missing
        | none =>
            rw [own] at missing
            rw [same, looksPast_iff_of_parent above (by omega)]
            exact ⟨own, ih p above missing⟩

/-- A new variable of a scope is what its name means wherever it was looked for past the
scope, and nothing else comes to mean anything else. -/
theorem lookup?_define {owner : Nat} {name : Text} (v : Value) (there : owner < tree.scopes.size)
    (free : tree.localCell? owner name = none) (id : Nat) (label : Text) :
    (label = name ∧ tree.LooksPast id owner name →
      (tree.define owner name v).lookup? id label = some tree.cells.size) ∧
    (¬ (label = name ∧ tree.LooksPast id owner name) →
      (tree.define owner name v).lookup? id label = tree.lookup? id label) := by
  induction id using tree.upward with
  | step id ih =>
      rw [lookup?_eq, lookup?_eq, (tree.same_shape_define owner name v).parent, localCell?_define]
      by_cases same : label = name
      · subst same
        by_cases here : id = owner
        · subst here
          rw [if_pos ⟨rfl, there, rfl⟩]
          exact ⟨fun _ => rfl, fun past => absurd ⟨rfl, looksPast_self free⟩ past⟩
        · rw [if_neg (fun all => here all.1)]
          cases above : (tree.scope id).parent with
          | none =>
              exact ⟨fun past => absurd past.2 (not_looksPast_of_top above here), fun _ => rfl⟩
          | some p =>
              obtain ⟨past, kept⟩ := ih p above
              rw [looksPast_iff_of_parent above here]
              simp only [true_and, Option.bind_some] at past kept ⊢
              cases own : tree.localCell? id label with
              | some cell => simp
              | none => simpa using ⟨past, kept⟩
      · rw [if_neg (fun all => same all.2.2)]
        refine ⟨fun past => absurd past.1 same, fun _ => ?_⟩
        cases above : (tree.scope id).parent with
        | none => rfl
        | some p =>
            rw [Option.bind_some, Option.bind_some, (ih p above).2 (fun past => same past.1)]

/-! What an assignment leaves. -/

/-- One cell has another value, and nothing else is different. -/
structure Overwritten (tree after : ScopeTree) (cell : Nat) (value : Value) : Prop where
  scopes : after.scopes = tree.scopes
  cells : after.cells.size = tree.cells.size
  written : after.read cell = value
  others : ∀ other ≠ cell, after.read other = tree.read other
  frame : ∀ id label, tree.lookup? id label ≠ some cell →
    after.lookup? id label = tree.lookup? id label ∧ after.get? id label = tree.get? id label

/-- A scope has one more variable, which has a new cell. -/
structure Extended (tree after : ScopeTree) (owner : Nat) (name : Text) (value : Value) : Prop where
  names : after.localNames owner = tree.localNames owner ++ [name]
  bound : after.localCell? owner name = some tree.cells.size
  kept : ∀ label ≠ name, after.localCell? owner label = tree.localCell? owner label
  cells : after.cells.size = tree.cells.size + 1
  written : after.read tree.cells.size = value
  others : ∀ cell < tree.cells.size, after.read cell = tree.read cell
  hidden : ∀ id, tree.LooksPast id owner name → after.get? id name = some value
  frame : ∀ id label, ¬ (label = name ∧ tree.LooksPast id owner name) →
    after.lookup? id label = tree.lookup? id label ∧ after.get? id label = tree.get? id label

theorem overwritten_write {cell : Nat} (value : Value) (made : cell < tree.cells.size) :
    tree.Overwritten (tree.write cell value) cell value where
  scopes := rfl
  cells := by simp [write]
  written := by simp [read, write, Array.getD, made]
  others other differ := tree.read_write cell value other differ.symm
  frame id label apart := by
    have same := tree.lookup?_write cell value id label
    refine ⟨same, ?_⟩
    rw [get?, get?, same]
    cases found : tree.lookup? id label with
    | none => rfl
    | some other =>
        have differ : cell ≠ other := fun hit => apart (by rw [found, hit])
        rw [Option.map_some, Option.map_some, tree.read_write cell value other differ]

theorem read_define_new (tree : ScopeTree) (id : Nat) (name : Text) (v : Value) :
    (tree.define id name v).read tree.cells.size = v := by
  simp [read, define, bind, pushCell, Array.getD]

theorem read_define_old (tree : ScopeTree) (id : Nat) (name : Text) (v : Value) {cell : Nat}
    (old : cell < tree.cells.size) : (tree.define id name v).read cell = tree.read cell :=
  tree.read_pushCell v cell old

theorem lookup?_lt (tree : ScopeTree) {id cell : Nat} {name : Text}
    (found : tree.lookup? id name = some cell) : cell < tree.cells.size :=
  (tree.takes_of_lookup? id name cell found).1

theorem scope_define (tree : ScopeTree) (owner : Nat) (name : Text) (v : Value) (id : Nat)
    (differ : id ≠ owner) : (tree.define owner name v).scope id = tree.scope id := by
  simp only [scope, define, bind, pushCell, Scope.at, getD_modify]
  rw [if_neg (fun here => differ here.1)]

theorem scope_define_self {owner : Nat} {name : Text} (v : Value)
    (there : owner < tree.scopes.size) :
    ((tree.define owner name v).scope owner).cells =
      Table.insert name tree.cells.size (tree.scope owner).cells := by
  simp only [scope, define, bind, pushCell, Scope.at, getD_modify]
  rw [if_pos ⟨trivial, there⟩]

theorem extended_define {owner : Nat} {name : Text} (value : Value)
    (there : owner < tree.scopes.size) (free : tree.localCell? owner name = none) :
    tree.Extended (tree.define owner name value) owner name value where
  names := by
    have new : name ∉ tree.localNames owner := Table.not_mem_keys_of_find? free
    rw [localNames, scope_define_self value there, Table.keys_insert]
    exact if_neg new
  bound := by rw [localCell?_define, if_pos ⟨rfl, there, rfl⟩]
  kept label differ := by rw [localCell?_define, if_neg (fun here => differ here.2.2)]
  cells := by simp [define, bind, pushCell]
  written := tree.read_define_new owner name value
  others cell old := tree.read_define_old owner name value old
  hidden id past := by
    rw [get?, ((lookup?_define value there free id name).1 ⟨rfl, past⟩), Option.map_some,
      tree.read_define_new]
  frame id label apart := by
    have same := (lookup?_define value there free id label).2 apart
    refine ⟨same, ?_⟩
    rw [get?, get?, same]
    cases found : tree.lookup? id label with
    | none => rfl
    | some cell =>
        rw [Option.map_some, Option.map_some,
          tree.read_define_old owner name value (tree.lookup?_lt found)]

theorem assign_of_target? {id cell : Nat} {name : Text} (value : Value)
    (found : tree.target? id name = some cell) :
    tree.assign id name value = tree.write cell value := by
  rw [target?] at found
  rw [assign, found]

theorem assign_of_no_target {id : Nat} {name : Text} (value : Value)
    (missing : tree.target? id name = none) :
    tree.assign id name value = tree.define (tree.owner id) name value := by
  rw [target?] at missing
  rw [assign, missing]

/-- What an assignment does. The variable that it finds, in the scope itself, in a block
between the scope and its owner or in the owner, gets the value; where it finds none, the
owner gets a new variable. The name then has the value in the scope, no other scope binds
anything else, and nothing changes for whoever did not look at the one cell, or for the
name past the owner. -/
theorem assign_effect (tree : ScopeTree) (id : Nat) (name : Text) (value : Value)
    (there : id < tree.scopes.size) :
    (tree.assign id name value).get? id name = some value ∧
      (∀ other ≠ tree.owner id, (tree.assign id name value).scope other = tree.scope other) ∧
      ((∃ holder ∈ tree.chain id, tree.owner holder = tree.owner id ∧
          ∃ cell, tree.localCell? holder name = some cell ∧ tree.lookup? id name = some cell ∧
            tree.Overwritten (tree.assign id name value) cell value) ∨
        (∀ holder ∈ tree.chain id, tree.owner holder = tree.owner id →
          tree.localCell? holder name = none) ∧
          tree.Extended (tree.assign id name value) (tree.owner id) name value) := by
  cases found : tree.target? id name with
  | some cell =>
      have made : tree.lookup? id name = some cell := lookup?_of_target? found
      have overwritten := tree.overwritten_write value (tree.lookup?_lt made)
      obtain ⟨holder, member, bound⟩ := List.exists_of_findSome?_eq_some found
      obtain ⟨inside, same⟩ := (tree.mem_reach_iff id holder).mp member
      rw [assign_of_target? value found]
      refine ⟨?_, fun _ _ => rfl, .inl ⟨holder, inside, same, cell, bound, made, overwritten⟩⟩
      rw [get?, tree.lookup?_write, made, Option.map_some, overwritten.written]
  | none =>
      have owned : tree.owner id < tree.scopes.size := Nat.lt_of_le_of_lt (tree.owner_le id) there
      have free : ∀ holder ∈ tree.chain id, tree.owner holder = tree.owner id →
          tree.localCell? holder name = none := by
        intro holder inside same
        exact List.findSome?_eq_none_iff.mp found holder
          ((tree.mem_reach_iff id holder).mpr ⟨inside, same⟩)
      have extended := tree.extended_define value owned (tree.unbound_of_reach id name found)
      rw [assign_of_no_target value found]
      exact ⟨extended.hidden id (looksPast_owner found),
        fun other differ => tree.scope_define _ name value other differ, .inr ⟨free, extended⟩⟩

/-- A program that defines `n`, and a block in it. -/
def oneBlock : ScopeTree := ((empty.newRoot.2.define 0 "n" .null).child 0 .block).2

/-- In the block, `n` is the program's variable, and `k` is a new one of the program. -/
theorem assign_in_block :
    1 < oneBlock.scopes.size ∧
      (oneBlock.assign 1 "n" (.bool true)).get? 0 "n" = some (.bool true) ∧
      (oneBlock.assign 1 "k" (.bool true)).get? 1 "k" = some (.bool true) ∧
      (oneBlock.assign 1 "k" (.bool true)).scope 1 = oneBlock.scope 1 := by
  have there : 1 < oneBlock.scopes.size := by decide
  have created := oneBlock.assign_effect 1 "k" (.bool true) there
  exact ⟨there, rfl, created.1, created.2.1 1 (by decide)⟩

end ScopeTree

end Loom
