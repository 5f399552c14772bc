import Loom.Interpreter
import Loom.Proofs.Discipline.Machine

/-!
Variables are encapsulated. A call of a script function changes a variable that
was there before only where a `use` of its name is carried out during the call.

What carries the proof is a fence between the scopes and cells from before the
call and those made during it: as long as a name is not used, new scopes bind it
to new cells only, and blocks below new scopes are new. An assignment in a new
scope then never reaches an old cell of that name.
-/

namespace Loom

open ScopeTree

/-! The fence. Scopes below `base` and cells below `cells` are old. -/

variable {base cells : Nat} {n : Text}

-- Only blocks have to hang below new scopes. The scope of a function may hang
-- below an old one, as no assignment goes past it.
structure Fenced (base cells : Nat) (n : Text) (tree : ScopeTree) : Prop where
  room : cells ≤ tree.cells.size
  fresh : ∀ id cell, base ≤ id → tree.localCell? id n = some cell → cells ≤ cell
  below : ∀ id parent, base ≤ id → tree.isBlock id = true →
    (tree.scope id).parent = some parent → base ≤ parent

/-- A change that leaves the old variables of a name as they were. -/
structure Spares (base cells : Nat) (n : Text) (before after : ScopeTree) : Prop where
  bindings : ∀ id < base, after.localCell? id n = before.localCell? id n
  values : ∀ id cell, id < base → cell < cells → before.localCell? id n = some cell →
    after.read cell = before.read cell

theorem spares_refl (tree : ScopeTree) : Spares base cells n tree tree :=
  ⟨fun _ _ => rfl, fun _ _ _ _ _ => rfl⟩

theorem Spares.trans {s t u : ScopeTree} (first : Spares base cells n s t)
    (second : Spares base cells n t u) : Spares base cells n s u := by
  constructor
  · intro id old
    exact (second.bindings id old).trans (first.bindings id old)
  · intro id cell old oldCell bound
    have still : t.localCell? id n = some cell := (first.bindings id old).trans bound
    exact (second.values id cell old oldCell still).trans (first.values id cell old oldCell bound)

/-- A change that keeps the fence up and spares what is behind it. -/
def Guards (base cells : Nat) (n : Text) (before after : ScopeTree) : Prop :=
  Fenced base cells n before → Fenced base cells n after ∧ Spares base cells n before after

theorem guards_refl (tree : ScopeTree) : Guards base cells n tree tree :=
  fun fence => ⟨fence, spares_refl tree⟩

theorem Guards.trans {s t u : ScopeTree} (first : Guards base cells n s t)
    (second : Guards base cells n t u) : Guards base cells n s u := by
  intro fence
  obtain ⟨fence, spared⟩ := first fence
  obtain ⟨fence, spared'⟩ := second fence
  exact ⟨fence, spared.trans spared'⟩

theorem guards_pushScope (tree : ScopeTree) (parent : Option Nat) (kind : ScopeKind)
    (there : ∀ p ∈ parent, p < tree.scopes.size)
    (inside : kind = .block → ∀ p, parent = some p → base ≤ p) :
    Guards base cells n tree (tree.pushScope parent kind there) := by
  intro fence
  constructor
  · constructor
    · exact fence.room
    · intro id cell new bound
      rw [localCell?_pushScope] at bound
      exact fence.fresh id cell new bound
    · intro id p new block above
      simp only [isBlock, scope, pushScope, Scope.at, getD_push] at block above
      by_cases last : id = tree.scopes.size
      · simp only [last, if_true, beq_iff_eq] at block above
        exact inside block p above
      · simp only [last, if_false] at block above
        exact fence.below id p new block above
  · constructor
    · intro id old
      exact localCell?_pushScope tree parent kind there id n
    · intro id cell old oldCell bound
      rfl

theorem guards_pushCell (tree : ScopeTree) (v : Value) :
    Guards base cells n tree (tree.pushCell v) := by
  intro fence
  have room : cells ≤ (tree.pushCell v).cells.size := by
    simpa [pushCell] using Nat.le_succ_of_le fence.room
  constructor
  · exact ⟨room, fence.fresh, fence.below⟩
  · constructor
    · intro id old
      rfl
    · intro id cell old oldCell bound
      exact read_pushCell tree v cell (Nat.lt_of_lt_of_le oldCell fence.room)

theorem guards_bind (tree : ScopeTree) (id : Nat) (name : Text) (cell : Nat)
    (takes : tree.Takes cell name) (apart : name = n → base ≤ id ∧ cells ≤ cell) :
    Guards base cells n tree (tree.bind id name cell takes) := by
  intro fence
  constructor
  · constructor
    · exact fence.room
    · intro other c new bound
      rw [localCell?_bind] at bound
      split at bound
      · rename_i here
        cases bound
        exact (apart here.2.2.symm).2
      · exact fence.fresh other c new bound
    · intro other p new block above
      rw [scope_bind_parent] at above
      have block' : tree.isBlock other = true := by
        simpa only [isBlock, scope_bind_kind] using block
      exact fence.below other p new block' above
  · constructor
    · intro other old
      -- an old scope only gets a new binding of another name
      rw [localCell?_bind, if_neg]
      rintro ⟨rfl, _, same⟩
      exact Nat.not_lt_of_le (apart same.symm).1 old
    · intro other c old oldCell bound
      rfl

theorem guards_define (tree : ScopeTree) (id : Nat) (name : Text) (v : Value)
    (apart : name = n → base ≤ id) : Guards base cells n tree (tree.define id name v) := by
  intro fence
  -- the new cell comes behind the old ones, whatever scope it is bound in
  have bound := guards_bind (tree.pushCell v) id name _ (tree.takes_pushCell v name)
    (fun same => ⟨apart same, fence.room⟩)
  exact (guards_pushCell tree v).trans bound fence

theorem guards_write (tree : ScopeTree) (cell : Nat) (v : Value)
    (apart : ∀ id old, id < base → old < cells → tree.localCell? id n = some old → cell ≠ old) :
    Guards base cells n tree (tree.write cell v) := by
  intro fence
  have room : cells ≤ (tree.write cell v).cells.size := by simpa [write] using fence.room
  constructor
  · exact ⟨room, fence.fresh, fence.below⟩
  · constructor
    · intro id old
      rfl
    · intro id old inside oldCell bound
      exact read_write tree cell v old (apart id old inside oldCell bound)

theorem guards_defineAll (tree : ScopeTree) (id : Nat) (entries : List (Text × Value))
    (new : base ≤ id) : Guards base cells n tree (tree.defineAll id entries) := by
  induction entries generalizing tree with
  | nil => exact guards_refl tree
  | cons entry rest ih => exact (guards_define tree id entry.1 entry.2 (fun _ => new)).trans (ih _)

/-! How far an assignment reaches. -/

/-- From a new scope blocks lead up to new scopes only. -/
theorem new_of_mem_reach {tree : ScopeTree} (fence : Fenced base cells n tree) (fuel : Nat) :
    ∀ id, base ≤ id → ∀ other ∈ tree.reach (tree.chainWithin fuel id), base ≤ other := by
  induction fuel with
  | zero =>
      intro id new other member
      have same : other = id := by
        simp only [chainWithin, reach] at member
        split at member <;> simpa using member
      rw [same]
      exact new
  | succ fuel ih =>
      intro id new other member
      simp only [chainWithin] at member
      cases above : (tree.scope id).parent with
      | none =>
          have same : other = id := by
            simp only [above, reach] at member
            split at member <;> simpa using member
          rw [same]
          exact new
      | some parent =>
          simp only [above, reach] at member
          split at member
          · rename_i block
            rcases List.mem_cons.mp member with rfl | further
            · exact new
            -- a block that is new hangs below a scope that is new
            · exact ih parent (fence.below id parent new block above) other further
          · rw [List.mem_singleton.mp member]
            exact new

theorem new_owner {tree : ScopeTree} (fence : Fenced base cells n tree) (id : Nat)
    (new : base ≤ id) : base ≤ tree.owner id := by
  unfold owner
  cases last : (tree.reach (tree.chain id)).getLast? with
  | none => exact new
  | some other => exact new_of_mem_reach fence id id new other (List.mem_of_getLast? last)

theorem guards_assign (tree : ScopeTree) (id : Nat) (name : Text) (v : Value) (new : base ≤ id) :
    Guards base cells n tree (tree.assign id name v) := by
  intro fence
  unfold ScopeTree.assign
  split
  · rename_i cell found
    obtain ⟨holder, member, bound⟩ := List.exists_of_findSome?_eq_some found
    apply guards_write tree cell v _ fence
    intro other old _ oldCell bound'
    by_cases same : name = n
    · -- the scope that holds the name is new, so its cell is
      have reached := new_of_mem_reach fence id id new holder member
      have late := fence.fresh holder cell reached (same ▸ bound)
      omega
    · exact cells_apart tree holder other name n cell old bound bound' same
  · exact guards_define tree _ name v (fun _ => new_owner fence id new) fence

/-! Shared variables are of another name. -/

theorem guards_share (tree : ScopeTree) (id : Nat) (name : Text) (differ : name ≠ n) :
    Guards base cells n tree (tree.share id name) := by
  unfold ScopeTree.share
  split
  · exact guards_bind tree _ name _ _ (fun same => absurd same differ)
  · exact (guards_define tree _ name .null (fun same => absurd same differ)).trans
      (guards_bind _ _ name _ _ (fun same => absurd same differ))

theorem guards_write_of_takes (tree : ScopeTree) (name : Text) (cell : Nat) (v : Value)
    (takes : tree.Takes cell name) (differ : name ≠ n) :
    Guards base cells n tree (tree.write cell v) := by
  apply guards_write tree cell v
  rintro id old _ _ bound rfl
  exact differ (takes.2 id n bound).symm

theorem guards_declare (tree : ScopeTree) (id : Nat) (name : Text) (first? : Option Value)
    (differ : name ≠ n) : Guards base cells n tree (tree.declare id name first?).2 := by
  unfold ScopeTree.declare
  cases found : tree.lookup? id name with
  | some cell =>
      cases first? with
      | none => exact guards_refl tree
      | some v =>
          exact guards_write_of_takes tree name cell v (tree.takes_of_lookup? id name cell found)
            differ
  | none =>
      have defined : Guards base cells n tree (tree.define id name .null) :=
        guards_define tree id name .null (fun same => absurd same differ)
      cases first? with
      | none => exact defined
      | some v =>
          exact defined.trans (guards_write_of_takes _ name _ v (tree.takes_define id name .null)
            differ)

/-! Chains of changes. -/

theorem effect_guards {terms : Terms} {part : Part} {s t : State}
    (effect : Chain terms base part s t) (room : base ≤ s.scopes.scopes.size)
    (unused : .used n ∉ s.marksSince t) : Guards base cells n s.scopes t.scopes := by
  induction effect with
  | none s => exact guards_refl s.scopes
  | andThen before after first second =>
      -- the marks of a chain are those of its parts, so both parts are without a use
      rw [State.marksSince_trans (effect_grows before) (effect_grows after), List.mem_append]
        at unused
      have earlier := first room (fun hit => unused (.inr hit))
      have room' := Nat.le_trans room (effect_grows before).scopes.size
      have later := second room' (fun hit => unused (.inl hit))
      exact earlier.trans later
  | data scopes _ _ _ =>
      rw [scopes]
      exact guards_refl _
  | root s entries =>
      -- what is bound at once is bound in the new scope
      exact (guards_pushScope s.scopes none .global (by simp) (by simp)).trans
        (guards_defineAll _ _ entries room)
  | child s parent kind entries inside _ =>
      have above : kind = .block → ∀ p, s.scopes.known? parent = some p → base ≤ p := by
        intro block p known
        exact ((s.scopes.known?_eq_some parent p).mp known).2 ▸ inside block
      exact (guards_pushScope s.scopes _ kind (s.scopes.lt_size_of_known parent) above).trans
        (guards_defineAll _ _ entries room)
  | rebound s scope name v new _ => exact guards_define s.scopes scope name v (fun _ => new)
  | assign s scope name v new => exact guards_assign s.scopes scope name v new
  | marked s m _ => exact guards_refl s.scopes
  | share s scope name _ _ =>
      have differ : name ≠ n := by
        rintro rfl
        apply unused
        rw [State.marksSince_cons rfl]
        exact .head _
      exact guards_share s.scopes scope name differ
  | declare s scope name first? _ _ =>
      have differ : name ≠ n := by
        rintro rfl
        apply unused
        rw [State.marksSince_cons rfl]
        exact .head _
      exact guards_declare s.scopes _ name first? differ
  | inFile s t file _ inner => exact inner room unused
  | inCall s t _ inner => exact inner room unused
  | broken s t path _ _ _ top inner =>
      rw [State.marksSince_broken (effect_grows top)] at unused
      exact inner room (fun hit => unused (List.mem_append_left _ hit))
  | loaded s t path _ _ _ heap place top inner =>
      rw [State.marksSince_keeping (effect_grows top) heap place] at unused
      exact inner room (fun hit => unused (.tail _ (List.mem_append_left _ hit)))
  | imported s path v _ => exact guards_refl s.scopes
  | native s name v => exact guards_refl s.scopes
  | opened s name _ _ heap v => exact guards_refl s.scopes
  | took s loop event rest _ => exact guards_refl s.scopes
  | handled loop _ inner => exact inner room unused
  | whileRunning s t loop _ _ _ inner => exact inner room unused

theorem fenced_at_entry (tree : ScopeTree) :
    Fenced tree.scopes.size tree.cells.size n tree := by
  constructor
  · exact Nat.le_refl _
  -- a scope that is not there binds nothing, and is no block
  · intro id cell new bound
    simp [localCell?, Scope.cellAt?, Scope.at, Array.getD, Nat.not_lt.mpr new, Table.find?] at bound
  · intro id parent new block
    simp [isBlock, scope, Scope.at, Array.getD, Nat.not_lt.mpr new] at block

theorem effect_of_call (host : Host) (fuel : Nat) (f : Closure) (args : List Value) (name : Text)
    (s : State) :
    Effect .any s.scopes.scopes.size s (Eval.after (Eval.callFunction (.of host fuel) f args name)
      s) :=
  effect_of_ensures (Discipline.ensures_callFunction
    (Discipline.obeys_within (fun _ => trivial) (Discipline.obeys_free host fuel) _)
    ⟨f.procedure.placed_of_lenient, Nat.zero_le _⟩ (fun _ _ => trivial)) (Nat.le_refl _)

/-- A call during which no `use` of a name is carried out leaves every variable
of that name from before the call alone, however it ends: no scope from before
has another binding of the name than it had, and every cell that the name was
bound to anywhere holds the value it held. -/
theorem variables_encapsulated (host : Host) (fuel : Nat) (f : Closure) (args : List Value)
    (name : Text) (s : State) (n : Text)
    (unused : .used n ∉
      s.marksSince (Eval.after (Eval.callFunction (.of host fuel) f args name) s)) :
    let t := Eval.after (Eval.callFunction (.of host fuel) f args name) s
    (∀ id < s.scopes.scopes.size, t.scopes.localCell? id n = s.scopes.localCell? id n) ∧
      ∀ id cell, s.scopes.localCell? id n = some cell → t.scopes.read cell =
        s.scopes.read cell := by
  have effect := effect_of_call host fuel f args name s
  obtain ⟨_, spared⟩ := effect_guards effect (Nat.le_refl _) unused (fenced_at_entry s.scopes)
  constructor
  · exact spared.bindings
  · intro id cell bound
    have oldCell := s.scopes.bound id n cell bound
    -- only a scope that was there can have a binding
    have old : id < s.scopes.scopes.size := by
      by_contra new
      have fresh := (fenced_at_entry s.scopes).fresh id cell (Nat.le_of_not_lt new) bound
      exact Nat.not_lt_of_le fresh oldCell
    exact spared.values id cell old oldCell bound

/-- Two global variables, `x` and `z`. -/
def twoGlobals : State :=
  { Interpreter.blankState [] with
    scopes := (ScopeTree.empty.newRoot.2.define 0 [120] (.bool true)).define 0 [122] (.bool true) }

/-- A function that uses `z`, assigns to `x` and `z`, and calls a function made
in it that assigns to `x` again. -/
def assignsBoth : Closure :=
  let here : Location := .origin
  let again : Procedure :=
    ⟨[], [], ⟨[.assign (.ident [120] here) .set (.null here) here], here⟩, .unset⟩
  { name := [102]
    procedure :=
      { params := []
        uses := [[122]]
        body :=
          { statements :=
              [.define [103] again here,
                .assign (.ident [120] here) .set (.bool false here) here,
                .assign (.ident [122] here) .set (.bool false here) here,
                .call (.ident [103] here) [] here here]
            loc := here }
        site := .unset }
    scope := 0
    file := none }

/-- The call uses `z` and leaves `x` alone. -/
theorem global_kept_by_call :
    let t := Eval.after (Eval.callFunction (.of .plain 6) assignsBoth [] [102]) twoGlobals
    .used [122] ∈ twoGlobals.marksSince t ∧ .used [120] ∉ twoGlobals.marksSince t ∧
      (∀ id < twoGlobals.scopes.scopes.size,
        t.scopes.localCell? id [120] = twoGlobals.scopes.localCell? id [120]) ∧
      ∀ id cell, twoGlobals.scopes.localCell? id [120] = some cell →
        t.scopes.read cell = twoGlobals.scopes.read cell :=
  ⟨by decide +kernel, by decide +kernel,
    variables_encapsulated .plain 6 assignsBoth [] [102] twoGlobals [120] (by decide +kernel)⟩

end Loom
