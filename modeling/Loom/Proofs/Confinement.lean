import Loom.Proofs.Aliasing
import Loom.Proofs.Importing
import Loom.Proofs.Nest

/-!
Where a variable can come to be bound. Whatever happens in a run, a cell that was made
for a scope is bound in scopes below that one only: a `use` binds the name of a function
to a variable that stands above the function already. So what is written to the cell is
not seen from anywhere else.
-/

namespace Loom

open Eval Interpreter

namespace ScopeTree

variable {tree after : ScopeTree}

/-! The ways up from scopes. -/

theorem self_mem_chain (tree : ScopeTree) (id : Nat) : id ∈ tree.chain id := by
  cases above : (tree.scope id).parent with
  | none => simp [tree.chain_of_top above]
  | some p => simp [tree.chain_of_parent above]

/-- Above what is above a scope there is only what is above the scope. -/
theorem chain_subset (tree : ScopeTree) (id : Nat) :
    ∀ other ∈ tree.chain id, tree.chain other ⊆ tree.chain id := by
  induction id using tree.upward with
  | step id ih =>
      intro other member
      cases above : (tree.scope id).parent with
      | none =>
          rw [tree.chain_of_top above, List.mem_singleton] at member
          exact member ▸ List.Subset.refl _
      | some p =>
          rw [tree.chain_of_parent above] at member
          rcases List.mem_cons.mp member with rfl | further
          · exact List.Subset.refl _
          · rw [tree.chain_of_parent above]
            exact List.Subset.trans (ih p above other further) (List.subset_cons_self _ _)

theorem chain_owner_of_parent {id p : Nat} (above : (tree.scope (tree.owner id)).parent = some p) :
    tree.chain p ⊆ tree.chain (tree.owner id) := by
  rw [tree.chain_of_parent above]
  exact List.subset_cons_self _ _

/-- Of two scopes that hang below one scope at most one is above a third. -/
theorem eq_of_siblings {id first second p : Nat} (left : first ∈ tree.chain id)
    (right : second ∈ tree.chain id) (parent : (tree.scope first).parent = some p)
    (parent' : (tree.scope second).parent = some p) : first = second := by
  have small := tree.below first p parent
  have small' := tree.below second p parent'
  induction id using tree.upward with
  | step id ih =>
      cases above : (tree.scope id).parent with
      | none =>
          rw [tree.chain_of_top above, List.mem_singleton] at left right
          rw [left, right]
      | some q =>
          rw [tree.chain_of_parent above] at left right
          rcases List.mem_cons.mp left with rfl | further
          · rcases List.mem_cons.mp right with same | further'
            · exact same.symm
            · -- the other one would be above the scope that it hangs below
              cases parent.symm.trans above
              exact absurd (tree.le_of_mem_chain p second further') (by omega)
          · rcases List.mem_cons.mp right with rfl | further'
            · cases parent'.symm.trans above
              exact absurd (tree.le_of_mem_chain p first further) (by omega)
            · exact ih q above further further'

/-- The scopes that are there hang where they did. -/
theorem Extends.chain (grown : tree.Extends after) (id : Nat) (there : id < tree.scopes.size) :
    after.chain id = tree.chain id := by
  induction id using tree.upward with
  | step id ih =>
      have same := grown.parent id there
      cases above : (tree.scope id).parent with
      | none => rw [tree.chain_of_top above, after.chain_of_top (same.trans above)]
      | some p =>
          have small := tree.below id p above
          rw [tree.chain_of_parent above, after.chain_of_parent (same.trans above),
            ih p above (by omega)]

/-! What a run does to scopes. -/

/-- One tree of scopes comes of another by what statements and calls do. -/
inductive LeadsTo : ScopeTree → ScopeTree → Prop
  | none (tree : ScopeTree) : LeadsTo tree tree
  | scope (tree : ScopeTree) (parent : Option Nat) (kind : ScopeKind)
      (there : ∀ p ∈ parent, p < tree.scopes.size) :
      LeadsTo tree (tree.pushScope parent kind there)
  | writes {tree after : ScopeTree} (scope : Nat) (writes : tree.Writes scope after) :
      LeadsTo tree after
  | andThen {s t u : ScopeTree} : LeadsTo s t → LeadsTo t u → LeadsTo s u

theorem leadsTo_defineAll (tree : ScopeTree) (id : Nat) (entries : List (Text × Value)) :
    tree.LeadsTo (tree.defineAll id entries) := by
  induction entries generalizing tree with
  | nil => exact .none tree
  | cons entry rest ih => exact .andThen (.writes id (.define entry.1 entry.2)) (ih _)

theorem LeadsTo.grown (leads : tree.LeadsTo after) : tree.Extends after := by
  induction leads with
  | none tree => exact tree.extends_refl
  | scope tree parent kind there => exact tree.extends_pushScope parent kind there
  | writes scope writes => exact writes.same_shape.extends
  | andThen _ _ first second => exact first.trans second

/-! Cells that are bound below a scope only. -/

/-- A cell that is there and bound in scopes below a scope only. -/
structure Confined (tree : ScopeTree) (top cell : Nat) : Prop where
  there : top < tree.scopes.size
  made : cell < tree.cells.size
  below : ∀ id name, tree.localCell? id name = some cell → top ∈ tree.chain id

variable {top cell : Nat}

/-- What a name means is bound in a scope on the way up. -/
theorem Confined.of_lookup? (confined : tree.Confined top cell) {id : Nat} {name : Text}
    (found : tree.lookup? id name = some cell) : top ∈ tree.chain id := by
  obtain ⟨holder, member, bound⟩ := List.exists_of_findSome?_eq_some found
  exact tree.chain_subset id holder member (confined.below holder name bound)

theorem Confined.pushScope (confined : tree.Confined top cell) (parent : Option Nat)
    (kind : ScopeKind) (there : ∀ p ∈ parent, p < tree.scopes.size) :
    (tree.pushScope parent kind there).Confined top cell where
  there := by
    rw [pushScope_size]
    exact Nat.lt_succ_of_lt confined.there
  made := confined.made
  below id name bound := by
    rw [localCell?_pushScope] at bound
    rw [(tree.extends_pushScope parent kind there).chain id (lt_size_of_localCell? bound)]
    exact confined.below id name bound

/-- Where the scopes stay the same, a cell stays confined that is bound in no others. -/
theorem Confined.of_same_shape (confined : tree.Confined top cell) (same : tree.SameShape after)
    (made : cell < after.cells.size)
    (below : ∀ id name, after.localCell? id name = some cell →
      tree.localCell? id name = some cell ∨ top ∈ tree.chain id) :
    after.Confined top cell where
  there := same.size ▸ confined.there
  made := made
  below id name bound := by
    rw [same.extends.chain id (same.size ▸ lt_size_of_localCell? bound)]
    rcases below id name bound with old | inside
    · exact confined.below id name old
    · exact inside

theorem Confined.write (confined : tree.Confined top cell) (other : Nat) (v : Value) :
    (tree.write other v).Confined top cell :=
  confined.of_same_shape (tree.same_shape_write other v)
    (by simpa [ScopeTree.write] using confined.made) fun _ _ => .inl

theorem Confined.pushCell (confined : tree.Confined top cell) (v : Value) :
    (tree.pushCell v).Confined top cell :=
  confined.of_same_shape ⟨rfl, fun _ => rfl, fun _ => rfl⟩
    (by simpa [ScopeTree.pushCell] using Nat.lt_succ_of_lt confined.made) fun _ _ => .inl

/-- The cell may be bound once more where it is bound above already. -/
theorem Confined.bind (confined : tree.Confined top cell) {id other : Nat} {name : Text}
    (takes : tree.Takes other name) (above : other = cell → top ∈ tree.chain id) :
    (tree.bind id name other takes).Confined top cell := by
  refine confined.of_same_shape (tree.same_shape_bind id name other takes) confined.made ?_
  intro holder label bound
  rw [localCell?_bind] at bound
  split at bound
  · rename_i here
    exact .inr (here.1 ▸ above (Option.some.inj bound))
  · exact .inl bound

theorem Confined.define (confined : tree.Confined top cell) (id : Nat) (name : Text) (v : Value) :
    (tree.define id name v).Confined top cell := by
  refine (confined.pushCell v).bind _ fun same => ?_
  -- the variable that is made has a cell of its own
  exact absurd confined.made (same ▸ Nat.lt_irrefl _)

theorem Confined.share (confined : tree.Confined top cell) (id : Nat) (name : Text) :
    (tree.share id name).Confined top cell := by
  unfold ScopeTree.share
  split
  · rename_i other found
    refine confined.bind _ ?_
    rintro rfl
    obtain ⟨p, above, found⟩ := Option.bind_eq_some_iff.mp found
    exact chain_owner_of_parent above (confined.of_lookup? found)
  · refine (confined.define _ name .null).bind _ fun same => ?_
    exact absurd confined.made (same ▸ Nat.lt_irrefl _)

theorem Confined.declare (confined : tree.Confined top cell) (id : Nat) (name : Text)
    (first? : Option Value) : (tree.declare id name first?).2.Confined top cell := by
  unfold ScopeTree.declare
  cases tree.lookup? id name with
  | some known =>
      cases first? with
      | none => exact confined
      | some v => exact confined.write known v
  | none =>
      cases first? with
      | none => exact confined.define id name .null
      | some v => exact (confined.define id name .null).write _ v

theorem Confined.of_writes (confined : tree.Confined top cell) {scope : Nat}
    (writes : tree.Writes scope after) : after.Confined top cell := by
  cases writes with
  | define name v => exact confined.define scope name v
  | assign name v =>
      unfold ScopeTree.assign
      split
      · exact confined.write _ v
      · exact confined.define _ name v
  | share name => exact confined.share scope name
  | declare name first? => exact confined.declare _ name first?

/-- A run keeps a cell where it is. -/
theorem Confined.leadsTo (confined : tree.Confined top cell) (leads : tree.LeadsTo after) :
    after.Confined top cell := by
  induction leads with
  | none => exact confined
  | scope tree parent kind there => exact confined.pushScope parent kind there
  | writes scope writes => exact confined.of_writes writes
  | andThen _ _ first second => exact second (first confined)

/-- A new variable is confined to the scope that it is made in. -/
theorem confined_define (tree : ScopeTree) (id : Nat) (there : id < tree.scopes.size) (name : Text)
    (v : Value) : (tree.define id name v).Confined id tree.cells.size where
  there := by simpa using there
  made := by simp [ScopeTree.define, ScopeTree.bind, ScopeTree.pushCell]
  below other label bound := by
    rw [localCell?_define] at bound
    split at bound
    · rename_i here
      rw [here.1]
      exact self_mem_chain _ id
    · exact absurd (tree.bound other label _ bound) (Nat.lt_irrefl _)

/-- What is assigned to a confined cell is not seen from scopes that are not below. -/
theorem Confined.get?_assign (confined : tree.Confined top cell) {reader writer : Nat}
    {name label : Text} (v : Value) (outside : top ∉ tree.chain reader)
    (written : tree.target? writer name = some cell) :
    (tree.assign writer name v).get? reader label = tree.get? reader label := by
  simp only [target?] at written
  simp only [ScopeTree.assign, written]
  rw [get?, get?, lookup?_write]
  cases found : tree.lookup? reader label with
  | none => rfl
  | some other =>
      have differ : cell ≠ other := by
        rintro rfl
        exact outside (confined.of_lookup? found)
      rw [Option.map_some, Option.map_some, read_write tree cell v other differ]

end ScopeTree

open ScopeTree

/-! Runs. -/

variable {terms : Terms} {base : Nat} {part : Part} {s t : State}

theorem leadsTo_rooted (s : State) (entries : List (Text × Value)) :
    s.scopes.LeadsTo (s.rooted entries).scopes := by
  have pushed : s.scopes.LeadsTo s.scopes.newRoot.2 := .scope s.scopes none .global (by simp)
  exact pushed.andThen (leadsTo_defineAll _ _ entries)

theorem leadsTo_nested (s : State) (parent : Nat) (kind : ScopeKind)
    (entries : List (Text × Value)) :
    s.scopes.LeadsTo (s.nested parent kind entries).scopes := by
  have pushed : s.scopes.LeadsTo (s.scopes.child parent kind).2 :=
    .scope s.scopes _ kind (s.scopes.lt_size_of_known parent)
  exact pushed.andThen (leadsTo_defineAll _ _ entries)

theorem leadsTo_of_chain (chain : Chain terms base part s t) : s.scopes.LeadsTo t.scopes := by
  induction chain with
  | none s => exact .none _
  | andThen _ _ first second => exact .andThen first second
  | data scopes _ _ _ => exact scopes ▸ .none _
  | root s entries => exact leadsTo_rooted s entries
  | child s parent kind entries => exact leadsTo_nested s parent kind entries
  | rebound s scope name v => exact .writes scope (.define name v)
  | assign s scope name v => exact .writes scope (.assign name v)
  | marked s m => exact .none _
  | share s scope name => exact .writes scope (.share name)
  | declare s scope name first? => exact .writes scope (.declare name first?)
  | inFile s t file _ inner => exact inner
  | inCall s t _ inner => exact inner
  | broken s t path _ _ _ _ inner => exact inner
  | loaded s t path _ _ _ heap place _ inner => exact inner
  | imported s path v => exact .none _
  | native s name v => exact .none _
  | opened s name _ _ heap v => exact .none _
  | took s loop event rest => exact .none _
  | handled loop _ inner => exact inner
  | whileRunning s t loop _ _ _ inner => exact inner

/-- A machine on which all that is evaluated, carried out or called leads scopes on, and so
does what is left of a list of statements or of a loop. -/
structure Machine.LeadsOn (m : Machine) : Prop where
  eval : ∀ e scope (s : State), s.scopes.LeadsTo (Eval.after (m.eval e scope) s).scopes
  block : ∀ statements scope (s : State),
    s.scopes.LeadsTo (Eval.after (m.block statements scope) s).scopes
  call : ∀ callee args name (s : State),
    s.scopes.LeadsTo (Eval.after (m.call callee args name) s).scopes
  task : ∀ (task : Task) (s : State), s.scopes.LeadsTo (Eval.after (task.run m) s).scopes

theorem leadsTo_of_ensures {α : Type} {step : Eval α} {good : State → α → Prop}
    (ensured : Discipline.free.Ensures 0 s step good) :
    s.scopes.LeadsTo (Eval.after step s).scopes :=
  leadsTo_of_chain (effect_of_ensures ensured (Nat.zero_le _))

theorem leadsTo_task {m : Machine} (obeys : m.Obeys Discipline.free 0) (task : Task) (s : State) :
    s.scopes.LeadsTo (Eval.after (task.run m) s).scopes := by
  cases task with
  | all scope statements =>
      exact leadsTo_of_ensures (Discipline.ensures_execAll obeys (Nat.zero_le scope) statements
        (Stmt.allPlaced_of_lenient statements .program) fun asked => asked.elim)
  | one scope st =>
      exact leadsTo_of_ensures (Discipline.ensures_execStmt obeys (Nat.zero_le scope) st
        (st.placed_of_lenient .program) fun asked => asked.elim)
  | branches scope alternate branches =>
      exact leadsTo_of_ensures (Discipline.ensures_execBranches obeys (Nat.zero_le scope) alternate
        branches (Branch.allPlaced_of_lenient branches Grammar.Context.program.branch)
        fun body _ => body.placed_of_lenient Grammar.Context.program.branch)
  | items scope item body items =>
      exact leadsTo_of_ensures (Discipline.ensures_execForEach obeys (Nat.zero_le scope) item body
        (body.placed_of_lenient Grammar.Context.program.loop) items fun _ _ => trivial)
  | turns scope condition body turns =>
      exact leadsTo_of_ensures (Discipline.ensures_execWhile obeys (Nat.zero_le scope) condition
        body condition.placed_of_lenient (body.placed_of_lenient Grammar.Context.program.loop)
        turns)

theorem leadsOn_watched (watch : State → Bool) (alarm : Stop) (host : Host) (fuel : Nat) :
    (Machine.watched watch alarm host fuel).LeadsOn := by
  have obeys : (Machine.watched watch alarm host fuel).Obeys Discipline.free 0 :=
    Discipline.obeys_watched (Discipline.admits_free host) (Nat.le_refl 0)
      (fun _ _ _ _ => trivial) fuel
  constructor
  · intro e scope s
    exact leadsTo_of_ensures (obeys.eval e.placed_of_lenient (Nat.zero_le scope))
  · intro statements scope s
    exact leadsTo_of_ensures (obeys.block (Stmt.allPlaced_of_lenient statements .program)
      (Nat.zero_le scope) fun asked => asked.elim)
  · intro callee args name s
    exact leadsTo_of_ensures (obeys.call trivial fun _ _ => trivial)
  · exact leadsTo_task obeys

/-- A session leads scopes on, as far as it comes. -/
theorem leadsTo_serveAll (watch : State → Bool) (alarm : Stop) (fuel : Nat)
    (requests : List Request) (i : Interpreter) :
    i.state.scopes.LeadsTo
      (i.serveAll (fun host => .watched watch alarm host fuel) requests).2.state.scopes := by
  have serves : Discipline.free.Serves (fun host => .watched watch alarm host fuel) :=
    fun _ admitted => Discipline.obeys_watched admitted (Nat.le_refl 0)
      (fun _ _ _ _ => trivial) fuel
  have kept : Discipline.free.Kept i :=
    ⟨Discipline.ready_free i.state (Nat.zero_le _), fun asked => asked.elim,
      Discipline.admits_free i.host, fun _ => trivial⟩
  apply Discipline.holds_serveAll serves (P := fun s => i.state.scopes.LeadsTo s.scopes)
  · exact fun _ _ chain leads => .andThen leads (leadsTo_of_chain chain)
  · exact fun _ _ leads => leads
  · intro _ j _ leads
    simp only [Interpreter.reset, withNewGlobals_rooted]
    exact leads.andThen (leadsTo_rooted j.state _)
  · exact kept
  · exact fun request _ => request.placed_of_lenient
  · exact .none _

end Loom
