import Loom.Eval.Statement
import Loom.Proofs.Discipline.Import

/-!
What is ensured of statements. How the statements of a block end is said in the
context of the block, and a loop or a branch passes it on to the context around
it. The one place where a slot that holds nothing can come about is an assignment
to a position that has left its array, and there a mark says so.
-/

namespace Loom

open Grammar (Context)

namespace Discipline

open Eval

variable {d : Discipline} {base : Nat} {s : State} {m : Machine} {ctx : Context}

/-! Loops and branches. -/

/-- How statements in the context of a branch may end is how they may end around
it. -/
theorem flows_of_branch {t : State} {flow : Flow} (flows : d.Flows ctx.branch t flow) :
    d.Flows ctx t flow := by
  cases flow <;> exact flows

/-- What a loop does not pass on is its own; what it passes on names one loop
less. -/
theorem flows_of_leave {t : State} {flow after : Flow} (flows : d.Flows ctx.loop t flow)
    (left : Flow.afterPass flow = .leave after) : d.Flows ctx t after := by
  cases flow with
  | normal => simp [Flow.afterPass] at left
  | returned v =>
      cases left
      exact flows
  | broke depth =>
      simp only [Flow.afterPass] at left
      split at left
      · cases left
        intro strict
        have bound : 1 ≤ depth ∧ depth ≤ ctx.loopDepth + 1 := flows strict
        omega
      · cases left
  | continued depth =>
      simp only [Flow.afterPass] at left
      split at left
      · cases left
        intro strict
        have bound : 1 ≤ depth ∧ depth ≤ ctx.loopDepth + 1 := flows strict
        omega
      · cases left

section

variable (obeys : m.Obeys d base) {scope : Nat} (inside : base ≤ scope)
include obeys inside

theorem ensures_execForEach (item : Text) (body : Block) (placed : body.Placed d.strict ctx.loop)
    (items : List Value) (fine : ∀ v ∈ items, d.Fine s v) :
    Ensures d base s (execForEach m item body scope items) (d.Flows ctx) := by
  induction items generalizing s with
  | nil => exact ensures_pure trivial
  | cons v rest ih =>
      have first : ∀ entry ∈ [(item, v)], d.Fine s entry.2 := by simpa using fine v (.head _)
      apply ensures_scope (fun _ _ => rfl) (fun _ => inside) (by simp)
        (Nat.le_trans obeys.settled inside) first
      intro id t below effect
      apply ensures_bind (obeys.block ((Block.placed_iff ..).mp placed) below (top_of_inner rfl))
      intro flow w effect' _ flows
      -- the items were fixed before the first pass, so they are carried over each
      have all : Effect d.terms base s w := .andThen effect effect'
      split
      · exact ih (fun w member => Fine.after all (fine w (.tail _ member)))
      · exact ensures_pure trivial
      · rename_i after left
        exact ensures_pure (flows_of_leave flows left)

theorem ensures_execWhile (condition : Expr) (body : Block) (placed : condition.Placed d.strict)
    (placed' : body.Placed d.strict ctx.loop) (fuel : Nat) :
    Ensures d base s (execWhile m condition body scope fuel) (d.Flows ctx) := by
  induction fuel generalizing s with
  | zero => exact ensures_outOfFuel
  | succ fuel ih =>
      apply ensures_condition obeys inside placed
      intro b t _ _
      cases b with
      | false => exact ensures_pure trivial
      | true =>
          apply ensures_bind (ensures_newBlock inside (Nat.le_trans obeys.settled inside))
          intro id u _ _ below
          apply ensures_bind (obeys.block ((Block.placed_iff ..).mp placed') below
            (top_of_inner rfl))
          intro flow v _ _ flows
          split
          · exact ih
          · exact ensures_pure trivial
          · rename_i after left
            exact ensures_pure (flows_of_leave flows left)

theorem ensures_branchBody (body : Block) (placed : body.Placed d.strict ctx.branch) :
    Ensures d base s (do m.block body.statements (← newScope scope .block)) (d.Flows ctx) := by
  apply ensures_bind (ensures_newBlock inside (Nat.le_trans obeys.settled inside))
  intro id t _ _ below
  exact ensures_of_imp
    (obeys.block ((Block.placed_iff ..).mp placed) below (top_of_inner rfl))
      (fun _ _ flows => flows_of_branch flows)

theorem ensures_execBranches (alternate : Option Block) (branches : List Branch)
    (placed : Branch.AllPlaced d.strict branches ctx.branch)
    (placed' : ∀ body ∈ alternate, body.Placed d.strict ctx.branch) :
    Ensures d base s (execBranches m alternate scope branches) (d.Flows ctx) := by
  induction branches generalizing s with
  | nil =>
      cases alternate with
      | none => exact ensures_pure trivial
      | some body => exact ensures_branchBody obeys inside body (placed' body rfl)
  | cons branch rest ih =>
      obtain ⟨condition, body⟩ := branch
      simp only [Branch.AllPlaced] at placed
      apply ensures_condition obeys inside placed.1
      intro b t _ _
      cases b with
      | true => exact ensures_branchBody obeys inside body placed.2.1
      | false => exact ih placed.2.2

end

/-! Variables shared with the host. -/

theorem ensures_declareShared {scope : Nat} (name : Text) (first? : Option Value)
    (inside : base ≤ scope) (global : (s.scopes.scope (s.scopes.owner scope)).kind = .global)
    (fine : ∀ v ∈ first?, d.Fine s v) :
    Ensures d base s (declareShared (s.scopes.owner scope) name first?) (fun _ _ => True) :=
  ensures_modify (.declare s scope name first? inside global)
    (fun all => ⟨all.cells.declare _ name first? (d.data rfl) fine, all.heap, all.handlers,
      all.natives, all.modules⟩) trivial

theorem ensures_declareUse {scope : Nat} (inside : base ≤ scope) (name : Text) :
    Ensures d base s (declareUse m scope name) (fun _ _ => True) := by
  apply ensures_get
  intro _
  dsimp only
  split
  · exact ensures_shareOuter inside
  · rename_i global
    have global : (s.scopes.scope (s.scopes.owner scope)).kind = .global := not_not.mp global
    split
    · rename_i data _
      -- making a value of data leaves the scopes alone
      have still : ∀ v t, ofJson data s = .ok v t → t.scopes = s.scopes := by
        intro _ _ same
        cases same
        rfl
      apply ensures_bind (ensures_also (ensures_ofJson data) still)
      rintro v t _ _ ⟨fine, same⟩
      rw [← same] at global ⊢
      exact ensures_declareShared name (some v) inside global (by simpa using fine)
    · exact ensures_declareShared name none inside global (by simp)

theorem ensures_declareAll {scope : Nat} (inside : base ≤ scope) (names : List Text) :
    Ensures d base s (declareAll m scope names) (fun _ _ => True) := by
  induction names generalizing s with
  | nil => exact ensures_pure trivial
  | cons name rest ih =>
      exact ensures_then (ensures_declareUse inside name) (fun _ _ _ _ => ih)

/-! Assignments. -/

/-- An assignment reads the old value in the state in which it works out the new
one. -/
theorem ensures_assigned {op : AssignOp} {old : Eval Value} {v : Value} (fine : d.Fine s v)
    (previous : Ensures d base s old (Still s (d.Fine s))) :
    Ensures d base s (assigned op old v) (Result d s) := by
  unfold assigned
  split
  · exact ensures_pure ⟨fine, rfl⟩
  · rename_i op _
    apply ensures_still previous
    intro w _ read
    exact ensures_binary op read fine

theorem ensures_elementPosition (ref : Nat) {position : Value} (fine : d.Fine s position) :
    Ensures d base s (elementPosition ref position) (fun _ _ => True) := by
  apply ensures_still (ensures_expectNumber fine)
  intro x _ _
  apply ensures_still (ensures_array ref)
  intro slots _ _
  dsimp only
  split
  · split
    · exact ensures_pure trivial
    · exact ensures_fault (by simp [Fault.IsExit])
  · exact ensures_fault (by simp [Fault.IsExit])

/-- Behind the end of an array there is a missing value to read, which is only
read behind a mark. -/
theorem ensures_element (ref i : Nat)
    (marked : (s.heap.array ref).size ≤ i → d.value s.history .missing) :
    Ensures d base s (element ref i) (Still s (d.Fine s)) := by
  apply ensures_still (ensures_array ref)
  rintro slots ready rfl
  have read : d.Fine s ((s.heap.array ref)[i]?.join.getD .missing) := by
    by_cases inside : i < (s.heap.array ref).size
    · have held := fine_of_slot ready ref i inside
      simpa [Slot.read, Array.getElem?_eq_getElem inside] using held
    · have outside : (s.heap.array ref).size ≤ i := Nat.le_of_not_lt inside
      simpa [Array.getElem?_eq_none outside] using marked outside
  exact ensures_pure ⟨rfl, read⟩

/-- The second half of an assignment to an element: what is behind the end of the
array is marked by now. -/
theorem ensures_store (ref i : Nat) (op : AssignOp) {v : Value} (fine : d.Fine s v)
    (marked : (s.heap.array ref).size ≤ i → d.value s.history .missing) :
    Ensures d base s (do
      let v ← assigned op (element ref i) v
      modifyArray ref (fun elements => Heap.storeAt elements i v)) (fun _ _ => True) := by
  apply ensures_bind (ensures_assigned fine (ensures_element ref i marked))
  intro w t effect ready result
  obtain ⟨fine, same⟩ := result
  -- an operator has left the heap as it was, so the array is as long as before
  have gap : (t.heap.array ref).size < i → d.value t.history .missing := by
    intro gap
    rw [same] at gap
    exact Fine.after effect (marked (Nat.le_of_lt gap))
  exact ensures_modifyArray (Heap.forall_storeAt _ i w (ready.held.heap.slots ref) fine gap)

theorem ensures_storeElement (ref i : Nat) (op : AssignOp) {v : Value} (fine : d.Fine s v) :
    Ensures d base s (storeElement ref i op v) (fun _ _ => True) := by
  apply ensures_still (ensures_array ref)
  rintro slots _ rfl
  by_cases outside : (s.heap.array ref).size ≤ i
  · -- the mark is what allows the missing values that may come of this
    simp only [outside, if_true]
    apply ensures_bind (ensures_mark (.vanished ref i) trivial)
    intro _ u effect _ same
    subst same
    apply ensures_store ref i op (Fine.after effect fine)
    intro _
    exact d.vanished (.head _)
  · simp only [outside, if_false]
    exact ensures_store ref i op fine (fun absent => absurd absent outside)

section

variable (obeys : m.Obeys d base) {scope : Nat} (inside : base ≤ scope)
include obeys inside

theorem ensures_execAssign (target : Target) (op : AssignOp) (value : Expr)
    (placed : target.Placed d.strict) (placed' : value.Placed d.strict) :
    Ensures d base s (execAssign m target op value scope) (fun _ _ => True) := by
  cases target with
  | ident name loc =>
      apply ensures_bind (obeys.eval placed' inside)
      intro v t _ _ fine
      apply ensures_bind (ensures_assigned fine ensures_lookup)
      intro w u _ _ result
      exact ensures_assign inside result.1
  | field object name loc =>
      simp only [Target.Placed] at placed
      apply ensures_bind (obeys.eval placed inside)
      intro o t _ _ fine
      split
      · rename_i ref
        apply ensures_bind (obeys.eval placed' inside)
        intro v u _ _ fine
        apply ensures_bind (ensures_assigned fine (ensures_entry ref name))
        intro w v _ ready result
        have held := ready.held.heap.entries ref
        exact ensures_modifyHash (Table.forall_insert name w _ held result.1)
      · exact ensures_typeFaultOf fine
  | index object position loc =>
      simp only [Target.Placed] at placed
      apply ensures_bind (obeys.eval placed.1 inside)
      intro o t _ _ fine
      apply ensures_bind (obeys.eval placed.2 inside)
      intro p u effect _ fine'
      have subject := Fine.after effect fine
      split
      · apply ensures_then (ensures_elementPosition _ fine')
        intro i v _ _
        apply ensures_bind (obeys.eval placed' inside)
        intro w x _ _ fine
        exact ensures_storeElement _ i op fine
      · rename_i ref
        apply ensures_still (ensures_textOf fine')
        intro key _ _
        apply ensures_bind (obeys.eval placed' inside)
        intro w x _ _ fine
        apply ensures_bind (ensures_assigned fine (ensures_entry ref key))
        intro w v _ ready result
        have held := ready.held.heap.entries ref
        exact ensures_modifyHash (Table.forall_insert key w _ held result.1)
      · exact ensures_typeFaultOf subject

/-! Statements. -/

theorem ensures_execStmt (st : Stmt) (placed : st.Placed d.strict ctx)
    (top : d.Top ctx s scope) :
    Ensures d base s (execStmt m st scope) (d.Flows ctx) := by
  cases st with
  | define name procedure loc =>
      simp only [Stmt.Placed] at placed
      apply ensures_get
      intro _
      have home := Nat.le_trans obeys.settled inside
      exact ensures_then (ensures_rebind inside .defined (d.closure.mpr ⟨placed, home⟩))
        (fun _ _ _ _ => ensures_pure trivial)
  | cond branches alternate loc =>
      cases alternate with
      | none =>
          simp only [Stmt.Placed] at placed
          exact ensures_execBranches obeys inside none branches placed (by simp)
      | some body =>
          simp only [Stmt.Placed] at placed
          exact ensures_execBranches obeys inside (some body) branches placed.1
            (by simpa using placed.2)
  | forEach item subject body loc =>
      simp only [Stmt.Placed] at placed
      apply ensures_bind (obeys.eval placed.1 inside)
      intro v t _ _ fine
      apply ensures_bind (ensures_itemsOf fine)
      intro items u _ _ fine
      exact ensures_execForEach obeys inside item body placed.2 items fine
  | whileLoop condition body loc =>
      simp only [Stmt.Placed] at placed
      exact ensures_execWhile obeys inside condition body placed.1 placed.2 m.fuel
  | assign target op value loc =>
      simp only [Stmt.Placed] at placed
      exact ensures_then (ensures_execAssign obeys inside target op value placed.1 placed.2)
        (fun _ _ _ _ => ensures_pure trivial)
  | use names loc =>
      exact ensures_then (ensures_declareAll inside names) (fun _ _ _ _ => ensures_pure trivial)
  | giveBack value loc =>
      cases value with
      | none =>
          simp only [Stmt.Placed] at placed
          exact ensures_pure ⟨d.data rfl, placed⟩
      | some value =>
          simp only [Stmt.Placed] at placed
          apply ensures_bind (obeys.eval placed.2 inside)
          intro v t _ _ fine
          exact ensures_pure ⟨fine, placed.1⟩
  | emit value key loc =>
      simp only [Stmt.Placed] at placed
      apply ensures_bind (obeys.eval placed inside)
      intro v t _ _ fine
      apply ensures_still (ensures_textOf fine)
      intro text _ _
      exact ensures_then (ensures_emit text key) (fun _ _ _ _ => ensures_pure trivial)
  | imports native modules loc =>
      simp only [Stmt.Placed, Context.Allows] at placed
      have global : d.terms.atTop → (s.scopes.scope scope).kind = .global :=
        fun asked => top asked (placed (strict_of_atTop asked))
      exact ensures_then (ensures_importEach obeys native inside modules global)
        (fun _ _ _ _ => ensures_pure trivial)
  | leave depth loc =>
      simp only [Stmt.Placed] at placed
      exact ensures_pure placed
  | next depth loc =>
      simp only [Stmt.Placed] at placed
      exact ensures_pure placed
  | call callee args callLoc loc =>
      simp only [Stmt.Placed] at placed
      exact ensures_bind (ensures_evalCall obeys inside callee args placed.1 placed.2)
        (fun _ _ _ _ _ => ensures_pure trivial)

theorem ensures_execAll (list : List Stmt) (placed : Stmt.AllPlaced d.strict list ctx)
    (top : d.Top ctx s scope) :
    Ensures d base s (execAll m scope list) (d.Flows ctx) := by
  induction list generalizing s with
  | nil => exact ensures_pure trivial
  | cons st rest ih =>
      simp only [Stmt.AllPlaced] at placed
      have carried : Ensures d base s (during st (execStmt m st scope)) (d.Flows ctx) :=
        ensures_during (ensures_execStmt obeys inside st placed.1 top)
          (fun _ flow flows => by cases flow <;> exact flows)
      apply ensures_bind (ensures_located carried)
      intro flow t effect _ flows
      cases flow with
      | normal => exact ih placed.2 (top.after (effect_grows effect))
      | returned v => exact ensures_pure flows
      | broke depth => exact ensures_pure flows
      | continued depth => exact ensures_pure flows

omit obeys inside in
theorem allPlaced_inOrder (strict : Bool) (list : List Stmt)
    (placed : Stmt.AllPlaced strict list ctx) : Stmt.AllPlaced strict (inOrder list) ctx := by
  rw [Stmt.allPlaced_iff] at placed ⊢
  intro st member
  apply placed st
  -- each of the three parts is made of statements of the block
  simp only [inOrder, List.mem_append, List.mem_filter] at member
  rcases member with (first | second) | third
  · exact first.1
  · exact second.1
  · exact third.1

theorem ensures_execBlock (list : List Stmt) (placed : Stmt.AllPlaced d.strict list ctx)
    (top : d.Top ctx s scope) :
    Ensures d base s (execBlock m list scope) (d.Flows ctx) :=
  ensures_execAll obeys inside _ (allPlaced_inOrder d.strict list placed) top

end

end Discipline

end Loom
