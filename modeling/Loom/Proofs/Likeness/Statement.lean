import Loom.Eval.Statement
import Loom.Interpreter
import Loom.Proofs.Likeness.Import

/-!
Statements over a machine that respects a likeness, and from them, by induction on the fuel,
that every machine respects every likeness. So runs and calls on like states end alike.
-/

namespace Loom

variable {l : Likeness}

namespace Eval

/-! Assignments. -/

theorem agree_assigned (op : AssignOp) {old old' : Eval Value}
    (before : Agree l (Value.Like l) old old') {v v' : Value} (same : Value.Like l v v') :
    Agree l (Value.Like l) (assigned op old v) (assigned op old' v') := by
  unfold assigned
  split
  · exact agree_pure same
  · exact agree_bind before (fun _ _ was => agree_binary was same _)

theorem agree_elementPosition (ref : Nat) {position position' : Value}
    (same : Value.Like l position position') :
    Agree l Eq (elementPosition ref position)
      (elementPosition (l.before.arrays + ref) position') := by
  apply agree_bind (agree_expectNumber same _)
  intro x x' number
  apply agree_bind (agree_array ref)
  intro slots slots' elements
  have outside : Agree l Eq (runtimeFault (.indexOutOfRange x slots.size) : Eval Nat)
      (runtimeFault (.indexOutOfRange x' slots.size)) :=
    agree_runtimeFault (number.map (RuntimeFault.indexOutOfRange · slots.size)
      (congrArg (RuntimeFault.indexOutOfRange · slots.size)))
  rw [indexOf?_plain number.looks, ← elements.size_eq]
  dsimp only
  split
  · split
    · exact agree_pure rfl
    · exact outside
  · exact outside

theorem agree_element (ref i : Nat) :
    Agree l (Value.Like l) (element ref i) (element (l.before.arrays + ref) i) :=
  agree_bind (agree_array ref) (fun _ _ elements => agree_pure (elements.valueAt i))

theorem agree_storeElement (ref i : Nat) (op : AssignOp) {v v' : Value}
    (same : Value.Like l v v') :
    Agree l Eq (storeElement ref i op v) (storeElement (l.before.arrays + ref) i op v') := by
  have stored : Agree l Eq
      (do
        let v ← assigned op (element ref i) v
        modifyArray ref (fun elements => Heap.storeAt elements i v))
      (do
        let v ← assigned op (element (l.before.arrays + ref) i) v'
        modifyArray (l.before.arrays + ref) (fun elements => Heap.storeAt elements i v)) :=
    agree_bind (agree_assigned op (agree_element ref i) same) (fun _ _ value =>
      agree_modifyArray ref (fun _ _ slots => slots.storeAt i value))
  apply agree_bind (agree_array ref)
  intro slots slots' elements
  rw [elements.size_eq]
  split
  · exact agree_then (agree_mark _ _) (fun _ => stored)
  · exact stored

/-! Variables shared with the host. -/

theorem agree_declareShared (scope : Nat) (name : Text) {first? first?' : Option Value}
    (same : Option.Rel (Value.Like l) first? first?') :
    Agree l Eq (declareShared scope name first?)
      (declareShared (l.before.scopes + scope) name first?') := by
  apply agree_modify
  intro s t states
  obtain ⟨cell, scopes⟩ := states.scopes.declare scope name same
  refine { states with scopes := scopes, shared := ?_ }
  dsimp only
  rw [cell, states.shared, Table.insert_mapped]

theorem agree_declareUse (m : Machine) (scope : Nat) (name : Text) :
    Agree l Eq (declareUse m scope name) (declareUse m (l.before.scopes + scope) name) := by
  apply agree_get
  intro s t states
  dsimp only
  rw [states.scopes.owner_eq, states.scopes.kind_eq]
  split
  · exact agree_shareOuter scope name
  · split
    · exact agree_bind (agree_ofJson _) (fun _ _ value =>
        agree_declareShared _ name (.some value))
    · exact agree_declareShared _ name .none

theorem agree_declareAll (m : Machine) (scope : Nat) (names : List Text) :
    Agree l Eq (declareAll m scope names) (declareAll m (l.before.scopes + scope) names) := by
  induction names with
  | nil => exact agree_pure rfl
  | cons name rest ih => exact agree_then (agree_declareUse m scope name) (fun _ => ih)

/-- What comes after a pass through the body of a loop, which may go on with `again`. -/
theorem agree_afterPass {flow flow' : Flow} (same : Flow.Like l flow flow')
    {again again' : Eval Flow} (goes : Agree l (Flow.Like l) again again') :
    Agree l (Flow.Like l)
      (match Flow.afterPass flow with
        | .again => again
        | .stop => pure .normal
        | .leave flow => pure flow)
      (match Flow.afterPass flow' with
        | .again => again'
        | .stop => pure .normal
        | .leave flow => pure flow) := by
  cases same with
  | normal => exact goes
  | returned like => exact agree_pure (.returned like)
  | broke depth =>
      simp only [Flow.afterPass]
      by_cases outer : 1 < depth
      · simp only [outer, if_true]
        exact agree_pure (.broke _)
      · simp only [outer, if_false]
        exact agree_pure .normal
  | continued depth =>
      simp only [Flow.afterPass]
      by_cases outer : 1 < depth
      · simp only [outer, if_true]
        exact agree_pure (.continued _)
      · simp only [outer, if_false]
        exact goes

variable {m : Machine} (respects : m.Respects l)

section

variable {r : Revision} (admitted : l.Admits r)
include respects admitted

theorem agree_body (body : Block) (scope : Nat) :
    Agree l (Flow.Like l) (m.block body.statements scope)
      (m.block (body.revised r).statements (l.before.scopes + scope)) := by
  rw [body.statements_revised]
  exact respects.block admitted body.statements scope

theorem agree_execForEach (item : Text) (body : Block) (scope : Nat) {items items' : List Value}
    (same : List.Forall₂ (Value.Like l) items items') :
    Agree l (Flow.Like l) (execForEach m item body scope items)
      (execForEach m item (body.revised r) (l.before.scopes + scope) items') := by
  induction same with
  | nil => exact agree_pure .normal
  | cons first _ ih =>
      apply agree_bind (agree_newScope scope _)
      rintro inner _ rfl
      apply agree_then (agree_define inner item first)
      intro _
      apply agree_bind (agree_body respects admitted body inner)
      intro flow flow' ended
      exact agree_afterPass ended ih

theorem agree_execWhile (condition : Expr) (body : Block) (scope fuel : Nat) :
    Agree l (Flow.Like l) (execWhile m condition body scope fuel)
      (execWhile m (condition.revised r) (body.revised r) (l.before.scopes + scope) fuel) := by
  induction fuel with
  | zero => exact agree_outOfFuel
  | succ fuel ih =>
      apply agree_bind (respects.eval admitted condition scope)
      intro v v' same
      apply agree_then (agree_truthy same)
      intro b
      cases b with
      | false => exact agree_pure .normal
      | true =>
          apply agree_bind (agree_newScope scope _)
          rintro inner _ rfl
          apply agree_bind (agree_body respects admitted body inner)
          intro flow flow' ended
          exact agree_afterPass ended ih

theorem agree_execBranches (alternate : Option Block) (scope : Nat) (branches : List Branch) :
    Agree l (Flow.Like l) (execBranches m alternate scope branches)
      (execBranches m (alternate.map (Block.revised r)) (l.before.scopes + scope)
        (Branch.allRevised r branches)) := by
  have entered : ∀ body : Block, Agree l (Flow.Like l)
      (do
        let inner ← newScope scope .block
        m.block body.statements inner)
      (do
        let inner ← newScope (l.before.scopes + scope) .block
        m.block (body.revised r).statements inner) := by
    intro body
    apply agree_bind (agree_newScope scope _)
    rintro inner _ rfl
    exact agree_body respects admitted body inner
  induction branches with
  | nil =>
      cases alternate with
      | none => exact agree_pure .normal
      | some body => exact entered body
  | cons branch rest ih =>
      obtain ⟨condition, body⟩ := branch
      apply agree_bind (respects.eval admitted condition scope)
      intro v v' same
      apply agree_then (agree_truthy same)
      intro b
      cases b with
      | true => exact entered body
      | false => exact ih

theorem agree_execAssign (target : Target) (op : AssignOp) (value : Expr) (scope : Nat) :
    Agree l Eq (execAssign m target op value scope)
      (execAssign m (target.revised r) op (value.revised r) (l.before.scopes + scope)) := by
  have stored : ∀ (ref : Nat) (key : Text), Agree l Eq
      (do
        let v ← m.eval value scope
        let v ← assigned op (entry ref key) v
        modifyHash ref (Table.insert key v))
      (do
        let v ← m.eval (value.revised r) (l.before.scopes + scope)
        let v ← assigned op (entry (l.before.hashes + ref) key) v
        modifyHash (l.before.hashes + ref) (Table.insert key v)) := by
    intro ref key
    apply agree_bind (respects.eval admitted value scope)
    intro v v' same
    apply agree_bind (agree_assigned op (agree_entry ref key) same)
    intro w w' stored
    exact agree_modifyHash ref (fun _ _ entries => entries.insert key stored)
  cases target with
  | ident name loc =>
      simp only [Target.revised]
      apply agree_bind (respects.eval admitted value scope)
      intro v v' same
      exact agree_bind (agree_assigned op (agree_lookup scope name) same)
        (fun _ _ stored => agree_assign scope name stored)
  | field object name loc =>
      simp only [Target.revised]
      apply agree_bind (respects.eval admitted object scope)
      intro o o' same
      have like := same
      cases same with
      | hash ref => exact stored ref name
      | _ => exact agree_refused like _ _
  | index object position loc =>
      simp only [Target.revised]
      apply agree_bind (respects.eval admitted object scope)
      intro o o' same
      apply agree_bind (respects.eval admitted position scope)
      intro p p' place
      have like := same
      cases same with
      | array ref =>
          apply agree_then (agree_elementPosition ref place)
          intro i
          exact agree_bind (respects.eval admitted value scope)
            (fun _ _ same => agree_storeElement ref i op same)
      | hash ref => exact agree_then (agree_textOf place) (fun key => stored ref key)
      | _ => exact agree_refused like _ _

theorem agree_execStmt (st : Stmt) (scope : Nat) :
    Agree l (Flow.Like l) (execStmt m st scope)
      (execStmt m (st.revised r) (l.before.scopes + scope)) := by
  cases st with
  | define name procedure loc =>
      simp only [Stmt.revised]
      apply agree_get
      intro s t states
      rw [states.file]
      have defined : Value.Like l _ _ :=
        .function (Closure.like_revised admitted name procedure scope s.file) false
      exact agree_then (agree_rebind scope name _ _ defined) (fun _ => agree_pure .normal)
  | cond branches alternate loc =>
      have chosen := agree_execBranches respects admitted alternate scope branches
      cases alternate with
      | none =>
          simp only [Stmt.revised]
          exact chosen
      | some body =>
          simp only [Stmt.revised]
          exact chosen
  | forEach item subject body loc =>
      simp only [Stmt.revised]
      apply agree_bind (respects.eval admitted subject scope)
      intro v v' same
      exact agree_bind (agree_itemsOf same)
        (fun _ _ items => agree_execForEach respects admitted item body scope items)
  | whileLoop condition body loc =>
      simp only [Stmt.revised]
      exact agree_execWhile respects admitted condition body scope m.fuel
  | assign target op value loc =>
      simp only [Stmt.revised]
      exact agree_then (agree_execAssign respects admitted target op value scope)
        (fun _ => agree_pure .normal)
  | use names loc =>
      simp only [Stmt.revised]
      exact agree_then (agree_declareAll m scope names) (fun _ => agree_pure .normal)
  | giveBack value? loc =>
      cases value? with
      | none =>
          simp only [Stmt.revised]
          exact agree_pure (.returned .null)
      | some value =>
          simp only [Stmt.revised]
          exact agree_bind (respects.eval admitted value scope)
            (fun _ _ same => agree_pure (.returned same))
  | emit value key loc =>
      simp only [Stmt.revised]
      apply agree_bind (respects.eval admitted value scope)
      intro v v' same
      apply agree_then (agree_textOf same)
      intro line
      exact agree_then (agree_emit line key) (fun _ => agree_pure .normal)
  | imports native modules loc =>
      simp only [Stmt.revised]
      exact agree_then (agree_importEach respects native scope modules)
        (fun _ => agree_pure .normal)
  | leave depth loc =>
      simp only [Stmt.revised]
      exact agree_pure (.broke depth)
  | next depth loc =>
      simp only [Stmt.revised]
      exact agree_pure (.continued depth)
  | call callee args site loc =>
      simp only [Stmt.revised]
      exact agree_bind (agree_evalCall respects admitted scope callee args)
        (fun _ _ _ => agree_pure .normal)

theorem agree_execBlock (statements : List Stmt) (scope : Nat) :
    Agree l (Flow.Like l) (execBlock m statements scope)
      (execBlock m (Stmt.allRevised r statements) (l.before.scopes + scope)) := by
  have inTurn : ∀ list, Agree l (Flow.Like l) (execAll m scope list)
      (execAll m (l.before.scopes + scope) (Stmt.allRevised r list)) := by
    intro list
    induction list with
    | nil => exact agree_pure .normal
    | cons st rest ih =>
        have carried := agree_during st (st.revised r) (agree_execStmt respects admitted st scope)
        have first := agree_located st.loc carried
        simp only [Stmt.allRevised, execAll, st.revised_keeps r]
        apply agree_bind first
        intro flow flow' same
        cases same with
        | normal => exact ih
        | returned like => exact agree_pure (.returned like)
        | broke depth => exact agree_pure (.broke depth)
        | continued depth => exact agree_pure (.continued depth)
  unfold execBlock
  rw [inOrder_revised]
  exact inTurn (inOrder statements)

end

/-- By induction on the fuel: every machine respects every likeness. -/
theorem respects_of (l : Likeness) (host : Host) (fuel : Nat) :
    (Machine.of host fuel).Respects l := by
  induction fuel with
  | zero =>
      exact
        { eval := fun _ _ _ => agree_outOfFuel
          block := fun _ _ _ => agree_outOfFuel
          call := fun _ _ _ => agree_outOfFuel }
  | succ fuel ih =>
      exact
        { eval := agree_evalExpr ih
          block := agree_execBlock ih
          call := fun name same given => agree_callValue ih same given name }

include respects

/-- A program that has its sites runs like a revision of it with those of the other run. -/
theorem agree_runOn {r : Revision} (admitted : l.Admits r) (program : Program)
    (file : Option Text) :
    Agree l Eq (Interpreter.runOn m program file)
      (Interpreter.runOn m (program.revised r) file) := by
  apply agree_then agree_nothingUnderway
  intro _
  apply agree_get
  intro s t states
  rw [states.globals]
  exact agree_inFile file (agree_topLevel respects admitted program s.globals)

/-- A program that was just read runs like a revision of it that keeps its numbers, but
maybe for the sign of zero. -/
theorem agree_runRead {r : Revision} (numbers : ∀ x, l.Same plainNumber x (r.number x))
    (program : Program) (file : Option Text) :
    Agree l Eq (Interpreter.runRead m program file)
      (Interpreter.runRead m (program.revised r) file) := by
  apply agree_bind (agree_numbered numbers program)
  rintro program _ ⟨r, admitted, rfl⟩
  exact agree_runOn respects admitted program file

/-- A program that the host has made brings its sites along, so it is the same in both
runs. -/
theorem agree_runMade (made : HostProgram) (file : Option Text) :
    Agree l Eq (Interpreter.runOn m made.numbered file)
      (Interpreter.runOn m made.numbered file) := by
  have same : made.numbered.revised (Revision.nothing.numbered l.site) = made.numbered := by
    have fixed := made.program.withSites_revised .nothing l.renumbering
      (show l.renumbering.site ⟨.host made.number, 0⟩ = ⟨.host made.number, 0⟩ from rfl)
    rw [made.program.revised_nothing] at fixed
    exact fixed.symm
  have ran :=
    agree_runOn respects (Likeness.admits_numbered (l := l) (r := .nothing) fun x => .refl x)
    made.numbered file
  rwa [same] at ran

theorem agree_callOn (name : Text) (args : List Json) :
    Agree l Eq (Interpreter.callOn m name args) (Interpreter.callOn m name args) := by
  have given : ∀ args : List Json, Agree l (List.Forall₂ (Value.Like l))
      (Interpreter.allOfJson args) (Interpreter.allOfJson args) := by
    intro args
    induction args with
    | nil => exact agree_pure .nil
    | cons data rest ih =>
        apply agree_bind (agree_ofJson data)
        intro v v' first
        exact agree_bind ih (fun _ _ others => agree_pure (.cons first others))
  apply agree_then agree_nothingUnderway
  intro _
  apply agree_get
  intro s t states
  rw [states.globals]
  apply agree_bind (agree_lookup s.globals name)
  intro callee callee' called
  apply agree_bind (given args)
  intro values values' like
  apply agree_bind (agree_hostCall respects called like)
  intro v v' result
  apply agree_then (agree_typeOf result)
  intro type
  exact agree_then (agree_textOf result) (fun _ => agree_pure rfl)

end Eval

end Loom
