import Loom.Eval.Statement
import Loom.Proofs.Veil.Import

/-!
Statements that speak of no hidden name overlook the hidden variables, and from this, by
induction on the fuel, so does every machine of a host whose modules speak of none.
-/

namespace Loom

namespace Eval

variable {veil : Veil}

/-! Assignments. -/

theorem overlooks_assigned (op : AssignOp) {old : Eval Value}
    (before : Overlooks veil (Value.Avoids veil.names) old) {v : Value}
    (avoids : v.Avoids veil.names) :
    Overlooks veil (Value.Avoids veil.names) (assigned op old v) := by
  unfold assigned
  split
  · exact overlooks_pure avoids
  · exact overlooks_then before (fun was => overlooks_binary _ was v)

theorem overlooks_elementPosition (ref : Nat) (position : Value) :
    Overlooks veil (fun _ => True) (elementPosition ref position) := by
  apply overlooks_then (overlooks_expectNumber position _)
  intro x
  apply overlooks_then (overlooks_array ref)
  intro slots
  dsimp only
  split
  · split
    · exact overlooks_pure trivial
    · exact overlooks_runtimeFault _
  · exact overlooks_runtimeFault _

theorem overlooks_element (ref i : Nat) :
    Overlooks veil (Value.Avoids veil.names) (element ref i) := by
  apply overlooks_bind (overlooks_array ref)
  intro slots held
  apply overlooks_pure
  cases here : slots[i]? with
  | none => trivial
  | some slot =>
      have avoids := held slot (Array.mem_of_getElem? here)
      cases slot with
      | none => trivial
      | some v => exact avoids

theorem overlooks_storeElement (ref i : Nat) (op : AssignOp) {v : Value}
    (avoids : v.Avoids veil.names) :
    Overlooks veil (fun _ => True) (storeElement ref i op v) := by
  have stored : Overlooks veil (fun _ => True) (do
      let v ← assigned op (element ref i) v
      modifyArray ref (fun elements => Heap.storeAt elements i v)) :=
    overlooks_bind (overlooks_assigned op (overlooks_element ref i) avoids) (fun v avoids =>
      overlooks_modifyArray ref (fun slots held =>
        Heap.forall_storeAt slots i v held avoids (fun _ => trivial)))
  apply overlooks_then (overlooks_array ref)
  intro slots
  split
  · exact overlooks_then (overlooks_mark _) (fun _ => stored)
  · exact stored

/-! Variables shared with the host. -/

theorem overlooks_declareShared (scope : Nat) {name : Text} (spoken : name ∉ veil.names)
    {first? : Option Value} (held : ∀ v ∈ first?, v.Avoids veil.names) :
    Overlooks veil (fun _ => True) (declareShared scope name first?) := by
  apply overlooks_modify
  intro s t states
  have scopes := states.scopes.declare spoken scope first?
  have cells := states.held.cells.declare scope name first? trivial held
  exact
    { states with
      scopes := scopes
      held := (states.held.withScopes cells).of_same rfl rfl rfl rfl rfl }

theorem overlooks_declareUse (m : Machine) (scope : Nat) {name : Text}
    (spoken : name ∉ veil.names) : Overlooks veil (fun _ => True) (declareUse m scope name) := by
  apply overlooks_get
  intro s t states
  dsimp only
  rw [states.scopes.shape.owner_eq, states.scopes.shape.kind]
  refine ⟨rfl, ?_⟩
  split
  · exact overlooks_shareOuter scope spoken
  · split
    · rename_i data _
      apply overlooks_bind (overlooks_ofJson data)
      intro v avoids
      apply overlooks_declareShared _ spoken
      rintro _ ⟨⟩
      exact avoids
    · exact overlooks_declareShared _ spoken (fun _ none => by cases none)

theorem overlooks_declareAll (m : Machine) (scope : Nat) {names : List Text}
    (clear : Clear veil.names names) :
    Overlooks veil (fun _ => True) (declareAll m scope names) := by
  induction names with
  | nil => exact overlooks_pure trivial
  | cons name rest ih =>
      obtain ⟨spoken, clear⟩ := clear_cons.mp clear
      exact overlooks_then (overlooks_declareUse m scope spoken) (fun _ => ih clear)

/-- What comes after a pass through the body of a loop, which may go on with `again`. -/
theorem overlooks_afterPass {flow : Flow} (avoids : flow.Avoids veil.names) {again : Eval Flow}
    (goes : Overlooks veil (Flow.Avoids veil.names) again) :
    Overlooks veil (Flow.Avoids veil.names)
      (match Flow.afterPass flow with
        | .again => again
        | .stop => pure .normal
        | .leave flow => pure flow) := by
  cases flow with
  | normal => exact goes
  | returned v => exact overlooks_pure avoids
  | broke depth =>
      by_cases outer : 1 < depth
      · simp only [Flow.afterPass, outer, if_true]
        exact overlooks_pure trivial
      · simp only [Flow.afterPass, outer, if_false]
        exact overlooks_pure trivial
  | continued depth =>
      by_cases outer : 1 < depth
      · simp only [Flow.afterPass, outer, if_true]
        exact overlooks_pure trivial
      · simp only [Flow.afterPass, outer, if_false]
        exact goes

variable {m : Machine} (overlooks : m.Overlooks veil)
include overlooks

theorem overlooks_body {body : Block} (clear : Clear veil.names body.names) (scope : Nat) :
    Overlooks veil (Flow.Avoids veil.names) (m.block body.statements scope) := by
  obtain ⟨statements, loc⟩ := body
  exact overlooks.block statements scope clear

theorem overlooks_execForEach {item : Text} (spoken : item ∉ veil.names) {body : Block}
    (clear : Clear veil.names body.names) (scope : Nat) {items : List Value}
    (held : ∀ v ∈ items, v.Avoids veil.names) :
    Overlooks veil (Flow.Avoids veil.names) (execForEach m item body scope items) := by
  induction items with
  | nil => exact overlooks_pure trivial
  | cons v rest ih =>
      obtain ⟨avoids, held⟩ := List.forall_mem_cons.mp held
      apply overlooks_then (overlooks_newScope scope _)
      intro inner
      apply overlooks_then (overlooks_define inner spoken avoids)
      intro _
      apply overlooks_bind (overlooks_body overlooks clear inner)
      intro flow ended
      exact overlooks_afterPass ended (ih held)

/-- By induction on the fuel. -/
theorem overlooks_execWhile {condition : Expr} (asked : Clear veil.names condition.names)
    {body : Block} (clear : Clear veil.names body.names) (scope fuel : Nat) :
    Overlooks veil (Flow.Avoids veil.names) (execWhile m condition body scope fuel) := by
  induction fuel with
  | zero => exact overlooks_outOfFuel
  | succ fuel ih =>
      apply overlooks_then (overlooks.eval condition scope asked)
      intro v
      apply overlooks_then (overlooks_truthy v)
      intro holds
      cases holds with
      | false => exact overlooks_pure trivial
      | true =>
          apply overlooks_then (overlooks_newScope scope _)
          intro inner
          apply overlooks_bind (overlooks_body overlooks clear inner)
          intro flow ended
          exact overlooks_afterPass ended ih

theorem overlooks_execBranches {alternate : Option Block}
    (otherwise : ∀ body ∈ alternate, Clear veil.names body.names) (scope : Nat)
    {branches : List Branch} (clear : Clear veil.names (Branch.allNames branches)) :
    Overlooks veil (Flow.Avoids veil.names) (execBranches m alternate scope branches) := by
  have entered : ∀ body : Block, Clear veil.names body.names →
      Overlooks veil (Flow.Avoids veil.names) (do
        let inner ← newScope scope .block
        m.block body.statements inner) :=
    fun body clear => overlooks_then (overlooks_newScope scope _)
      (fun inner => overlooks_body overlooks clear inner)
  induction branches with
  | nil =>
      cases alternate with
      | none => exact overlooks_pure trivial
      | some body => exact entered body (otherwise body rfl)
  | cons branch rest ih =>
      obtain ⟨condition, body⟩ := branch
      obtain ⟨asked, others⟩ := clear_append.mp clear
      obtain ⟨first, others⟩ := clear_append.mp others
      apply overlooks_then (overlooks.eval condition scope asked)
      intro v
      apply overlooks_then (overlooks_truthy v)
      intro holds
      cases holds with
      | true => exact entered body first
      | false => exact ih others

theorem overlooks_execAssign {target : Target} (targets : Clear veil.names target.names)
    (op : AssignOp) {value : Expr} (clear : Clear veil.names value.names) (scope : Nat) :
    Overlooks veil (fun _ => True) (execAssign m target op value scope) := by
  have stored : ∀ (ref : Nat) (key : Text), Overlooks veil (fun _ => True) (do
      let v ← m.eval value scope
      let v ← assigned op (entry ref key) v
      modifyHash ref (Table.insert key v)) := by
    intro ref key
    apply overlooks_bind (overlooks.eval value scope clear)
    intro v avoids
    apply overlooks_bind (overlooks_assigned op (overlooks_entry ref key) avoids)
    intro v avoids
    exact overlooks_modifyHash ref (fun table held => Table.forall_insert key v table held avoids)
  cases target with
  | ident name loc =>
      have spoken := clear_singleton.mp targets
      apply overlooks_bind (overlooks.eval value scope clear)
      intro v avoids
      exact overlooks_bind (overlooks_assigned op (overlooks_lookup scope spoken) avoids)
        (fun _ avoids => overlooks_assign scope spoken avoids)
  | field object name loc =>
      apply overlooks_then (overlooks.eval object scope targets)
      intro o
      cases o with
      | hash ref => exact stored ref name
      | _ => exact overlooks_refused _ _
  | index object position loc =>
      obtain ⟨first, second⟩ := clear_append.mp targets
      apply overlooks_then (overlooks.eval object scope first)
      intro o
      apply overlooks_then (overlooks.eval position scope second)
      intro p
      cases o with
      | array ref =>
          apply overlooks_then (overlooks_elementPosition ref p)
          intro i
          exact overlooks_bind (overlooks.eval value scope clear)
            (fun _ avoids => overlooks_storeElement ref i op avoids)
      | hash ref => exact overlooks_then (overlooks_textOf p) (fun key => stored ref key)
      | _ => exact overlooks_refused _ _

variable (host : m.host.Avoids veil.names)
include host

theorem overlooks_execStmt {s : Stmt} (clear : Clear veil.names s.names) (scope : Nat) :
    Overlooks veil (Flow.Avoids veil.names) (execStmt m s scope) := by
  have ended : ∀ {α : Type} {good : α → Prop} {x : Eval α}, Overlooks veil good x →
      Overlooks veil (Flow.Avoids veil.names) (do let _ ← x; pure .normal) :=
    fun first => overlooks_then first (fun _ => overlooks_pure trivial)
  cases s with
  | define name procedure loc =>
      obtain ⟨spoken, code⟩ := clear_cons.mp clear
      apply overlooks_get
      intro s t states
      rw [states.file]
      exact ⟨rfl, ended (overlooks_rebind scope spoken _ code)⟩
  | cond branches alternate loc =>
      cases alternate with
      | none => exact overlooks_execBranches overlooks (fun _ none => by cases none) scope clear
      | some body =>
          obtain ⟨first, second⟩ := clear_append.mp clear
          apply overlooks_execBranches overlooks _ scope first
          rintro _ ⟨⟩
          exact second
  | forEach item subject body loc =>
      obtain ⟨spoken, rest⟩ := clear_cons.mp clear
      obtain ⟨first, second⟩ := clear_append.mp rest
      apply overlooks_then (overlooks.eval subject scope first)
      intro v
      exact overlooks_bind (overlooks_itemsOf v)
        (fun _ held => overlooks_execForEach overlooks spoken second scope held)
  | whileLoop condition body loc =>
      obtain ⟨asked, body⟩ := clear_append.mp clear
      exact overlooks_execWhile overlooks asked body scope m.fuel
  | assign target op value loc =>
      obtain ⟨targets, value⟩ := clear_append.mp clear
      exact ended (overlooks_execAssign overlooks targets op value scope)
  | use names loc => exact ended (overlooks_declareAll m scope clear)
  | giveBack value? loc =>
      cases value? with
      | none => exact overlooks_pure trivial
      | some value =>
          exact overlooks_bind (overlooks.eval value scope clear)
            (fun _ avoids => overlooks_pure avoids)
  | emit value key loc =>
      apply overlooks_then (overlooks.eval value scope clear)
      intro v
      apply overlooks_then (overlooks_textOf v)
      intro line
      exact ended (overlooks_emit line key)
  | imports native modules loc =>
      exact ended (overlooks_importEach overlooks host native scope clear)
  | leave depth loc => exact overlooks_pure trivial
  | next depth loc => exact overlooks_pure trivial
  | call callee args site loc =>
      obtain ⟨calls, given⟩ := clear_append.mp clear
      exact ended (overlooks_evalCall overlooks scope calls given)

theorem overlooks_execBlock (statements : List Stmt) (scope : Nat)
    (clear : Clear veil.names (Stmt.allNames statements)) :
    Overlooks veil (Flow.Avoids veil.names) (execBlock m statements scope) := by
  have inTurn : ∀ list : List Stmt, (∀ s ∈ list, Clear veil.names s.names) →
      Overlooks veil (Flow.Avoids veil.names) (execAll m scope list) := by
    intro list
    induction list with
    | nil => exact fun _ => overlooks_pure trivial
    | cons s rest ih =>
        intro each
        obtain ⟨first, others⟩ := List.forall_mem_cons.mp each
        have carried := overlooks_during s (overlooks_execStmt overlooks host first scope)
        apply overlooks_bind (overlooks_located s.loc carried)
        intro flow avoids
        cases flow with
        | normal => exact ih others
        | returned v => exact overlooks_pure avoids
        | broke depth => exact overlooks_pure trivial
        | continued depth => exact overlooks_pure trivial
  apply inTurn
  intro s member
  have given : s ∈ statements := by
    simp only [inOrder, List.mem_append, List.mem_filter] at member
    tauto
  exact clear.stmt s given

end Eval

/-- By induction on the fuel: every machine of a host that avoids some names overlooks
variables of these names. -/
theorem Machine.overlooks_of {veil : Veil} {host : Host} (avoids : host.Avoids veil.names)
    (fuel : Nat) : (Machine.of host fuel).Overlooks veil := by
  induction fuel with
  | zero =>
      exact
        { eval := fun _ _ _ => Eval.overlooks_outOfFuel
          block := fun _ _ _ => Eval.overlooks_outOfFuel
          call := fun _ _ _ _ _ => Eval.overlooks_outOfFuel
          method := fun _ _ _ => rfl }
  | succ fuel ih =>
      have same : (Machine.of host fuel).host = host := by cases fuel <;> rfl
      exact
        { eval := Eval.overlooks_evalExpr ih
          block := Eval.overlooks_execBlock ih (same.symm ▸ avoids)
          call := fun _ _ name called held => Eval.overlooks_callValue ih called held name
          method := fun callee args name => funext fun s =>
            congrFun (Eval.callValue_asMethod (Machine.of host fuel) callee args name) s }

end Loom
