import Loom.Eval.Statement
import Loom.Interpreter
import Loom.Proofs.Growth

/-!
Steps that fail without a trace. What changes a variable, an array, a hash or the handlers
of a loop checks everything first and then changes it, so a step that fails has changed
nothing. An assignment works its parts out before it stores, and where it fails, only what
those parts have done is left.
-/

namespace Loom

/-- Whether a native function changes an array, a hash or the handlers of a loop. -/
def Action.Mutates : Action → Prop
  | .builtin .add | .builtin .remove | .setHandler => True
  | _ => False

/-- What an assignment evaluates, in the order in which it does. -/
def Target.operands (value : Expr) : Target → List Expr
  | .ident _ _ => [value]
  | .field object _ _ => [object, value]
  | .index object position _ => [object, position, value]

/-- Whether two states are the same but for the marks that no step reads. -/
def State.SameButMarks (s t : State) : Prop := t = { s with history := t.history }

namespace Eval

variable {α β : Type} {m : Machine} {scope : Nat}

/-- What a step made of two fails with is a failure of one of them. -/
theorem bind_eq_error {x : Eval α} {f : α → Eval β} {s t : State} {e : Stop}
    (ran : (x >>= f) s = .error e t) :
    x s = .error e t ∨ ∃ a u, x s = .ok a u ∧ f a u = .error e t := by
  cases outcome : x s with
  | ok a u =>
      rw [bind_ok outcome] at ran
      exact .inr ⟨a, u, rfl, ran⟩
  | error e' u =>
      rw [bind_error outcome] at ran
      cases ran
      exact .inl rfl

/-! Steps that change nothing where they fail. -/

/-- A step that leaves no trace where it fails. -/
def Atomic (x : Eval α) : Prop :=
  ∀ (s t : State) (e : Stop), x s = .error e t → s.SameButMarks t

/-- A step that never fails. -/
def Sure (x : Eval α) : Prop := ∀ (s t : State) (e : Stop), x s ≠ .error e t

theorem sure_pure (a : α) : Sure (pure a : Eval α) := fun _ _ _ failed => by cases failed

theorem sure_modify (change : State → State) : Sure (modify change) :=
  fun _ _ _ failed => by cases failed

theorem sure_modifyGet (change : State → α × State) : Sure (modifyGet change : Eval α) :=
  fun _ _ _ failed => by cases failed

theorem sure_bind {x : Eval α} {f : α → Eval β} (first : Sure x) (rest : ∀ a, Sure (f a)) :
    Sure (x >>= f) := by
  intro s t e ran
  rcases bind_eq_error ran with failed | ⟨a, u, _, failed⟩
  · exact first s t e failed
  · exact rest a u t e failed

theorem Sure.atomic {x : Eval α} (sure : Sure x) : Atomic x :=
  fun s t e failed => absurd failed (sure s t e)

theorem Still.atomic {x : Eval α} (still : Still x) : Atomic x := by
  intro s t e ran
  rcases still s with ⟨a, gives⟩ | ⟨failure, fails⟩
  · cases ran.symm.trans gives
  · cases ran.symm.trans fails
    rfl

theorem atomic_then {x : Eval α} {f : α → Eval β} (still : Still x) (rest : ∀ a, Atomic (f a)) :
    Atomic (x >>= f) := by
  intro s t e ran
  rcases bind_eq_error ran with failed | ⟨a, u, gave, failed⟩
  · exact still.atomic s t e failed
  · rw [still.state_eq gave] at failed
    exact rest a s t e failed

/-- What is sure to be done after a step may change anything. -/
theorem atomic_finish {x : Eval α} {f : α → Eval β} (first : Atomic x) (rest : ∀ a, Sure (f a)) :
    Atomic (x >>= f) := by
  intro s t e ran
  rcases bind_eq_error ran with failed | ⟨a, u, _, failed⟩
  · exact first s t e failed
  · exact absurd failed (rest a u t e)

theorem atomic_mark {f : PUnit → Eval β} (mark' : Mark) (rest : ∀ a, Atomic (f a)) :
    Atomic (mark mark' >>= f) := by
  intro s t e ran
  have failed : f ⟨⟩ { s with history := mark' :: s.history } = .error e t := ran
  have same := rest ⟨⟩ _ t e failed
  exact same

theorem atomic_fault (cause : Fault) : Atomic (fault cause : Eval α) := (still_fault cause).atomic

/-! Operators. -/

theorem sure_number (x : Float) : Sure (number x) := by
  unfold number
  split
  · exact sure_bind (sure_modifyGet _) fun _ => sure_pure _
  · exact sure_pure _

theorem atomic_arithmetic (op : BinaryOp) (left right : Value) {f : Float × Float → Eval Value}
    (result : ∀ pair, Atomic (f pair)) : Atomic (operands op left right >>= f) :=
  atomic_then (still_operands op left right) result

theorem atomic_unless (c : Bool) (cause : RuntimeFault) (x : Float) :
    Atomic (if c then runtimeFault cause else number x) := by
  cases c with
  | true => exact atomic_fault _
  | false => exact (sure_number x).atomic

/-- Only the stamp of a number is new after an operator, and then the operator has a result. -/
theorem atomic_binary (op : AssignOp) {operator : BinaryOp} (compound : op.binary? = some operator)
    (left right : Value) : Atomic (binary operator left right) := by
  cases op with
  | set => cases compound
  | add | subtract | multiply =>
      cases compound
      exact atomic_arithmetic _ left right fun _ => (sure_number _).atomic
  | divide | remainder =>
      cases compound
      exact atomic_arithmetic _ left right fun ⟨_, b⟩ => atomic_unless (b == 0) _ _

theorem atomic_assigned (op : AssignOp) {old : Eval Value} (reads : Still old) (v : Value) :
    Atomic (assigned op old v) := by
  unfold assigned
  cases compound : op.binary? with
  | none => exact (sure_pure v).atomic
  | some operator => exact atomic_then reads fun w => atomic_binary op compound w v

/-! Native functions. -/

theorem atomic_addTo (target item : Value) : Atomic (Builtin.addTo target item) := by
  cases target with
  | array ref => exact (sure_bind (sure_modify _) fun _ => sure_pure _).atomic
  | _ => exact (still_typeFault _ _).atomic

theorem atomic_removeFrom (collection key : Value) :
    Atomic (Builtin.removeFrom collection key) := by
  cases collection with
  | array ref =>
      refine atomic_then (still_expectNumber key "Remove") fun x =>
        atomic_then (still_array ref) fun slots => ?_
      cases indexOf? x with
      | none => exact (sure_pure _).atomic
      | some i =>
          dsimp only
          split
          · exact (sure_bind (sure_modify _) fun _ => sure_pure _).atomic
          · exact (sure_pure _).atomic
  | hash ref =>
      exact atomic_then (still_textOf key) fun name => atomic_then (still_entry ref name) fun v =>
        (sure_bind (sure_modify _) fun _ => sure_pure _).atomic
  | _ => exact (still_typeFault _ _).atomic

theorem still_expectString (v : Value) (operation : Text) : Still (expectString v operation) := by
  cases v with
  | string t => exact still_pure t
  | _ => exact still_typeFault _ _

theorem atomic_setHandler (loop : Nat) (name handler : Value) :
    Atomic (setHandler loop name handler) := by
  refine atomic_then (still_expectString name "SetHandler") fun event => ?_
  split
  · exact (sure_bind (sure_modify _) fun _ => sure_pure _).atomic
  · exact (still_typeFault _ _).atomic

theorem atomic_runNative (m : Machine) (n : Native) (mutates : n.action.Mutates)
    (args : List Value) : Atomic (runNative m n args) := by
  obtain ⟨action, owner⟩ := n
  cases action with
  | builtin b =>
      cases b with
      | add =>
          rcases args with _ | ⟨target, _ | ⟨item, _ | ⟨more, rest⟩⟩⟩
          case cons.cons.nil => exact atomic_addTo target item
          all_goals exact atomic_fault _
      | remove =>
          rcases args with _ | ⟨collection, _ | ⟨key, _ | ⟨more, rest⟩⟩⟩
          case cons.cons.nil => exact atomic_removeFrom collection key
          all_goals exact atomic_fault _
      | _ => cases mutates
  | setHandler =>
      rcases args with _ | ⟨name, _ | ⟨handler, _ | ⟨more, rest⟩⟩⟩
      case cons.cons.nil => exact atomic_setHandler owner name handler
      all_goals exact (still_failWith _).atomic
  | _ => cases mutates

theorem atomic_callNative (m : Machine) (n : Native) (mutates : n.action.Mutates)
    (args : List Value) (name : Text) : Atomic (callNative m n args name) := by
  unfold callNative
  split
  · split
    · exact atomic_fault _
    · exact atomic_runNative m n mutates args
  · exact atomic_runNative m n mutates args

theorem atomic_shareOuter (scope : Nat) (name : Text) : Atomic (shareOuter scope name) := by
  rw [shareOuter_eq]
  refine atomic_mark _ fun _ => atomic_then still_get fun s => ?_
  split
  · exact atomic_fault _
  · exact (sure_modify _).atomic

/-! Assignments. -/

theorem atomic_storeElement (ref i : Nat) (op : AssignOp) (v : Value) :
    Atomic (storeElement ref i op v) := by
  have stored : Atomic (assigned op (element ref i) v >>= fun v =>
      modifyArray ref (fun elements => Heap.storeAt elements i v)) :=
    atomic_finish (atomic_assigned op (still_bind (still_array ref) fun _ => still_pure _) v)
      fun _ => sure_modify _
  refine atomic_then (still_array ref) fun slots => ?_
  dsimp only
  split
  · exact atomic_mark _ fun _ => stored
  · exact stored

/-- A step of which a failure leaves what the first of some expressions have done, up to
the failure of the last of these or up to its end. -/
def FailsAfter (m : Machine) (scope : Nat) (operands : List Expr) (x : Eval α) : Prop :=
  ∀ (s t : State) (e : Stop), x s = .error e t →
    ∃ first, first <+: operands ∧
      (evalAll m scope first s = .error e t ∨
        ∃ values u, evalAll m scope first s = .ok values u ∧ u.SameButMarks t)

theorem Atomic.failsAfter {x : Eval α} (atomic : Atomic x) (operands : List Expr) :
    FailsAfter m scope operands x :=
  fun s t e failed => ⟨[], List.nil_prefix, .inr ⟨[], s, rfl, atomic s t e failed⟩⟩

theorem failsAfter_eval {operand : Expr} {operands : List Expr} {f : Value → Eval β}
    (rest : ∀ v, FailsAfter m scope operands (f v)) :
    FailsAfter m scope (operand :: operands) (m.eval operand scope >>= f) := by
  intro s t e ran
  rcases bind_eq_error ran with failed | ⟨v, u, gave, failed⟩
  · refine ⟨[operand], List.cons_prefix_cons.mpr ⟨rfl, List.nil_prefix⟩, .inl ?_⟩
    rw [evalAll, bind_error failed]
  · obtain ⟨first, front, outcome⟩ := rest v u t e failed
    refine ⟨operand :: first, List.cons_prefix_cons.mpr ⟨rfl, front⟩, ?_⟩
    rw [evalAll, bind_ok gave]
    rcases outcome with failed | ⟨values, w, gave, same⟩
    · exact .inl (bind_error failed)
    · exact .inr ⟨v :: values, w, bind_ok gave, same⟩

theorem failsAfter_then {x : Eval α} {f : α → Eval β} {operands : List Expr} (still : Still x)
    (rest : ∀ a, FailsAfter m scope operands (f a)) : FailsAfter m scope operands (x >>= f) := by
  intro s t e ran
  rcases bind_eq_error ran with failed | ⟨a, u, gave, failed⟩
  · exact still.atomic.failsAfter operands s t e failed
  · rw [still.state_eq gave] at failed
    exact rest a s t e failed

theorem failsAfter_finish {x : Eval α} {f : α → Eval β} {operands : List Expr}
    (first : FailsAfter m scope operands x) (rest : ∀ a, Sure (f a)) :
    FailsAfter m scope operands (x >>= f) := by
  intro s t e ran
  rcases bind_eq_error ran with failed | ⟨a, u, _, failed⟩
  · exact first s t e failed
  · exact absurd failed (rest a u t e)

/-- What stores an entry of a hash evaluates the value first. -/
theorem failsAfter_storeEntry (ref : Nat) (key : Text) (op : AssignOp) (value : Expr) :
    FailsAfter m scope [value] (m.eval value scope >>= fun v =>
      assigned op (entry ref key) v >>= fun v => modifyHash ref (Table.insert key v)) :=
  failsAfter_eval fun v =>
    (atomic_finish (atomic_assigned op (still_entry ref key) v) fun _ => sure_modify _).failsAfter
      []

theorem failsAfter_execAssign (target : Target) (op : AssignOp) (value : Expr) :
    FailsAfter m scope (target.operands value) (execAssign m target op value scope) := by
  cases target with
  | ident name loc =>
      refine failsAfter_eval fun v => Atomic.failsAfter ?_ []
      exact atomic_finish (atomic_assigned op (still_lookup scope name) v) fun _ => sure_modify _
  | field object name loc =>
      refine failsAfter_eval fun o => ?_
      cases o with
      | hash ref => exact failsAfter_storeEntry ref name op value
      | _ => exact (still_typeFault _ _).atomic.failsAfter _
  | index object position loc =>
      refine failsAfter_eval fun o => failsAfter_eval fun p => ?_
      cases o with
      | array ref =>
          exact failsAfter_then (still_elementPosition ref p) fun i =>
            failsAfter_eval fun v => (atomic_storeElement ref i op v).failsAfter []
      | hash ref =>
          exact failsAfter_then (still_textOf p) fun key => failsAfter_storeEntry ref key op value
      | _ => exact (still_typeFault _ _).atomic.failsAfter _

/-- What changes variables, arrays, hashes or handlers leaves no trace where it fails: `Add`,
`Remove` and `SetHandler` whatever they are given, a `use`, a write to a variable, which is
sure to be done, and an assignment, which leaves what its parts have done and no more. -/
theorem failures_leave_no_trace (m : Machine) (scope : Nat) :
    (∀ (n : Native) (method : Bool) (args : List Value) (name : Text), n.action.Mutates →
      Atomic (callValue m (.native n method) args name)) ∧
    (∀ name, Atomic (shareOuter scope name)) ∧
    (∀ name v, Sure (assign scope name v)) ∧
    ∀ target op value loc, FailsAfter m scope (target.operands value)
      (execStmt m (.assign target op value loc) scope) := by
  refine ⟨?_, atomic_shareOuter scope, fun name v => sure_modify _, ?_⟩
  · intro n method args name mutates
    exact atomic_callNative m n mutates args name
  · intro target op value loc
    exact failsAfter_finish (failsAfter_execAssign target op value) fun _ => sure_pure _

/-- `Add(null, null)`, which has no array to add to, fails and adds nothing. -/
theorem failed_add_leaves_no_trace :
    (Action.builtin .add).Mutates ∧
      ∃ e t, callValue (.of .plain 1) (.native ⟨.builtin .add, 0⟩ false) [.null, .null] "Add"
          (Interpreter.blankState []) = .error e t ∧
        (Interpreter.blankState []).SameButMarks t := by
  have atomic := (failures_leave_no_trace (.of .plain 1) 0).1 ⟨.builtin .add, 0⟩ false
    [.null, .null] "Add" trivial
  exact ⟨trivial, _, _, rfl, atomic _ _ _ rfl⟩

end Eval

end Loom
