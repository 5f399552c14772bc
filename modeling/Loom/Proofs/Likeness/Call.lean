import Loom.Eval.Call
import Loom.Proofs.Likeness.Expression

/-!
Calls over a machine that respects a likeness. Like functions do the same: their bodies come
of an admitted revision, and the scope of the call hangs below scopes that are alike.
-/

namespace Loom

open Eval

namespace Eval

variable {l : Likeness}

theorem agree_nextEvent (loop : Nat) :
    Agree l Eq (nextEvent loop) (nextEvent (l.before.loops + loop)) := by
  apply agree_modifyGet
  intro s t states
  rw [states.queue]
  cases s.queue with
  | nil => exact ⟨rfl, states⟩
  | cons event rest => exact ⟨rfl, { states with queue := rfl }⟩

theorem agree_handler? (loop : Nat) (name : Text) :
    Agree l (Option.Rel (Value.Like l)) (handler? loop name)
      (handler? (l.before.loops + loop) name) := by
  apply agree_get
  intro s t states
  rcases related_cases (states.loop loop) with ⟨none, none'⟩ | ⟨a, b, some, some', like⟩
  · rw [none, none']
    exact agree_pure .none
  · rw [some, some']
    exact agree_pure (like.handlers.find? name)

theorem agree_isRunning (loop : Nat) :
    Agree l Eq (isRunning loop) (isRunning (l.before.loops + loop)) := by
  apply agree_get
  intro s t states
  rcases related_cases (states.loop loop) with ⟨none, none'⟩ | ⟨a, b, some, some', like⟩
  · rw [none, none']
    exact agree_pure rfl
  · rw [some, some']
    exact agree_pure like.running.symm

theorem agree_setHandler (loop : Nat) {name name' handler handler' : Value}
    (first : Value.Like l name name') (second : Value.Like l handler handler') :
    Agree l (Value.Like l) (setHandler loop name handler)
      (setHandler (l.before.loops + loop) name' handler') := by
  apply agree_then (agree_expectString first _)
  intro event
  rw [second.isCallable_eq]
  split
  · have stored : ∀ a b : EventLoop, a.Like l b →
        EventLoop.Like l { a with handlers := Table.insert event handler a.handlers }
          { b with handlers := Table.insert event handler' b.handlers } :=
      fun _ _ same => { same with handlers := same.handlers.insert event second }
    exact agree_then (agree_modify fun _ _ states => states.modifyLoop loop stored)
      (fun _ => agree_pure .null)
  · exact agree_refused second _ _

theorem agree_bindAll (scope : Nat) (params : List Text) {values values' : List Value}
    (same : List.Forall₂ (Value.Like l) values values') :
    Agree l Eq (bindAll scope params values)
      (bindAll (l.before.scopes + scope) params values') := by
  induction params generalizing values values' with
  | nil => exact agree_pure rfl
  | cons param rest ih =>
      cases same with
      | nil => exact agree_pure rfl
      | cons first others =>
          exact agree_then (agree_define scope param first) (fun _ => ih others)

theorem agree_shareAll (scope : Nat) (names : List Text) :
    Agree l Eq (shareAll scope names) (shareAll (l.before.scopes + scope) names) := by
  induction names with
  | nil => exact agree_pure rfl
  | cons name rest ih => exact agree_then (agree_shareOuter scope name) (fun _ => ih)

theorem agree_resultOf (name : Text) {flow flow' : Flow} (same : Flow.Like l flow flow') :
    Agree l (Value.Like l) (resultOf name flow) (resultOf name flow') := by
  cases same with
  | normal => exact agree_pure .null
  | returned like => exact agree_pure like
  | broke depth => exact agree_runtimeFault (.refl _)
  | continued depth => exact agree_runtimeFault (.refl _)

theorem agree_checkDepth (limit : Nat) (name : Text) :
    Agree l Eq (checkDepth limit name) (checkDepth limit name) := by
  apply agree_get
  intro s t states
  rw [states.depth]
  dsimp only
  split
  · exact agree_runtimeFault (.refl _)
  · split
    · exact agree_runtimeFault (.refl _)
    · exact agree_pure rfl

variable {m : Machine} (respects : m.Respects l)
include respects

theorem agree_hostCall {callee callee' : Value} {args args' : List Value}
    (same : Value.Like l callee callee') (given : List.Forall₂ (Value.Like l) args args') :
    Agree l (Value.Like l) (hostCall m callee args) (hostCall m callee' args') := by
  unfold hostCall
  rw [same.hostName?_eq]
  exact agree_then (agree_answer _) (fun name => respects.call name same given)

theorem agree_deliver (loop : Nat) (event : HostEvent) :
    Agree l Eq (deliver m loop event) (deliver m (l.before.loops + loop) event) := by
  apply agree_bind (agree_handler? loop event.name)
  intro handler? handler?' same
  rcases related_cases same with ⟨rfl, rfl⟩ | ⟨handler, handler', rfl, rfl, like⟩
  · exact agree_pure rfl
  · apply agree_bind (agree_ofJson event.argument)
    intro payload payload' data
    rw [like.hostName?_eq]
    apply agree_then (agree_answer _)
    intro name
    exact agree_bind (respects.call name like (.cons data .nil)) (fun _ _ _ => agree_pure rfl)

theorem agree_dispatch (loop fuel : Nat) :
    Agree l Eq (dispatch m loop fuel) (dispatch m (l.before.loops + loop) fuel) := by
  induction fuel with
  | zero => exact agree_outOfFuel
  | succ fuel ih =>
      apply agree_then (agree_nextEvent loop)
      intro event?
      cases event? with
      | none => exact agree_pure rfl
      | some event => exact agree_then (agree_deliver respects loop event) (fun _ => ih)

theorem agree_startLoop (loop : Nat) :
    Agree l (Value.Like l) (startLoop m loop) (startLoop m (l.before.loops + loop)) := by
  apply agree_then (agree_isRunning loop)
  intro running
  cases running with
  | true => exact agree_runtimeFault (.refl _)
  | false =>
      have dispatched := agree_dispatch respects loop m.fuel
      exact agree_then (agree_whileRunning loop dispatched) (fun _ => agree_pure .null)

theorem agree_runNative (n : Native) {args args' : List Value}
    (same : List.Forall₂ (Value.Like l) args args') :
    Agree l (Value.Like l) (runNative m n args) (runNative m (n.behind l) args') := by
  obtain ⟨action, owner⟩ := n
  cases action with
  | builtin b => exact Builtin.agree_run m.fuel b same
  | setHandler =>
      -- all lists but those of two are refused, and like lists are as long
      cases same with
      | nil => exact agree_failWith (.refl _)
      | cons first rest =>
          cases rest with
          | nil => exact agree_failWith (.refl _)
          | cons second rest =>
              cases rest with
              | nil => exact agree_setHandler owner first second
              | cons third rest => exact agree_failWith (.refl _)
  | startLoop =>
      cases same with
      | nil => exact agree_startLoop respects owner
      | cons first rest => exact agree_failWith (.refl _)
  | callBack =>
      cases same with
      | nil => exact agree_failWith (.refl _)
      | cons first rest => exact agree_hostCall respects first rest
  | listArguments => exact agree_newArray (Slot.all_like_of_values same)
  | host name => exact agree_pure .null

theorem agree_callNative (n : Native) {args args' : List Value} (name : Text)
    (same : List.Forall₂ (Value.Like l) args args') :
    Agree l (Value.Like l) (callNative m n args name)
      (callNative m (n.behind l) args' name) := by
  have action : (n.behind l).action = n.action := rfl
  unfold callNative
  rw [action, same.length_eq]
  split
  · split
    · exact agree_fault (.refl _)
    · exact agree_runNative respects n same
  · exact agree_runNative respects n same

theorem agree_callFunction {f f' : Closure} (same : f.Like l f') {args args' : List Value}
    (given : List.Forall₂ (Value.Like l) args args') (name : Text) :
    Agree l (Value.Like l) (callFunction m f args name) (callFunction m f' args' name) := by
  obtain ⟨r, admitted, code⟩ := same.procedure
  obtain ⟨params, uses, statements⟩ := f.procedure.revised_keeps r
  unfold callFunction activate
  rw [code, params, uses, statements, same.scope, same.file, given.length_eq]
  dsimp only
  split
  · exact agree_fault (.refl _)
  · apply agree_then (agree_checkDepth _ _)
    intro _
    apply agree_bind (agree_newScope _ _)
    rintro inner _ rfl
    apply agree_then (agree_bindAll inner _ given)
    intro _
    apply agree_then (agree_shareAll inner _)
    intro _
    have ran : Agree l (Value.Like l)
        (do resultOf name (← m.block f.procedure.body.statements inner))
        (do resultOf name (← m.block (Stmt.allRevised r f.procedure.body.statements)
              (l.before.scopes + inner))) :=
      agree_bind (respects.block admitted _ inner) (fun _ _ flow => agree_resultOf name flow)
    exact agree_inFile f.file (agree_inCall ran)

theorem agree_callValue {callee callee' : Value} (same : Value.Like l callee callee')
    {args args' : List Value} (given : List.Forall₂ (Value.Like l) args args') (name : Text) :
    Agree l (Value.Like l) (callValue m callee args name) (callValue m callee' args' name) := by
  have refused : Agree l (Value.Like l) (do runtimeFault (.notAFunction name (← typeOf callee)))
      (do runtimeFault (.notAFunction name (← typeOf callee'))) :=
    agree_then (agree_typeOf same) (fun _ => agree_runtimeFault (.refl _))
  cases same with
  | native n method => exact agree_callNative respects n name given
  | function code method => exact agree_callFunction respects code given name
  | _ => exact refused

end Eval

end Loom
