import Loom.Eval.Call
import Loom.Proofs.Veil.Expression

/-!
Calls overlook hidden variables if what is called and what it is given speak of none, over
a machine that overlooks them. Whether a callable is a method makes no difference to a call,
so it makes none to the delivery of an event either.
-/

namespace Loom

/-- The parameters, the shared names and the body of a procedure. -/
theorem Procedure.names_eq (p : Procedure) :
    p.names = p.params ++ (p.uses ++ Stmt.allNames p.body.statements) := by
  obtain ⟨params, uses, ⟨statements, loc⟩, site⟩ := p
  rfl

@[simp]
theorem Value.hostName?_asMethod (v : Value) : v.asMethod.hostName? = v.hostName? := by
  cases v <;> rfl

namespace Eval

variable {veil : Veil}

/-- A call does not ask whether what it calls is a method. -/
theorem callValue_asMethod (m : Machine) (callee : Value) (args : List Value) (name : Text) :
    callValue m callee.asMethod args name = callValue m callee args name := by
  cases callee <;> rfl

theorem overlooks_nextEvent (loop : Nat) : Overlooks veil (fun _ => True) (nextEvent loop) := by
  apply overlooks_modifyGet
  intro s t states
  rw [states.queue]
  cases s.queue with
  | nil => exact ⟨rfl, trivial, states⟩
  | cons event rest =>
      exact ⟨rfl, trivial,
        { states with queue := rfl, held := states.held.of_same rfl rfl rfl rfl rfl }⟩

theorem overlooks_isRunning (loop : Nat) : Overlooks veil (fun _ => True) (isRunning loop) := by
  apply overlooks_get
  intro s t states
  have running : t.loops[loop]?.map EventLoop.running = s.loops[loop]?.map EventLoop.running := by
    have same := congrArg (Option.map EventLoop.running) (states.loop loop)
    rwa [Option.map_map, Option.map_map] at same
  rw [running]
  exact ⟨rfl, overlooks_pure trivial⟩

/-- The handler that a loop has for an event. -/
def handlerIn (loops : Array EventLoop) (loop : Nat) (name : Text) : Option Value :=
  loops[loop]?.bind (fun l => Table.find? name l.handlers)

theorem handler?_run (loop : Nat) (name : Text) (s : State) :
    handler? loop name s = .ok (handlerIn s.loops loop name) s := by
  rw [handler?, get_bind_run, handlerIn]
  cases s.loops[loop]? <;> rfl

theorem handlerIn_tagged {s t : State} (states : s.Veiled veil t) (loop : Nat) (name : Text) :
    (handlerIn t.loops loop name).map Value.asMethod =
      (handlerIn s.loops loop name).map Value.asMethod := by
  have read : ∀ loops : Array EventLoop, (handlerIn loops loop name).map Value.asMethod =
      (loops[loop]?.map EventLoop.tagged).bind (fun l => Table.find? name l.handlers) := by
    intro loops
    rw [handlerIn]
    cases loops[loop]? with
    | none => rfl
    | some l => exact (Table.find?_mapped Value.asMethod name l.handlers).symm
  rw [read, read, states.loop]

/-- What is done with the handler of an event, if it does not ask whether the handler is a
method. -/
theorem overlooks_handler {α : Type} {good : α → Prop} (loop : Nat) (name : Text)
    {f : Option Value → Eval α}
    (tagged : ∀ h h' : Option Value, h'.map Value.asMethod = h.map Value.asMethod → f h' = f h)
    (rest : ∀ h, (∀ v ∈ h, v.Avoids veil.names) → Overlooks veil good (f h)) :
    Overlooks veil good (handler? loop name >>= f) := by
  intro s t states
  rw [bind_ok (handler?_run loop name s), bind_ok (handler?_run loop name t),
    tagged _ _ (handlerIn_tagged states loop name)]
  apply rest _ _ s t states
  intro v found
  obtain ⟨l, here, stored⟩ := Option.bind_eq_some_iff.mp found
  exact Table.holds_of_find? name v _
    (states.held.handlers l (Array.mem_of_getElem? here)) stored

theorem overlooks_setHandler (loop : Nat) (name : Value) {handler : Value}
    (avoids : handler.Avoids veil.names) :
    Overlooks veil (Value.Avoids veil.names) (setHandler loop name handler) := by
  apply overlooks_then (overlooks_expectString name _)
  intro event
  split
  · have stored : Overlooks veil (fun _ => True) (modify fun s =>
        { s with
          loops := s.loops.modify loop
            (fun l => { l with handlers := Table.insert event handler l.handlers }) }) := by
      apply overlooks_modify
      intro s t states
      apply states.modifyLoop loop
      · intro a b same
        have handlers := congrArg EventLoop.handlers same
        have running := congrArg EventLoop.running same
        simp only [EventLoop.tagged] at handlers running
        simp only [EventLoop.tagged, ← Table.insert_mapped, handlers, running]
      · intro l member entry inside
        exact Table.forall_insert event handler l.handlers (states.held.handlers l member) avoids
          entry inside
    exact overlooks_then stored (fun _ => overlooks_pure trivial)
  · exact overlooks_refused _ _

theorem overlooks_bindAll (scope : Nat) {params : List Text} (clear : Clear veil.names params)
    {values : List Value} (held : ∀ v ∈ values, v.Avoids veil.names) :
    Overlooks veil (fun _ => True) (bindAll scope params values) := by
  induction params generalizing values with
  | nil => exact overlooks_pure trivial
  | cons param rest ih =>
      cases values with
      | nil => exact overlooks_pure trivial
      | cons v values =>
          obtain ⟨spoken, clear⟩ := clear_cons.mp clear
          obtain ⟨avoids, held⟩ := List.forall_mem_cons.mp held
          exact overlooks_then (overlooks_define scope spoken avoids) (fun _ => ih clear held)

theorem overlooks_shareAll (scope : Nat) {names : List Text} (clear : Clear veil.names names) :
    Overlooks veil (fun _ => True) (shareAll scope names) := by
  induction names with
  | nil => exact overlooks_pure trivial
  | cons name rest ih =>
      obtain ⟨spoken, clear⟩ := clear_cons.mp clear
      exact overlooks_then (overlooks_shareOuter scope spoken) (fun _ => ih clear)

theorem overlooks_resultOf (name : Text) {flow : Flow} (avoids : flow.Avoids veil.names) :
    Overlooks veil (Value.Avoids veil.names) (resultOf name flow) := by
  cases flow with
  | normal => exact overlooks_pure trivial
  | returned v => exact overlooks_pure avoids
  | broke depth => exact overlooks_runtimeFault _
  | continued depth => exact overlooks_runtimeFault _

theorem overlooks_checkDepth (limit : Nat) (name : Text) :
    Overlooks veil (fun _ => True) (checkDepth limit name) := by
  apply overlooks_get
  intro s t states
  rw [states.depth]
  refine ⟨rfl, ?_⟩
  dsimp only
  split
  · exact overlooks_runtimeFault _
  · split
    · exact overlooks_runtimeFault _
    · exact overlooks_pure trivial

variable {m : Machine} (overlooks : m.Overlooks veil)
include overlooks

theorem overlooks_hostCall {callee : Value} (avoids : callee.Avoids veil.names)
    {args : List Value} (held : ∀ v ∈ args, v.Avoids veil.names) :
    Overlooks veil (Value.Avoids veil.names) (hostCall m callee args) :=
  overlooks_then (overlooks_present (fun _ _ => trivial) : Overlooks veil (fun _ => True) _)
    (fun name => overlooks.call callee args name avoids held)

omit overlooks in
/-- A host call does not ask whether what it calls is a method. -/
theorem hostCall_asMethod (method : ∀ callee args name,
      m.call callee.asMethod args name = m.call callee args name)
    (callee : Value) (args : List Value) :
    hostCall m callee.asMethod args = hostCall m callee args := by
  simp only [hostCall, Value.hostName?_asMethod, method]

theorem overlooks_deliver (loop : Nat) (event : HostEvent) :
    Overlooks veil (fun _ => True) (deliver m loop event) := by
  apply overlooks_handler
  · intro h h' same
    cases h with
    | none => rw [Option.map_eq_none_iff.mp same]
    | some v =>
        obtain ⟨w, rfl, tagged⟩ := Option.map_eq_some_iff.mp same
        have name : w.hostName? = v.hostName? := by
          rw [← w.hostName?_asMethod, tagged, v.hostName?_asMethod]
        have call : m.call w = m.call v := by
          funext args name
          rw [← overlooks.method w, tagged, overlooks.method v]
        simp only [name, call]
  · intro h held
    cases h with
    | none => exact overlooks_pure trivial
    | some handler =>
        apply overlooks_bind (overlooks_ofJson event.argument)
        intro payload data
        apply overlooks_then
          (overlooks_present (fun _ _ => trivial) : Overlooks veil (fun _ => True) _)
        intro name
        have given : ∀ v ∈ [payload], v.Avoids veil.names := List.forall_mem_singleton.mpr data
        exact overlooks_then (overlooks.call handler _ name (held handler rfl) given)
          (fun _ => overlooks_pure trivial)

/-- By induction on the fuel. -/
theorem overlooks_dispatch (loop fuel : Nat) :
    Overlooks veil (fun _ => True) (dispatch m loop fuel) := by
  induction fuel with
  | zero => exact overlooks_outOfFuel
  | succ fuel ih =>
      apply overlooks_then (overlooks_nextEvent loop)
      intro event?
      cases event? with
      | none => exact overlooks_pure trivial
      | some event => exact overlooks_then (overlooks_deliver overlooks loop event) (fun _ => ih)

theorem overlooks_startLoop (loop : Nat) :
    Overlooks veil (Value.Avoids veil.names) (startLoop m loop) := by
  apply overlooks_then (overlooks_isRunning loop)
  intro running
  cases running with
  | true => exact overlooks_runtimeFault _
  | false =>
      have dispatched := overlooks_dispatch overlooks loop m.fuel
      exact overlooks_then (overlooks_whileRunning loop dispatched)
        (fun _ => overlooks_pure trivial)

theorem overlooks_runNative (n : Native) {args : List Value}
    (held : ∀ v ∈ args, v.Avoids veil.names) :
    Overlooks veil (Value.Avoids veil.names) (runNative m n args) := by
  unfold runNative
  split
  · exact Builtin.overlooks_run m.fuel _ held
  · exact overlooks_setHandler _ _ (held _ (by simp))
  · exact overlooks_startLoop overlooks _
  · obtain ⟨avoids, held⟩ := List.forall_mem_cons.mp held
    exact overlooks_hostCall overlooks avoids held
  · apply overlooks_newArray
    intro slot member
    obtain ⟨v, inside, rfl⟩ := List.mem_map.mp (List.mem_toArray.mp member)
    exact held v inside
  · exact overlooks_pure trivial
  · exact overlooks_failWith _

theorem overlooks_callNative (n : Native) {args : List Value} (name : Text)
    (held : ∀ v ∈ args, v.Avoids veil.names) :
    Overlooks veil (Value.Avoids veil.names) (callNative m n args name) := by
  unfold callNative
  split
  · split
    · exact overlooks_fault _
    · exact overlooks_runNative overlooks n held
  · exact overlooks_runNative overlooks n held

theorem overlooks_callFunction {f : Closure} (clear : Clear veil.names f.procedure.names)
    {args : List Value} (held : ∀ v ∈ args, v.Avoids veil.names) (name : Text) :
    Overlooks veil (Value.Avoids veil.names) (callFunction m f args name) := by
  rw [Procedure.names_eq] at clear
  obtain ⟨params, rest⟩ := clear_append.mp clear
  obtain ⟨uses, body⟩ := clear_append.mp rest
  unfold callFunction activate
  dsimp only
  split
  · exact overlooks_fault _
  · apply overlooks_then (overlooks_checkDepth _ _)
    intro _
    apply overlooks_then (overlooks_newScope _ _)
    intro scope
    apply overlooks_then (overlooks_bindAll scope params held)
    intro _
    apply overlooks_then (overlooks_shareAll scope uses)
    intro _
    have ran : Overlooks veil (Value.Avoids veil.names)
        (do resultOf name (← m.block f.procedure.body.statements scope)) :=
      overlooks_bind (overlooks.block _ scope body) (fun _ ended => overlooks_resultOf name ended)
    exact overlooks_inFile f.file (overlooks_inCall ran)

theorem overlooks_callValue {callee : Value} (avoids : callee.Avoids veil.names)
    {args : List Value} (held : ∀ v ∈ args, v.Avoids veil.names) (name : Text) :
    Overlooks veil (Value.Avoids veil.names) (callValue m callee args name) := by
  cases callee with
  | native n method => exact overlooks_callNative overlooks n name held
  | function f method => exact overlooks_callFunction overlooks avoids held name
  | _ => exact overlooks_then (overlooks_typeOf _) (fun _ => overlooks_runtimeFault _)

end Eval

end Loom
