import Loom.Eval.Call
import Loom.Proofs.Discipline.Expression

/-!
What is ensured of calls, and of the event loop. A function runs in a scope that
the call has made; how its body may end decides that the call has a result.
-/

namespace Loom

open Grammar (Context)

namespace Discipline

open Eval

variable {d : Discipline} {base : Nat} {s : State} {m : Machine}

/-! Events. -/

/-- With nothing waiting there is nothing to do. -/
theorem dispatch_empty {loop fuel : Nat} (empty : s.queue = []) :
    dispatch m loop (fuel + 1) s = .ok () s := by
  simp [dispatch, nextEvent, empty]

/-- The first event is taken and delivered, and then come the others. -/
theorem dispatch_cons {loop fuel : Nat} {event : HostEvent} {rest : List HostEvent}
    (first : s.queue = event :: rest) :
    dispatch m loop (fuel + 1) s =
      (deliver m loop event >>= fun _ => dispatch m loop fuel) (s.taking loop rest) := by
  simp [dispatch, nextEvent, first, State.taking]

theorem ensures_handler? (loop : Nat) (name : Text) :
    Ensures d base s (handler? loop name) (Still s fun found => ∀ v ∈ found, d.Fine s v) := by
  apply ensures_get
  intro ready
  cases here : s.loops[loop]? with
  | none => exact ensures_pure ⟨rfl, by simp⟩
  | some l =>
      have member : l ∈ s.loops := Array.mem_of_getElem? here
      have fine : ∀ v ∈ Table.find? name l.handlers, d.Fine s v := by
        intro v found
        exact Table.holds_of_find? name v _ (ready.held.handlers l member) found
      exact ensures_pure ⟨rfl, fine⟩

theorem ensures_hostName {v : Value} (fine : d.Fine s v) :
    Ensures d base s (present v.hostName?) (Still s fun _ => True) := by
  apply ensures_present (fun _ _ => trivial)
  intro none
  cases v with
  | missing => exact d.missing fine
  | _ => simp [Value.hostName?, Value.type?] at none

theorem ensures_deliver (obeys : m.Obeys d base) (loop : Nat) (event : HostEvent) :
    Ensures d base s (deliver m loop event) (fun _ _ => True) := by
  apply ensures_still (ensures_handler? loop event.name)
  intro found _ fine
  cases found with
  | none => exact ensures_pure trivial
  | some handler =>
      apply ensures_bind (ensures_ofJson event.argument)
      intro payload v effect _ made
      -- the handler was registered before there was a payload
      have called : d.Fine v handler := Fine.after effect (fine handler rfl)
      apply ensures_still (ensures_hostName called)
      intro name _ _
      apply ensures_bind (obeys.call called (by simpa using made))
      intro _ x _ _ _
      exact ensures_pure trivial

/-- Events are taken by the loop, and what is done for each is done by code. -/
theorem ends_dispatch (obeys : m.Obeys d base) (loop fuel : Nat) (ready : d.Ready base s) :
    EndsIn d (.delivery loop) base s (fun _ _ => True) (dispatch m loop fuel s) := by
  induction fuel generalizing s with
  | zero => exact ⟨.none s, ready, d.outOfFuel⟩
  | succ fuel ih =>
      cases first : s.queue with
      | nil =>
          rw [dispatch_empty first]
          exact ⟨.none s, ready, trivial⟩
      | cons event rest =>
          rw [dispatch_cons first]
          have taken : Chain d.terms base (.delivery loop) s (s.taking loop rest) :=
            .took s loop event rest first
          have ready' := ready.after (effect_grows taken) rfl
            (fun all => all.of_same rfl rfl rfl rfl rfl)
          have delivered := ensures_deliver obeys loop event ready'
          apply ends_after taken
          cases outcome : deliver m loop event (s.taking loop rest) with
          | ok a t =>
              rw [bind_ok outcome]
              rw [outcome] at delivered
              exact ends_after (.handled loop delivered.1) (ih delivered.2.1)
          | error e t =>
              rw [bind_error outcome]
              rw [outcome] at delivered
              exact ⟨.handled loop delivered.1, delivered.2⟩

theorem ensures_startLoop (obeys : m.Obeys d base) (loop : Nat)
    (allowed : d.terms.starts s.history loop) :
    Ensures d base s (startLoop m loop) d.Fine := by
  cases running : s.isRunning loop with
  | true =>
      apply ensures_get
      intro _
      simp only [State.isRunning] at running
      simp only [running]
      exact ensures_fault (by simp [Fault.IsExit])
  | false =>
      apply ensures_get
      intro _
      -- the loop is only marked when it was not, so the undoing restores its mark
      have idle := running
      simp only [State.isRunning] at idle
      simp only [idle]
      have dispatched := ensures_whileRunning running allowed
        (ends_dispatch obeys loop m.fuel) (fun _ _ _ => trivial)
      exact ensures_then dispatched (fun _ _ _ _ => ensures_pure (d.data rfl))

theorem ensures_setHandler {loop : Nat} {name handler : Value} (first : d.Fine s name)
    (second : d.Fine s handler) : Ensures d base s (setHandler loop name handler) d.Fine := by
  apply ensures_still (ensures_expectString first)
  intro event ready _
  have handlers := forall_handlers s.loops loop
    (fun l => { l with handlers := Table.insert event handler l.handlers }) ready.held.handlers
    (fun l member => Table.forall_insert event handler _ (ready.held.handlers l member) second)
  split
  · have running := s.isRunning_modify loop
      (fun l => { l with handlers := Table.insert event handler l.handlers }) (fun _ => rfl)
    apply ensures_then
    · exact ensures_modify
        (.data rfl rfl ⟨rfl, rfl, rfl, running⟩ ⟨rfl, rfl, rfl, Array.size_modify, rfl, rfl, rfl⟩)
        (fun all => ⟨all.cells, all.heap, handlers, all.natives, all.modules⟩) trivial
    · intro _ _ _ _
      exact ensures_pure (d.data rfl)
  · exact ensures_typeFaultOf second

/-! Calls. -/

theorem ensures_hostCall (obeys : m.Obeys d base) {callee : Value} {args : List Value}
    (called : d.Fine s callee) (fine : ∀ v ∈ args, d.Fine s v) :
    Ensures d base s (hostCall m callee args) d.Fine := by
  apply ensures_still (ensures_hostName called)
  intro name _ _
  exact obeys.call called fine

/-- A native function whose arity is checked already. -/
theorem ensures_runNative (obeys : m.Obeys d base) {n : Native} {method : Bool}
    {args : List Value} (called : d.Fine s (.native n method)) (fine : ∀ v ∈ args, d.Fine s v)
    (arity : ∀ k, n.action.arity? = some k → args.length = k) :
    Ensures d base s (runNative m n args) d.Fine := by
  obtain ⟨action, owner⟩ := n
  cases action with
  | builtin b => exact ensures_builtin m.fuel b args fine
  | setHandler =>
      obtain ⟨name, handler, rfl⟩ := List.length_eq_two.mp (arity 2 rfl)
      exact ensures_setHandler (fine _ (by simp)) (fine _ (by simp))
  | startLoop =>
      obtain rfl := List.eq_nil_of_length_eq_zero (arity 0 rfl)
      exact fun ready => ensures_startLoop obeys owner (d.starts called) ready
  | callBack =>
      cases args with
      | nil =>
          -- nothing was given that could be called
          exact ensures_throw (d.bare called)
      | cons callee rest =>
          exact ensures_hostCall obeys (fine _ (.head _)) (fun v member => fine v (.tail _ member))
  | listArguments =>
      apply ensures_newArray
      intro slot member
      simp only [List.mem_toArray, List.mem_map] at member
      obtain ⟨v, here, rfl⟩ := member
      exact fine v here
  | host name => exact ensures_pure (d.data rfl)

theorem ensures_callNative (obeys : m.Obeys d base) {n : Native} {method : Bool}
    {args : List Value} {name : Text} (called : d.Fine s (.native n method))
    (fine : ∀ v ∈ args, d.Fine s v) : Ensures d base s (callNative m n args name) d.Fine := by
  unfold callNative
  split
  · rename_i k known
    split
    · exact ensures_fault (by simp [Fault.IsExit])
    · rename_i same
      apply ensures_runNative obeys called fine
      intro k' known'
      rw [known] at known'
      cases known'
      exact not_not.mp same
  · rename_i free
    exact ensures_runNative obeys called fine (fun k known => by simp [free] at known)

/-- The parameters of a function are bound one after another. -/
theorem bindAll_run (scope : Nat) (params : List Text) (values : List Value) (t : State) :
    bindAll scope params values t =
      .ok () { t with scopes := t.scopes.defineAll scope (params.zip values) } := by
  induction params generalizing values t with
  | nil => rfl
  | cons param params ih =>
      cases values with
      | nil => rfl
      | cons v values => exact ih values _

theorem ensures_shareAll {scope : Nat} (inside : base ≤ scope) (names : List Text) :
    Ensures d base s (shareAll scope names) (fun _ _ => True) := by
  induction names generalizing s with
  | nil => exact ensures_pure trivial
  | cons name rest ih => exact ensures_bind (ensures_shareOuter inside) (fun _ _ _ _ _ => ih)

/-- Whether a call may begin is a matter of how many are active. -/
theorem checkDepth_run (limit : Nat) (name : Text) (s : State) :
    checkDepth limit name s =
      if limit ≤ s.depth then runtimeFault (.callDepth limit name) s
      else if stackLimit ≤ s.depth then runtimeFault (.stackExhausted name) s
      else .ok () s := by
  simp only [checkDepth, get_bind_run]
  split
  · rfl
  · split <;> rfl

theorem ensures_checkDepth (limit : Nat) (name : Text) :
    Ensures d base s (checkDepth limit name) (fun t _ => t.depth < limit) := by
  apply ensures_get
  intro _
  dsimp only
  split
  · exact ensures_fault (by simp [Fault.IsExit])
  · rename_i free
    split
    · exact ensures_fault (by simp [Fault.IsExit])
    · exact ensures_pure (Nat.lt_of_not_le free)

theorem ensures_exit {cause : Fault} {depth loops : Nat} {good : State → Value → Prop}
    (flows : d.strict = true → 1 ≤ depth ∧ depth ≤ loops) (none : loops = 0) :
    Ensures d base s (Eval.fault cause) good := by
  apply ensures_throw
  apply d.fault
  intro strict
  -- the depth would be at least one and at most the number of loops, which is zero
  have bound := flows strict
  omega

theorem ensures_resultOf {name : Text} {flow : Flow} (flows : d.Flows .function s flow) :
    Ensures d base s (resultOf name flow) d.Fine := by
  cases flow with
  | normal => exact ensures_pure (d.data rfl)
  | returned v => exact ensures_pure flows.1
  | broke depth => exact ensures_exit flows rfl
  | continued depth => exact ensures_exit flows rfl

/-- The body runs with one call more active, for which there has to be room. -/
theorem ensures_activate {limit : Nat} (obeys : m.Obeys (d.inCall limit) base) {f : Closure}
    {name : Text} {scope : Nat} (room : s.depth < limit) (placed : f.procedure.Placed d.strict)
    (inside : base ≤ scope) : Ensures d base s (activate m f name scope) d.Fine := by
  apply ensures_bind (ensures_shareAll inside _)
  intro _ t effect _ _
  have room : t.depth < limit := (effect_same_control effect).depth ▸ room
  have body := (Procedure.placed_iff d.strict f.procedure).mp placed
  have ran : ∀ u, Ensures (d.inCall limit) base u
      (m.block f.procedure.body.statements scope >>= resultOf name) d.Fine := by
    intro u
    apply ensures_bind (obeys.block body inside (top_of_inner rfl))
    intro flow _ _ _ flows
    exact ensures_resultOf flows
  apply ensures_inFile _ (fun _ _ fine => fine)
  exact ensures_inCall (s := { t with file := f.file }) room (ran _) (fun _ _ fine => fine)

/-- A call fails before anything is done, or is carried out in a scope of its own in
which the parameters are bound. -/
theorem callFunction_run (m : Machine) (f : Closure) (args : List Value) (name : Text)
    (s : State) :
    callFunction m f args name s =
      if args.length ≠ f.procedure.params.length then
        Eval.fault (.arity name f.procedure.params.length args.length) s
      else if m.host.maxCallDepth ≤ s.depth then
        runtimeFault (.callDepth m.host.maxCallDepth name) s
      else if stackLimit ≤ s.depth then runtimeFault (.stackExhausted name) s
      else activate m f name s.scopes.scopes.size
        (s.nested f.scope .function (f.procedure.params.zip args)) := by
  unfold callFunction
  split
  · rfl
  · have entered := checkDepth_run m.host.maxCallDepth name s
    split
    · rename_i limited
      rw [if_pos limited] at entered
      exact bind_error entered
    · rename_i free
      rw [if_neg free] at entered
      split
      · rename_i exhausted
        rw [if_pos exhausted] at entered
        exact bind_error entered
      · rename_i room
        rw [if_neg room] at entered
        rw [bind_ok entered]
        exact bind_ok (bindAll_run _ _ _ _)

theorem ensures_callFunction (obeys : m.Obeys (d.inCall m.host.maxCallDepth) base)
    {f : Closure} {args : List Value} {name : Text}
    (made : f.procedure.Placed d.strict ∧ d.terms.home ≤ f.scope)
    (fine : ∀ v ∈ args, d.Fine s v) :
    Ensures d base s (callFunction m f args name) d.Fine := by
  unfold callFunction
  dsimp only
  split
  · exact ensures_fault (by simp [Fault.IsExit])
  · apply ensures_bind (ensures_checkDepth _ name)
    intro _ t effect _ room
    have given : ∀ entry ∈ f.procedure.params.zip args, d.Fine t entry.2 :=
      fun entry member => Fine.after effect (fine entry.2 (List.of_mem_zip member).2)
    -- the scope is new, so binding the parameters touches no older one
    apply ensures_scope (fun scope u => bindAll_run scope _ args u) (by simp) (by simp) made.2 given
    intro scope u inside effect
    have room : u.depth < m.host.maxCallDepth := (effect_same_control effect).depth ▸ room
    exact ensures_activate obeys room made.1 inside

theorem ensures_notAFunction {v : Value} {name : Text} {good : State → Value → Prop}
    (fine : d.Fine s v) :
    Ensures d base s (do runtimeFault (.notAFunction name (← typeOf v))) good := by
  apply ensures_bind (ensures_typeOf fine)
  intro _ _ _ _ _
  exact ensures_fault (by simp [Fault.IsExit])

theorem ensures_callValue (obeys : m.Obeys d base)
    (within : m.Obeys (d.inCall m.host.maxCallDepth) base) {callee : Value} {args : List Value}
    {name : Text} (called : d.Fine s callee) (fine : ∀ v ∈ args, d.Fine s v) :
    Ensures d base s (callValue m callee args name) d.Fine := by
  cases callee with
  | native n method => exact ensures_callNative obeys called fine
  | function f method => exact ensures_callFunction within (d.closure.mp called) fine
  | _ => exact ensures_notAFunction called

end Discipline

end Loom
