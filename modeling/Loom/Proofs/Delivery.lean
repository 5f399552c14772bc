import Loom.Proofs.Control

/-!
Events are delivered in order, once each, by one loop at a time. A loop takes the
events off the queue that no one else takes: what a handler does is code, and code
takes an event only by starting a loop, which a running loop cannot be. So between
two events that a loop takes the queue is as the first one left it.
-/

namespace Loom

open Eval Interpreter

/-- Marks that tell of an event that was taken. -/
def Mark.isTook : Mark → Bool
  | .took _ => true
  | _ => false

namespace State

/-- The handler that a loop has for events of a name. -/
def handler? (s : State) (loop : Nat) (name : Text) : Option Value :=
  s.loops[loop]?.bind (fun l => Table.find? name l.handlers)

end State

/-- How a loop delivers the events that are waiting. Each event in turn is taken off the
front; if there is a handler for its name then, the handler is called with the payload,
and the next event is taken from where that call has left. A failure of a handler ends
the delivery. -/
inductive Delivery (m : Machine) (loop : Nat) :
    (fuel : Nat) → List HostEvent → State → EStateM.Result Stop State Unit → Prop where
  | done {fuel : Nat} {s : State} (empty : s.queue = []) :
      Delivery m loop (fuel + 1) [] s (.ok () s)
  | skipped {fuel : Nat} {event : HostEvent} {rest : List HostEvent} {s : State}
      {result : EStateM.Result Stop State Unit} (front : s.queue = event :: rest)
      (unhandled : s.handler? loop event.name = none) :
      Delivery m loop fuel rest (s.taking loop rest) result →
      Delivery m loop (fuel + 1) (event :: rest) s result
  | handled {fuel : Nat} {event : HostEvent} {rest : List HostEvent} {s t u : State}
      {handler payload v : Value} {result : EStateM.Result Stop State Unit}
      (front : s.queue = event :: rest)
      (registered : s.handler? loop event.name = some handler)
      (converted : ofJson event.argument (s.taking loop rest) = .ok payload u)
      (called : hostCall m handler [payload] u = .ok v t)
      (left : t.queue = rest) :
      Delivery m loop fuel rest t result → Delivery m loop (fuel + 1) (event :: rest) s result
  | failed {fuel : Nat} {event : HostEvent} {rest : List HostEvent} {s t u : State}
      {handler payload : Value} {e : Stop} (front : s.queue = event :: rest)
      (registered : s.handler? loop event.name = some handler)
      (converted : ofJson event.argument (s.taking loop rest) = .ok payload u)
      (called : hostCall m handler [payload] u = .error e t)
      (left : t.queue = rest) :
      Delivery m loop (fuel + 1) (event :: rest) s (.error e t)
  /-- The loop may not go round any more. -/
  | spent {events : List HostEvent} {s : State} (waiting : s.queue = events) :
      Delivery m loop 0 events s (.error .outOfFuel s)

variable {m : Machine} {loop fuel : Nat} {events : List HostEvent} {s t : State}

/-- A delivery that comes to its end has left no event. -/
theorem queue_of_delivered {result : EStateM.Result Stop State Unit}
    (delivery : Delivery m loop fuel events s result) (ended : result = .ok () t) :
    t.queue = [] := by
  induction delivery with
  | done empty => cases ended; exact empty
  | skipped _ _ _ ih => exact ih ended
  | handled _ _ _ _ _ _ ih => exact ih ended
  | failed _ _ _ _ _ => cases ended
  | spent _ => cases ended

/-- A delivery that fails has left the events after one, whose handler has failed. -/
theorem queue_of_failed {result : EStateM.Result Stop State Unit} {e : Stop}
    (delivery : Delivery m loop fuel events s result) (ended : result = .error e t)
    (room : events.length < fuel) : ∃ before event, events = before ++ event :: t.queue := by
  induction delivery with
  | done _ => cases ended
  | skipped _ _ _ ih =>
      obtain ⟨before, last, same⟩ := ih ended (by simpa using room)
      exact ⟨_ :: before, last, by rw [same]; rfl⟩
  | handled _ _ _ _ _ _ ih =>
      obtain ⟨before, last, same⟩ := ih ended (by simpa using room)
      exact ⟨_ :: before, last, by rw [same]; rfl⟩
  | failed _ _ _ _ left =>
      cases ended
      exact ⟨[], _, by rw [left]; rfl⟩
  | spent _ => omega

/-! Who takes events. -/

/-- The events that a chain of changes has taken are the first ones, one for each mark. -/
theorem taken_of_chain {terms : Terms} {base : Nat} {part : Part}
    (chain : Chain terms base part s t) :
    ∃ taken, s.queue = taken ++ t.queue ∧
      t.history.countP Mark.isTook = s.history.countP Mark.isTook + taken.length := by
  induction chain with
  | none s => exact ⟨[], rfl, rfl⟩
  | andThen _ _ first second =>
      obtain ⟨before, queue, count⟩ := first
      obtain ⟨after, queue', count'⟩ := second
      refine ⟨before ++ after, ?_, ?_⟩
      · rw [queue, queue', List.append_assoc]
      · rw [count', count, List.length_append, Nat.add_assoc]
  | data _ history _ sources => exact ⟨[], sources.queue.symm, by rw [history]; rfl⟩
  | root s _ => exact ⟨[], rfl, rfl⟩
  | child s _ _ _ _ _ => exact ⟨[], rfl, rfl⟩
  | rebound s _ _ _ _ _ => exact ⟨[], rfl, rfl⟩
  | assign s _ _ _ _ => exact ⟨[], rfl, rfl⟩
  | marked s m quiet =>
      cases m with
      | used name => exact ⟨[], rfl, rfl⟩
      | vanished ref position => exact ⟨[], rfl, rfl⟩
      | _ => exact quiet.elim
  | share s _ _ _ _ => exact ⟨[], rfl, rfl⟩
  | declare s _ _ _ _ _ => exact ⟨[], rfl, rfl⟩
  | inFile s t _ _ inner => exact inner
  | inCall s t _ inner => exact inner
  | broken s t _ _ _ _ _ inner => exact inner
  | loaded s t _ _ _ _ _ _ _ inner => exact inner
  | imported s _ _ _ => exact ⟨[], rfl, rfl⟩
  | native s _ _ => exact ⟨[], rfl, rfl⟩
  | opened s _ _ _ _ _ => exact ⟨[], rfl, rfl⟩
  | took s loop event rest front =>
      exact ⟨[event], front, List.countP_cons_of_pos rfl⟩
  | handled _ _ inner => exact inner
  | whileRunning s t _ _ _ _ inner => exact inner

/-- Where no event has been taken, the queue is as it was. -/
theorem queue_of_untaken {terms : Terms} {base : Nat} {part : Part}
    (chain : Chain terms base part s t) (untaken : ∀ other, .took other ∉ s.marksSince t) :
    t.queue = s.queue := by
  obtain ⟨taken, queue, count⟩ := taken_of_chain chain
  obtain ⟨new, more⟩ := (effect_grows chain).history
  rw [State.marksSince_of_append more.symm] at untaken
  have none : new.countP Mark.isTook = 0 := by
    rw [List.countP_eq_zero]
    intro mark member
    cases mark with
    | took other => exact absurd member (untaken other)
    | _ => simp [Mark.isTook]
  rw [← more, List.countP_append, none] at count
  have empty : taken = [] := List.length_eq_zero_iff.mp (by omega)
  rw [queue, empty, List.nil_append]

theorem absent_of_same {mark : Mark} (same : t.history = s.history) : mark ∉ s.marksSince t := by
  simp [State.marksSince, same]

theorem absent_of_cons {mark last : Mark} (more : t.history = last :: s.history)
    (differ : mark ≠ last) : mark ∉ s.marksSince t := by
  rw [State.marksSince_cons more, List.mem_singleton]
  exact differ

/-- While a loop is running, only its own part of the run takes events for it. -/
theorem not_taken_while_running {terms : Terms} {base : Nat} {part : Part}
    (chain : Chain terms base part s t) (running : s.isRunning loop = true)
    (other : part ≠ .delivery loop) : .took loop ∉ s.marksSince t := by
  induction chain with
  | none s => exact absent_of_same rfl
  | andThen first second earlier later =>
      rw [State.marksSince_trans (effect_grows first) (effect_grows second), List.mem_append]
      have still := ((effect_same_control first).running loop).trans running
      rintro (after | before)
      · exact later still other after
      · exact earlier running other before
  | data _ history _ _ => exact absent_of_same history
  | root s _ => exact absent_of_same rfl
  | child s _ _ _ _ _ => exact absent_of_same rfl
  | rebound s _ _ _ _ _ => exact absent_of_same rfl
  | assign s _ _ _ _ => exact absent_of_same rfl
  | marked s m quiet =>
      apply absent_of_cons rfl
      rintro rfl
      exact quiet
  | share s _ _ _ _ => exact absent_of_cons rfl (by simp)
  | declare s _ _ _ _ _ => exact absent_of_cons rfl (by simp)
  | inFile s t _ _ inner => exact inner running other
  | inCall s t _ inner => exact inner running other
  | broken s t path _ _ _ top inner =>
      rw [State.marksSince_broken (effect_grows top)]
      simpa using inner running (by simp)
  | loaded s t path _ _ _ heap place top inner =>
      rw [State.marksSince_keeping (effect_grows top) heap place]
      simpa using inner running (by simp)
  | imported s _ _ _ => exact absent_of_cons rfl (by simp)
  | native s _ _ => exact absent_of_same rfl
  | opened s _ _ _ _ _ => exact absent_of_cons rfl (by simp)
  | took s taker _ _ _ =>
      apply absent_of_cons rfl
      intro same
      cases same
      exact other rfl
  | handled _ _ inner => exact inner running (by simp)
  -- a loop that is started meanwhile was idle, so it is another one
  | whileRunning s t started idle _ _ inner =>
      have differ : started ≠ loop := by
        rintro rfl
        rw [idle] at running
        cases running
      apply inner
      · rw [State.isRunning_setRunning, if_neg (fun same => differ same.1.symm)]
        exact running
      · intro same
        cases same
        exact differ rfl

/-! What a loop does. -/

theorem handler?_run (loop : Nat) (name : Text) (s : State) :
    Eval.handler? loop name s = .ok (s.handler? loop name) s := by
  simp only [Eval.handler?, get_bind_run, State.handler?]
  cases s.loops[loop]? with
  | none => rfl
  | some l => rfl

theorem deliver_skipped {event : HostEvent} (unhandled : s.handler? loop event.name = none) :
    deliver m loop event s = .ok () s := by
  have looked := handler?_run loop event.name s
  rw [unhandled] at looked
  rw [deliver, bind_ok looked]
  rfl

theorem deliver_handled {event : HostEvent} {handler payload : Value} {u : State}
    (registered : s.handler? loop event.name = some handler)
    (converted : ofJson event.argument s = .ok payload u) :
    deliver m loop event s = (hostCall m handler [payload] >>= fun _ => pure ()) u := by
  have looked := handler?_run loop event.name s
  rw [registered] at looked
  rw [deliver, bind_ok looked]
  simp only
  rw [bind_ok converted, hostCall]
  cases handler.hostName? with
  | none => rfl
  | some name => rfl

/-- What the delivery of an event comes to: nothing where there is no handler for it, or
what the call of the handler comes to. -/
theorem deliver_cases {event : HostEvent} {result : EStateM.Result Stop State Unit}
    (ran : deliver m loop event s = result) :
    (s.handler? loop event.name = none ∧ result = .ok () s) ∨
      ∃ handler payload u, s.handler? loop event.name = some handler ∧
        ofJson event.argument s = .ok payload u ∧
        ((∃ v t, hostCall m handler [payload] u = .ok v t ∧ result = .ok () t) ∨
          ∃ e t, hostCall m handler [payload] u = .error e t ∧ result = .error e t) := by
  cases registered : s.handler? loop event.name with
  | none => exact .inl ⟨rfl, ran.symm.trans (deliver_skipped registered)⟩
  | some handler =>
      cases converted : ofJson event.argument s with
      | error e u => cases converted
      | ok payload u =>
          rw [deliver_handled registered converted] at ran
          refine .inr ⟨handler, payload, u, rfl, rfl, ?_⟩
          cases called : hostCall m handler [payload] u with
          | ok v t =>
              rw [bind_ok called] at ran
              exact .inl ⟨v, t, rfl, ran.symm⟩
          | error e t =>
              rw [bind_error called] at ran
              exact .inr ⟨e, t, rfl, ran.symm⟩

theorem effect_deliver (obeys : m.Obeys Discipline.free 0) (loop : Nat) (event : HostEvent)
    (s : State) : Effect .any 0 s (after (deliver m loop event) s) := by
  have ensured : Discipline.free.Ensures 0 s (deliver m loop event) (fun _ _ => True) :=
    Discipline.ensures_deliver obeys loop event
  exact effect_of_ensures ensured (Nat.zero_le _)

/-- What is done for one event leaves the queue alone, unless someone else takes events. -/
theorem queue_after_deliver (obeys : m.Obeys Discipline.free 0) {event : HostEvent}
    (running : s.isRunning loop = true) (ended : after (deliver m loop event) s = t)
    (alone : ∀ other, .took other ∈ s.marksSince t → other = loop) :
    t.isRunning loop = true ∧ t.queue = s.queue := by
  have effect := effect_deliver obeys loop event s
  rw [ended] at effect
  constructor
  · exact ((effect_same_control effect).running loop).trans running
  · apply queue_of_untaken effect
    intro other taken
    cases alone other taken
    exact not_taken_while_running effect running (by simp) taken

theorem chain_dispatch (obeys : m.Obeys Discipline.free 0) (loop fuel : Nat) (s : State) :
    Chain .any 0 (.delivery loop) s (after (dispatch m loop fuel) s) := by
  have ends := Discipline.ends_dispatch obeys loop fuel (Discipline.ready_free s (Nat.zero_le _))
  unfold Eval.after
  cases outcome : dispatch m loop fuel s with
  | ok a t =>
      rw [outcome] at ends
      exact ends.1
  | error e t =>
      rw [outcome] at ends
      exact ends.1

theorem delivery_cons {event : HostEvent} {rest : List HostEvent} {a : Unit}
    {result : EStateM.Result Stop State Unit} (front : s.queue = event :: rest)
    (delivered : deliver m loop event (s.taking loop rest) = .ok a t) (left : t.queue = rest)
    (later : Delivery m loop fuel rest t result) :
    Delivery m loop (fuel + 1) (event :: rest) s result := by
  rcases deliver_cases delivered with ⟨unhandled, same⟩ |
    ⟨_, _, _, registered, converted, ⟨_, _, called, same⟩ | ⟨_, _, _, same⟩⟩
  · cases same
    exact .skipped front unhandled later
  · cases same
    exact .handled front registered converted called left later
  · cases same

theorem delivery_failed {event : HostEvent} {rest : List HostEvent} {e : Stop}
    (front : s.queue = event :: rest)
    (stopped : deliver m loop event (s.taking loop rest) = .error e t) (left : t.queue = rest) :
    Delivery m loop (fuel + 1) (event :: rest) s (.error e t) := by
  rcases deliver_cases stopped with ⟨_, same⟩ |
    ⟨_, _, _, registered, converted, ⟨_, _, _, same⟩ | ⟨_, _, called, same⟩⟩
  · cases same
  · cases same
  · cases same
    exact .failed front registered converted called left

/-- What a loop has done since a state is in order, unless someone else takes events:
the handlers leave the queue alone, and so the loop takes all that was there. -/
theorem delivery_of_dispatch (obeys : m.Obeys Discipline.free 0)
    (running : s.isRunning loop = true)
    (alone : ∀ other, .took other ∈ s.marksSince (after (dispatch m loop fuel) s) →
      other = loop) : Delivery m loop fuel s.queue s (dispatch m loop fuel s) := by
  induction fuel generalizing s with
  | zero => exact .spent rfl
  | succ fuel ih =>
      cases front : s.queue with
      | nil =>
          rw [Discipline.dispatch_empty front]
          exact .done front
      | cons event rest =>
          have unfolded : dispatch m loop (fuel + 1) s = _ := Discipline.dispatch_cons front
          have start := s.grows_taking loop rest
          have taking : (s.taking loop rest).isRunning loop = true := running
          have first := effect_grows (effect_deliver obeys loop event (s.taking loop rest))
          cases outcome : deliver m loop event (s.taking loop rest) with
          | ok a t =>
              rw [bind_ok outcome] at unfolded
              have ended : after (deliver m loop event) (s.taking loop rest) = t := by
                simp only [Eval.after, outcome]
              have same :
                after (dispatch m loop (fuel + 1)) s = after (dispatch m loop fuel) t := by
                simp only [Eval.after, unfolded]
              rw [same] at alone
              rw [ended] at first
              -- the marks of this delivery and of the later ones are among those of all
              have last := effect_grows (chain_dispatch obeys loop fuel t)
              have here := queue_after_deliver obeys taking ended (fun other hit =>
                alone other (State.mem_marksSince_of_later start (first.trans last)
                  (State.mem_marksSince_of_earlier first last hit)))
              have later := ih here.1 (fun other hit =>
                alone other (State.mem_marksSince_of_later (start.trans first) last hit))
              rw [unfolded]
              rw [show t.queue = rest from here.2] at later
              exact delivery_cons front outcome here.2 later
          | error e t =>
              rw [bind_error outcome] at unfolded
              have ended : after (deliver m loop event) (s.taking loop rest) = t := by
                simp only [Eval.after, outcome]
              have same : after (dispatch m loop (fuel + 1)) s = t := by
                simp only [Eval.after, unfolded]
              rw [same] at alone
              rw [ended] at first
              have here := queue_after_deliver obeys taking ended (fun other hit =>
                alone other (State.mem_marksSince_of_later start first hit))
              rw [unfolded]
              exact delivery_failed front outcome here.2

/-- How a loop ends: it is not running any more, and gives nothing. -/
def closed (loop : Nat) : EStateM.Result Stop State Unit → EStateM.Result Stop State Value
  | .ok _ t => .ok .null (setRunning loop false t)
  | .error e t => .error e (setRunning loop false t)

theorem queue_of_closed {outcome : EStateM.Result Stop State Unit} {v : Value}
    (delivery : Delivery m loop fuel events s outcome) (ended : closed loop outcome = .ok v t) :
    t.queue = [] := by
  cases outcome with
  | ok a u =>
      have left : u.queue = [] := queue_of_delivered delivery rfl
      cases ended
      exact left
  | error e u => cases ended

theorem queue_of_closed_error {outcome : EStateM.Result Stop State Unit} {e : Stop}
    (delivery : Delivery m loop fuel events s outcome) (ended : closed loop outcome = .error e t)
    (room : events.length < fuel) : ∃ before event, events = before ++ event :: t.queue := by
  cases outcome with
  | ok a u => cases ended
  | error e' u =>
      have left : ∃ before event, events = before ++ event :: u.queue :=
        queue_of_failed delivery rfl room
      cases ended
      exact left

theorem startLoop_running (running : s.isRunning loop = true) :
    startLoop m loop s = .error (.failed (.of (.runtime .loopRunning))) s := by
  have looked : Eval.isRunning loop s = .ok true s := by
    show EStateM.Result.ok (s.isRunning loop) s = _
    rw [running]
  rw [startLoop, bind_ok looked]
  rfl

theorem startLoop_idle (idle : s.isRunning loop = false) :
    startLoop m loop s = closed loop (dispatch m loop m.fuel (setRunning loop true s)) := by
  have looked : Eval.isRunning loop s = .ok false s := by
    show EStateM.Result.ok (s.isRunning loop) s = _
    rw [idle]
  rw [startLoop, bind_ok looked, if_neg Bool.false_ne_true]
  cases outcome : dispatch m loop m.fuel (setRunning loop true s) with
  | ok a t =>
      have ran : whileRunning loop (dispatch m loop m.fuel) s = .ok a (setRunning loop false t) :=
        finally_ok outcome
      rw [bind_ok ran]
      rfl
  | error e t =>
      have ran :
        whileRunning loop (dispatch m loop m.fuel) s = .error e (setRunning loop false t) :=
        finally_error outcome
      rw [bind_error ran]
      rfl

/-- A loop that is started delivers what is waiting, unless someone else takes events. -/
theorem delivery_of_startLoop (obeys : m.Obeys Discipline.free 0)
    (there : loop < s.loops.size) (idle : s.isRunning loop = false)
    (alone : ∀ other, .took other ∈ s.marksSince (after (startLoop m loop) s) → other = loop) :
    ∃ outcome, Delivery m loop m.fuel s.queue (setRunning loop true s) outcome ∧
      startLoop m loop s = closed loop outcome := by
  have started := startLoop_idle (m := m) idle
  refine ⟨_, ?_, started⟩
  have running : (setRunning loop true s).isRunning loop = true := by
    rw [State.isRunning_setRunning, if_pos ⟨rfl, there⟩]
  apply delivery_of_dispatch obeys running
  intro other taken
  apply alone other
  simp only [Eval.after, started]
  simp only [Eval.after] at taken
  cases outcome : dispatch m loop m.fuel (setRunning loop true s) with
  | ok a t =>
      rw [outcome] at taken
      exact taken
  | error e t =>
      rw [outcome] at taken
      exact taken

end Loom
