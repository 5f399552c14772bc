import Loom.Eval.Statement
import Loom.Proofs.Discipline.Statement

/-!
The machines of all fuels obey every discipline, by induction on the fuel: what
is evaluated on one of them is evaluated by the parts of the evaluator over the
one below.

A counting machine does the same, and knows how many functions the code it
evaluates was called from. It looks at the state before and after everything that
is evaluated, run or called, and stops with an alarm as soon as something shows
that it watches for at that number. A watched machine watches for the same at
every number.
-/

namespace Loom

namespace Eval

/-- A step that gives an alarm when something shows before it or after it. -/
def watching {α : Type} (watch : State → Bool) (alarm : Stop) (step : Eval α) : Eval α := fun s =>
  if watch s then .error alarm s
  else
    match step s with
    | .ok a t => if watch t then .error alarm t else .ok a t
    | .error e t => if watch t then .error alarm t else .error e t

end Eval

open Eval

def Machine.watched (watch : State → Bool) (alarm : Stop) (host : Host) : (fuel : Nat) → Machine
  | 0 =>
      { host := host
        fuel := 0
        eval := fun _ _ => watching watch alarm outOfFuel
        block := fun _ _ => watching watch alarm outOfFuel
        call := fun _ _ _ => watching watch alarm outOfFuel }
  | fuel + 1 =>
      { host := host
        fuel := fuel
        eval := fun e scope =>
          watching watch alarm (evalExpr (Machine.watched watch alarm host fuel) e scope)
        block := fun statements scope =>
          watching watch alarm (execBlock (Machine.watched watch alarm host fuel) statements scope)
        call := fun callee args name =>
          watching watch alarm
            (callValue (Machine.watched watch alarm host fuel) callee args name) }

/-- Calls a value. What a function does is done on a machine of its own. -/
def Eval.callWithin (m body : Machine) (callee : Value) (args : List Value) (name : Text) :
    Eval Value :=
  match callee with
  | .function f _ => callFunction body f args name
  | callee => callValue m callee args name

theorem Eval.callWithin_self (m : Machine) (callee : Value) (args : List Value) (name : Text) :
    callWithin m m callee args name = callValue m callee args name := by
  cases callee <;> rfl

/-- A machine for code that so many active calls of functions have led to. Only calls of
functions of programs count: what a native function calls is called from where it was
called itself. -/
def Machine.counting (watch : Nat → State → Bool) (alarm : Stop) (host : Host) :
    (fuel active : Nat) → Machine
  | 0, active =>
      { host := host
        fuel := 0
        eval := fun _ _ => watching (watch active) alarm outOfFuel
        block := fun _ _ => watching (watch active) alarm outOfFuel
        call := fun _ _ _ => watching (watch active) alarm outOfFuel }
  | fuel + 1, active =>
      { host := host
        fuel := fuel
        eval := fun e scope =>
          watching (watch active) alarm
            (evalExpr (Machine.counting watch alarm host fuel active) e scope)
        block := fun statements scope =>
          watching (watch active) alarm
            (execBlock (Machine.counting watch alarm host fuel active) statements scope)
        call := fun callee args name =>
          watching (watch active) alarm
            (callWithin (Machine.counting watch alarm host fuel active)
              (Machine.counting watch alarm host fuel (active + 1)) callee args name) }

/-- A watched machine need not count. -/
theorem watched_eq_counting (watch : State → Bool) (alarm : Stop) (host : Host)
    (fuel active : Nat) :
    Machine.watched watch alarm host fuel =
      .counting (fun _ => watch) alarm host fuel active := by
  induction fuel generalizing active with
  | zero => rfl
  | succ fuel ih =>
      simp only [Machine.watched, Machine.counting, ← ih active, ← ih (active + 1), callWithin_self]

/-- A machine that watches for nothing is an ordinary one. -/
theorem watched_never (alarm : Stop) (host : Host) (fuel : Nat) :
    Machine.watched (fun _ => false) alarm host fuel = .of host fuel := by
  have unwatched : ∀ {α : Type} (step : Eval α), watching (fun _ => false) alarm step = step := by
    intro α step
    funext s
    simp only [watching]
    cases step s <;> simp
  induction fuel with
  | zero => simp only [Machine.watched, Machine.of, unwatched]
  | succ fuel ih => simp only [Machine.watched, Machine.of, unwatched, ih]

namespace Discipline

variable {d : Discipline} {base : Nat} {s : State}

/-- The discipline within so many calls. -/
def within (limit : Nat) : (calls : Nat) → Discipline → Discipline
  | 0, d => d
  | calls + 1, d => within limit calls (d.inCall limit)

/-- How many calls are active within so many others, and what else is kept there. -/
theorem ready_of_within {limit calls : Nat} (ready : (within limit calls d).Ready base s) :
    ∃ n, s.depth = n + calls ∧ (0 < calls → s.depth ≤ limit) ∧
      d.Ready base { s with depth := n } := by
  induction calls generalizing d with
  | zero => exact ⟨s.depth, rfl, by simp, ready⟩
  | succ calls ih =>
      obtain ⟨n, deep, bound, ready⟩ := ih ready
      obtain ⟨k, above, allowed, room⟩ := ready.depth
      have above : n = k + 1 := above
      refine ⟨k, by omega, ?_, ⟨ready.held.of_same rfl rfl rfl rfl rfl, ready.room, allowed⟩⟩
      -- the call that is counted first found room itself
      intro _
      by_cases inner : 0 < calls
      · exact bound inner
      · omega

theorem ensures_watching {α : Type} {watch : State → Bool} {alarm : Stop} {step : Eval α}
    {good : State → α → Prop}
    (shown : ∀ t, d.Ready base t → watch t = true → d.stop t.history alarm)
    (ensured : Ensures d base s step good) :
    Ensures d base s (watching watch alarm step) good := by
  intro ready
  have ends := ensured ready
  unfold watching
  cases before : watch s with
  | true => exact ⟨.none s, ready, shown s ready before⟩
  | false =>
      cases outcome : step s with
      | ok a t =>
          rw [outcome] at ends
          obtain ⟨effect, ready, fine⟩ := ends
          cases after : watch t with
          | true => simpa [Ends, outcome, after] using ⟨effect, ready, shown t ready after⟩
          | false => simpa [Ends, outcome, after] using ⟨effect, ready, fine⟩
      | error e t =>
          rw [outcome] at ends
          obtain ⟨effect, ready, allowed⟩ := ends
          cases after : watch t with
          | true => simpa [Ends, outcome, after] using ⟨effect, ready, shown t ready after⟩
          | false => simpa [Ends, outcome, after] using ⟨effect, ready, allowed⟩

theorem ensures_callWithin {m body : Machine} (obeys : m.Obeys d base)
    (within : body.Obeys (d.inCall body.host.maxCallDepth) base) {callee : Value}
    {args : List Value} {name : Text} (called : d.Fine s callee) (fine : ∀ v ∈ args, d.Fine s v) :
    Ensures d base s (callWithin m body callee args name) d.Fine := by
  cases callee with
  | function f method => exact ensures_callFunction within (d.closure.mp called) fine
  | native n method => exact ensures_callNative obeys called fine
  | _ => exact ensures_notAFunction called

theorem host_of_counting (watch : Nat → State → Bool) (alarm : Stop) (host : Host)
    (fuel active : Nat) : (Machine.counting watch alarm host fuel active).host = host := by
  cases fuel <;> rfl

/-- By induction on the fuel, for all disciplines at once: the machine for the body of a
function obeys the one within the call. -/
theorem obeys_counting {watch : Nat → State → Bool} {alarm : Stop} {host : Host} {active : Nat}
    (admitted : d.Admits host) (settled : d.terms.home ≤ base)
    (shown : ∀ calls t, (within host.maxCallDepth calls d).Ready base t →
      watch (active + calls) t = true → d.stop t.history alarm) (fuel : Nat) :
    (Machine.counting watch alarm host fuel active).Obeys d base := by
  induction fuel generalizing d active with
  | zero =>
      exact
        { admitted := admitted
          settled := settled
          eval := fun _ _ => ensures_watching (shown 0) ensures_outOfFuel
          block := fun _ _ _ => ensures_watching (shown 0) ensures_outOfFuel
          call := fun _ _ => ensures_watching (shown 0) ensures_outOfFuel }
  | succ fuel ih =>
      -- the parts of the evaluator are over the machines below, which obey
      have here := ih admitted settled shown
      have entered : (Machine.counting watch alarm host fuel (active + 1)).Obeys
          (d.inCall (Machine.counting watch alarm host fuel (active + 1)).host.maxCallDepth)
            base := by
        rw [host_of_counting]
        apply ih (admits_inCall admitted _) settled
        intro calls t ready showing
        have more : active + 1 + calls = active + (calls + 1) := by omega
        rw [more] at showing
        exact shown (calls + 1) t ready showing
      exact
        { admitted := admitted
          settled := settled
          eval := fun placed inside =>
            ensures_watching (shown 0) (ensures_evalExpr here inside _ placed)
          block := fun placed inside top =>
            ensures_watching (shown 0) (ensures_execBlock here inside _ placed top)
          call := fun called fine =>
            ensures_watching (shown 0) (ensures_callWithin here entered called fine) }

theorem obeys_watched {watch : State → Bool} {alarm : Stop} {host : Host}
    (admitted : d.Admits host) (settled : d.terms.home ≤ base)
    (shown : ∀ calls t, (within host.maxCallDepth calls d).Ready base t → watch t = true →
      d.stop t.history alarm) (fuel : Nat) :
    (Machine.watched watch alarm host fuel).Obeys d base := by
  rw [watched_eq_counting watch alarm host fuel 0]
  exact obeys_counting admitted settled shown fuel

theorem obeys_of {host : Host} (admitted : d.Admits host) (settled : d.terms.home ≤ base)
    (fuel : Nat) : (Machine.of host fuel).Obeys d base := by
  rw [← watched_never .outOfFuel host fuel]
  exact obeys_watched admitted settled (by simp) fuel

/-- The discipline that asks nothing of values, on hosts with given modules; what a
step does to variables, control, modules and events is then all that is said of it. -/
def freeOn (path events : Text → Prop) : Discipline where
  terms := ⟨path, events, fun _ _ => True, False, 0⟩
  strict := false
  value := fun _ _ => True
  stop := fun _ _ => True
  value_later := fun _ _ => trivial
  stop_later := fun _ _ => trivial
  data := fun _ => trivial
  native := fun _ _ => trivial
  loop := fun _ => trivial
  starts := fun _ => trivial
  method := fun _ => trivial
  closure := fun {_ f _} =>
    ⟨fun _ => ⟨f.procedure.placed_of_lenient, Nat.zero_le _⟩, fun _ => trivial⟩
  vanished := fun _ => trivial
  atTop := fun _ => not_false
  missing := fun _ => trivial
  bare := fun _ => trivial
  outOfFuel := trivial
  fault := fun _ => trivial
  directory := trivial
  located := fun _ => trivial

/-- The discipline that asks nothing. -/
abbrev free : Discipline := freeOn (fun _ => True) (fun _ => True)

theorem admits_free (host : Host) : free.Admits host :=
  ⟨fun _ _ _ _ _ => trivial, fun _ _ => trivial, fun _ _ _ _ => trivial⟩

theorem ready_free {path events : Text → Prop} (s : State)
    (room : base ≤ s.scopes.scopes.size) : (freeOn path events).Ready base s :=
  ⟨⟨fun _ _ => trivial, ⟨fun _ _ _ => trivial, fun _ _ _ => trivial⟩, fun _ _ _ _ => trivial,
    fun _ _ => trivial, fun _ _ => trivial⟩, room, trivial⟩

theorem obeys_free (host : Host) (fuel : Nat) : (Machine.of host fuel).Obeys free base :=
  obeys_of (admits_free host) (Nat.zero_le _) fuel

end Discipline

/-- The state that a step ends in, however it ends. -/
def Eval.after {α : Type} (step : Eval α) (s : State) : State :=
  match step s with
  | .ok _ t => t
  | .error _ t => t

/-- However a step ends, it has kept what it ensures to keep. -/
theorem kept_of_ensures {α : Type} {d : Discipline} {base : Nat} {s : State} {step : Eval α}
    {good : State → α → Prop} (ensured : d.Ensures base s step good) (ready : d.Ready base s) :
    Effect d.terms base s (Eval.after step s) ∧ d.Ready base (Eval.after step s) := by
  have ends := ensured ready
  unfold Eval.after
  cases outcome : step s with
  | ok a t =>
      rw [outcome] at ends
      exact ⟨ends.1, ends.2.1⟩
  | error e t =>
      rw [outcome] at ends
      exact ⟨ends.1, ends.2.1⟩

theorem effect_of_ensures {α : Type} {path events : Text → Prop} {base : Nat} {s : State}
    {step : Eval α} {good : State → α → Prop}
    (ensured : (Discipline.freeOn path events).Ensures base s step good)
    (room : base ≤ s.scopes.scopes.size) :
    Effect ⟨path, events, fun _ _ => True, False, 0⟩ base s (Eval.after step s) :=
  (kept_of_ensures ensured (Discipline.ready_free s room)).1

end Loom
