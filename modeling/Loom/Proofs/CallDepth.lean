import Loom.Proofs.Watching

/-!
The limit to active calls is a bound and nothing else. A machine that counts the calls
of functions itself, from how evaluations are nested, never finds more of them active
than the host allows, and never another number than the state says. And a session in
which no call is refused is the same under every limit that is not smaller.
-/

namespace Loom

open Eval Interpreter

/-- What a machine gives that has counted wrongly. It is nothing that happens to programs. -/
def overrun : Stop := .failed (.host (.invalidEvents []))

/-- More calls are active than may be, or not as many as the state says. -/
def overruns (limit active : Nat) (s : State) : Bool := s.depth != active || decide (limit < active)

def Machine.counted (host : Host) (fuel : Nat) : Machine :=
  .counting (overruns host.maxCallDepth) overrun host fuel 0

def Stop.IsRefusal (limit : Nat) (e : Stop) : Prop :=
  ∃ name loc file, e = .failed (.program ⟨.runtime (.callDepth limit name), loc, file⟩)

namespace Discipline

/-- No call is active between requests, and nothing ends in an overrun. -/
def idle : Discipline where
  terms := .any
  strict := false
  value := fun _ _ => True
  stop := fun _ e => e ≠ overrun
  depth := fun n => n = 0
  value_later := fun _ _ => trivial
  stop_later := fun _ other => other
  data := fun _ => trivial
  native := fun _ _ => trivial
  loop := fun _ => trivial
  starts := fun _ => trivial
  method := fun _ => trivial
  closure := fun {h f method} => @Discipline.closure free h f method
  vanished := fun _ => trivial
  atTop := fun _ => not_false
  missing := fun _ => by simp [overrun]
  bare := fun _ => by simp [overrun]
  outOfFuel := by simp [overrun]
  fault := fun _ => by simp [overrun]
  directory := by simp [overrun]
  located := fun {_ failure _ _} other => by cases failure <;> simp_all [overrun, Failure.locate]

theorem admits_idle (host : Host) : idle.Admits host :=
  ⟨fun _ _ _ _ _ => trivial, fun _ _ => trivial, fun _ _ _ _ => trivial⟩

theorem not_overruns_within {limit calls base : Nat} {s : State}
    (ready : (within limit calls idle).Ready base s) : overruns limit calls s = false := by
  obtain ⟨n, deep, bound, outside⟩ := ready_of_within ready
  have none : n = 0 := outside.depth
  have counted : s.depth = calls := by omega
  have room : ¬ limit < calls := by omega
  simp [overruns, counted, room]

theorem serves_counted (fuel : Nat) : idle.Serves (fun host => .counted host fuel) := by
  intro host admitted
  apply obeys_counting admitted (Nat.le_refl 0) _ fuel
  intro calls t ready shown
  rw [Nat.zero_add, not_overruns_within ready] at shown
  cases shown

end Discipline

/-! Two limits. -/

theorem lasting_overrun : Lasting (fun e _ => e = overrun) := by
  constructor
  · exact fun _ _ _ _ same => same
  · intro failure _ loc file same
    cases failure with
    | program cause => cases same
    | host cause => exact same

theorem lasting_refusal (limit : Nat) : Lasting (fun e _ => e.IsRefusal limit) := by
  constructor
  · exact fun _ _ _ _ refused => refused
  · -- a failure that is given a place keeps its cause
    rintro failure _ _ _ ⟨name, loc, file, same⟩
    cases same
    exact ⟨name, _, _, rfl⟩

/-- A call that the smaller limit does not refuse is not refused by the larger one, and
is one for which the stack has room under both or under neither. -/
theorem follows_checkDepth {n m : Nat} (le : n ≤ m) (name : Text) :
    Follows (fun e _ => e.IsRefusal n) (checkDepth n name) (checkDepth m name) := by
  intro s
  simp only [Discipline.checkDepth_run]
  by_cases refused : n ≤ s.depth
  · rw [if_pos refused]
    exact .inr ⟨_, s, rfl, name, none, none, rfl⟩
  · have free : ¬ m ≤ s.depth := by omega
    rw [if_neg refused, if_neg free]
    exact .inl rfl

theorem follows_limit {host : Host} {m : Nat} (le : host.maxCallDepth ≤ m) (fuel : Nat) :
    (Machine.of host fuel).Follows (fun e _ => e.IsRefusal host.maxCallDepth)
      (.of (host.withCallDepth m) fuel) := by
  rw [← watched_never overrun host fuel, watched_eq_counting _ overrun host fuel 0]
  exact follows_counting (lasting_refusal _) (by simp) (follows_checkDepth le) fuel 0

/-! Sessions. -/

/-- No session is other than the one in which calls are counted, and no request in it
ends in an overrun. -/
theorem serveAll_counted (host : Host) (events : List HostEvent) (fuel : Nat)
    (requests : List Request) :
    (Interpreter.new host events).serveAll (fun host => .counted host fuel) requests =
        (Interpreter.new host events).serveAll (fun host => .of host fuel) requests ∧
      .error overrun ∉
        ((Interpreter.new host events).serveAll (fun host => .of host fuel) requests).1 := by
  have kept : Discipline.idle.Kept (Interpreter.new host events) :=
    Discipline.kept_new (Discipline.admits_idle host) (fun _ => trivial) events rfl
  have stops := (Discipline.allows_serveAll (Discipline.serves_counted fuel) requests kept
    (fun request _ => request.placed_of_lenient)).2.2.2
  have follows : ∀ host : Host,
      (Machine.counted host fuel).Follows (fun e _ => e = overrun) (.of host fuel) := fun host =>
    follows_counting lasting_overrun (fun _ _ _ => rfl) (fun _ => follows_refl _) fuel 0
  have same := serveAll_eq_of_follows lasting_overrun follows requests
    (fun e member _ alarm => stops e member alarm)
  rw [same]
  exact ⟨rfl, fun member => stops overrun member rfl⟩

/-- What comes of requests under a limit comes of them under a larger one, unless one of
them fails because of the limit. -/
theorem serveAll_roomier (host : Host) (events : List HostEvent) (fuel : Nat)
    (requests : List Request) {n m : Nat} (le : n ≤ m) :
    let session := fun limit =>
      (Interpreter.new (host.withCallDepth limit) events).serveAll (fun host => .of host fuel)
        requests
    (∀ e, .error e ∈ (session n).1 → ¬ e.IsRefusal n) →
      session m = ((session n).1, (session n).2.withCallDepth m) := by
  intro session free
  have follows : ∀ other : Host, other.maxCallDepth = n →
      (Machine.of other fuel).Follows (fun e _ => e.IsRefusal n)
        (.of (other.withCallDepth m) fuel) := by
    rintro other rfl
    exact follows_limit le fuel
  -- what a new interpreter starts from does not depend on the limit
  have started : Interpreter.new (host.withCallDepth m) events =
      (Interpreter.new (host.withCallDepth n) events).withCallDepth m := rfl
  simp only [session, started]
  exact serveAll_of_follows (lasting_refusal n) follows requests (fun e member _ => free e member)

/-- Two limits, the first not above the second. Whatever a host asks of a new interpreter
that sets the first, whether it runs texts or trees or calls functions: a machine that
counts for itself how many calls of functions are active finds at every point as many as
the state says and no more than the limit. And if no request fails because of the limit,
the same requests give the same results under the second limit and leave the
interpreter in the same state, with the same lines put out, the same globals and the same
events waiting. -/
theorem call_depth_only_bounds (host : Host) (events : List HostEvent) (fuel : Nat)
    (requests : List Request) (n m : Nat) (le : n ≤ m) :
    let session := fun limit machine =>
      (Interpreter.new (host.withCallDepth limit) events).serveAll machine requests
    let ordinary := fun host => Machine.of host fuel
    (session n (fun host => .counted host fuel) = session n ordinary ∧
      .error overrun ∉ (session n ordinary).1) ∧
    ((∀ e, .error e ∈ (session n ordinary).1 → ¬ e.IsRefusal n) →
      (session m ordinary).1 = (session n ordinary).1 ∧
        (session m ordinary).2 = (session n ordinary).2.withCallDepth m) := by
  intro session ordinary
  constructor
  · exact serveAll_counted (host.withCallDepth n) events fuel requests
  · intro free
    have same : session m ordinary =
        ((session n ordinary).1, (session n ordinary).2.withCallDepth m) :=
      serveAll_roomier host events fuel requests le free
    rw [same]
    exact ⟨rfl, rfl⟩

def nestedRequests : List Request :=
  [.runSource
      "import native events\nfunc f(e)\nemit \"f\"\nend\nfunc start()\nuse events\nevents.StartLoop()\nend\nevents.SetHandler(\"a\", ref f)\nstart()\n"
      none]

def nestedSession (limit : Nat) : List (Except Stop Unit) × Interpreter :=
  (Interpreter.new (Host.plain.withCallDepth limit) [⟨"a", none⟩]).serveAll
    (fun host => .of host 15) nestedRequests

def failures (results : List (Except Stop Unit)) : List Text :=
  results.filterMap fun
    | .error (.failed failure) => some failure.message
    | _ => none

/-- With room for two calls the loop that a function runs calls the handler, and room for
three changes nothing; with room for one the handler is refused. -/
theorem started_loop_within_limit :
    2 ≤ 3 ∧ (∀ e, .error e ∈ (nestedSession 2).1 → ¬ e.IsRefusal 2) ∧
      (nestedSession 3).1 = (nestedSession 2).1 ∧
      (nestedSession 3).2 = (nestedSession 2).2.withCallDepth 3 ∧
      (nestedSession 2).2.state.emitted.map Emission.line = ["f"] ∧
      failures (nestedSession 1).1 =
        ["RuntimeError [line 7, col 0]: maximum call depth of 1 exceeded in 'f'"] := by
  have quiet : failures (nestedSession 2).1 = [] := by decide +kernel
  have free : ∀ e, .error e ∈ (nestedSession 2).1 → ¬ e.IsRefusal 2 := by
    rintro e member ⟨name, loc, file, rfl⟩
    have told := List.filterMap_eq_nil_iff.mp quiet _ member
    simp at told
  obtain ⟨_, roomier⟩ :=
    call_depth_only_bounds .plain [⟨"a", none⟩] 15 nestedRequests 2 3 (by decide)
  obtain ⟨results, final⟩ := roomier free
  exact ⟨by decide, free, results, final, by decide +kernel, by decide +kernel⟩

end Loom
