import Loom.Proofs.Delivery

/-!
Events over a session. No event is lost or made up, whatever the interpreter is asked.
And on a host that makes its event loop under one name there is one loop only, as long
as nothing is forgotten; so a loop that is started finds no other that takes events,
and delivers all that is there.
-/

namespace Loom

open Eval Interpreter

variable {loop : Nat} {events : List HostEvent} {s t : State}

/-! Hosts with one event loop. -/

/-- A host makes event loops under one name at most. -/
def Host.EventsAt (host : Host) (name : Text) : Prop :=
  ∀ other, Table.find? other host.natives = some .events → other = name

/-- The discipline that loops are started only after they have been made, under one name. -/
def Discipline.single (name : Text) : Discipline where
  terms := ⟨fun _ => True, (· = name), fun h loop => .opened loop ∈ h, False, 0⟩
  strict := false
  value := fun h v => ∀ owner method, v = .native ⟨.startLoop, owner⟩ method → .opened owner ∈ h
  stop := fun _ _ => True
  value_later := fun later fine owner method same => later.subset (fine owner method same)
  stop_later := fun _ _ => trivial
  data := fun {_ v} plain owner method same => by simp [same, Value.isData] at plain
  native := fun _ other owner method same => by
    cases same
    exact absurd rfl other
  loop := fun hit owner method same => by
    cases same
    exact hit
  starts := fun fine => fine _ _ rfl
  method := fun {_ v} fine owner method same => by
    cases v with
    | native n inner =>
        cases same
        exact fine owner inner rfl
    | _ => cases same
  closure := fun {_ f _} =>
    ⟨fun _ => ⟨f.procedure.placed_of_lenient, Nat.zero_le _⟩, fun _ _ _ same => by cases same⟩
  vanished := fun _ _ _ same => by cases same
  atTop := fun _ => not_false
  missing := fun _ => trivial
  bare := fun _ => trivial
  outOfFuel := trivial
  fault := fun _ => trivial
  directory := trivial
  located := fun _ => trivial

theorem obeys_single {host : Host} {name : Text} (events : host.EventsAt name) (fuel : Nat) :
    (Machine.of host fuel).Obeys (Discipline.single name) 0 := by
  refine Discipline.obeys_of ?_ (Nat.le_refl 0) fuel
  constructor
  · intro _ _ _ _ _ owner method same
    cases same
  · exact events
  · exact fun _ _ _ _ => trivial

/-- There is one loop at most, which is made when its module is kept, and only loops that
were made have taken events. -/
structure State.OneLoop (name : Text) (s : State) : Prop where
  made : ∀ loop, .opened loop ∈ s.history → loop < s.loops.size
  single : s.loops.size ≤ 1
  unmade : Table.find? name s.nativeCache = none → s.loops.size = 0
  takers : ∀ loop, .took loop ∈ s.history → .opened loop ∈ s.history

theorem State.OneLoop.of_same {name : Text} (one : s.OneLoop name)
    (loops : t.loops.size = s.loops.size) (natives : t.nativeCache = s.nativeCache)
    (history : t.history = s.history) : t.OneLoop name := by
  constructor
  · rw [history, loops]; exact one.made
  · rw [loops]; exact one.single
  · rw [natives, loops]; exact one.unmade
  · rw [history]; exact one.takers

theorem State.OneLoop.marked {name : Text} (one : s.OneLoop name) {mark : Mark}
    (opens : ∀ loop, mark ≠ .opened loop) (takes : ∀ loop, mark ≠ .took loop)
    (loops : t.loops.size = s.loops.size) (natives : t.nativeCache = s.nativeCache)
    (history : t.history = mark :: s.history) : t.OneLoop name := by
  constructor
  case made =>
    intro loop hit
    rw [history] at hit
    rw [loops]
    exact one.made loop ((List.mem_cons.mp hit).resolve_left (opens loop).symm)
  case single => rw [loops]; exact one.single
  case unmade => rw [natives, loops]; exact one.unmade
  case takers =>
    intro loop hit
    rw [history] at hit ⊢
    exact .tail _ (one.takers loop ((List.mem_cons.mp hit).resolve_left (takes loop).symm))

/-- Another module is kept. -/
theorem State.OneLoop.keeping {name : Text} (one : s.OneLoop name) (other : Text) (v : Value) :
    { s with nativeCache := Table.insert other v s.nativeCache }.OneLoop name := by
  refine ⟨one.made, one.single, ?_, one.takers⟩
  intro missing
  apply one.unmade
  simp only [Table.find?_insert] at missing
  split at missing
  · cases missing
  · exact missing

/-- The module is made and kept, with its loop. -/
theorem State.OneLoop.opening {name : Text} (one : s.OneLoop name)
    (new : Table.find? name s.nativeCache = none) (heap : Heap) (v : Value) :
    { s with
      loops := s.loops.push ⟨[], false⟩
      heap := heap
      history := .opened s.loops.size :: s.history
      nativeCache := Table.insert name v s.nativeCache }.OneLoop name := by
  have none := one.unmade new
  constructor
  case made =>
    intro loop hit
    rcases List.mem_cons.mp hit with same | earlier
    · cases same
      simp
    · have inside := one.made loop earlier
      omega
  case single => simp [none]
  case unmade =>
    intro missing
    simp [Table.find?_insert] at missing
  case takers =>
    intro loop hit
    rcases List.mem_cons.mp hit with same | earlier
    · cases same
    · exact .tail _ (one.takers loop earlier)

/-- A loop that was made takes an event. -/
theorem State.OneLoop.taking {name : Text} (one : s.OneLoop name) {taker : Nat}
    (made : .opened taker ∈ s.history) (rest : List HostEvent) :
    (s.taking taker rest).OneLoop name := by
  refine ⟨?_, one.single, one.unmade, ?_⟩
  · intro loop hit
    rcases List.mem_cons.mp hit with same | earlier
    · cases same
    · exact one.made loop earlier
  · intro loop hit
    rcases List.mem_cons.mp hit with same | earlier
    · cases same
      exact .tail _ made
    · exact .tail _ (one.takers loop earlier)

/-- A loop that was made is the only one. -/
theorem State.OneLoop.eq_zero {name : Text} (one : s.OneLoop name)
    (opened : .opened loop ∈ s.history) : loop = 0 := by
  have inside := one.made loop opened
  have single := one.single
  omega

theorem one_loop_of_chain {name : Text} {base : Nat} {part : Part}
    (chain : Chain (Discipline.single name).terms base part s t) (one : s.OneLoop name)
    (made : ∀ loop, part = .delivery loop → .opened loop ∈ s.history) : t.OneLoop name := by
  induction chain with
  | none s => exact one
  | andThen first _ earlier later =>
      exact later (earlier one made)
        (fun loop same => (effect_grows first).history.subset (made loop same))
  | data _ history _ sources => exact one.of_same sources.loops sources.natives history
  | root s _ => exact one.of_same rfl rfl rfl
  | child s _ _ _ _ _ => exact one.of_same rfl rfl rfl
  | rebound s _ _ _ _ _ => exact one.of_same rfl rfl rfl
  | assign s _ _ _ _ => exact one.of_same rfl rfl rfl
  | marked s mark quiet =>
      have opens : ∀ loop, mark ≠ .opened loop := by
        rintro loop rfl
        exact quiet
      have takes : ∀ loop, mark ≠ .took loop := by
        rintro loop rfl
        exact quiet
      exact one.marked opens takes rfl rfl rfl
  | share s _ _ _ _ => exact one.marked (by simp) (by simp) rfl rfl rfl
  | declare s _ _ _ _ _ => exact one.marked (by simp) (by simp) rfl rfl rfl
  | inFile s t _ _ inner =>
      exact (inner (one.of_same rfl rfl rfl) (by simp)).of_same rfl rfl rfl
  | inCall s t _ inner =>
      exact (inner (one.of_same rfl rfl rfl) (by simp)).of_same rfl rfl rfl
  | broken s t path _ _ _ _ inner =>
      have begun : (s.begun path).OneLoop name := one.marked (by simp) (by simp) rfl rfl rfl
      exact (inner begun (by simp)).of_same rfl rfl rfl
  | loaded s t path _ _ _ _ _ _ inner =>
      have begun : (s.begun path).OneLoop name := one.marked (by simp) (by simp) rfl rfl rfl
      exact (inner begun (by simp)).marked (by simp) (by simp) rfl rfl rfl
  | imported s _ _ _ => exact one.marked (by simp) (by simp) rfl rfl rfl
  | native s other v => exact one.keeping other v
  -- loops are made under this name only, and as it is not kept there is none yet
  | opened s other allowed new heap v =>
      cases allowed
      exact one.opening new heap v
  | took s taker _ rest _ => exact one.taking (made taker rfl) rest
  | handled _ _ inner => exact inner one (by simp)
  | whileRunning s t started _ allowed _ inner =>
      have size : (setRunning started true s).loops.size = s.loops.size := by simp [setRunning]
      have ended := inner (one.of_same size rfl rfl) (by
        intro loop same
        cases same
        exact allowed)
      exact ended.of_same (by simp [setRunning]) rfl rfl

/-- A state on a host that makes event loops under a name. -/
structure State.EventsAt (name : Text) (s : State) : Prop where
  loops : s.OneLoop name
  ready : (Discipline.single name).Ready 0 s

theorem events_at_after {α : Type} {name : Text} {step : Eval α} {good : State → α → Prop}
    (there : s.EventsAt name) (ensured : (Discipline.single name).Ensures 0 s step good) :
    (after step s).EventsAt name := by
  obtain ⟨effect, ready⟩ := kept_of_ensures ensured there.ready
  exact ⟨one_loop_of_chain effect there.loops (by simp), ready⟩

theorem State.EventsAt.alone {name : Text} (there : s.EventsAt name)
    (opened : .opened loop ∈ s.history) (after : t.EventsAt name) :
    ∀ other, .took other ∈ s.marksSince t → other = loop := by
  intro other taken
  have taken : .took other ∈ t.history := List.mem_of_mem_take taken
  rw [after.loops.eq_zero (after.loops.takers other taken), there.loops.eq_zero opened]

/-! Sessions. -/

theorem accounted_of_served {terms : Terms} (served : Discipline.Served terms events s t) :
    ∃ taken, s.queue ++ events = taken ++ t.queue ∧
      t.history.countP Mark.isTook = s.history.countP Mark.isTook + taken.length := by
  cases served with
  | ran effect =>
      obtain ⟨taken, queue, count⟩ := taken_of_chain effect
      exact ⟨taken, by rw [List.append_nil, queue], count⟩
  | pushed => exact ⟨[], rfl, rfl⟩

/-- No request loses an event, or makes one up. -/
theorem accounted_serve (fuel : Nat) (i : Interpreter) (request : Request) :
    ∃ taken,
      i.state.queue ++ request.pushes =
        taken ++ (i.serve (fun host => .of host fuel) request).2.state.queue ∧
      (i.serve (fun host => .of host fuel) request).2.state.history.countP Mark.isTook =
        i.state.history.countP Mark.isTook + taken.length := by
  by_cases forgets : request = .reset
  · subst forgets
    obtain ⟨globals, scopes, outcome⟩ := Discipline.withNewGlobals_eq i.state
    refine ⟨[], ?_, ?_⟩
    · simp [Interpreter.serve, Interpreter.reset, outcome, Request.pushes]
    · simp [Interpreter.serve, Interpreter.reset, outcome]
  · have serving : Discipline.free.Serving request.pushes i.state
        (i.serve (fun host => .of host fuel) request) :=
      Discipline.serving_serve (Discipline.obeys_free i.host fuel)
        (Discipline.ready_free i.state (Nat.zero_le _)) False.elim request
        request.placed_of_lenient forgets
    exact accounted_of_served serving.served

theorem accounted_serveAll (fuel : Nat) (requests : List Request) (i : Interpreter) :
    ∃ taken,
      i.state.queue ++ requests.flatMap Request.pushes =
        taken ++ (i.serveAll (fun host => .of host fuel) requests).2.state.queue ∧
      (i.serveAll (fun host => .of host fuel) requests).2.state.history.countP Mark.isTook =
        i.state.history.countP Mark.isTook + taken.length := by
  induction requests generalizing i with
  | nil => exact ⟨[], by simp [Interpreter.serveAll], rfl⟩
  | cons request rest ih =>
      obtain ⟨first, queue, count⟩ := accounted_serve fuel i request
      obtain ⟨later, queue', count'⟩ := ih (i.serve (fun host => .of host fuel) request).2
      refine ⟨first ++ later, ?_, ?_⟩
      · rw [List.flatMap_cons, ← List.append_assoc, queue, List.append_assoc, queue',
          List.append_assoc]
        rfl
      · rw [List.length_append, ← Nat.add_assoc, ← count]
        exact count'

theorem new_queue (host : Host) (events : List HostEvent) :
    (Interpreter.new host events).state.queue = events ∧
      (Interpreter.new host events).state.history = [] := by
  obtain ⟨globals, scopes, outcome⟩ := Discipline.withNewGlobals_eq (blankState events)
  rw [Interpreter.new, outcome]
  exact ⟨rfl, rfl⟩

theorem events_at_new (host : Host) (name : Text) (events : List HostEvent) :
    (Interpreter.new host events).state.EventsAt name := by
  have blank : (blankState events).OneLoop name := by
    constructor <;> simp [blankState]
  have ready :=
    Discipline.ready_newGlobals (Discipline.ready_blank (Discipline.single name) events)
  obtain ⟨globals, scopes, outcome⟩ := Discipline.withNewGlobals_eq (blankState events)
  rw [outcome] at ready
  rw [Interpreter.new, outcome]
  exact ⟨blank.of_same rfl rfl rfl, ready⟩

theorem natives_serve (fuel : Nat) (i : Interpreter) (request : Request) :
    (i.serve (fun host => .of host fuel) request).2.host.natives = i.host.natives := by
  by_cases adds : ∃ name source, request = .addModule name source
  · obtain ⟨name, source, rfl⟩ := adds
    simp only [Interpreter.serve, Interpreter.addModule]
    split <;> rfl
  · have other : ∀ name source, request ≠ .addModule name source :=
      fun name source same => adds ⟨name, source, same⟩
    rw [Discipline.serve_host i other]

theorem one_loop_of_served {name : Text}
    (served : Discipline.Served (Discipline.single name).terms events s t)
    (one : s.OneLoop name) : t.OneLoop name := by
  cases served with
  | ran effect => exact one_loop_of_chain effect one (by simp)
  | pushed => exact one.of_same rfl rfl rfl

theorem events_at_serveAll (fuel : Nat) {name : Text} (requests : List Request)
    {i : Interpreter} (events : i.host.EventsAt name) (there : i.state.EventsAt name)
    (keeps : .reset ∉ requests) :
    (i.serveAll (fun host => .of host fuel) requests).2.state.EventsAt name := by
  induction requests generalizing i with
  | nil => exact there
  | cons request rest ih =>
      have differ : request ≠ .reset := by
        rintro rfl
        exact keeps (.head _)
      have serving : (Discipline.single name).Serving request.pushes i.state
          (i.serve (fun host => .of host fuel) request) :=
        Discipline.serving_serve (obeys_single events fuel) there.ready False.elim request
          request.placed_of_lenient differ
      have loops := one_loop_of_served serving.served there.loops
      apply ih _ ⟨loops, serving.ready⟩ (fun later => keeps (.tail _ later))
      intro other found
      rw [natives_serve] at found
      exact events other found

/-! Payloads. -/

/-- The payload of an event, if it has one, is a record. -/
def HostEvent.IsRecord (event : HostEvent) : Prop :=
  ∀ data, event.payload = some data → ∃ fields, data = .obj fields

/-- A payload is given to a handler as one new hash, which is empty without a payload. -/
theorem ofHost_argument {event : HostEvent} (record : event.IsRecord) (heap : Heap) (n : Nat) :
    ∃ fields place, event.payload.getD (.obj []) = .obj fields ∧
      (Value.ofHost event.argument.host heap n).1 = .hash place ∧
      (Value.ofHost event.argument.host heap n).2.hash place =
        (Value.fieldsOfHost (Json.hostFields fields) heap n).1 := by
  have argument : ∃ fields, event.payload.getD (.obj []) = .obj fields ∧
      event.argument = .obj fields := by
    cases payload : event.payload with
    | none => exact ⟨[], rfl, by simp [HostEvent.argument, payload]⟩
    | some data =>
        obtain ⟨fields, rfl⟩ := record data payload
        exact ⟨fields, rfl, by simp [HostEvent.argument, payload]⟩
  obtain ⟨fields, given, same⟩ := argument
  refine ⟨fields, (Value.fieldsOfHost (Json.hostFields fields) heap n).2.hashes.size, given, ?_, ?_⟩
  · rw [same, Json.host, Value.ofHost]
    rfl
  · rw [same, Json.host, Value.ofHost, Heap.hash_newHash, if_pos rfl]

/-- An event is given to a handler as one new hash. No request loses an event or makes
one up: what was taken comes first, what is left after it.

A loop that is running cannot be started. One that is not delivers what is waiting, each
event once and in order, as long as no other loop takes events; and on a host that makes
its event loop under one name no other does, as long as nothing is forgotten. Then a
loop ends by itself only when nothing is left, and otherwise with the events left after
the one whose handler has failed. -/
theorem events_delivered_in_order (fuel : Nat) :
    (∀ event : HostEvent, event.IsRecord → ∀ heap n, ∃ fields place,
      event.payload.getD (.obj []) = .obj fields ∧
        (Value.ofHost event.argument.host heap n).1 = .hash place ∧
        (Value.ofHost event.argument.host heap n).2.hash place =
          (Value.fieldsOfHost (Json.hostFields fields) heap n).1) ∧
    (∀ host events requests,
      let s := ((Interpreter.new host events).serveAll (fun host => .of host fuel) requests).2.state
      (∀ loop, s.isRunning loop = false) ∧
        ∃ taken, events ++ requests.flatMap Request.pushes = taken ++ s.queue ∧
          s.history.countP Mark.isTook = taken.length) ∧
    (∀ host (s : State) loop method text,
      let m := Machine.of host fuel
      let start := callValue m (.native ⟨.startLoop, loop⟩ method) [] text
      (s.isRunning loop = true →
        start s = .error (.failed (.of (.runtime .loopRunning))) s) ∧
      (loop < s.loops.size → s.isRunning loop = false →
        (∀ other, .took other ∈ s.marksSince (after start s) → other = loop) →
        ∃ outcome, Delivery m loop m.fuel s.queue (setRunning loop true s) outcome ∧
          start s = closed loop outcome)) ∧
    ∀ (host : Host) name, host.EventsAt name →
      (∀ events requests, .reset ∉ requests →
        ((Interpreter.new host events).serveAll
          (fun host => .of host fuel) requests).2.state.EventsAt name) ∧
      ∀ s : State, s.EventsAt name →
        (∀ st scope, (after (execStmt (.of host fuel) st scope) s).EventsAt name) ∧
        ∀ loop method text, .opened loop ∈ s.history →
          let m := Machine.of host fuel
          let start := callValue m (.native ⟨.startLoop, loop⟩ method) [] text
          (after start s).EventsAt name ∧ s.SameControl (after start s) ∧
          ((∃ other, s.isRunning other = true) →
            start s = .error (.failed (.of (.runtime .loopRunning))) s) ∧
          ((∀ other, s.isRunning other = false) →
            (∃ outcome, Delivery m loop m.fuel s.queue (setRunning loop true s) outcome ∧
              start s = closed loop outcome) ∧
            (∀ v t, start s = .ok v t → t.queue = []) ∧
            ∀ e t, start s = .error e t → s.queue.length < m.fuel →
              ∃ before event, s.queue = before ++ event :: t.queue) := by
  have started : ∀ host loop method text, callValue (.of host fuel)
      (.native ⟨.startLoop, loop⟩ method) [] text = startLoop (.of host fuel) loop :=
    fun _ _ _ _ => rfl
  refine ⟨fun event record heap n => ofHost_argument record heap n, ?_, ?_, ?_⟩
  · intro host events requests s
    have resting := at_rest_serveAll host events fuel requests
    obtain ⟨taken, queue, count⟩ := accounted_serveAll fuel requests (.new host events)
    obtain ⟨start, blank⟩ := new_queue host events
    rw [start] at queue
    rw [blank] at count
    exact ⟨resting.running, taken, queue, by simpa using count⟩
  · intro host s loop method text
    simp only [started]
    exact ⟨startLoop_running, delivery_of_startLoop (Discipline.obeys_free host fuel)⟩
  · intro host name one
    have obeys := obeys_single one fuel
    constructor
    · intro events requests keeps
      exact events_at_serveAll fuel requests one (events_at_new host name events) keeps
    · intro s there
      constructor
      · intro st scope
        exact events_at_after there
          (Discipline.ensures_execStmt obeys (Nat.zero_le _) st (st.placed_of_lenient .function)
            (Discipline.top_of_inner rfl))
      · intro loop method text opened
        simp only [started]
        have ensured := Discipline.ensures_startLoop obeys loop opened
        have there' := events_at_after there ensured
        have effect := (kept_of_ensures ensured there.ready).1
        refine ⟨there', effect_same_control effect, ?_, ?_⟩
        · rintro ⟨other, running⟩
          have inside := State.lt_size_of_running running
          -- there is only one loop, so the one that is running is this one
          have single := there.loops.single
          have same : other = loop := by
            rw [there.loops.eq_zero opened]
            omega
          exact startLoop_running (same ▸ running)
        · intro idle
          -- and for the same reason no other one takes events meanwhile
          have alone := there.alone opened there'
          obtain ⟨outcome, delivery, same⟩ := delivery_of_startLoop
            (Discipline.obeys_free host fuel) (there.loops.made loop opened) (idle loop) alone
          refine ⟨⟨outcome, delivery, same⟩, ?_, ?_⟩
          · intro v t ended
            exact queue_of_closed delivery (same ▸ ended)
          · intro e t ended room
            rw [show s.queue = (setRunning loop true s).queue from rfl] at room
            exact queue_of_closed_error delivery (same ▸ ended) room

/-- A program that handles one kind of events, and whose handler handles another kind. -/
def handlingRequests : List Request :=
  [.runSource
      "import native events\nfunc g(e)\nemit \"g\"\nend\nfunc f(e)\nuse events, g\nemit e.k\nevents.SetHandler(\"b\", ref g)\nend\nevents.SetHandler(\"a\", ref f)\n"
      none,
    .push [⟨"b", none⟩]]

def handledEvents : List HostEvent := [⟨"b", none⟩, ⟨"a", some (.obj [("k", .bool true)])⟩]

def handlingState : State :=
  ((Interpreter.new .plain handledEvents).serveAll
    (fun host => .of host 15) handlingRequests).2.state

def startHandling : Eval Value :=
  callValue (.of .plain 15) (.native ⟨.startLoop, 0⟩ false) [] "StartLoop"

theorem plain_eventsAt : Host.plain.EventsAt "events" := by
  intro other found
  have member := Table.mem_of_find? other _ _ found
  simp only [Host.plain, Host.builtinModules, List.mem_singleton, Prod.mk.injEq] at member
  exact member.1

/-- The first event is skipped; the last one, of the same name, is not. -/
theorem later_handler_called :
    Host.plain.EventsAt "events" ∧ .reset ∉ handlingRequests ∧
      handlingState.EventsAt "events" ∧ .opened 0 ∈ handlingState.history ∧
      (∃ outcome, Delivery (.of .plain 15) 0 14 handlingState.queue
        (setRunning 0 true handlingState) outcome ∧
        startHandling handlingState = closed 0 outcome) ∧
      (after startHandling handlingState).queue = [] ∧
      (after startHandling handlingState).emitted.map Emission.line = ["g", "true"] := by
  have keeps : .reset ∉ handlingRequests := by
    intro member
    simp only [handlingRequests, List.mem_cons, List.not_mem_nil, or_false] at member
    rcases member with same | same
    · cases same
    · cases same
  obtain ⟨kept, starts⟩ := (events_delivered_in_order 15).2.2.2 .plain "events" plain_eventsAt
  have there : handlingState.EventsAt "events" := kept handledEvents handlingRequests keeps
  have ran : .opened 0 ∈ handlingState.history ∧
      (after startHandling handlingState).queue = [] ∧
      (after startHandling handlingState).emitted.map Emission.line = ["g", "true"] := by
    decide +kernel
  have idle : ∀ other, handlingState.isRunning other = false :=
    (at_rest_serveAll .plain handledEvents 15 handlingRequests).running
  have delivered := ((starts handlingState there).2 0 false "StartLoop" ran.1).2.2.2 idle
  exact ⟨plain_eventsAt, keeps, there, ran.1, delivered.1, ran.2⟩

end Loom
