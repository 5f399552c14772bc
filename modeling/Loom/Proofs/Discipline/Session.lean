import Loom.Interpreter
import Loom.Proofs.Discipline.Machine

/-!
What is ensured of an interpreter over a session, whatever it is asked and in
whatever order, and whether the requests before succeeded or failed. Each request
finds the interpreter ready and leaves it so; the session follows by induction.
-/

namespace Loom

/-- Whether what a request runs is placed. A text that is read always is. -/
def Request.Placed (strict : Bool) : Request → Prop
  | .run made _ => made.program.Placed strict
  | .runTree tree _ => ∀ program, Program.ofTree tree = .ok program → program.Placed strict
  | _ => True

theorem Request.placed_of_lenient (request : Request) : request.Placed false := by
  cases request with
  | run made file => exact made.program.placed_of_lenient
  | runTree tree file => exact fun program _ => program.placed_of_lenient
  | _ => trivial

/-- The events that a request puts on the queue. -/
def Request.pushes : Request → List HostEvent
  | .push events => events
  | _ => []

theorem is_syntax_of_ofTree (tree : Json) (cause : Diagnostic)
    (failed : Program.ofTree tree = .error cause) : cause.IsSyntax := by
  unfold Program.ofTree at failed
  split at failed
  all_goals cases failed
  all_goals exact ⟨_, rfl⟩

theorem is_syntax_of_parseFile (source : Text) (file : Option Text) (cause : Diagnostic)
    (failed : parseFile source file = .error cause) : cause.IsSyntax := by
  unfold parseFile at failed
  cases outcome : parse source with
  | ok program => simp [outcome] at failed
  | error found =>
      simp only [outcome] at failed
      cases failed
      exact is_syntax_of_parse source found outcome

theorem parse_of_parseFile (source : Text) (file : Option Text) (program : Program)
    (found : parseFile source file = .ok program) : parse source = .ok program := by
  unfold parseFile at found
  cases outcome : parse source with
  | ok program => simpa [outcome] using found
  | error cause => simp [outcome] at found

namespace Discipline

open Eval Interpreter

variable {d : Discipline} {base : Nat} {s : State} {m : Machine}

/-! Runs and calls. -/

theorem ensures_runOn (obeys : m.Obeys d 0) {program : Program} {file : Option Text}
    (placed : program.Placed d.strict) (top : d.Top .program s s.globals) :
    Ensures d 0 s (runOn m program file) (fun _ _ => True) := by
  have still : ∀ a t, nothingUnderway s = .ok a t → t.globals = s.globals := by
    intro _ _ same
    cases same
    rfl
  apply ensures_bind (ensures_also ensures_nothingUnderway still)
  rintro _ t effect _ ⟨_, same⟩
  apply ensures_get
  intro _
  rw [same]
  have top := top.after (effect_grows effect)
  exact ensures_inFile (ensures_topLevel obeys placed (Nat.zero_le _) top) (fun _ _ _ => trivial)

theorem ensures_runRead (obeys : m.Obeys d 0) {program : Program} {file : Option Text}
    (placed : program.Placed d.strict) (top : d.Top .program s s.globals) :
    Ensures d 0 s (runRead m program file) (fun _ _ => True) := by
  have still : ∀ p t, numbered program s = .ok p t → t.globals = s.globals := by
    intro _ _ same
    cases same
    rfl
  apply ensures_bind (ensures_also (ensures_numbered placed) still)
  rintro program t effect _ ⟨placed, same⟩
  have top := top.after (effect_grows effect)
  rw [← same] at top
  exact ensures_runOn obeys placed top

theorem ensures_allOfJson (list : List Json) :
    Ensures d base s (Interpreter.allOfJson list) (fun t values => ∀ v ∈ values, d.Fine t v) := by
  induction list generalizing s with
  | nil => exact ensures_pure (by simp)
  | cons data rest ih =>
      apply ensures_bind (ensures_ofJson data)
      intro v t _ _ fine
      apply ensures_bind ih
      intro values u effect _ others
      exact ensures_pure (List.forall_mem_cons.mpr ⟨Fine.after effect fine, others⟩)

theorem ensures_callOn (obeys : m.Obeys d base) (name : Text) (args : List Json) :
    Ensures d base s (callOn m name args) (fun _ _ => True) := by
  apply ensures_then ensures_nothingUnderway
  intro _ s _ _
  apply ensures_get
  intro _
  apply ensures_still ensures_lookup
  intro callee _ called
  apply ensures_bind (ensures_allOfJson args)
  intro values u effect _ fine
  apply ensures_bind (ensures_hostCall obeys (Fine.after effect called) fine)
  intro v w _ _ result
  apply ensures_still (ensures_typeOf result)
  intro type _ _
  exact ensures_still (ensures_textOf result) (fun _ _ _ => ensures_pure trivial)

/-! Interpreters. -/

theorem step_eq {α : Type} (i : Interpreter) (action : Eval α) :
    (i.step action).2 = { i with state := Eval.after action i.state } := by
  unfold Interpreter.step Eval.after
  cases action i.state with
  | ok a t => rfl
  | error e t => rfl

/-- An interpreter that a discipline is kept by. -/
structure Kept (d : Discipline) (i : Interpreter) : Prop where
  ready : d.Ready 0 i.state
  top : d.Top .program i.state i.state.globals
  admitted : d.Admits i.host
  /-- The host may be given any module. -/
  addable : ∀ path, d.terms.path path

/-- New globals are a new root, and those of the main program from then on. -/
theorem withNewGlobals_run (s : State) :
    ∃ entries, withNewGlobals s = { s.rooted entries with globals := s.scopes.scopes.size } :=
  ⟨builtinEntries s.scopes.scopes.size, by simp only [withNewGlobals, newGlobals_run]⟩

/-- A new global scope is all that is new. -/
theorem withNewGlobals_eq (s : State) :
    ∃ globals scopes, withNewGlobals s = { s with scopes := scopes, globals := globals } := by
  obtain ⟨entries, made⟩ := withNewGlobals_run s
  exact ⟨_, _, made⟩

theorem grows_newGlobals (s : State) : s.Grows (withNewGlobals s) := by
  obtain ⟨entries, made⟩ := withNewGlobals_run s
  rw [made]
  exact (s.grows_rooted entries).trans (State.grows_of_same rfl rfl rfl)

theorem same_control_newGlobals (s : State) : s.SameControl (withNewGlobals s) := by
  obtain ⟨entries, made⟩ := withNewGlobals_run s
  rw [made]
  exact State.same_control_of rfl rfl rfl rfl

theorem global_newGlobals (s : State) :
    ((withNewGlobals s).scopes.scope (withNewGlobals s).globals).kind = .global := by
  obtain ⟨entries, made⟩ := withNewGlobals_run s
  rw [made]
  exact s.global_rooted entries

theorem ready_newGlobals (ready : d.Ready base s) : d.Ready base (withNewGlobals s) := by
  have ends := ensures_newGlobals ready
  unfold withNewGlobals
  cases outcome : newGlobals s with
  | ok globals t =>
      rw [outcome] at ends
      exact ends.2.1.of_same rfl rfl rfl rfl rfl rfl rfl
  | error e t =>
      rw [outcome] at ends
      exact ends.2.1

theorem after_reset {i : Interpreter} (kept : d.Kept i) :
    i.state.Grows i.reset.state ∧ i.state.SameControl i.reset.state ∧ d.Kept i.reset := by
  have grows := grows_newGlobals i.state
  have control := same_control_newGlobals i.state
  have ready := ready_newGlobals kept.ready
  have global := global_newGlobals i.state
  unfold Interpreter.reset
  -- how the new globals came about does not matter any more
  generalize withNewGlobals i.state = t at grows control ready global ⊢
  -- what is forgotten is not about
  have held : ({ t with shared := [], nativeCache := [], moduleCache := [] } : State).All
      (d.value t.history) :=
    ⟨ready.held.cells, ready.held.heap, ready.held.handlers, by simp, by simp⟩
  refine ⟨?_, ?_, ⟨held, ready.room, ready.depth⟩, fun _ _ => global, kept.admitted, kept.addable⟩
  · exact grows.trans (State.grows_of_same rfl rfl rfl)
  · exact control.trans (State.same_control_of rfl rfl rfl rfl)

theorem kept_addModule {i : Interpreter} (name source : Text) (kept : d.Kept i) :
    d.Kept (i.addModule name source) := by
  unfold Interpreter.addModule
  split
  · exact ⟨kept.ready, kept.top, ⟨kept.admitted.callBacks, kept.admitted.events,
      fun _ _ found _ => kept.addable found.path⟩, kept.addable⟩
  · exact kept

theorem addModule_state (i : Interpreter) (name source : Text) :
    (i.addModule name source).state = i.state := by
  unfold Interpreter.addModule
  split <;> rfl

/-- Machines that keep a discipline on every host that it allows for. -/
def Serves (d : Discipline) (machine : Host → Machine) : Prop :=
  ∀ host, d.Admits host → (machine host).Obeys d 0

theorem serves_of (settled : d.terms.home ≤ 0) (fuel : Nat) :
    d.Serves (fun host => .of host fuel) :=
  fun _ admitted => obeys_of admitted settled fuel

variable {machine : Host → Machine}

/-- What a request that forgets nothing does to a state, with the events that it adds. -/
inductive Served (terms : Terms) : List HostEvent → State → State → Prop where
  | ran {s t : State} : Effect terms 0 s t → Served terms [] s t
  | pushed (s : State) (events : List HostEvent) :
      Served terms events s { s with queue := s.queue ++ events }

theorem Served.grows {terms : Terms} {events : List HostEvent} {s t : State}
    (served : Served terms events s t) : s.Grows t := by
  cases served with
  | ran effect => exact effect_grows effect
  | pushed => exact State.grows_of_same rfl rfl rfl

theorem Served.same_control {terms : Terms} {events : List HostEvent} {s t : State}
    (served : Served terms events s t) : s.SameControl t := by
  cases served with
  | ran effect => exact effect_same_control effect
  | pushed => exact State.same_control_of rfl rfl rfl rfl

theorem Served.globals {terms : Terms} {events : List HostEvent} {s t : State}
    (served : Served terms events s t) : t.globals = s.globals := by
  cases served with
  | ran effect => exact effect_globals effect
  | pushed => rfl

theorem Served.holds {terms : Terms} {P : State → Prop}
    (ran : ∀ s t, Effect terms 0 s t → P s → P t)
    (pushed : ∀ (s : State) events, P s → P { s with queue := s.queue ++ events })
    {events : List HostEvent} {s t : State} (served : Served terms events s t) (held : P s) :
    P t := by
  cases served with
  | ran effect => exact ran s t effect held
  | pushed => exact pushed s events held

/-- How a request that forgets nothing may end. -/
structure Serving {α : Type} (d : Discipline) (events : List HostEvent) (s : State)
    (outcome : Except Stop α × Interpreter) : Prop where
  served : Served d.terms events s outcome.2.state
  ready : d.Ready 0 outcome.2.state
  stop : ∀ e, outcome.1 = .error e → d.stop outcome.2.state.history e

theorem serving_step {α : Type} {i : Interpreter} {action : Eval α} {good : State → α → Prop}
    (ready : d.Ready 0 i.state) (ensured : Ensures d 0 i.state action good) :
    d.Serving [] i.state (i.step action) := by
  have ends := ensured ready
  unfold Interpreter.step
  cases outcome : action i.state with
  | ok a t =>
      rw [outcome] at ends
      exact ⟨.ran ends.1, ends.2.1, by simp⟩
  | error e t =>
      rw [outcome] at ends
      obtain ⟨effect, ready, allowed⟩ := ends
      constructor
      · exact .ran effect
      · exact ready
      · intro e' same
        cases same
        exact allowed

theorem serving_malformed {α : Type} {i : Interpreter} {cause : Diagnostic}
    (ready : d.Ready 0 i.state) (malformed : cause.IsSyntax) :
    d.Serving [] i.state ((.error (.failed (.program cause)) : Except Stop α), i) := by
  constructor
  · exact .ran (.none _)
  · exact ready
  · intro e same
    cases same
    exact d.fault fun _ => not_exit_of_is_syntax malformed

theorem serving_serve {i : Interpreter} (obeys : (machine i.host).Obeys d 0)
    (ready : d.Ready 0 i.state) (top : d.Top .program i.state i.state.globals)
    (request : Request) (placed : request.Placed d.strict)
    (keeps : request ≠ .reset) :
    d.Serving request.pushes i.state (i.serve machine request) := by
  cases request with
  | run made file =>
      have placed := made.program.placed_withSites d.strict (.host made.number) placed
      exact serving_step ready (ensures_runOn obeys placed top)
  | runSource source file =>
      simp only [Interpreter.serve]
      cases found : parseFile source file with
      | ok program =>
          have read := parse_of_parseFile source file program found
          exact serving_step ready
            (ensures_runRead obeys (program.placed_of_text d.strict source read) top)
      | error cause =>
          exact serving_malformed ready (is_syntax_of_parseFile source file cause found)
  | runTree tree file =>
      simp only [Interpreter.serve]
      cases found : Program.ofTree tree with
      | ok program => exact serving_step ready (ensures_runRead obeys (placed program found) top)
      | error cause => exact serving_malformed ready (is_syntax_of_ofTree tree cause found)
  | call name args =>
      have serving := serving_step ready (ensures_callOn obeys name args)
      constructor
      · exact serving.served
      · exact serving.ready
      · intro e same
        apply serving.stop e
        -- the result of the call is dropped, and its failure is passed on as it is
        simp only [Interpreter.serve] at same
        cases outcome : (i.step (callOn (machine i.host) name args)).1 with
        | ok a => simp [outcome, Except.map] at same
        | error e' => simpa [outcome, Except.map] using same
  | push events =>
      exact ⟨.pushed _ events, ready.of_same rfl rfl rfl rfl rfl rfl rfl,
        by simp [Interpreter.serve]⟩
  | addModule name source =>
      constructor
      · simp only [Interpreter.serve, addModule_state]
        exact .ran (.none _)
      · simp only [Interpreter.serve, addModule_state]
        exact ready
      · simp [Interpreter.serve]
  | reset => exact absurd rfl keeps

/-- Only a request to add a module changes the host. -/
theorem serve_host (i : Interpreter) {request : Request}
    (other : ∀ name source, request ≠ .addModule name source) :
    (i.serve machine request).2.host = i.host := by
  cases request with
  | run program file => simp only [Interpreter.serve, step_eq]
  | runSource source file =>
      simp only [Interpreter.serve]
      cases parseFile source file with
      | ok program => simp only [step_eq]
      | error cause => rfl
  | runTree tree file =>
      simp only [Interpreter.serve]
      cases Program.ofTree tree with
      | ok program => simp only [step_eq]
      | error cause => rfl
  | call name args => simp only [Interpreter.serve, step_eq]
  | push events => rfl
  | addModule name source => exact absurd rfl (other name source)
  | reset => simp only [Interpreter.serve, Interpreter.reset]

/-- An outcome that a discipline allows after a state. -/
structure Allows {α : Type} (d : Discipline) (s : State) (outcome : Except Stop α × Interpreter) :
    Prop where
  grows : s.Grows outcome.2.state
  control : s.SameControl outcome.2.state
  kept : d.Kept outcome.2
  stop : ∀ e, outcome.1 = .error e → d.stop outcome.2.state.history e

theorem allows_serve (serves : d.Serves machine) {i : Interpreter} (kept : d.Kept i)
    (request : Request) (placed : request.Placed d.strict) :
    d.Allows i.state (i.serve machine request) := by
  by_cases forgets : request = .reset
  · subst forgets
    obtain ⟨grows, control, kept⟩ := after_reset kept
    exact ⟨grows, control, kept, by simp [Interpreter.serve]⟩
  · have serving :=
      serving_serve (serves i.host kept.admitted) kept.ready kept.top request placed forgets
    have admitted : d.Admits (i.serve machine request).2.host := by
      by_cases adds : ∃ name source, request = .addModule name source
      · obtain ⟨name, source, rfl⟩ := adds
        exact (kept_addModule name source kept).admitted
      · have other : ∀ name source, request ≠ .addModule name source :=
          fun name source same => adds ⟨name, source, same⟩
        rw [serve_host i other]
        exact kept.admitted
    have top : d.Top .program (i.serve machine request).2.state
        (i.serve machine request).2.state.globals := by
      rw [serving.served.globals]
      exact kept.top.after serving.served.grows
    exact ⟨serving.served.grows, serving.served.same_control,
      ⟨serving.ready, top, admitted, kept.addable⟩, serving.stop⟩

/-- What holds of each request holds of a session: whatever a request came to,
the next one finds the interpreter ready. -/
theorem allows_serveAll (serves : d.Serves machine) (requests : List Request) {i : Interpreter}
    (kept : d.Kept i) (placed : ∀ request ∈ requests, request.Placed d.strict) :
    i.state.Grows (i.serveAll machine requests).2.state ∧
      i.state.SameControl (i.serveAll machine requests).2.state ∧
      d.Kept (i.serveAll machine requests).2 ∧
      ∀ e, .error e ∈ (i.serveAll machine requests).1 →
        d.stop (i.serveAll machine requests).2.state.history e := by
  induction requests generalizing i with
  | nil =>
      exact ⟨State.grows_refl _, State.same_control_of rfl rfl rfl rfl, kept,
        by simp [Interpreter.serveAll]⟩
  | cons request rest ih =>
      have first := allows_serve serves kept request (placed _ (.head _))
      obtain ⟨grows, control, kept, stops⟩ :=
        ih first.kept (fun request member => placed request (.tail _ member))
      constructor
      · exact first.grows.trans grows
      constructor
      · exact first.control.trans control
      constructor
      · exact kept
      · intro e member
        rcases List.mem_cons.mp member with same | later
        · -- the marks of the later requests do not make an earlier stop less allowed
          exact d.stop_later grows.history (first.stop e same.symm)
        · exact stops e later

/-- What runs keep, and pushed events, and a reset if there is one, holds after a
session if it held before. -/
theorem holds_serveAll (serves : d.Serves machine) {P : State → Prop}
    (ran : ∀ s t, Effect d.terms 0 s t → P s → P t)
    (pushed : ∀ (s : State) events, P s → P { s with queue := s.queue ++ events })
    (requests : List Request)
    (forgot : .reset ∈ requests → ∀ i : Interpreter, d.Kept i → P i.state → P i.reset.state)
    {i : Interpreter} (kept : d.Kept i)
    (placed : ∀ request ∈ requests, request.Placed d.strict) (held : P i.state) :
    P (i.serveAll machine requests).2.state := by
  induction requests generalizing i with
  | nil => exact held
  | cons request rest ih =>
      have allowed := allows_serve serves kept request (placed _ (.head _))
      have first : P (i.serve machine request).2.state := by
        by_cases forgets : request = .reset
        · subst forgets
          exact forgot (.head _) i kept held
        · have serving :=
            serving_serve (serves i.host kept.admitted) kept.ready kept.top request
              (placed _ (.head _)) forgets
          exact serving.served.holds ran pushed held
      exact ih (fun later => forgot (.tail _ later)) allowed.kept
        (fun request member => placed request (.tail _ member)) first

theorem ready_blank (d : Discipline) (events : List HostEvent) (idle : d.depth 0 := by trivial) :
    d.Ready 0 (blankState events) := by
  have held : (blankState events).All (d.value (blankState events).history) := by
    constructor
    · simp [blankState, ScopeTree.empty, ScopeTree.All]
    · exact Heap.all_empty
    · simp [blankState]
    · simp [blankState]
    · simp [blankState]
  exact ⟨held, Nat.zero_le _, idle⟩

theorem kept_new {host : Host} (admitted : d.Admits host) (addable : ∀ path, d.terms.path path)
    (events : List HostEvent) (idle : d.depth 0 := by trivial) : d.Kept (.new host events) :=
  ⟨ready_newGlobals (ready_blank d events idle), fun _ _ => global_newGlobals _, admitted, addable⟩

end Discipline

end Loom
