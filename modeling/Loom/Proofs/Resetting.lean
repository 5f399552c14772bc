import Loom.Proofs.Control
import Loom.Proofs.Likeness.Statement

/-!
What a reset leaves of the past. After it the bindings, the shared variables and the imported
modules are gone, and the scopes, arrays and hashes from before are still there but nothing
leads to them: the interpreter is like a new one, of which everything that is known by a
number comes behind what was there. So whatever is asked of the two from then on, a host
cannot tell them apart.
-/

namespace Loom

open Eval

/-- How many things there are of each kind in a state. -/
def State.extent (s : State) : Extent :=
  { scopes := s.scopes.scopes.size
    cells := s.scopes.cells.size
    arrays := s.heap.arrays.size
    hashes := s.heap.hashes.size
    loops := s.loops.size
    stamps := s.stamps
    programs := s.programs }

/-- The likeness of a state without a past to one whose past is a state. -/
def Likeness.after (past : State) : Likeness := ⟨false, past.extent, past.emitted⟩

namespace Interpreter

/-- Interpreters of the same host in like states. -/
structure Like (l : Likeness) (interpreter other : Interpreter) : Prop where
  host : other.host = interpreter.host
  state : interpreter.state.Like l other.state

/-! A reset interpreter is like a new one. -/

theorem scopes_after (s : State) : ScopeTree.Like (.after s) .empty s.scopes := by
  refine ⟨rfl, fun id => ?_, rfl, fun cell => ?_⟩
  · have behind : ¬ s.scopes.scopes.size + id < s.scopes.scopes.size := by omega
    simp [ScopeTree.scope, Scope.at, Likeness.after, State.extent, Array.getD, behind,
      ScopeTree.empty, Scope.behind, Table.mapped]
  · have behind : ¬ s.scopes.cells.size + cell < s.scopes.cells.size := by omega
    have nothing : s.scopes.read ((Likeness.after s).before.cells + cell) = .null := by
      simp [ScopeTree.read, Likeness.after, State.extent, Array.getD, behind]
    rw [nothing]
    exact .null

theorem heap_after (s : State) : Heap.Like (.after s) .empty s.heap := by
  refine ⟨rfl, rfl, fun ref => ?_, fun ref => ?_⟩
  · have behind : ¬ s.heap.arrays.size + ref < s.heap.arrays.size := by omega
    have nothing : s.heap.array ((Likeness.after s).before.arrays + ref) = #[] := by
      simp [Heap.array, Likeness.after, State.extent, Array.getD, behind]
    rw [nothing]
    exact .nil
  · have behind : ¬ s.heap.hashes.size + ref < s.heap.hashes.size := by omega
    have nothing : s.heap.hash ((Likeness.after s).before.hashes + ref) = [] := by
      simp [Heap.hash, Likeness.after, State.extent, Array.getD, behind]
    rw [nothing]
    exact .nil

/-- A state at rest from which nothing of the past can be reached. -/
def cleared (s : State) : State :=
  { s with globals := s.scopes.scopes.size, shared := [], nativeCache := [], moduleCache := [] }

theorem blank_like_cleared {s : State} (rest : s.AtRest) :
    (blankState s.queue).Like (.after s) (cleared s) where
  scopes := scopes_after s
  heap := heap_after s
  loopCount := rfl
  loop := fun id => by
    have behind : (cleared s).loops[(Likeness.after s).before.loops + id]? = none := by
      simp [cleared, Likeness.after, State.extent]
    rw [behind]
    exact .none
  queue := rfl
  emitted := rfl
  depth := rest.depth
  file := rest.file
  loading := rest.loading
  globals := rfl
  shared := rfl
  nativeCache := .nil
  moduleCache := .nil
  stamps := rfl
  programs := rfl

theorem like_withNewGlobals {l : Likeness} {s t : State} (states : s.Like l t) :
    (withNewGlobals s).Like l (withNewGlobals t) := by
  have ends := agree_newGlobals s t states
  unfold withNewGlobals
  generalize newGlobals s = result at ends ⊢
  generalize newGlobals t = result' at ends ⊢
  cases ends with
  | ok ids after => exact { after with globals := ids }
  | error stops after => exact after

theorem like_forgetting {l : Likeness} {s t : State} (states : s.Like l t) :
    { s with shared := [], nativeCache := [], moduleCache := [] }.Like l
      { t with shared := [], nativeCache := [], moduleCache := [] } :=
  { states with shared := rfl, nativeCache := .nil, moduleCache := .nil }

/-- A reset clears what leads to the past and makes new globals. -/
theorem reset_state (interpreter : Interpreter) :
    interpreter.reset.state = withNewGlobals (cleared interpreter.state) := by
  simp only [reset, withNewGlobals, Discipline.newGlobals_run]
  rfl

theorem new_like_reset {interpreter : Interpreter} (rest : interpreter.state.AtRest) :
    Like (.after interpreter.state) (new interpreter.host interpreter.state.queue)
      interpreter.reset where
  host := rfl
  state := by
    rw [reset_state]
    exact like_withNewGlobals (blank_like_cleared rest)

/-! Requests. -/

section

variable {l : Likeness} {interpreter other : Interpreter} (same : Like l interpreter other)
include same

theorem step_like {α : Type} {x y : Eval α} (agree : Agree l Eq x y) :
    l.Same (Except.mapError Stop.plain) (interpreter.step x).1 (other.step y).1 ∧
      Like l (interpreter.step x).2 (other.step y).2 := by
  have ends := agree interpreter.state other.state same.state
  simp only [step]
  generalize x interpreter.state = result at ends ⊢
  generalize y other.state = result' at ends ⊢
  cases ends with
  | ok results after =>
      subst results
      exact ⟨.refl _, same.host, after⟩
  | error stops after =>
      exact ⟨stops.map Except.error (congrArg Except.error), same.host, after⟩

theorem reset_like : Like l interpreter.reset other.reset := by
  have globals := like_withNewGlobals same.state
  unfold reset
  generalize withNewGlobals interpreter.state = s at globals ⊢
  generalize withNewGlobals other.state = t at globals ⊢
  exact ⟨same.host, like_forgetting globals⟩

theorem push_like (events : List HostEvent) :
    Like l (interpreter.push events) (other.push events) :=
  ⟨same.host, { same.state with queue := congrArg (· ++ events) same.state.queue }⟩

theorem addModule_like (name source : Text) :
    Like l (interpreter.addModule name source) (other.addModule name source) := by
  obtain ⟨host, state⟩ := interpreter
  obtain ⟨host', state'⟩ := other
  obtain ⟨rfl, states⟩ : host = host' ∧ state.Like l state' := ⟨same.host.symm, same.state⟩
  cases kept : host.resolver with
  | table modules =>
      simp only [addModule, kept]
      exact ⟨rfl, states⟩
  | files fs =>
      simp only [addModule, kept]
      exact ⟨rfl, states⟩

variable {machine : Host → Machine} (respects : ∀ host, (machine host).Respects l)
include respects

theorem runRead_like (program : Program) (file : Option Text) :
    l.Same (Except.mapError Stop.plain)
        (interpreter.step (runRead (machine interpreter.host) program file)).1
        (other.step (runRead (machine other.host) program file)).1 ∧
      Like l (interpreter.step (runRead (machine interpreter.host) program file)).2
        (other.step (runRead (machine other.host) program file)).2 := by
  have ran := agree_runRead (respects interpreter.host) (r := .nothing) (fun x => .refl x) program
    file
  rw [program.revised_nothing] at ran
  rw [same.host]
  exact step_like same ran

theorem serve_like (request : Request) :
    l.Same (Except.mapError Stop.plain) (interpreter.serve machine request).1
        (other.serve machine request).1 ∧
      Like l (interpreter.serve machine request).2 (other.serve machine request).2 := by
  cases request with
  | run made file =>
      simp only [serve, same.host]
      exact step_like same (agree_runMade (respects interpreter.host) made file)
  | runSource source file =>
      simp only [serve]
      split
      · exact runRead_like same respects _ file
      · exact ⟨.refl _, same⟩
  | runTree tree file =>
      simp only [serve]
      split
      · exact runRead_like same respects _ file
      · exact ⟨.refl _, same⟩
  | call name args =>
      have called := agree_callOn (respects interpreter.host) name args
      obtain ⟨results, after⟩ := step_like same called
      have forgets : ∀ r : Except Stop (TypeName × Text),
          Except.mapError Stop.plain (r.map (fun _ => ())) =
            (Except.mapError Stop.plain r).map (fun _ => ()) := by
        intro r
        cases r <;> rfl
      simp only [serve, same.host]
      refine ⟨results.map (Except.map (fun _ => ())) (fun looks => ?_), after⟩
      rw [forgets, forgets, looks]
  | push events => exact ⟨.refl _, push_like same events⟩
  | addModule name source => exact ⟨.refl _, addModule_like same name source⟩
  | reset => exact ⟨.refl _, reset_like same⟩

/-- A session keeps two interpreters alike, by induction on what is asked. -/
theorem serveAll_like (requests : List Request) :
    List.Forall₂ (l.Same (Except.mapError Stop.plain)) (interpreter.serveAll machine requests).1
        (other.serveAll machine requests).1 ∧
      Like l (interpreter.serveAll machine requests).2 (other.serveAll machine requests).2 := by
  induction requests generalizing interpreter other with
  | nil => exact ⟨.nil, same⟩
  | cons request rest ih =>
      obtain ⟨result, after⟩ := serve_like same respects request
      obtain ⟨results, last⟩ := ih after
      exact ⟨.cons result results, last⟩

end

/-- What a host can learn of two interpreters, now or by a call, is the same. -/
structure Indistinguishable (machine : Host → Machine) (interpreter other : Interpreter) :
    Prop where
  queueLength : other.queueLength = interpreter.queueLength
  names : other.names = interpreter.names
  has : ∀ name, other.has name = interpreter.has name
  globals : other.globals = interpreter.globals
  shared : ∀ name, other.shared name = interpreter.shared name
  call : ∀ name args,
    (other.step (callOn (machine other.host) name args)).1 =
      (interpreter.step (callOn (machine interpreter.host) name args)).1

section

variable {l : Likeness} {interpreter other : Interpreter} (same : Like l interpreter other)
include same

omit same in
theorem list_like {s t : State} (states : s.Like l t) (names : List Text) :
    list t names = list s names := by
  induction names with
  | nil => rfl
  | cons name rest ih =>
      have value : Value.Like l ((s.scopes.get? s.globals name).getD .null)
          ((t.scopes.get? t.globals name).getD .null) := by
        rw [states.globals]
        exact related_getD (states.scopes.get? s.globals name) .null
      simp only [list, ← value.type?_eq, ← value.text?_eq states.heap, ih]

theorem names_like : other.names = interpreter.names := by
  rw [names, same.state.globals]
  exact same.state.scopes.localNames_eq interpreter.state.globals

theorem shared_like (sees : l.blind = false) (name : Text) :
    other.shared name = interpreter.shared name := by
  simp only [shared, same.state.shared, Table.find?_mapped]
  cases Table.find? name interpreter.state.shared with
  | none => rfl
  | some cell =>
      have value := same.state.scopes.read cell
      simp only [Option.map_some, value.toHost_eq same.state.heap sees]

theorem indistinguishable_of_like (sees : l.blind = false) {machine : Host → Machine}
    (respects : ∀ host, (machine host).Respects l) :
    Indistinguishable machine interpreter other where
  queueLength := congrArg List.length same.state.queue
  names := names_like same
  has := fun name => by
    rw [has, same.state.globals]
    exact same.state.scopes.has_eq interpreter.state.globals name
  globals := by
    rw [globals, names_like same, list_like same.state, globals]
  shared := shared_like same sees
  call := fun name args => by
    have called := agree_callOn (respects interpreter.host) name args
    rw [same.host]
    exact ((step_like same called).1.eq sees).symm

end

/-- Of its host a session changes nothing but the modules that it can be asked to add. -/
theorem host_serveAll (machine : Host → Machine) (interpreter : Interpreter)
    (requests : List Request) :
    (interpreter.serveAll machine requests).2.host =
      { interpreter.host with
        resolver := (interpreter.serveAll machine requests).2.host.resolver } := by
  have stepped : ∀ (interpreter : Interpreter) {α : Type} (action : Eval α),
      (interpreter.step action).2.host = interpreter.host := by
    intro interpreter α action
    unfold step
    split <;> rfl
  have served : ∀ (interpreter : Interpreter) (request : Request),
      (interpreter.serve machine request).2.host =
        { interpreter.host with
          resolver := (interpreter.serve machine request).2.host.resolver } := by
    intro interpreter request
    cases request with
    | addModule name source =>
        simp only [serve, addModule]
        split <;> rfl
    | push events => rfl
    | reset => rfl
    | run made file => simp only [serve, stepped]
    | runSource source file =>
        simp only [serve]
        split <;> simp only [stepped]
    | runTree tree file =>
        simp only [serve]
        split <;> simp only [stepped]
    | call name args => simp only [serve, stepped]
  induction requests generalizing interpreter with
  | nil => rfl
  | cons request rest ih =>
      simp only [serveAll]
      rw [ih, served interpreter request]

/-- Whatever was asked of an interpreter before, and whether it failed or not, after a reset
it does what a new interpreter of the same host does with the events that are left: the same
requests have the same results and put out the same lines, and after them a host cannot tell
the two apart. -/
theorem reset_indistinguishable (fuel : Nat) (host : Host) (events : List HostEvent)
    (past later : List Request) :
    let machine : Host → Machine := fun host => .of host fuel
    let used := ((new host events).serveAll machine past).2
    let again := used.reset.serveAll machine later
    let fresh := (new used.host used.state.queue).serveAll machine later
    used.host = { host with resolver := used.host.resolver } ∧
      again.1 = fresh.1 ∧
      again.2.state.emitted = fresh.2.state.emitted ++ used.state.emitted ∧
      Indistinguishable machine fresh.2 again.2 := by
  intro machine used again fresh
  have respects : ∀ host, (machine host).Respects (.after used.state) :=
    fun host => respects_of _ host fuel
  have start := new_like_reset (at_rest_serveAll host events fuel past)
  obtain ⟨results, after⟩ := serveAll_like start respects later
  have same : fresh.1 = again.1 :=
    List.forall₂_eq_eq_eq ▸ results.imp fun _ _ result => result.eq rfl
  exact ⟨host_serveAll machine (new host events) past, same.symm, after.state.emitted,
    indistinguishable_of_like after rfl respects⟩

end Interpreter

end Loom
