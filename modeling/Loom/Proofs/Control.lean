import Loom.Proofs.Discipline.Session

/-!
Control is restored. Whatever is evaluated, run, called or imported, and whether
it gives a result, leaves a loop or a function, or fails at any depth, afterwards
as many calls are active, code of the same file runs, the same modules are being
loaded and the same event loops are running as before.
-/

namespace Loom

open Eval Interpreter

/-- A step after which control is as it was before, however the step ends. -/
def Eval.RestoresControl {α : Type} (step : Eval α) : Prop :=
  ∀ s : State, s.SameControl (after step s)

/-- A state in which nothing is going on. -/
structure State.AtRest (s : State) : Prop where
  depth : s.depth = 0
  file : s.file = none
  loading : s.loading = []
  running : ∀ loop, s.isRunning loop = false

theorem restores_of_ensures {α : Type} {step : Eval α} {good : State → α → Prop}
    (ensured : ∀ s, Discipline.free.Ensures 0 s step good) : RestoresControl step :=
  fun s => effect_same_control (effect_of_ensures (ensured s) (Nat.zero_le _))

theorem restores_bind {α β : Type} {x : Eval α} {f : α → Eval β} (first : RestoresControl x)
    (rest : ∀ a, RestoresControl (f a)) : RestoresControl (x >>= f) := by
  intro s
  have kept := first s
  unfold after at kept ⊢
  cases outcome : x s with
  | ok a t =>
      rw [outcome] at kept
      rw [bind_ok outcome]
      exact kept.trans (rest a t)
  | error e t =>
      rw [outcome] at kept
      rw [bind_error outcome]
      exact kept

theorem restores_importAll (host : Host) (fuel : Nat) (native : Bool) (scope : Nat)
    (names : List Text) : RestoresControl (importAll (.of host fuel) native scope names) := by
  induction names with
  | nil => exact fun s => State.same_control_of rfl rfl rfl rfl
  | cons name rest ih =>
      apply restores_bind
      · exact restores_of_ensures (fun _ =>
          Discipline.ensures_loadModule (Discipline.obeys_free host fuel) native name)
      · intro v
        apply restores_bind
        · exact fun s => State.same_control_of rfl rfl rfl rfl
        · exact fun _ => ih

theorem at_rest_of_same_control {s t : State} (rest : s.AtRest) (same : s.SameControl t) :
    t.AtRest :=
  ⟨same.depth.trans rest.depth, same.file.trans rest.file, same.loading.trans rest.loading,
    fun loop => (same.running loop).trans (rest.running loop)⟩

theorem at_rest_new (host : Host) (events : List HostEvent) :
    (Interpreter.new host events).state.AtRest := by
  have blank : (blankState events).AtRest :=
    ⟨rfl, rfl, rfl, fun loop => by simp [State.isRunning, blankState]⟩
  exact at_rest_of_same_control blank (Discipline.same_control_newGlobals (blankState events))

theorem at_rest_serveAll (host : Host) (events : List HostEvent) (fuel : Nat)
    (requests : List Request) :
    ((Interpreter.new host events).serveAll (fun host => .of host fuel)
      requests).2.state.AtRest := by
  have kept := Discipline.kept_new (Discipline.admits_free host) (fun _ => trivial) events
  have served :=
    Discipline.allows_serveAll (Discipline.serves_of (Nat.le_refl 0) fuel) requests kept
    (fun request _ => request.placed_of_lenient)
  exact at_rest_of_same_control (at_rest_new host events) served.2.1

/-- Every expression, statement, call, import, event loop, run and host call
restores control from every state; so after any requests to a new interpreter no
call is active, no module is being loaded and no event loop is running. -/
theorem control_restored (fuel : Nat) :
    (∀ host e scope, RestoresControl (evalExpr (.of host fuel) e scope)) ∧
    (∀ host st scope, RestoresControl (execStmt (.of host fuel) st scope)) ∧
    (∀ host statements scope, RestoresControl (execBlock (.of host fuel) statements scope)) ∧
    (∀ host callee args name, RestoresControl (callValue (.of host fuel) callee args name)) ∧
    (∀ host native scope names, RestoresControl (importAll (.of host fuel) native scope names)) ∧
    (∀ host loop, RestoresControl (startLoop (.of host fuel) loop)) ∧
    (∀ host program file, RestoresControl (runOn (.of host fuel) program file)) ∧
    (∀ host program file, RestoresControl (runRead (.of host fuel) program file)) ∧
    (∀ host name args, RestoresControl (callOn (.of host fuel) name args)) ∧
    (∀ host events requests,
      ((Interpreter.new host events).serveAll (fun host => .of host fuel)
        requests).2.state.AtRest) := by
  -- from zero on: here it does not matter in which scopes statements are carried out
  have obeys : ∀ host, (Machine.of host fuel).Obeys Discipline.free 0 :=
    fun host => Discipline.obeys_free host fuel
  refine ⟨?_, ?_, ?_, ?_, ?_, ?_, ?_, ?_, ?_, ?_⟩
  · intro host e scope
    exact restores_of_ensures (fun _ =>
      Discipline.ensures_evalExpr (obeys host) (Nat.zero_le _) e e.placed_of_lenient)
  · intro host st scope
    exact restores_of_ensures (fun _ =>
      Discipline.ensures_execStmt (obeys host) (Nat.zero_le _) st (st.placed_of_lenient .function)
        (Discipline.top_of_inner rfl))
  · intro host statements scope
    exact restores_of_ensures (fun _ =>
      Discipline.ensures_execBlock (obeys host) (Nat.zero_le _) statements
        (Stmt.allPlaced_of_lenient statements .function) (Discipline.top_of_inner rfl))
  · intro host callee args name
    exact restores_of_ensures (fun _ =>
      Discipline.ensures_callValue (obeys host)
        (Discipline.obeys_within (fun _ => trivial) (obeys host) _) trivial (fun _ _ => trivial))
  · intro host native scope names
    exact restores_importAll host fuel native scope names
  · intro host loop
    exact restores_of_ensures (fun _ => Discipline.ensures_startLoop (obeys host) loop trivial)
  · intro host program file
    exact restores_of_ensures (fun _ =>
      Discipline.ensures_runOn (obeys host) program.placed_of_lenient False.elim)
  · intro host program file
    exact restores_of_ensures (fun _ =>
      Discipline.ensures_runRead (obeys host) program.placed_of_lenient False.elim)
  · intro host name args
    exact restores_of_ensures (fun _ => Discipline.ensures_callOn (obeys host) name args)
  · intro host events requests
    exact at_rest_serveAll host events fuel requests

end Loom
