import Loom.Interpreter
import Loom.Proofs.Veil.Statement

/-!
Requests of a host. A program that speaks of no hidden name and a call by a name that is not
hidden overlook the hidden variables. Where no name is hidden, so do all requests, one after
another.
-/

namespace Loom

namespace Eval

variable {veil : Veil} {m : Machine} (overlooks : m.Overlooks veil)

theorem overlooks_nothingUnderway : Overlooks veil (fun _ => True) nothingUnderway :=
  overlooks_modify fun _ _ states =>
    { states with held := states.held.of_same rfl rfl rfl rfl rfl }

theorem overlooks_allOfJson (list : List Json) :
    Overlooks veil (fun values => ∀ v ∈ values, v.Avoids veil.names)
      (Interpreter.allOfJson list) := by
  induction list with
  | nil => exact overlooks_pure (by simp)
  | cons data rest ih =>
      apply overlooks_bind (overlooks_ofJson data)
      intro v avoids
      apply overlooks_bind ih
      intro values held
      exact overlooks_pure (List.forall_mem_cons.mpr ⟨avoids, held⟩)

include overlooks

theorem overlooks_runOn {program : Program} (clear : Clear veil.names program.names)
    (file : Option Text) : Overlooks veil (fun _ => True) (Interpreter.runOn m program file) := by
  apply overlooks_then overlooks_nothingUnderway
  intro _
  apply overlooks_get
  intro s t states
  rw [states.globals]
  exact ⟨rfl, overlooks_inFile file (overlooks_topLevel overlooks clear s.globals)⟩

theorem overlooks_runRead {program : Program} (clear : Clear veil.names program.names)
    (file : Option Text) : Overlooks veil (fun _ => True) (Interpreter.runRead m program file) := by
  apply overlooks_bind (overlooks_numbered clear)
  intro program clear
  exact overlooks_runOn overlooks clear file

theorem overlooks_callOn {name : Text} (spoken : name ∉ veil.names) (args : List Json) :
    Overlooks veil (fun _ => True) (Interpreter.callOn m name args) := by
  apply overlooks_then overlooks_nothingUnderway
  intro _
  apply overlooks_get
  intro s t states
  rw [states.globals]
  refine ⟨rfl, ?_⟩
  apply overlooks_bind (overlooks_lookup s.globals spoken)
  intro callee called
  apply overlooks_bind (overlooks_allOfJson args)
  intro values held
  apply overlooks_then (overlooks_hostCall overlooks called held)
  intro v
  apply overlooks_then (overlooks_typeOf v)
  intro type
  exact overlooks_then (overlooks_textOf v) (fun _ => overlooks_pure trivial)

end Eval

namespace Interpreter

/-- Interpreters of one host, the second of which has the hidden variables as well. -/
structure Veiled (veil : Veil) (i j : Interpreter) : Prop where
  host : j.host = i.host
  state : i.state.Veiled veil j.state

variable {i j : Interpreter}

theorem Veiled.step {veil : Veil} (same : i.Veiled veil j) {α : Type} {good : α → Prop}
    {x : Eval α} (overlooks : Eval.Overlooks veil good x) :
    (j.step x).1 = (i.step x).1 ∧ (i.step x).2.Veiled veil (j.step x).2 := by
  have ends := overlooks i.state j.state same.state
  simp only [Interpreter.step]
  generalize x i.state = r at ends ⊢
  generalize x j.state = r' at ends ⊢
  cases ends with
  | ok result states => exact ⟨rfl, same.host, states⟩
  | error states => exact ⟨rfl, same.host, states⟩

theorem veiled_withNewGlobals {veil : Veil} (spoken : ∀ b ∈ Builtin.all, b.name ∉ veil.names)
    {s t : State} (states : s.Veiled veil t) :
    (withNewGlobals s).Veiled veil (withNewGlobals t) := by
  have ends := Eval.overlooks_newGlobals spoken s t states
  unfold withNewGlobals
  generalize Eval.newGlobals s = r at ends ⊢
  generalize Eval.newGlobals t = r' at ends ⊢
  cases ends with
  | ok result states =>
      exact { states with globals := rfl, held := states.held.of_same rfl rfl rfl rfl rfl }
  | error states => exact states

theorem veiled_forget {veil : Veil} {s t : State} (states : s.Veiled veil t) :
    { s with shared := [], nativeCache := [], moduleCache := [] }.Veiled veil
      { t with shared := [], nativeCache := [], moduleCache := [] } := by
  have held := states.held
  exact { states with
    nativeCache := rfl
    moduleCache := rfl
    held := ⟨held.cells, held.heap, held.handlers, by simp, by simp⟩ }

variable {home low more : Nat}

theorem Veiled.reset (same : i.Veiled ⟨[], home, low, more⟩ j) :
    i.reset.Veiled ⟨[], home, low, more⟩ j.reset := by
  have spoken : ∀ b ∈ Builtin.all, b.name ∉ (⟨[], home, low, more⟩ : Veil).names :=
    i.host.avoids_none.builtins
  have forgotten := veiled_forget (veiled_withNewGlobals spoken same.state)
  unfold Interpreter.reset
  exact ⟨same.host, forgotten⟩

theorem Veiled.push (same : i.Veiled ⟨[], home, low, more⟩ j) (events : List HostEvent) :
    (i.push events).Veiled ⟨[], home, low, more⟩ (j.push events) :=
  ⟨same.host, { same.state with
    queue := congrArg (· ++ events) same.state.queue
    held := same.state.held.of_same rfl rfl rfl rfl rfl }⟩

theorem Veiled.addModule (same : i.Veiled ⟨[], home, low, more⟩ j) (name source : Text) :
    (i.addModule name source).Veiled ⟨[], home, low, more⟩ (j.addModule name source) := by
  obtain ⟨host, s⟩ := i
  obtain ⟨host', t⟩ := j
  obtain ⟨rfl, states⟩ : host' = host ∧ s.Veiled ⟨[], home, low, more⟩ t := ⟨same.host, same.state⟩
  unfold Interpreter.addModule
  cases host'.resolver with
  | table modules => exact ⟨rfl, states⟩
  | files fs => exact same

/-- Where no name is hidden, a request gives the same. -/
theorem Veiled.serve (same : i.Veiled ⟨[], home, low, more⟩ j) (fuel : Nat) (request : Request) :
    (j.serve (Machine.of · fuel) request).1 = (i.serve (Machine.of · fuel) request).1 ∧
      (i.serve (Machine.of · fuel) request).2.Veiled ⟨[], home, low, more⟩
        (j.serve (Machine.of · fuel) request).2 := by
  have overlooks : (Machine.of i.host fuel).Overlooks ⟨[], home, low, more⟩ :=
    Machine.overlooks_of i.host.avoids_none fuel
  have ran : ∀ program file,
      (j.step (runRead (Machine.of j.host fuel) program file)).1 =
        (i.step (runRead (Machine.of i.host fuel) program file)).1 ∧
      (i.step (runRead (Machine.of i.host fuel) program file)).2.Veiled ⟨[], home, low, more⟩
        (j.step (runRead (Machine.of j.host fuel) program file)).2 := by
    intro program file
    rw [same.host]
    exact same.step (Eval.overlooks_runRead overlooks (clear_of_none program.names) file)
  cases request with
  | run made file =>
      simp only [Interpreter.serve, same.host]
      exact same.step (Eval.overlooks_runOn overlooks (clear_of_none made.numbered.names) file)
  | runSource source file =>
      simp only [Interpreter.serve]
      split
      · exact ran _ file
      · exact ⟨rfl, same⟩
  | runTree tree file =>
      simp only [Interpreter.serve]
      split
      · exact ran _ file
      · exact ⟨rfl, same⟩
  | call name args =>
      have called := same.step (Eval.overlooks_callOn overlooks (List.not_mem_nil (a := name)) args)
      simp only [Interpreter.serve, same.host, called.1]
      exact ⟨trivial, called.2⟩
  | push events => exact ⟨rfl, same.push events⟩
  | addModule name source => exact ⟨rfl, same.addModule name source⟩
  | reset => exact ⟨rfl, same.reset⟩

/-- By induction on the requests. -/
theorem Veiled.serveAll (same : i.Veiled ⟨[], home, low, more⟩ j) (fuel : Nat)
    (requests : List Request) :
    (j.serveAll (Machine.of · fuel) requests).1 = (i.serveAll (Machine.of · fuel) requests).1 ∧
      (i.serveAll (Machine.of · fuel) requests).2.Veiled ⟨[], home, low, more⟩
        (j.serveAll (Machine.of · fuel) requests).2 := by
  induction requests generalizing i j with
  | nil => exact ⟨rfl, same⟩
  | cons request rest ih =>
      obtain ⟨result, after⟩ := same.serve fuel request
      obtain ⟨results, last⟩ := ih after
      simp only [Interpreter.serveAll, result, results]
      exact ⟨trivial, last⟩

end Interpreter

end Loom
