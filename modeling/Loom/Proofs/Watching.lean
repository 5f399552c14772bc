import Loom.Proofs.Following

/-!
A machine that counts or watches does what an ordinary one does but for alarms, by
induction on the fuel. Where what is watched for never shows there is no alarm, and no
difference.
-/

namespace Loom

namespace Eval

variable {excuse : Stop → State → Prop}

/-- What is watched for has nothing to do with control. -/
def Steady (watch : State → Bool) : Prop :=
  ∀ (s : State) depth file loading loops,
    watch { s with depth := depth, file := file, loading := loading, loops := loops } = watch s

/-- An alarm in a state that shows what is watched for. -/
def Shows (watch : State → Bool) (alarm : HostFault) (e : Stop) (t : State) : Prop :=
  e = .failed (.host alarm) ∧ watch t = true

theorem lasting_shows {watch : State → Bool} (steady : Steady watch) (alarm : HostFault) :
    Lasting (Shows watch alarm) := by
  constructor
  · rintro e s depth file loading loops ⟨rfl, shown⟩
    exact ⟨rfl, (steady s depth file loading loops).trans shown⟩
  · -- an alarm is a failure of the host, which has no place to be given
    rintro failure s loc file ⟨same, shown⟩
    cases same
    exact ⟨rfl, shown⟩

theorem follows_watching {α : Type} {watch : State → Bool} {alarm : Stop} {x y : Eval α}
    (shown : ∀ t, watch t = true → excuse alarm t) (follows : Follows excuse x y) :
    Follows excuse (watching watch alarm x) y := by
  intro s
  unfold watching
  cases before : watch s with
  | true => exact .inr ⟨alarm, s, rfl, shown s before⟩
  | false =>
      rcases follows s with same | ⟨e, t, fails, excused⟩
      · rw [same]
        cases y s with
        | ok a t =>
            cases after : watch t with
            | true => exact .inr ⟨alarm, t, by simp [after], shown t after⟩
            | false => exact .inl (by simp [after])
        | error e t =>
            cases after : watch t with
            | true => exact .inr ⟨alarm, t, by simp [after], shown t after⟩
            | false => exact .inl (by simp [after])
      · rw [fails]
        cases after : watch t with
        | true => exact .inr ⟨alarm, t, by simp [after], shown t after⟩
        | false => exact .inr ⟨e, t, by simp [after], excused⟩

theorem follows_callWithin {m body m' : Machine} (lasting : Lasting excuse)
    (follows : m.Follows excuse m') (within : body.Follows excuse m') (callee : Value)
    (args : List Value) (name : Text) :
    Follows excuse (callWithin m body callee args name) (callValue m' callee args name) := by
  have outside := follows_callValue follows lasting callee args name
  cases callee with
  | function f method => exact follows_callFunction within lasting f args name
  | _ => exact outside

/-- By induction on the fuel: a machine that counts does what the machine of its fuel
does, but for alarms. The other host may set another limit to active calls, if it is
excused that the one refuses a call and the other does not. -/
theorem follows_counting {watch : Nat → State → Bool} {alarm : Stop} (lasting : Lasting excuse)
    (shown : ∀ active t, watch active t = true → excuse alarm t) {host : Host} {limit : Nat}
    (refused : ∀ name,
      Follows excuse (checkDepth host.maxCallDepth name) (checkDepth limit name))
    (fuel active : Nat) :
    (Machine.counting watch alarm host fuel active).Follows excuse
      (.of (host.withCallDepth limit) fuel) := by
  induction fuel generalizing active with
  | zero =>
      exact
        { natives := rfl
          resolver := rfl
          shared := rfl
          fuel := rfl
          depth := refused
          eval := fun _ _ => follows_watching (shown active) (follows_refl outOfFuel)
          block := fun _ _ => follows_watching (shown active) (follows_refl outOfFuel)
          call := fun _ _ _ => follows_watching (shown active) (follows_refl outOfFuel) }
  | succ fuel ih =>
      exact
        { natives := rfl
          resolver := rfl
          shared := rfl
          fuel := rfl
          depth := refused
          eval := fun e scope =>
            follows_watching (shown active) (follows_evalExpr (ih active) e scope)
          block := fun statements scope =>
            follows_watching (shown active) (follows_execBlock (ih active) lasting statements scope)
          call := fun callee args name =>
            follows_watching (shown active)
              (follows_callWithin lasting (ih active) (ih (active + 1)) callee args name) }

theorem follows_watched {watch : State → Bool} (steady : Steady watch) (alarm : HostFault)
    (host : Host) (fuel : Nat) :
    (Machine.watched watch (.failed (.host alarm)) host fuel).Follows (Shows watch alarm)
      (.of host fuel) := by
  rw [watched_eq_counting watch _ host fuel 0]
  exact follows_counting (lasting_shows steady alarm)
    (fun _ _ shown => ⟨rfl, shown⟩) (fun _ => follows_refl _) fuel 0

end Eval

namespace Discipline

open Eval Interpreter

variable {d : Discipline} {watch : State → Bool} {alarm : HostFault}

section

variable (settled : d.terms.home ≤ 0) (steady : Steady watch)
  (never : ∀ t, d.Ready 0 t → watch t = false)
include settled steady never

/-- What never shows never shows within calls either. -/
theorem serves_watched (alarm : HostFault) (fuel : Nat) :
    d.Serves (fun host => .watched watch (.failed (.host alarm)) host fuel) := by
  intro host admitted
  apply obeys_watched admitted settled _ fuel
  intro calls t ready shown
  obtain ⟨n, _, _, ready⟩ := ready_of_within ready
  have same := steady t n t.file t.loading t.loops
  rw [never _ ready, shown] at same
  cases same

theorem serve_watched (alarm : HostFault) (fuel : Nat) {i : Interpreter} (kept : d.Kept i)
    (request : Request) (placed : request.Placed d.strict) :
    i.serve (fun host => .watched watch (.failed (.host alarm)) host fuel) request =
      i.serve (fun host => .of host fuel) request := by
  have allowed := allows_serve (serves_watched settled steady never alarm fuel) kept request placed
  have unexcused : Unexcused (Shows watch alarm)
      (i.serve (fun host => .watched watch (.failed (.host alarm)) host fuel) request) := by
    rintro e _ ⟨_, shown⟩
    simp [never _ allowed.kept.ready] at shown
  exact (serve_eq_of_follows (lasting_shows steady alarm)
    (follows_watched steady alarm i.host fuel) request unexcused).symm

/-- A session in which what is watched for cannot show is the same whether
anyone watches or not. -/
theorem serveAll_watched (alarm : HostFault) (fuel : Nat) (requests : List Request)
    {i : Interpreter} (kept : d.Kept i) (placed : ∀ request ∈ requests, request.Placed d.strict) :
    i.serveAll (fun host => .watched watch (.failed (.host alarm)) host fuel) requests =
      i.serveAll (fun host => .of host fuel) requests := by
  induction requests generalizing i with
  | nil => rfl
  | cons request rest ih =>
      have first := serve_watched settled steady never alarm fuel kept request (placed _ (.head _))
      -- both sessions go on from the same interpreter, which the ordinary one keeps
      have allowed := allows_serve (serves_of settled fuel) kept request (placed _ (.head _))
      have later := ih allowed.kept (fun request member => placed request (.tail _ member))
      simp only [Interpreter.serveAll, first, later]

end

end Discipline

end Loom
