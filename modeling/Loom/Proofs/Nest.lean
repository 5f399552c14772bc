import Loom.Eval.Statement
import Loom.Interpreter
import Loom.Proofs.Steps

/-!
Loops within loops. While a statement runs, the blocks and loops of the same body around
it wait for it: each is a frame that says how it goes on, by what the part inside it has
come to. A `break` or `continue` passes frames by without anything being run, up to the
loop that it names.
-/

namespace Loom

open Eval

/-- What is left of a list of statements behind one of them, and what was under way around
that one. -/
structure Rest where
  machine : Machine
  scope : Nat
  statement : Stmt
  statements : List Stmt
  around : List Frame

def Rest.run (r : Rest) : Eval Flow := do
  modify (fun t => { t with underway := r.around })
  execAll r.machine r.scope r.statements

/-- What waits for a part of it to end: a list of statements for one of them, or a loop for
a pass. -/
inductive Waiting where
  | rest (r : Rest)
  | forEach (m : Machine) (scope : Nat) (item : Text) (body : Block) (items : List Value)
  | whileLoop (m : Machine) (scope : Nat) (condition : Expr) (body : Block) (turns : Nat)

namespace Waiting

def isLoop : Waiting → Bool
  | rest _ => false
  | forEach _ _ _ _ _ | whileLoop _ _ _ _ _ => true

def again : Waiting → Eval Flow
  | rest _ => pure .normal
  | forEach m scope item body items => execForEach m item body scope items
  | whileLoop m scope condition body turns => execWhile m condition body scope turns

def outside (around : List Frame) : Waiting → List Frame
  | rest r => r.around
  | _ => around

def resume (f : Waiting) (flow : Flow) : Eval Flow :=
  match f with
  | rest r =>
      match flow with
      | .normal => r.run
      | flow => do
          modify (fun t => { t with underway := r.around })
          pure flow
  | forEach _ _ _ _ _ | whileLoop _ _ _ _ _ =>
      match Flow.afterPass flow with
      | .again => f.again
      | .stop => pure .normal
      | .leave flow => pure flow

def fail (f : Waiting) (e : Stop) (t : State) : Stop :=
  match f, e with
  | rest r, .failed failure => .failed (failure.locate r.statement.loc t.file)
  | _, e => e

def close (f : Waiting) : EStateM.Result Stop State Flow → EStateM.Result Stop State Flow
  | .ok flow t => f.resume flow t
  | .error e t => .error (f.fail e t) t

end Waiting

def closeAll (frames : List Waiting) (result : EStateM.Result Stop State Flow) :
    EStateM.Result Stop State Flow :=
  frames.foldl (fun result f => f.close result) result

def loopsIn (frames : List Waiting) : Nat := frames.countP Waiting.isLoop

def outsideAll (frames : List Waiting) (around : List Frame) : List Frame :=
  frames.foldl Waiting.outside around

@[simp] theorem loopsIn_nil : loopsIn [] = 0 := rfl

theorem loopsIn_cons_loop {f : Waiting} {frames : List Waiting} (isLoop : f.isLoop = true) :
    loopsIn (f :: frames) = loopsIn frames + 1 := List.countP_cons_of_pos isLoop

theorem loopsIn_cons_other {f : Waiting} {frames : List Waiting} (isLoop : f.isLoop = false) :
    loopsIn (f :: frames) = loopsIn frames := List.countP_cons_of_neg (by rw [isLoop]; decide)

@[simp] theorem closeAll_cons (f : Waiting) (frames : List Waiting)
    (result : EStateM.Result Stop State Flow) :
    closeAll (f :: frames) result = closeAll frames (f.close result) := rfl

@[simp] theorem closeAll_append (inner outer : List Waiting)
    (result : EStateM.Result Stop State Flow) :
    closeAll (inner ++ outer) result = closeAll outer (closeAll inner result) :=
  List.foldl_append

/-- What is carried out within one body: statements, one of them, the branches of a
conditional, or what is left of a loop. -/
inductive Task where
  | all (scope : Nat) (statements : List Stmt)
  | one (scope : Nat) (st : Stmt)
  | branches (scope : Nat) (alternate : Option Block) (branches : List Branch)
  | items (scope : Nat) (item : Text) (body : Block) (items : List Value)
  | turns (scope : Nat) (condition : Expr) (body : Block) (turns : Nat)

def Task.run (m : Machine) : Task → Eval Flow
  | all scope statements => execAll m scope statements
  | one scope st => execStmt m st scope
  | branches scope alternate list => execBranches m alternate scope list
  | items scope item body values => execForEach m item body scope values
  | turns scope condition body fuel => execWhile m condition body scope fuel

structure Point where
  machine : Machine
  scope : Nat
  statement : Stmt

/-- A task from a state has come to a point in a state, with frames waiting around it, the
innermost first. Calls are not entered, so the frames are those of one body. -/
inductive Inside (host : Host) :
    (fuel : Nat) → Task → State → List Waiting → Point → State → Prop where
  | here {fuel scope st s} : Inside host fuel (.one scope st) s [] ⟨.of host fuel, scope, st⟩ s
  | first {fuel scope st rest s frames p t}
      (inside : Inside host fuel (.one scope st)
        { s with underway := ⟨st, s.file⟩ :: s.underway } frames p t) :
      Inside host fuel (.all scope (st :: rest)) s
        (frames ++ [.rest ⟨.of host fuel, scope, st, rest, s.underway⟩]) p t
  | later {fuel scope st rest s u frames p t}
      (ran : located st.loc (during st (execStmt (.of host fuel) st scope)) s = .ok .normal u)
      (inside : Inside host fuel (.all scope rest) u frames p t) :
      Inside host fuel (.all scope (st :: rest)) s frames p t
  | cond {fuel scope branches alternate loc s frames p t}
      (inside : Inside host fuel (.branches scope alternate branches) s frames p t) :
      Inside host fuel (.one scope (.cond branches alternate loc)) s frames p t
  | branch {fuel scope alternate condition body rest inner s u v frames p t}
      (holds : ((Machine.of host (fuel + 1)).eval condition scope >>= truthy) s = .ok true u)
      (opened : newScope scope .block u = .ok inner v)
      (inside : Inside host fuel (.all inner (inOrder body.statements)) v frames p t) :
      Inside host (fuel + 1) (.branches scope alternate (⟨condition, body⟩ :: rest)) s frames p t
  | nextBranch {fuel scope alternate condition body rest s u frames p t}
      (fails : ((Machine.of host fuel).eval condition scope >>= truthy) s = .ok false u)
      (inside : Inside host fuel (.branches scope alternate rest) u frames p t) :
      Inside host fuel (.branches scope alternate (⟨condition, body⟩ :: rest)) s frames p t
  | otherwise {fuel scope body inner s v frames p t}
      (opened : newScope scope .block s = .ok inner v)
      (inside : Inside host fuel (.all inner (inOrder body.statements)) v frames p t) :
      Inside host (fuel + 1) (.branches scope (some body) []) s frames p t
  | forEach {fuel scope item subject body loc v items s u w frames p t}
      (evaluated : (Machine.of host fuel).eval subject scope s = .ok v u)
      (listed : itemsOf v u = .ok items w)
      (inside : Inside host fuel (.items scope item body items) w frames p t) :
      Inside host fuel (.one scope (.forEach item subject body loc)) s frames p t
  | pass {fuel scope item body v items inner s u w frames p t}
      (opened : newScope scope .block s = .ok inner u)
      (defined : define inner item v u = .ok () w)
      (inside : Inside host fuel (.all inner (inOrder body.statements)) w frames p t) :
      Inside host (fuel + 1) (.items scope item body (v :: items)) s
        (frames ++ [.forEach (.of host (fuel + 1)) scope item body items]) p t
  | nextPass {fuel scope item body v items inner flow s u w x frames p t}
      (opened : newScope scope .block s = .ok inner u)
      (defined : define inner item v u = .ok () w)
      (ran : (Machine.of host fuel).block body.statements inner w = .ok flow x)
      (goes : Flow.afterPass flow = .again)
      (inside : Inside host fuel (.items scope item body items) x frames p t) :
      Inside host fuel (.items scope item body (v :: items)) s frames p t
  | whileLoop {fuel scope condition body loc s frames p t}
      (inside : Inside host fuel (.turns scope condition body (Machine.of host fuel).fuel) s
        frames p t) :
      Inside host fuel (.one scope (.whileLoop condition body loc)) s frames p t
  | turn {fuel scope condition body turns inner s u v frames p t}
      (holds : ((Machine.of host (fuel + 1)).eval condition scope >>= truthy) s = .ok true u)
      (opened : newScope scope .block u = .ok inner v)
      (inside : Inside host fuel (.all inner (inOrder body.statements)) v frames p t) :
      Inside host (fuel + 1) (.turns scope condition body (turns + 1)) s
        (frames ++ [.whileLoop (.of host (fuel + 1)) scope condition body turns]) p t
  | nextTurn {fuel scope condition body turns inner flow s u v x frames p t}
      (holds : ((Machine.of host fuel).eval condition scope >>= truthy) s = .ok true u)
      (opened : newScope scope .block u = .ok inner v)
      (ran : (Machine.of host fuel).block body.statements inner v = .ok flow x)
      (goes : Flow.afterPass flow = .again)
      (inside : Inside host fuel (.turns scope condition body turns) x frames p t) :
      Inside host fuel (.turns scope condition body (turns + 1)) s frames p t

section

variable {host : Host} {fuel : Nat} {task : Task} {s t : State} {frames : List Waiting} {p : Point}

theorem execAll_eq_close (m : Machine) (scope : Nat) (st : Stmt) (rest : List Stmt) (s : State) :
    execAll m scope (st :: rest) s =
      (Waiting.rest ⟨m, scope, st, rest, s.underway⟩).close
        (execStmt m st scope { s with underway := ⟨st, s.file⟩ :: s.underway }) := by
  show (located st.loc (during st (execStmt m st scope)) >>= _) s = _
  cases ran : execStmt m st scope { s with underway := ⟨st, s.file⟩ :: s.underway } with
  | ok flow t =>
      have step : located st.loc (during st (execStmt m st scope)) s =
          .ok flow { t with underway := s.underway } := by
        simp only [located, during, ran]
      rw [bind_ok step]
      cases flow <;> rfl
  | error e t =>
      have step : located st.loc (during st (execStmt m st scope)) s =
          .error ((Waiting.rest ⟨m, scope, st, rest, s.underway⟩).fail e t) t := by
        simp only [located, during, ran]
        cases e <;> rfl
      exact bind_error step

theorem close_loop {f : Waiting} (isLoop : f.isLoop = true) (flow : Flow) :
    f.close (.ok flow t) =
      (match Flow.afterPass flow with
      | .again => f.again
      | .stop => pure .normal
      | .leave flow => pure flow) t := by
  cases f with
  | rest => cases isLoop
  | forEach | whileLoop => rfl

theorem bind_pass {f : Waiting} (isLoop : f.isLoop = true) (pass : Eval Flow) (s : State) :
    (pass >>= fun flow =>
      match Flow.afterPass flow with
      | .again => f.again
      | .stop => pure .normal
      | .leave flow => pure flow) s = f.close (pass s) := by
  cases outcome : pass s with
  | ok flow t => rw [bind_ok outcome, close_loop isLoop]
  | error e t =>
      rw [bind_error outcome]
      cases f with
      | rest => cases isLoop
      | forEach | whileLoop => rfl

/-- A task ends as the frames go on by what the statement at the point has come to. -/
theorem Inside.run (inside : Inside host fuel task s frames p t) :
    task.run (.of host fuel) s = closeAll frames (execStmt p.machine p.statement p.scope t) := by
  induction inside with
  | here => rfl
  | first inside ih =>
      rw [closeAll_append, ← ih]
      exact execAll_eq_close _ _ _ _ _
  | later ran inside ih =>
      rw [← ih]
      exact bind_ok ran
  | cond inside ih => exact ih
  | branch holds opened inside ih =>
      rw [← ih]
      simp only [Task.run, execBranches]
      rw [← bind_assoc, bind_ok holds]
      exact bind_ok opened
  | nextBranch fails inside ih =>
      rw [← ih]
      simp only [Task.run, execBranches]
      rw [← bind_assoc, bind_ok fails]
      rfl
  | otherwise opened inside ih =>
      rw [← ih]
      exact bind_ok opened
  | forEach evaluated listed inside ih =>
      rw [← ih]
      simp only [Task.run, execStmt]
      rw [bind_ok evaluated, bind_ok listed]
  | pass opened defined inside ih =>
      rw [closeAll_append, ← ih]
      simp only [Task.run, execForEach]
      rw [bind_ok opened, bind_ok defined]
      exact bind_pass (f := .forEach _ _ _ _ _) rfl _ _
  | nextPass opened defined ran goes inside ih =>
      rw [← ih]
      simp only [Task.run, execForEach]
      rw [bind_ok opened, bind_ok defined, bind_ok ran, goes]
  | whileLoop inside ih => exact ih
  | turn holds opened inside ih =>
      rw [closeAll_append, ← ih]
      simp only [Task.run, execWhile]
      rw [← bind_assoc, bind_ok holds]
      simp only [if_true]
      rw [bind_ok opened]
      exact bind_pass (f := .whileLoop _ _ _ _ _) rfl _ _
  | nextTurn holds opened ran goes inside ih =>
      rw [← ih]
      simp only [Task.run, execWhile]
      rw [← bind_assoc, bind_ok holds]
      simp only [if_true]
      rw [bind_ok opened, bind_ok ran, goes]

theorem exists_loop {n : Nat} (positive : 1 ≤ n) (enough : n ≤ loopsIn frames) :
    ∃ inner loop outer, frames = inner ++ loop :: outer ∧ loop.isLoop = true ∧
      loopsIn inner + 1 = n := by
  induction frames generalizing n with
  | nil =>
      rw [loopsIn_nil] at enough
      omega
  | cons f frames ih =>
      cases isLoop : f.isLoop with
      | false =>
          rw [loopsIn_cons_other isLoop] at enough
          obtain ⟨inner, g, outer, rfl, found, count⟩ := ih positive enough
          exact ⟨f :: inner, g, outer, rfl, found, by rw [loopsIn_cons_other isLoop, count]⟩
      | true =>
          rw [loopsIn_cons_loop isLoop] at enough
          by_cases one : n = 1
          · exact ⟨[], f, frames, rfl, isLoop, one.symm⟩
          · obtain ⟨inner, g, outer, rfl, found, count⟩ := ih (n := n - 1) (by omega) (by omega)
            refine ⟨f :: inner, g, outer, rfl, found, ?_⟩
            rw [loopsIn_cons_loop isLoop]
            omega

/-- A signal that goes further than a loop leaves it with a level less. -/
theorem afterPass_signal {signal : Nat → Flow} (is : signal = .broke ∨ signal = .continued)
    {depth : Nat} (positive : 1 ≤ depth) :
    Flow.afterPass (signal (depth + 1)) = .leave (signal depth) := by
  have more : 1 < depth + 1 := by omega
  rcases is with rfl | rfl <;> exact if_pos more

/-- A signal that goes further than all loops among some frames leaves them: it has lost a
level for each of the loops, and nothing else has happened. -/
theorem closeAll_signal {signal : Nat → Flow} (is : signal = .broke ∨ signal = .continued)
    (frames : List Waiting) {depth : Nat} (positive : 1 ≤ depth) (t : State) :
    closeAll frames (.ok (signal (loopsIn frames + depth)) t) =
      .ok (signal depth) { t with underway := outsideAll frames t.underway } := by
  induction frames generalizing t with
  | nil => rw [loopsIn_nil, Nat.zero_add]; rfl
  | cons f frames ih =>
      have passed : f.close (.ok (signal (loopsIn (f :: frames) + depth)) t) =
          .ok (signal (loopsIn frames + depth)) { t with underway := f.outside t.underway } := by
        cases isLoop : f.isLoop with
        | false =>
            rw [loopsIn_cons_other isLoop]
            cases f with
            | rest => rcases is with rfl | rfl <;> rfl
            | forEach | whileLoop => cases isLoop
        | true =>
            have further := afterPass_signal is (show 1 ≤ loopsIn frames + depth by omega)
            rw [loopsIn_cons_loop isLoop, Nat.add_right_comm, close_loop isLoop, further]
            cases f with
            | rest => cases isLoop
            | forEach | whileLoop => rfl
      rw [closeAll_cons, passed, ih]
      rfl

/-- Behind each loop of some frames wait the statements that follow it. -/
def LoopsFollowed : List Waiting → Prop
  | [] => True
  | f :: frames =>
      (f.isLoop = true → ∃ r outer, frames = .rest r :: outer) ∧ LoopsFollowed frames

theorem LoopsFollowed.append {frames more : List Waiting} (settled : LoopsFollowed frames)
    (behind : LoopsFollowed more) : LoopsFollowed (frames ++ more) := by
  induction frames with
  | nil => exact behind
  | cons f frames ih =>
      refine ⟨fun isLoop => ?_, ih settled.2⟩
      obtain ⟨r, outer, rfl⟩ := settled.1 isLoop
      exact ⟨r, outer ++ more, rfl⟩

theorem LoopsFollowed.rest (r : Rest) : LoopsFollowed [.rest r] := ⟨nofun, trivial⟩

theorem LoopsFollowed.behind {inner outer : List Waiting} {f : Waiting} (isLoop : f.isLoop = true)
    (settled : LoopsFollowed (inner ++ f :: outer)) : ∃ r more, outer = .rest r :: more := by
  induction inner with
  | nil => exact settled.1 isLoop
  | cons g inner ih => exact ih settled.2

theorem Inside.settled (inside : Inside host fuel task s frames p t) :
    (∀ r, LoopsFollowed (frames ++ [.rest r])) ∧
      (∀ scope statements, task = .all scope statements → LoopsFollowed frames) := by
  induction inside with
  | here => exact ⟨.rest, nofun⟩
  | first inside ih => exact ⟨fun r => (ih.1 _).append (.rest r), fun _ _ _ => ih.1 _⟩
  | later ran inside ih => exact ⟨ih.1, fun _ _ _ => ih.2 _ _ rfl⟩
  | pass _ _ inside ih | turn _ _ inside ih =>
      refine ⟨fun r => ?_, nofun⟩
      rw [List.append_assoc]
      exact (ih.2 _ _ rfl).append ⟨fun _ => ⟨r, [], rfl⟩, .rest r⟩
  | branch _ _ inside ih | otherwise _ inside ih =>
      exact ⟨fun r => (ih.2 _ _ rfl).append (.rest r), nofun⟩
  | cond _ ih | nextBranch _ _ ih | forEach _ _ _ ih | nextPass _ _ _ _ _ ih | whileLoop _ ih
  | nextTurn _ _ _ _ _ ih => exact ⟨ih.1, nofun⟩

/-- A signal that names one of the frames comes to it, and nothing else has happened. -/
theorem Inside.signal {scope : Nat} {statements : List Stmt} {inner outer : List Waiting}
    {loop : Waiting} (inside : Inside host fuel (.all scope (inOrder statements)) s
      (inner ++ loop :: outer) p t)
    {signal : Nat → Flow} (is : signal = .broke ∨ signal = .continued)
    (raised : execStmt p.machine p.statement p.scope t = .ok (signal (loopsIn inner + 1)) t) :
    (Machine.of host (fuel + 1)).block statements scope s =
      closeAll (loop :: outer)
        (.ok (signal 1) { t with underway := outsideAll inner t.underway }) := by
  calc (Machine.of host (fuel + 1)).block statements scope s
      = closeAll (inner ++ loop :: outer) (.ok (signal (loopsIn inner + 1)) t) := by
        rw [← raised]
        exact inside.run
    _ = _ := by rw [closeAll_append, closeAll_signal is inner (Nat.le_refl 1)]

/-- A point has been come to in the body of a function or of a program, with loops around
it, and there a `break n` or `continue n` is carried out. Then the n-th loop from the
innermost is one of the statements of some list, and nothing happens within it any more
but that a `continue` lets it go on: with the items it had left, or with its condition.
Behind it the statements that follow it run, and what is further out goes on by what they
have come to. -/
theorem signal_reaches_nth_loop {scope : Nat} {statements : List Stmt}
    (inside : Inside host fuel (.all scope (inOrder statements)) s frames p t)
    {n : Nat} (positive : 1 ≤ n) (enough : n ≤ loopsIn frames) :
    ∃ inner loop after outer, frames = inner ++ loop :: .rest after :: outer ∧
      loop.isLoop = true ∧ loopsIn inner + 1 = n ∧
      (∀ loc, p.statement = .leave n loc →
        (Machine.of host (fuel + 1)).block statements scope s = closeAll outer (after.run t)) ∧
      (∀ loc, p.statement = .next n loc →
        (Machine.of host (fuel + 1)).block statements scope s =
          closeAll (.rest after :: outer)
            (loop.again { t with underway := outsideAll inner t.underway })) := by
  obtain ⟨inner, loop, outer, rfl, isLoop, count⟩ := exists_loop positive enough
  obtain ⟨after, outer, rfl⟩ := (inside.settled.2 _ _ rfl).behind isLoop
  refine ⟨inner, loop, after, outer, rfl, isLoop, count, fun loc is => ?_, fun loc is => ?_⟩
  · have raised : execStmt p.machine p.statement p.scope t =
        .ok (.broke (loopsIn inner + 1)) t := by
      rw [is, count]
      rfl
    rw [inside.signal (.inl rfl) raised, closeAll_cons, close_loop isLoop]
    rfl
  · have raised : execStmt p.machine p.statement p.scope t =
        .ok (.continued (loopsIn inner + 1)) t := by
      rw [is, count]
      rfl
    rw [inside.signal (.inr rfl) raised, closeAll_cons, close_loop isLoop]
    rfl

end

def loopInLoop (st : Stmt) : List Stmt :=
  let loc : Location := .origin
  [.forEach "x" (.array [.bool true loc, .bool false loc] loc)
    ⟨[.whileLoop (.ident "x" loc)
        ⟨[.cond [⟨.ident "x" loc, ⟨[st], loc⟩⟩] none loc,
          .emit (.string [.text "inner"] loc) none loc], loc⟩ loc,
      .emit (.string [.text "outer"] loc) none loc], loc⟩ loc,
    .emit (.string [.text "after"] loc) none loc]

def freshState : State := (Interpreter.new .plain []).state

theorem loopInLoop_entered (depth : Nat) (loc : Location) : ∃ frames p t,
    Inside .plain 6 (.all 0 (inOrder (loopInLoop (.leave depth loc)))) freshState frames p t ∧
      p.statement = .leave depth loc ∧ loopsIn frames = 2 :=
  ⟨_, _, _, .first (.forEach rfl rfl (.pass rfl rfl (.first (.whileLoop (.turn rfl rfl
    (.first (.cond (.branch rfl rfl (.first .here))))))))), rfl, rfl⟩

theorem two_loops_left : ∃ frames p t,
    Inside .plain 6 (.all 0 (inOrder (loopInLoop (.leave 2 .origin)))) freshState frames p t ∧
      p.statement = .leave 2 .origin ∧ loopsIn frames = 2 ∧
      ∃ inner loop after outer, frames = inner ++ loop :: .rest after :: outer ∧
        loop.isLoop = true ∧ loopsIn inner + 1 = 2 ∧
        (Machine.of .plain 7).block (loopInLoop (.leave 2 .origin)) 0 freshState =
          closeAll outer (after.run t) := by
  obtain ⟨frames, p, t, inside, is, count⟩ := loopInLoop_entered 2 .origin
  obtain ⟨inner, loop, after, outer, parts, isLoop, place, leaves, -⟩ :=
    signal_reaches_nth_loop inside (n := 2) (by decide) (Nat.le_of_eq count.symm)
  exact ⟨frames, p, t, inside, is, count, inner, loop, after, outer, parts, isLoop, place,
    leaves .origin is⟩

def putOut (statements : List Stmt) : List Text :=
  match (Machine.of .plain 7).block statements 0 freshState with
  | .ok _ s | .error _ s => (s.emitted.map Emission.line).reverse

example : putOut (loopInLoop (.leave 2 .origin)) = (["after"] : List Text) := by decide +kernel

example : putOut (loopInLoop (.next 2 .origin)) = (["outer", "after"] : List Text) := by
  decide +kernel

end Loom
