import Loom.Interpreter
import Loom.Proofs.Discipline.Session

/-!
Where `return`, `break` and `continue` lead. How a statement may end besides
normally can be told from its own text: from the statements in it that leave
something, but not from functions written or called in it. So what leaves a function
or a loop in a function that is called never shows in the caller, and what no loop of
the same body has taken up becomes a fault where that body ends.
-/

namespace Loom

open Eval

/-- The statements in a statement that leave something, and how the statement ends by
them. Each loop on the way out takes one level off a `break` or `continue`, and ends it
if that was the last. -/
inductive Stmt.Raises : Stmt → Flow → Prop where
  | giveBack (value : Option Expr) (v : Value) (loc : Location) :
      Raises (.giveBack value loc) (.returned v)
  | leave (depth : Nat) (loc : Location) : Raises (.leave depth loc) (.broke depth)
  | next (depth : Nat) (loc : Location) : Raises (.next depth loc) (.continued depth)
  | branch {branches : List Branch} {alternate : Option Block} {loc : Location}
      {branch : Branch} {st : Stmt} {flow : Flow} (of : branch ∈ branches)
      (member : st ∈ branch.body.statements) (raised : Raises st flow) :
      Raises (.cond branches alternate loc) flow
  | otherwise {branches : List Branch} {body : Block} {loc : Location} {st : Stmt} {flow : Flow}
      (member : st ∈ body.statements) (raised : Raises st flow) :
      Raises (.cond branches (some body) loc) flow
  | forEach {item : Text} {subject : Expr} {body : Block} {loc : Location} {st : Stmt}
      {flow after : Flow} (member : st ∈ body.statements) (raised : Raises st flow)
      (left : Flow.afterPass flow = .leave after) :
      Raises (.forEach item subject body loc) after
  | whileLoop {condition : Expr} {body : Block} {loc : Location} {st : Stmt}
      {flow after : Flow} (member : st ∈ body.statements) (raised : Raises st flow)
      (left : Flow.afterPass flow = .leave after) :
      Raises (.whileLoop condition body loc) after

theorem afterPass_ne_normal {flow after : Flow} (left : Flow.afterPass flow = .leave after) :
    after ≠ .normal := by
  cases flow with
  | normal => cases left
  | returned v =>
      cases left
      simp
  | broke depth | continued depth =>
      simp only [Flow.afterPass] at left
      split at left
      · cases left
        simp
      · cases left

theorem Stmt.Raises.ne_normal {st : Stmt} {flow : Flow} (raises : st.Raises flow) :
    flow ≠ .normal := by
  induction raises with
  | giveBack | leave | next => simp
  | branch _ _ _ ih | otherwise _ _ ih => exact ih
  | forEach _ _ left _ | whileLoop _ _ left _ => exact afterPass_ne_normal left

def EndsBy (statements : List Stmt) (flow : Flow) : Prop :=
  flow = .normal ∨ ∃ st ∈ statements, st.Raises flow

def Block.IsQuiet (body : Block) : Prop := ∀ st ∈ body.statements, ∀ flow, ¬ st.Raises flow

def Machine.Contained (m : Machine) : Prop :=
  ∀ ⦃statements scope s flow t⦄, m.block statements scope s = .ok flow t →
    EndsBy statements flow

section

variable {m : Machine} (contained : m.Contained) {scope : Nat} {s t : State} {flow : Flow}

/-! How a step that was made of two has ended. -/

theorem normal_of_then {α : Type} {x : Eval α}
    (ran : (x >>= fun _ => pure Flow.normal) s = .ok flow t) : flow = .normal := by
  obtain ⟨_, _, _, ran⟩ := bind_eq_ok ran
  cases ran
  rfl

/-! Loops and branches. -/

theorem passed_of_block {statements : List Stmt} {raised after : Flow}
    (ended : EndsBy statements raised) (left : Flow.afterPass raised = .leave after) :
    ∃ st ∈ statements, ∃ raised, st.Raises raised ∧ Flow.afterPass raised = .leave after := by
  rcases ended with rfl | ⟨st, member, raises⟩
  · cases left
  · exact ⟨st, member, raised, raises, left⟩

theorem passed_of_pass {statements : List Stmt} {raised : Flow} (ended : EndsBy statements raised)
    {again : Eval Flow} (ran : (match Flow.afterPass raised with
      | .again => again
      | .stop => pure .normal
      | .leave flow => pure flow) s = .ok flow t) :
    again s = .ok flow t ∨ flow = .normal ∨
      ∃ st ∈ statements, ∃ raised, st.Raises raised ∧ Flow.afterPass raised = .leave flow := by
  cases left : Flow.afterPass raised with
  | again =>
      simp only [left] at ran
      exact .inl ran
  | stop =>
      simp only [left] at ran
      cases ran
      exact .inr (.inl rfl)
  | leave after =>
      simp only [left] at ran
      cases ran
      exact .inr (.inr (passed_of_block ended left))

include contained

theorem passed_of_forEach (item : Text) (body : Block) (items : List Value)
    (ran : execForEach m item body scope items s = .ok flow t) :
    flow = .normal ∨
      ∃ st ∈ body.statements, ∃ raised, st.Raises raised ∧ Flow.afterPass raised = .leave flow := by
  induction items generalizing s with
  | nil =>
      cases ran
      exact .inl rfl
  | cons v rest ih =>
      obtain ⟨inner, u, _, ran⟩ := bind_eq_ok ran
      obtain ⟨_, w, _, ran⟩ := bind_eq_ok ran
      obtain ⟨raised, x, body, ran⟩ := bind_eq_ok ran
      rcases passed_of_pass (contained body) ran with further | ends
      · exact ih further
      · exact ends

theorem passed_of_while (condition : Expr) (body : Block) (fuel : Nat)
    (ran : execWhile m condition body scope fuel s = .ok flow t) :
    flow = .normal ∨
      ∃ st ∈ body.statements, ∃ raised, st.Raises raised ∧ Flow.afterPass raised = .leave flow := by
  induction fuel generalizing s with
  | zero => cases ran
  | succ fuel ih =>
      obtain ⟨v, u, _, ran⟩ := bind_eq_ok ran
      obtain ⟨truth, w, _, ran⟩ := bind_eq_ok ran
      split at ran
      · obtain ⟨inner, x, _, ran⟩ := bind_eq_ok ran
        obtain ⟨raised, y, body, ran⟩ := bind_eq_ok ran
        rcases passed_of_pass (contained body) ran with further | ends
        · exact ih further
        · exact ends
      · cases ran
        exact .inl rfl

theorem raised_of_branches (alternate : Option Block) (branches : List Branch) (loc : Location)
    (ran : execBranches m alternate scope branches s = .ok flow t) :
    flow = .normal ∨ (Stmt.cond branches alternate loc).Raises flow := by
  -- the branches that were passed over are still those of the statement
  have among : ∀ rest : List Branch, (∀ branch ∈ rest, branch ∈ branches) → ∀ s,
      execBranches m alternate scope rest s = .ok flow t →
        flow = .normal ∨ (Stmt.cond branches alternate loc).Raises flow := by
    intro rest
    induction rest with
    | nil =>
        intro _ s ran
        cases alternate with
        | none =>
            cases ran
            exact .inl rfl
        | some body =>
            obtain ⟨inner, u, _, ran⟩ := bind_eq_ok ran
            rcases contained ran with normal | ⟨st, member, raises⟩
            · exact .inl normal
            · exact .inr (.otherwise member raises)
    | cons first rest ih =>
        intro within s ran
        obtain ⟨condition, body⟩ := first
        obtain ⟨v, u, _, ran⟩ := bind_eq_ok ran
        obtain ⟨truth, w, _, ran⟩ := bind_eq_ok ran
        split at ran
        · obtain ⟨inner, x, _, ran⟩ := bind_eq_ok ran
          rcases contained ran with normal | ⟨st, member, raises⟩
          · exact .inl normal
          · exact .inr (.branch (within _ (.head _)) member raises)
        · exact ih (fun branch member => within branch (.tail _ member)) w ran
  exact among branches (fun _ member => member) s ran

/-! Statements. -/

theorem raised_of_stmt (st : Stmt) (ran : execStmt m st scope s = .ok flow t) :
    flow = .normal ∨ st.Raises flow := by
  cases st with
  | define name procedure loc =>
      obtain ⟨_, _, _, ran⟩ := bind_eq_ok ran
      exact .inl (normal_of_then ran)
  | cond branches alternate loc => exact raised_of_branches contained alternate branches loc ran
  | forEach item subject body loc =>
      obtain ⟨v, u, _, ran⟩ := bind_eq_ok ran
      obtain ⟨items, w, _, ran⟩ := bind_eq_ok ran
      rcases passed_of_forEach contained item body items ran with
        normal | ⟨st, member, raised, raises, left⟩
      · exact .inl normal
      · exact .inr (.forEach member raises left)
  | whileLoop condition body loc =>
      rcases passed_of_while contained condition body m.fuel ran with
        normal | ⟨st, member, raised, raises, left⟩
      · exact .inl normal
      · exact .inr (.whileLoop member raises left)
  | assign target op value loc => exact .inl (normal_of_then ran)
  | use names loc => exact .inl (normal_of_then ran)
  | giveBack value loc =>
      cases value with
      | none =>
          cases ran
          exact .inr (.giveBack none .null loc)
      | some value =>
          obtain ⟨v, u, _, ran⟩ := bind_eq_ok ran
          cases ran
          exact .inr (.giveBack (some value) v loc)
  | emit value key loc =>
      obtain ⟨v, u, _, ran⟩ := bind_eq_ok ran
      obtain ⟨text, w, _, ran⟩ := bind_eq_ok ran
      exact .inl (normal_of_then ran)
  | imports native modules loc => exact .inl (normal_of_then ran)
  | leave depth loc =>
      cases ran
      exact .inr (.leave depth loc)
  | next depth loc =>
      cases ran
      exact .inr (.next depth loc)
  | call callee args callLoc loc => exact .inl (normal_of_then ran)

theorem ends_by_execAll (list : List Stmt) (ran : execAll m scope list s = .ok flow t) :
    EndsBy list flow := by
  induction list generalizing s with
  | nil =>
      cases ran
      exact .inl rfl
  | cons st rest ih =>
      obtain ⟨first, u, here, ran⟩ := bind_eq_ok ran
      obtain ⟨after, here, _⟩ := located_during_eq_ok here
      rcases raised_of_stmt contained st here with rfl | raises
      · rcases ih ran with normal | ⟨later, member, raises⟩
        · exact .inl normal
        · exact .inr ⟨later, .tail _ member, raises⟩
      · -- what is raised ends the block, unless it is how statements end normally
        cases first with
        | normal => exact absurd rfl raises.ne_normal
        | _ =>
            cases ran
            exact .inr ⟨st, .head _, raises⟩

theorem ends_by_execBlock (list : List Stmt) (ran : execBlock m list scope s = .ok flow t) :
    EndsBy list flow := by
  rcases ends_by_execAll contained _ ran with normal | ⟨st, member, raises⟩
  · exact .inl normal
  · refine .inr ⟨st, ?_, raises⟩
    simp only [inOrder, List.mem_append, List.mem_filter] at member
    rcases member with (⟨member, _⟩ | ⟨member, _⟩) | ⟨member, _⟩ <;> exact member

end

/-- By induction on the fuel: what is nested is evaluated on the machine below. -/
theorem contained_of (host : Host) (fuel : Nat) : (Machine.of host fuel).Contained := by
  induction fuel with
  | zero =>
      intro statements scope s flow t ran
      cases ran
  | succ fuel ih =>
      intro statements scope s flow t ran
      exact ends_by_execBlock ih statements ran

/-! Loops that nothing in their body leaves. -/

/-- One pass for each item, however its body ends. -/
def passes (m : Machine) (item : Text) (body : Block) (scope : Nat) : List Value → Eval Unit
  | [] => pure ()
  | v :: rest => do
      let inner ← newScope scope .block
      define inner item v
      let _ ← m.block body.statements inner
      passes m item body scope rest

/-- Passes for as long as the condition holds, however the body ends. -/
def rounds (m : Machine) (condition : Expr) (body : Block) (scope : Nat) : (fuel : Nat) → Eval Unit
  | 0 => outOfFuel
  | fuel + 1 => do
      if ← truthy (← m.eval condition scope) then
        let inner ← newScope scope .block
        let _ ← m.block body.statements inner
        rounds m condition body scope fuel
      else pure ()

section

variable {m : Machine} (contained : m.Contained) {body : Block} (quiet : body.IsQuiet)
include contained quiet

theorem again_of_quiet (inner : Nat) (next : Eval Flow) :
    (m.block body.statements inner >>= fun flow =>
        match Flow.afterPass flow with
        | .again => next
        | .stop => pure .normal
        | .leave flow => pure flow) =
      (m.block body.statements inner >>= fun _ => next) := by
  funext s
  cases outcome : m.block body.statements inner s with
  | ok flow t =>
      rw [bind_ok outcome, bind_ok outcome]
      rcases contained outcome with rfl | ⟨st, member, raises⟩
      · rfl
      · exact absurd raises (quiet st member flow)
  | error e t => rw [bind_error outcome, bind_error outcome]

theorem forEach_of_quiet (item : Text) (scope : Nat) (items : List Value) :
    execForEach m item body scope items =
      (passes m item body scope items >>= fun _ => pure .normal) := by
  induction items with
  | nil => rfl
  | cons v rest ih =>
      simp only [execForEach, passes, bind_assoc, ← ih]
      refine congrArg _ (funext fun inner => congrArg _ (funext fun _ => ?_))
      exact again_of_quiet contained quiet inner _

theorem while_of_quiet (condition : Expr) (scope fuel : Nat) :
    execWhile m condition body scope fuel =
      (rounds m condition body scope fuel >>= fun _ => pure .normal) := by
  induction fuel with
  | zero => rfl
  | succ fuel ih =>
      simp only [execWhile, rounds, bind_assoc]
      refine congrArg _ (funext fun v => congrArg _ (funext fun truth => ?_))
      cases truth with
      | false => rfl
      | true =>
          simp only [if_true, bind_assoc, ← ih]
          exact congrArg _ (funext fun inner => again_of_quiet contained quiet inner _)

end

/-! Where a body ends. -/

/-- What a call gives when the body of the function has ended so. -/
def Flow.inFunction (name : Text) : Flow → Except RuntimeFault Value
  | .normal => .ok .null
  | .returned v => .ok v
  | .broke _ | .continued _ => .error (.outsideLoopIn name)

/-- What a program or a module gives when its top level has ended so. -/
def Flow.atTop : Flow → Except RuntimeFault Unit
  | .normal => .ok ()
  | .returned _ => .error .returnOutsideFunction
  | .broke _ | .continued _ => .error .outsideLoop

def settled {α : Type} (result : Except RuntimeFault α) (s : State) : EStateM.Result Stop State α :=
  match result with
  | .ok a => .ok a s
  | .error cause => .error (.failed (.of (.runtime cause))) s

section

variable {m : Machine} {s t u : State} {flow : Flow}

theorem finally_settled {α : Type} {step : Eval α} (undo : State → State)
    {result : Except RuntimeFault α} (ran : step s = settled result t) :
    finally_ step undo s = settled result (undo t) := by
  cases result with
  | ok a => exact finally_ok ran
  | error cause => exact finally_error ran

theorem topLevel_of_ended {program : Program} {scope : Nat}
    (ended : m.block program.statements scope s = .ok flow t) :
    topLevel m program scope s = settled flow.atTop t := by
  rw [topLevel, bind_ok ended]
  cases flow <;> rfl

/-- A function whose body has ended gives a value, or fails where something in it has
left more than the function's own loops. -/
theorem callFunction_of_ended {f : Closure} {args : List Value} {name : Text}
    (arity : args.length = f.procedure.params.length) (room : s.depth < m.host.maxCallDepth)
    (room' : s.depth < stackLimit)
    (shared : shareAll s.scopes.scopes.size f.procedure.uses
      (s.nested f.scope .function (f.procedure.params.zip args)) = .ok () t)
    (ended : m.block f.procedure.body.statements s.scopes.scopes.size
      { t with file := f.file, depth := t.depth + 1 } = .ok flow u) :
    callFunction m f args name s =
      settled (flow.inFunction name) { u with depth := u.depth - 1, file := t.file } := by
  have body : (do resultOf name (← m.block f.procedure.body.statements s.scopes.scopes.size))
      { t with file := f.file, depth := t.depth + 1 } = settled (flow.inFunction name) u := by
    rw [bind_ok ended]
    cases flow <;> rfl
  rw [Discipline.callFunction_run, if_neg (not_not.mpr arity), if_neg (Nat.not_le.mpr room),
    if_neg (Nat.not_le.mpr room'), activate, bind_ok shared]
  have called := finally_settled (fun s => { s with depth := s.depth - 1 }) body
  exact finally_settled (fun s => { s with file := t.file }) called

/-- A module whose top level is left early is not kept. -/
theorem load_of_ended {path : Text} {program : Program} {scope : Nat}
    (ended : m.block program.statements scope { s.begun path with file := some path } =
      .ok flow t) (left : flow ≠ .normal) :
    load m path program scope s = settled (flow.atTop.map (fun _ => .null))
      (({ t with file := s.file } : State).broken path) := by
  have top : inFile (some path) (topLevel m program scope) (s.begun path) =
      settled flow.atTop { t with file := s.file } :=
    finally_settled (fun t => { t with file := s.file }) (topLevel_of_ended ended)
  rw [Discipline.load_eq, top]
  cases flow with
  | normal => exact absurd rfl left
  | _ => rfl

theorem runRead_of_ended {program : Program} {file : Option Text}
    (ended : m.block (program.withSites (.read s.programs)).statements s.globals
      { s with underway := [], programs := s.programs + 1, file := file } = .ok flow t) :
    Interpreter.runRead m program file s = settled flow.atTop { t with file := s.file } :=
  finally_settled (fun t => { t with file := s.file }) (topLevel_of_ended ended)

end

def settledResult {α : Type} (result : Except RuntimeFault α) : Except Stop α :=
  match result with
  | .ok a => .ok a
  | .error cause => .error (.failed (.of (.runtime cause)))

theorem step_settled {α : Type} {i : Interpreter} {action : Eval α}
    {result : Except RuntimeFault α} {t : State} (ran : action i.state = settled result t) :
    (i.step action).1 = settledResult result := by
  unfold Interpreter.step
  rw [ran]
  cases result <;> rfl

/-- Nothing leaves more than the body it stands in. Expressions and calls have values, so
what a signal can do is told by the statements. Of every tree that is accepted, on every
interpreter and from every state: a statement, and so a block, ends normally or by a
`return`, `break` or `continue` in its own text, whatever it calls; a loop with a body that
nothing in it leaves makes all its passes; a function whose body has ended gives null, the
value returned, or a fault of the call; and a module or a program that is left early fails,
and such a module is not kept. -/
theorem signals_stay_inside (host : Host) (fuel : Nat) :
    (∀ st scope s flow t, execStmt (.of host fuel) st scope s = .ok flow t →
      flow = .normal ∨ st.Raises flow) ∧
    (∀ statements scope s flow t, execBlock (.of host fuel) statements scope s = .ok flow t →
      EndsBy statements flow) ∧
    (∀ body : Block, body.IsQuiet →
      (∀ item scope items, execForEach (.of host fuel) item body scope items =
        (passes (.of host fuel) item body scope items >>= fun _ => pure .normal)) ∧
      ∀ condition scope turns, execWhile (.of host fuel) condition body scope turns =
        (rounds (.of host fuel) condition body scope turns >>= fun _ => pure .normal)) ∧
    (∀ (f : Closure) args name s t flow u, args.length = f.procedure.params.length →
      s.depth < host.maxCallDepth → s.depth < stackLimit →
      shareAll s.scopes.scopes.size f.procedure.uses
        (s.nested f.scope .function (f.procedure.params.zip args)) = .ok () t →
      (Machine.of host fuel).block f.procedure.body.statements s.scopes.scopes.size
        { t with file := f.file, depth := t.depth + 1 } = .ok flow u →
      callFunction (.of host fuel) f args name s =
          settled (flow.inFunction name) { u with depth := u.depth - 1, file := t.file } ∧
        EndsBy f.procedure.body.statements flow) ∧
    (∀ path program scope s flow t,
      (Machine.of host fuel).block program.statements scope
        { State.begun s path with file := some path } = .ok flow t → flow ≠ .normal →
      load (.of host fuel) path program scope s =
          settled (flow.atTop.map (fun _ => .null))
            (({ t with file := s.file } : State).broken path) ∧
        EndsBy program.statements flow) ∧
    ∀ (s : State) tree program file flow t, Program.ofTree tree = .ok program →
      (Machine.of host fuel).block (program.withSites (.read s.programs)).statements s.globals
        { s with underway := [], programs := s.programs + 1, file := file } = .ok flow t →
      ((⟨host, s⟩ : Interpreter).serve (fun host => .of host fuel) (.runTree tree file)).1 =
        settledResult flow.atTop ∧
      EndsBy (program.withSites (.read s.programs)).statements flow := by
  have contained := contained_of host fuel
  refine ⟨fun st _ _ _ _ ran => raised_of_stmt contained st ran,
    fun list _ _ _ _ ran => ends_by_execBlock contained list ran, ?_, ?_, ?_, ?_⟩
  · intro body quiet
    exact ⟨fun item scope items => forEach_of_quiet contained quiet item scope items,
      fun condition scope turns => while_of_quiet contained quiet condition scope turns⟩
  · intro f args name s t flow u arity room room' shared ended
    have limit : s.depth < (Machine.of host fuel).host.maxCallDepth := by
      cases fuel <;> exact room
    exact ⟨callFunction_of_ended arity limit room' shared ended, contained ended⟩
  · intro path program scope s flow t ended left
    exact ⟨load_of_ended ended left, contained ended⟩
  · intro s tree program file flow t accepted ended
    refine ⟨?_, contained ended⟩
    simp only [Interpreter.serve, accepted]
    exact step_settled (i := ⟨host, s⟩) (runRead_of_ended ended)

def leavesLoop : Closure :=
  { name := [102]
    procedure := ⟨[], [], ⟨[.leave 1 .origin], .origin⟩, .unset⟩
    scope := 0
    file := none }

/-- The loop of the caller does not end by it: the call fails. -/
theorem break_fails_the_call :
    let s := Interpreter.blankState []
    (∃ t, callFunction (.of .plain 3) leavesLoop [] [102] s =
      .error (.failed (.of (.runtime (.outsideLoopIn [102])))) t) ∧
      EndsBy leavesLoop.procedure.body.statements (.broke 1) := by
  obtain ⟨called, ends⟩ := (signals_stay_inside .plain 3).2.2.2.1 leavesLoop [] [102]
    (Interpreter.blankState []) _ (.broke 1) _ rfl (by decide) (by decide) rfl rfl
  exact ⟨⟨_, called⟩, ends⟩

end Loom
