import Loom.Proofs.Discipline.Session
import Loom.Proofs.Unwinding.Machine

/-!
Where a failure is said to be. Its line and column are those of the innermost
statement that was being carried out when it arose, or those in the text of a module
that is not read. Its file is the first that is named on the way out; statements of
code without a file name none, so code with a file that such code was called from
lends it the name.
-/

namespace Loom

open Eval Interpreter

def Request.Rejected (d : Diagnostic) : Request → Prop
  | .runSource source file => parseFile source file = .error d
  | .runTree tree _ => Program.ofTree tree = .error d
  | _ => False

theorem Request.Rejected.malformed {d : Diagnostic} {request : Request}
    (rejected : request.Rejected d) : d.IsSyntax := by
  cases request with
  | runSource source file => exact is_syntax_of_parseFile source file d rejected
  | runTree tree file => exact is_syntax_of_ofTree tree d rejected
  | _ => exact rejected.elim

/-- What is raised is no fault of a text and has no place at all, or it is the fault that
was found with the text of a module, at its place there and in the file of the module. -/
theorem Raised.cases {host : Host} {raw : Diagnostic} (raised : Raised host raw) :
    (¬ raw.IsSyntax ∧ raw.loc = none ∧ raw.file = none) ∨
      ∃ name file found fault loc, host.resolver.resolve name file = .ok (some found) ∧
        parse found.source = .error (SyntaxFault.located fault loc) ∧
        raw = ⟨.malformed fault, some loc, some found.path⟩ := by
  cases raised with
  | fault sound => exact .inl ⟨fun ⟨cause, same⟩ => sound cause same, rfl, rfl⟩
  | @module name file found cause there wrong =>
      obtain ⟨fault, loc, rfl⟩ := is_found_of_parse _ cause wrong
      exact .inr ⟨name, file, found, fault, loc, there, wrong, rfl⟩

theorem Diagnostic.is_syntax_through (d : Diagnostic) (frames : List Frame) :
    (d.through frames).IsSyntax ↔ d.IsSyntax := by
  simp only [IsSyntax, fault_through]

/-! What a host asks for, which begins with no statement being carried out. -/

theorem told_runOn {host : Host} {m : Machine} (tells : m.Tells host) (program : Program)
    (file : Option Text) (s : State) :
    Told host { s with underway := [] } (runOn m program file s) := by
  have rest : Tells host (do
      let globals := (← get).globals
      inFile file (topLevel m program globals)) := by
    apply tells_get
    intro s
    exact tells_inFile file (tells_topLevel tells program s.globals)
  exact rest { s with underway := [] }

theorem told_runRead {host : Host} {m : Machine} (tells : m.Tells host) (program : Program)
    (file : Option Text) (s : State) :
    Told host { s with underway := [] } (runRead m program file s) :=
  told_runOn tells (program.withSites (.read s.programs)) file { s with programs := s.programs + 1 }

theorem tells_allOfJson {host : Host} (list : List Json) : Tells host (allOfJson list) := by
  induction list with
  | nil => exact tells_pure _
  | cons data rest ih =>
      apply tells_bind (tells_ofJson data)
      intro v
      exact tells_bind ih (fun _ => tells_pure _)

theorem told_callOn {host : Host} {m : Machine} (tells : m.Tells host) (name : Text)
    (args : List Json) (s : State) :
    Told host { s with underway := [] } (callOn m name args s) := by
  have rest : Tells host (do
      let callee ← lookup (← get).globals name
      let values ← allOfJson args
      let v ← hostCall m callee values
      pure (← typeOf v, ← textOf v)) := by
    apply tells_get
    intro s
    apply tells_bind (tells_lookup _ _)
    intro callee
    apply tells_bind (tells_allOfJson args)
    intro values
    apply tells_bind (tells_hostCall tells callee values)
    intro v
    apply tells_bind (tells_typeOf v)
    intro type
    exact tells_bind (tells_textOf v) (fun _ => tells_pure _)
  exact rest { s with underway := [] }

/-- A step of an interpreter that began with no statement being carried out fails with
what was raised, brought out of all the statements that are left. -/
theorem through_of_step {α : Type} {host : Host} {i j : Interpreter} {action : Eval α}
    {d : Diagnostic} (told : Told host { i.state with underway := [] } (action i.state))
    (failed : i.step action = (.error (.failed (.program d)), j)) :
    ∃ raw, Raised host raw ∧ d = raw.through j.state.underway := by
  unfold Interpreter.step at failed
  cases outcome : action i.state with
  | ok a t => simp [outcome] at failed
  | error e t =>
      rw [outcome] at told failed
      cases failed
      obtain ⟨_, raw, frames, raised, passed, same⟩ := told
      exact ⟨raw, raised, by rw [same, passed, List.append_nil]⟩

/-- A request fails because it is not read itself, or with what was raised, brought out
of all the statements that were being carried out. -/
theorem through_of_serve {fuel : Nat} {i j : Interpreter} {request : Request} {d : Diagnostic}
    (failed : i.serve (fun host => .of host fuel) request = (.error (.failed (.program d)), j)) :
    request.Rejected d ∨ ∃ raw, Raised i.host raw ∧ d = raw.through j.state.underway := by
  have tells := tells_of i.host fuel
  have ran : ∀ program file,
      i.step (runRead (.of i.host fuel) program file) = (.error (.failed (.program d)), j) →
        ∃ raw, Raised i.host raw ∧ d = raw.through j.state.underway := fun program file =>
    through_of_step (told_runRead tells program file i.state)
  cases request with
  | run made file =>
      exact .inr (through_of_step (told_runOn tells made.numbered file i.state) failed)
  | runSource source file =>
      simp only [Interpreter.serve] at failed
      cases read : parseFile source file with
      | ok program =>
          simp only [read] at failed
          exact .inr (ran program file failed)
      | error cause =>
          simp only [read] at failed
          cases failed
          exact .inl read
  | runTree tree file =>
      simp only [Interpreter.serve] at failed
      cases read : Program.ofTree tree with
      | ok program =>
          simp only [read] at failed
          exact .inr (ran program file failed)
      | error cause =>
          simp only [read] at failed
          cases failed
          exact .inl read
  | call name args =>
      simp only [Interpreter.serve] at failed
      cases outcome : i.step (callOn (.of i.host fuel) name args) with
      | mk result after =>
          simp only [outcome] at failed
          -- the result of the call is dropped, and its failure is passed on as it is
          cases result with
          | ok a => cases failed
          | error e =>
              cases failed
              exact .inr (through_of_step (told_callOn tells name args i.state) outcome)
  | push events => cases failed
  | addModule name source => cases failed
  | reset => cases failed

/-- Whatever is evaluated, carried out or called: a failure of it comes out of the
statements that have begun since, and the innermost one gives it its place. So a
request fails with the place of the innermost statement that was being carried out,
and without a place if there was none; only what is wrong with the text of a module
keeps its place in that text. -/
theorem innermost_statement_places (fuel : Nat) :
    (∀ host e scope, Tells host (evalExpr (.of host fuel) e scope)) ∧
    (∀ host statements scope, Tells host (execBlock (.of host fuel) statements scope)) ∧
    (∀ host callee args name, Tells host (callValue (.of host fuel) callee args name)) ∧
    ∀ (i j : Interpreter) (request : Request) (d : Diagnostic),
      i.serve (fun host => .of host fuel) request = (.error (.failed (.program d)), j) →
      (¬ d.IsSyntax → d.loc = j.state.underway.head?.map (·.statement.loc)) ∧
      (d.IsSyntax → request.Rejected d ∨
        ∃ name file found fault loc, i.host.resolver.resolve name file = .ok (some found) ∧
          parse found.source = .error (SyntaxFault.located fault loc) ∧ d.loc = some loc) := by
  refine ⟨fun host => tells_evalExpr (tells_of host fuel),
    fun host => tells_execBlock (tells_of host fuel),
    fun host => tells_callValue (tells_of host fuel), ?_⟩
  intro i j request d failed
  rcases through_of_serve failed with rejected | ⟨raw, raised, rfl⟩
  · exact ⟨fun sound => absurd rejected.malformed sound, fun _ => .inl rejected⟩
  · rcases raised.cases with ⟨sound, nowhere, _⟩ |
    ⟨name, file, found, fault, loc, there, wrong, rfl⟩
    · constructor
      · intro _
        rw [Diagnostic.loc_through, nowhere, Option.none_or]
      · intro malformed
        exact absurd ((Diagnostic.is_syntax_through _ _).mp malformed) sound
    · constructor
      · intro sound
        exact absurd ((Diagnostic.is_syntax_through _ _).mpr ⟨fault, rfl⟩) sound
      · intro _
        refine .inr ⟨name, file, found, fault, loc, there, wrong, ?_⟩
        rw [Diagnostic.loc_through, Option.some_or]

def moduleName : Text := "m"

def failingHost : Host :=
  { Host.plain with
    resolver := .table [(moduleName, "func g()\nif true\nemit y\nend\nend\n\ng()\n")] }

/-- Where a request to an interpreter fails: the place and the file that the failure
names, and the places and files of the statements that were being carried out. -/
def failurePlace (served : Except Stop Unit × Interpreter) :
    Option ((Option Location × Option Text) × List (Location × Option Text)) :=
  match served with
  | (.error (.failed (.program d)), j) =>
      some ((d.loc, d.file), j.state.underway.map (fun frame => (frame.statement.loc, frame.file)))
  | _ => none

theorem failed_of_failurePlace {served : Except Stop Unit × Interpreter} {loc : Option Location}
    {file : Option Text} {frames : List (Location × Option Text)}
    (shown : failurePlace served = some ((loc, file), frames)) :
    ∃ d j, served = (.error (.failed (.program d)), j) ∧ d.loc = loc ∧ d.file = file ∧
      j.state.underway.map (fun frame => (frame.statement.loc, frame.file)) = frames := by
  unfold failurePlace at shown
  split at shown
  · rename_i d j
    cases shown
    exact ⟨d, j, rfl, rfl, rfl, rfl⟩
  · cases shown

def failingServed (request : Request) : Except Stop Unit × Interpreter :=
  (Interpreter.new failingHost []).serve (fun host => .of host 15) request

theorem module_failure_placed :
    ∃ d j, failingServed (.runSource "import m" none) = (.error (.failed (.program d)), j) ∧
      (¬ d.IsSyntax → d.loc = j.state.underway.head?.map (·.statement.loc)) ∧
      d.loc = some ⟨3, 0⟩ ∧ j.state.underway.length = 4 := by
  have shown : failurePlace (failingServed (.runSource "import m" none)) =
      some ((some ⟨3, 0⟩, some moduleName),
        [(⟨3, 0⟩, some moduleName), (⟨2, 0⟩, some moduleName), (⟨7, 0⟩, some moduleName),
          (⟨1, 0⟩, none)]) := by
    decide +kernel
  obtain ⟨d, j, failed, placed, _, frames⟩ := failed_of_failurePlace shown
  have innermost := (innermost_statement_places 15).2.2.2 _ j _ d failed
  refine ⟨d, j, failed, innermost.1, placed, ?_⟩
  simpa using congrArg List.length frames

/-- How the file that a failure names belongs to the place that it names. What is wrong
with a text is in the text that the file is of. Any other failure is in the innermost
statement, and names that one's file if it has one; if it has none, the file of the next
statement around it that has one. So it names the file of another statement's code
exactly if the innermost one's has none and some statement around it has one. -/
theorem file_of_failure (fuel : Nat) (i j : Interpreter) (request : Request) (d : Diagnostic)
    (loc : Location) (placed : d.loc = some loc)
    (failed : i.serve (fun host => .of host fuel) request = (.error (.failed (.program d)), j)) :
    (∃ source file fault, request = .runSource source file ∧
      parse source = .error (SyntaxFault.located fault loc) ∧ d.file = file) ∨
    (∃ name file found fault, i.host.resolver.resolve name file = .ok (some found) ∧
      parse found.source = .error (SyntaxFault.located fault loc) ∧ d.file = some found.path) ∨
    ¬ d.IsSyntax ∧ ∃ innermost around, j.state.underway = innermost :: around ∧
      loc = innermost.statement.loc ∧
      d.file = innermost.file.or (around.findSome? Frame.file) ∧
      (d.file = innermost.file ↔
        innermost.file.isSome = true ∨ ∀ frame ∈ around, frame.file = none) := by
  rcases through_of_serve failed with rejected | ⟨raw, raised, rfl⟩
  · left
    cases request with
    | runSource source file =>
        simp only [Request.Rejected, parseFile] at rejected
        cases read : parse source with
        | ok program => simp [read] at rejected
        | error cause =>
            obtain ⟨fault, loc', rfl⟩ := is_found_of_parse source cause read
            simp only [read, Except.error.injEq] at rejected
            subst rejected
            cases placed
            exact ⟨source, file, fault, rfl, read, rfl⟩
    | runTree tree file =>
        -- what is wrong with a tree has no place
        simp only [Request.Rejected, Program.ofTree] at rejected
        split at rejected
        all_goals cases rejected
        all_goals cases placed
    | _ => exact rejected.elim
  · right
    rcases raised.cases with
      ⟨sound, nowhere, unnamed⟩ | ⟨name, file, found, fault, loc', there, wrong, rfl⟩
    · right
      have place := raw.loc_through j.state.underway
      have named := raw.file_through j.state.underway
      rw [nowhere, Option.none_or, placed] at place
      rw [unnamed, Option.none_or] at named
      refine ⟨fun malformed => sound ((Diagnostic.is_syntax_through _ _).mp malformed), ?_⟩
      cases frames : j.state.underway with
      | nil => simp [frames] at place
      | cons innermost around =>
          rw [frames] at place named
          refine ⟨innermost, around, rfl, Option.some.inj place, ?_, ?_⟩
          · rw [named]
            cases own : innermost.file <;> simp [own]
          · rw [named]
            cases own : innermost.file with
            | some file => simp [own]
            | none => simp [own, List.findSome?_eq_none_iff]
    · left
      rw [Diagnostic.loc_through, Option.some_or] at placed
      cases placed
      refine ⟨name, file, found, fault, there, wrong, ?_⟩
      rw [Diagnostic.file_through, Option.some_or]

def strayInterpreter : Interpreter :=
  ((Interpreter.new .plain []).serve (fun host => .of host 15)
    (.runSource "func f()\n\nemit y\nend" none)).2

theorem strayInterpreter_host : strayInterpreter.host = .plain := by
  unfold strayInterpreter
  exact Discipline.serve_host (Interpreter.new .plain []) (fun _ _ => nofun)

def callingFile : Text := "main.l"

/-- What a call of that function comes to from code that has a file. -/
def strayServed : Except Stop Unit × Interpreter :=
  strayInterpreter.serve (fun host => .of host 15) (.runSource "f()" (some callingFile))

theorem strayServed_place :
    failurePlace strayServed =
      some ((some ⟨3, 0⟩, some callingFile), [(⟨3, 0⟩, none), (⟨1, 0⟩, some callingFile)]) := by
  decide +kernel

/-- The failure is in the third line of the code without a file, and names the file of
the caller, which has one line only. -/
theorem line_under_callers_file :
    ∃ d j innermost around, strayServed = (.error (.failed (.program d)), j) ∧
      j.state.underway = innermost :: around ∧ d.loc = some innermost.statement.loc ∧
      innermost.file = none ∧ d.file = some callingFile := by
  obtain ⟨d, j, failed, placed, named, frames⟩ := failed_of_failurePlace strayServed_place
  cases underway : j.state.underway with
  | nil => simp [underway] at frames
  | cons innermost around =>
      simp only [underway, List.map_cons, List.cons.injEq, Prod.mk.injEq] at frames
      obtain ⟨⟨place, unnamed⟩, _⟩ := frames
      exact ⟨d, j, innermost, around, failed, underway, place ▸ placed, unnamed, named⟩

theorem stray_file_lent :
    ∃ d j, d.loc = some ⟨3, 0⟩ ∧ strayServed = (.error (.failed (.program d)), j) ∧
      ¬ d.IsSyntax ∧ ∃ innermost around, j.state.underway = innermost :: around ∧
        (⟨3, 0⟩ : Location) = innermost.statement.loc ∧
        d.file = innermost.file.or (around.findSome? Frame.file) ∧
        (d.file = innermost.file ↔
          innermost.file.isSome = true ∨ ∀ frame ∈ around, frame.file = none) := by
  obtain ⟨d, j, failed, placed, _, frames⟩ := failed_of_failurePlace strayServed_place
  refine ⟨d, j, placed, failed, ?_⟩
  rcases file_of_failure 15 strayInterpreter j _ d ⟨3, 0⟩ placed failed with
    ⟨source, file, fault, same, wrong, _⟩ | ⟨name, file, found, fault, there, _⟩ | inside
  · -- the text of the call is read
    cases same
    have read : (parse "f()").toOption.isSome = true := by decide +kernel
    simp [wrong, Except.toOption] at read
  · -- there are no modules
    rw [strayInterpreter_host] at there
    simp [Host.plain, Resolver.resolve, Table.find?] at there
  · exact inside

end Loom
