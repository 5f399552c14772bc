import Loom.Proofs.Discipline.Session

/-!
No run leaves a loop or a function that it is not in. The grammar lets `return`,
`break` and `continue` stand only where there is something to leave; the body of
every function that a run makes comes from a text that was read, so statements
end only as their context lets them, and the faults for all other endings are
never raised.
-/

namespace Loom

namespace Discipline

/-- Functions have placed bodies, and nothing fails for leaving what is not there. -/
def placed : Discipline where
  terms := .any
  strict := true
  value := fun _ v =>
    match v with
    | .function f _ => f.procedure.Placed true
    | _ => True
  stop := fun _ e =>
    match e with
    | .failed (.program cause) => ¬ cause.fault.IsExit
    | _ => True
  value_later := fun _ fine => fine
  stop_later := fun _ allowed => allowed
  data := fun {_ v} plain => by cases v <;> simp_all [Value.isData]
  native := fun _ _ => trivial
  loop := fun _ => trivial
  starts := fun _ => trivial
  method := fun {_ v} fine => by cases v <;> exact fine
  closure := (and_iff_left (Nat.zero_le _)).symm
  vanished := fun _ => trivial
  atTop := fun _ => not_false
  missing := fun _ => trivial
  bare := fun _ => trivial
  outOfFuel := trivial
  fault := fun inside => inside rfl
  directory := trivial
  located := fun {_ failure _ _} allowed => by cases failure <;> exact allowed

end Discipline

/-- What a host asks of an interpreter when every program that it runs is read
from a text. -/
def Request.IsRead : Request → Prop
  | .run made _ => ∃ source, parse source = .ok made.program
  | .runTree _ _ => False
  | _ => True

theorem Request.placed_of_is_read (request : Request) (read : request.IsRead) :
    request.Placed true := by
  cases request with
  | run made file =>
      obtain ⟨source, found⟩ := read
      exact placed_of_parse source made.program found
  | runTree tree file => exact read.elim
  | _ => trivial

/-- A program that is read is placed: each `return` is in a function, and each
`break` and `continue` in as many loops of its function as it names. And
whatever requests an interpreter is given, as long as its programs and modules
are read from texts, none fails for leaving a loop or a function it is not in. -/
theorem exits_unreachable (host : Host) (events : List HostEvent) (fuel : Nat)
    (requests : List Request) (read : ∀ request ∈ requests, request.IsRead) :
    (∀ source program, parse source = .ok program → program.Placed true) ∧
      ∀ cause, .error (.failed (.program cause)) ∈
          ((Interpreter.new host events).serveAll (fun host => .of host fuel) requests).1 →
        cause.fault ≠ .runtime .returnOutsideFunction ∧ cause.fault ≠ .runtime .outsideLoop ∧
          ∀ name, cause.fault ≠ .runtime (.outsideLoopIn name) := by
  constructor
  · exact placed_of_parse
  · intro cause member
    have admitted : Discipline.placed.Admits host :=
      ⟨fun _ _ _ _ _ => trivial, fun _ _ => trivial, fun _ _ _ _ => trivial⟩
    have served := Discipline.allows_serveAll (Discipline.serves_of (Nat.le_refl 0) fuel) requests
      (Discipline.kept_new admitted (fun _ => trivial) events)
      (fun request member => request.placed_of_is_read (read request member))
    -- the three faults are the ones that no placed program stops with
    have inside : ¬ cause.fault.IsExit := served.2.2.2 _ member
    constructor
    · intro same
      exact inside (by simp [same, Fault.IsExit])
    constructor
    · intro same
      exact inside (by simp [same, Fault.IsExit])
    · intro name same
      exact inside (by simp [same, Fault.IsExit])

def loopText : Text :=
  "func f(list)\nfor list as x\nfor true\nif x\nbreak 2\nelse\nreturn x\nend\nend\nend\nend\nf([true])\n"

def loopProgram : Program := (parse loopText).toOption.getD ⟨[], .origin⟩

theorem parse_loopText : parse loopText = .ok loopProgram := by
  have read : (parse loopText).toOption.isSome = true := by decide +kernel
  unfold loopProgram
  cases outcome : parse loopText with
  | ok program => rfl
  | error cause => simp [outcome, Except.toOption] at read

def loopHost : Host :=
  { Host.plain with resolver := .table [("m", "func g()\nfor true\nbreak\nend\nend\n")] }

def loopRequests : List Request :=
  [.run ⟨loopProgram, 0⟩ none, .runSource "import m\nm.g()\nbreak\n" none,
    .runSource "import m\nm.g()\n" none, .call "f" []]

theorem loops_left_in_session :
    (∀ request ∈ loopRequests, request.IsRead) ∧
      (∀ source program, parse source = .ok program → program.Placed true) ∧
      ∀ cause, .error (.failed (.program cause)) ∈
          ((Interpreter.new loopHost []).serveAll (fun host => .of host 15) loopRequests).1 →
        cause.fault ≠ .runtime .returnOutsideFunction ∧ cause.fault ≠ .runtime .outsideLoop ∧
          ∀ name, cause.fault ≠ .runtime (.outsideLoopIn name) := by
  have read : ∀ request ∈ loopRequests, request.IsRead := by
    intro request member
    simp only [loopRequests, List.mem_cons, List.not_mem_nil, or_false] at member
    rcases member with rfl | rfl | rfl | rfl
    · simp only [Request.IsRead]
      exact ⟨loopText, parse_loopText⟩
    · trivial
    · trivial
    · trivial
  exact ⟨read, exits_unreachable loopHost [] 15 loopRequests read⟩

end Loom
