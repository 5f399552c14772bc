import Loom.Proofs.Resetting
import Loom.Proofs.Tree.Finite
import Loom.Proofs.WellFormed.Reading

/-!
Programs by way of their trees. The tree of a text that was read is written as plain data
and read again: nothing of the program is lost but the signs of zeros, and those no run
shows. So a text and its tree have the same runs.
-/

namespace Loom

open Eval

/-- The likeness of runs that differ in nothing but the signs of zeros. -/
def Likeness.signless : Likeness := ⟨true, ⟨0, 0, 0, 0, 0, 0, 0⟩, []⟩

/-- Stops that tell a host the same: the kind, the message, the place and the file of a
fault, or the trouble outside the program. -/
inductive Stop.TellsSame : Stop → Stop → Prop
  | program {d d' : Diagnostic} (kind : d'.fault.kind = d.fault.kind)
      (message : d'.fault.message = d.fault.message) (loc : d'.loc = d.loc)
      (file : d'.file = d.file) :
      TellsSame (.failed (.program d)) (.failed (.program d'))
  | host (fault : HostFault) : TellsSame (.failed (.host fault)) (.failed (.host fault))
  | outOfFuel : TellsSame .outOfFuel .outOfFuel

/-- Outcomes of requests that a host cannot tell apart. -/
inductive SameOutcome : Except Stop Unit → Except Stop Unit → Prop
  | success : SameOutcome (.ok ()) (.ok ())
  | failure {stop stop' : Stop} (same : stop.TellsSame stop') :
      SameOutcome (.error stop) (.error stop')

/-- Stops that are the same but for the signs of zeros tell the same. -/
theorem Stop.tells_same_of_plain {stop stop' : Stop} (looks : stop.plain = stop'.plain) :
    stop.TellsSame stop' := by
  cases stop with
  | outOfFuel =>
      cases stop' with
      | outOfFuel => exact .outOfFuel
      | failed failure' => cases looks
  | failed failure =>
      cases stop' with
      | outOfFuel => cases looks
      | failed failure' =>
          have inner := Stop.failed.inj looks
          cases failure with
          | host fault =>
              cases failure' with
              | host fault' =>
                  cases inner
                  exact .host fault
              | program d' => cases inner
          | program d =>
              cases failure' with
              | host fault' => cases inner
              | program d' =>
                  obtain ⟨fault, loc, file⟩ := d
                  obtain ⟨fault', loc', file'⟩ := d'
                  obtain ⟨faults, locs, files⟩ := Diagnostic.mk.inj (Failure.program.inj inner)
                  obtain ⟨kind, message⟩ := Fault.plain_keeps fault
                  obtain ⟨kind', message'⟩ := Fault.plain_keeps fault'
                  exact .program (by rw [← kind', ← faults, kind])
                    (by rw [← message', ← faults, message]) locs.symm files.symm

theorem same_outcome_of_plain {result result' : Except Stop Unit}
    (looks : result.mapError Stop.plain = result'.mapError Stop.plain) :
    SameOutcome result result' := by
  cases result with
  | ok u =>
      cases result' with
      | ok u' => exact .success
      | error stop' => cases looks
  | error stop =>
      cases result' with
      | ok u' => cases looks
      | error stop' => exact .failure (Stop.tells_same_of_plain (Except.error.inj looks))

namespace Interpreter

theorem blank_like_blank (queue : List HostEvent) :
    (blankState queue).Like .signless (blankState queue) where
  scopes := by
    refine ⟨rfl, fun id => ?_, rfl, fun cell => ?_⟩
    · simp [ScopeTree.scope, Scope.at, Likeness.signless, blankState, Array.getD,
        ScopeTree.empty, Scope.behind, Table.mapped]
    · exact .null
  heap := ⟨rfl, rfl, fun _ => .nil, fun _ => .nil⟩
  loopCount := rfl
  loop := fun id => .none
  queue := rfl
  emitted := rfl
  depth := rfl
  file := rfl
  loading := rfl
  globals := rfl
  shared := rfl
  nativeCache := .nil
  moduleCache := .nil
  stamps := rfl
  programs := rfl

theorem new_like_new (host : Host) (events : List HostEvent) :
    Like .signless (new host events) (new host events) :=
  ⟨rfl, like_withNewGlobals (blank_like_blank events)⟩

/-- On like interpreters a program and the same without signs of zeros run alike. -/
theorem run_plain_like {interpreter other : Interpreter} (same : Like .signless interpreter other)
    {machine : Host → Machine} (respects : ∀ host, (machine host).Respects .signless)
    (program : Program) (file : Option Text) :
    SameOutcome (interpreter.step (runRead (machine interpreter.host) program file)).1
        (other.step (runRead (machine other.host) (program.revised .plain) file)).1 ∧
      Like .signless (interpreter.step (runRead (machine interpreter.host) program file)).2
        (other.step (runRead (machine other.host) (program.revised .plain) file)).2 := by
  have numbers : ∀ x, Likeness.signless.Same plainNumber x (Revision.plain.number x) :=
    fun x => .inr ⟨rfl, (plainNumber_plainNumber x).symm⟩
  have ran := step_like same (agree_runRead (respects interpreter.host) numbers program file)
  rw [same.host]
  exact ⟨same_outcome_of_plain ran.1.looks, ran.2⟩

/-- The tree of a text survives being written as plain data and read again. What is printed
of it is also what is printed of the tree `t` that the print is for, and `t` is read as a
program exactly when no number literal of the text is infinite. The program that is read is
the one that was parsed, with its places, but for the signs of zeros. So whatever was asked
of an interpreter before, to run `t` puts out what to run the text puts out, and ends like
it. The longest texts have `2 ^ 53 - 1` units, so that doubles count their places. -/
theorem tree_runs_as_source (source : Text) (program : Program)
    (parsed : parse source = .ok program) (short : source.length < 2 ^ 53) :
    let t := (program.toTree .num).written
    t.writeIndented = (program.toTree .num).writeIndented ∧
    ((∃ read, Program.ofTree t = .ok read) ↔ ∀ x ∈ program.literals, x.isInf = false) ∧
    ∀ read, Program.ofTree t = .ok read → read = program.revised .plain ∧
      ∀ (fuel : Nat) (host : Host) (events : List HostEvent) (past : List Request)
          (file : Option Text),
        let machine : Host → Machine := fun host => .of host fuel
        let used := ((new host events).serveAll machine past).2
        let bySource := used.serve machine (.runSource source file)
        let byTree := used.serve machine (.runTree t file)
        SameOutcome bySource.1 byTree.1 ∧
          byTree.2.state.emitted = bySource.2.state.emitted := by
  intro t
  have reads := fun read =>
    Program.ofTree_written_iff program read (wellFormed_of_parse parsed short)
  refine ⟨Json.writeAt_written true 0 _, ?_, ?_⟩
  · constructor
    · rintro ⟨read, is⟩
      exact ((reads read).mp is).1
    · intro finite
      exact ⟨_, (reads _).mpr ⟨finite, rfl⟩⟩
  · intro read is
    obtain ⟨_, rfl⟩ := (reads read).mp is
    refine ⟨rfl, fun fuel host events past file => ?_⟩
    intro machine used bySource byTree
    have respects : ∀ host, (machine host).Respects .signless :=
      fun host => respects_of _ host fuel
    have before := (serveAll_like (new_like_new host events) respects past).2
    obtain ⟨outcome, after⟩ := run_plain_like before respects program file
    have source_run : bySource =
        used.step (runRead (machine used.host) program file) := by
      simp only [bySource, serve, parseFile, parsed]
    have tree_run : byTree =
        used.step (runRead (machine used.host) (program.revised .plain) file) := by
      simp only [byTree, serve, t, is]
    rw [source_run, tree_run]
    exact ⟨outcome, after.state.emitted.trans (List.append_nil _)⟩

/-- A zero with a sign, put out and divided by. -/
def signedText : Text := "x = -0\nemit x as y\nemit 1 / x\n"

def signedProgram : Program := (parse signedText).toOption.getD ⟨[], .origin⟩

theorem signed_text_by_tree :
    (parse signedText = .ok signedProgram ∧ signedText.length < 2 ^ 53) ∧
    let t := (signedProgram.toTree .num).written
    let machine : Host → Machine := fun host => .of host 20
    let used := ((new .plain []).serveAll machine []).2
    let bySource := used.serve machine (.runSource signedText none)
    let byTree := used.serve machine (.runTree t none)
    t.writeIndented = (signedProgram.toTree .num).writeIndented ∧
      Program.ofTree t = .ok (signedProgram.revised .plain) ∧
      SameOutcome bySource.1 byTree.1 ∧ byTree.2.state.emitted = bySource.2.state.emitted := by
  have read : (parse signedText).toOption.isSome = true := by decide +kernel
  have parsed : parse signedText = .ok signedProgram := by
    unfold signedProgram
    cases outcome : parse signedText with
    | ok program => rfl
    | error cause => simp [outcome, Except.toOption] at read
  have short : signedText.length < 2 ^ 53 :=
    Nat.lt_of_le_of_lt (show signedText.length ≤ 50 by decide) (by decide)
  have finite : ∀ x ∈ signedProgram.literals, x.isInf = false := by
    have each : (signedProgram.literals.all fun x => !x.isInf) = true := by decide +kernel
    simpa only [List.all_eq_true, Bool.not_eq_true'] using each
  have law := tree_runs_as_source signedText signedProgram parsed short
  obtain ⟨program, is⟩ := law.2.1.mpr finite
  have again := law.2.2 program is
  rw [again.1] at is
  exact ⟨⟨parsed, short⟩, law.1, is, again.2 20 .plain [] [] none⟩

end Interpreter

end Loom
