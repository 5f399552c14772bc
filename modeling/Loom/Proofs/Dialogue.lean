import Loom.Proofs.Density
import Loom.Proofs.Gathering
import Loom.Proofs.Retention

/-!
What the interactive loop does with the lines that it takes in. It performs the acts that
the lines fall into, one after the other: whatever is typed in is run once, and where that
fails the loop goes on from there. Only commands end it.
-/

namespace Loom

open Interpreter

namespace Repl

/-! The loop over lines, and what it does for acts. -/

def after (repl : Repl) : List Text → Option Repl
  | [] => some repl
  | line :: rest =>
      if (repl.step line).1.ended.isSome then none else (repl.step line).1.after rest

def holding (repl : Repl) (lines : List Text) : Repl := { repl with buffer := joined lines }

def Act.perform (repl : Repl) : Act → Repl × List Output
  | .command line => repl.command (Text.trim line)
  | .input lines =>
      let submitted := submit repl.interpreter (Text.trim (joined lines))
      ({ repl with interpreter := submitted.1 }, submitted.2 ++ [.prompt prompt])

def performed (repl : Repl) : List Act → Option Repl
  | [] => some repl
  | act :: rest =>
      if (act.perform repl).1.ended.isSome then none else (act.perform repl).1.performed rest

def asking (lines : List Text) : List Output :=
  lines.flatMap fun line => [.input line, .write continuation]

def Act.typed : Act → List Output
  | .command line => [.input line]
  | .input lines => asking lines.dropLast ++ lines.getLast?.toList.map .input

def ahead (shown : List Output) (later : List Output × Option Failure) :
    List Output × Option Failure := (shown ++ later.1, later.2)

def ifGoing (repl : Repl) (later : List Output × Option Failure) : List Output × Option Failure :=
  repl.ended.elim later fun ending => ([], ending.failure?)

/-- What a session puts out that performs some acts, up to one that ends it; if none does, some
more lines are typed in and the session is closed. -/
def transcript (repl : Repl) (pending : List Text) : List Act → List Output × Option Failure
  | [] => (asking pending ++ [farewell], none)
  | act :: rest =>
      ahead (act.typed ++ (act.perform repl).2)
        ((act.perform repl).1.ifGoing ((act.perform repl).1.transcript pending rest))

/-! One line. -/

variable {repl : Repl} {pending : List Text} {line : Text}

theorem step_command (repl : Repl) (is : IsCommand line) :
    (repl.holding []).step line = Act.perform (repl.holding []) (.command line) := by
  have empty : (repl.holding []).buffer.isEmpty = true := rfl
  have colon : ((Text.trim line).head? == some 0x3A) = true := beq_iff_eq.mpr is
  simp only [step, empty, colon, Bool.and_self, if_true]
  rfl

/-- A line that is no command is put behind the pending ones. -/
theorem step_gathering (repl : Repl) (waits : Waits pending)
    (plain : pending = [] → ¬ IsCommand line) :
    (repl.holding pending).step line =
      if isIncomplete (joined (pending ++ [line])) then
        (repl.holding (pending ++ [line]), [.write continuation])
      else Act.perform (repl.holding []) (.input (pending ++ [line])) := by
  have empty : (repl.holding pending).buffer.isEmpty = pending.isEmpty := by
    rw [Bool.eq_iff_iff, List.isEmpty_iff, List.isEmpty_iff]
    exact waits.joined_eq_nil
  have other : ((repl.holding pending).buffer.isEmpty &&
      (Text.trim line).head? == some 0x3A) = false := by
    rw [empty, Bool.and_eq_false_iff, List.isEmpty_eq_false_iff, beq_eq_false_iff_ne]
    exact (Decidable.em (pending = [])).symm.imp_right plain
  have lengthened : (if (repl.holding pending).buffer.isEmpty then line
      else (repl.holding pending).buffer ++ [0x0A] ++ line) = joined (pending ++ [line]) := by
    rw [empty]
    cases pending with
    | nil => rfl
    | cons first rest => exact (joined_concat (List.cons_ne_nil first rest) line).symm
  simp only [step, other, lengthened, Bool.false_eq_true, if_false]
  rfl

theorem session_cons (repl : Repl) (line : Text) (rest : List Text) :
    repl.session (line :: rest) =
      ahead (.input line :: (repl.step line).2)
        ((repl.step line).1.ifGoing ((repl.step line).1.session rest)) := by
  simp only [session, ifGoing]
  cases (repl.step line).1.ended with
  | none => rfl
  | some ending => simp [ahead]

theorem session_going {next : Repl} {shown : List Output} (stepped : repl.step line = (next, shown))
    (going : next.ended = none) (rest : List Text) :
    repl.session (line :: rest) = ahead (.input line :: shown) (next.session rest) ∧
      repl.after (line :: rest) = next.after rest := by
  rw [session_cons, after, stepped, ifGoing, going]
  exact ⟨rfl, rfl⟩

theorem ahead_ahead (shown more : List Output) (later : List Output × Option Failure) :
    ahead shown (ahead more later) = ahead (shown ++ more) later := by
  simp [ahead]

/-! Lines that wait, and lines that are an act. -/

theorem session_waiting {lines more : List Text} (waits : Waits (lines ++ more))
    (going : repl.ended = none) (rest : List Text) :
    (repl.holding lines).session (more ++ rest) =
        ahead (asking more) ((repl.holding (lines ++ more)).session rest) ∧
      (repl.holding lines).after (more ++ rest) = (repl.holding (lines ++ more)).after rest := by
  induction more generalizing lines with
  | nil =>
      rw [List.append_nil]
      exact ⟨rfl, rfl⟩
  | cons line more ih =>
      have same : lines ++ line :: more = lines ++ [line] ++ more := List.append_cons _ _ _
      rw [same] at waits ⊢
      have held : isIncomplete (joined (lines ++ [line])) = true :=
        waits.held _ (List.prefix_append _ _) (by simp)
      have plain : lines = [] → ¬ IsCommand line := by
        rintro rfl
        exact waits.opening line rfl
      have stepped := (step_gathering repl waits.of_append.of_append plain).trans (if_pos held)
      obtain ⟨first, first'⟩ := session_going stepped going (more ++ rest)
      obtain ⟨others, others'⟩ := ih waits
      constructor
      · rw [List.cons_append, first, others, ahead_ahead]
        rfl
      · rw [List.cons_append, first', others']

/-- The lines of an act are what the loop needs to perform it. -/
theorem session_act {act : Act} (fits : act.Fits) (going : repl.ended = none)
    (rest : List Text) :
    let next := (act.perform (repl.holding [])).1
    (repl.holding []).session (act.lines ++ rest) =
        ahead (act.typed ++ (act.perform (repl.holding [])).2)
          (next.ifGoing (next.session rest)) ∧
      (repl.holding []).after (act.lines ++ rest) =
        if next.ended.isSome then none else next.after rest := by
  intro next
  cases act with
  | command line =>
      have stepped : (repl.holding []).step line = _ := step_command repl fits
      rw [Act.lines, List.singleton_append, session_cons, after, stepped]
      exact ⟨rfl, rfl⟩
  | input lines =>
      obtain ⟨lines, line, rfl, waits, plain⟩ := fits.exists_waits
      have typed : Act.typed (.input (lines ++ [line])) = asking lines ++ [.input line] := by
        simp [Act.typed]
      have complete : ¬ isIncomplete (joined (lines ++ [line])) = true := by simp [fits.whole]
      have stepped : (repl.holding lines).step line = _ :=
        (step_gathering repl waits plain).trans (if_neg complete)
      have waits : Waits ([] ++ lines) := waits
      obtain ⟨shown, reached⟩ := session_waiting waits going (line :: rest)
      rw [Act.lines, List.append_assoc, List.singleton_append, shown, reached, List.nil_append,
        session_cons, after, stepped, ahead_ahead, typed]
      constructor
      · simp [next]
      · rfl

theorem perform_buffer (repl : Repl) (act : Act) : (act.perform repl).1.buffer = repl.buffer := by
  cases act with
  | command line =>
      simp only [Act.perform, command]
      repeat' split
      all_goals rfl
  | input lines => rfl

theorem holding_of_empty (empty : repl.buffer = []) : repl.holding [] = repl := by
  cases repl
  cases empty
  rfl

/-- A session performs the acts that its lines fall into, and then nothing is left in the buffer
but the lines that are pending. -/
theorem session_eq {lines : List Text} {acts : List Act} (division : Division lines acts pending)
    (going : repl.ended = none) :
    (repl.holding []).session lines = (repl.holding []).transcript pending acts ∧
      (repl.holding []).after lines =
        ((repl.holding []).performed acts).map (holding · pending) := by
  induction acts generalizing repl lines with
  | nil =>
      obtain rfl : pending = lines := division.whole
      have waits : Waits ([] ++ pending) := division.waiting
      have waited := session_waiting waits going []
      rw [List.append_nil, List.nil_append] at waited
      exact waited
  | cons act acts ih =>
      obtain ⟨rest, rfl, fits, division⟩ := division.cons
      obtain ⟨shown, reached⟩ := session_act fits going rest
      rw [shown, reached, transcript, performed, ifGoing, ifGoing]
      cases ended : (act.perform (repl.holding [])).1.ended with
      | some ending => exact ⟨rfl, rfl⟩
      | none =>
          have empty := (perform_buffer (repl.holding []) act).trans rfl
          obtain ⟨later, later'⟩ := ih division ended
          rw [holding_of_empty empty] at later later'
          rw [later, later']
          exact ⟨rfl, rfl⟩

/-! What ends the loop. -/

end Repl

def Interpreter.Shows (interpreter : Interpreter) (name : Text) : Prop :=
  ∃ listed, list interpreter.state [name] = .ok listed

namespace Repl

def word (line : Text) : Text := (Text.trim line).takeWhile fun u => !Text.isSpace u

def quitWords : List Text := [":quit", ":q", ":exit"]

def Act.Quits : Act → Prop
  | .command line => word line ∈ quitWords
  | .input _ => False

def Act.Lists : Act → Prop
  | .command line => word line = ":env"
  | .input _ => False

theorem listing_eq_none_iff (interpreter : Interpreter) (names : List Text) :
    (listing interpreter names).2 = none ↔ ∀ name ∈ names, interpreter.Shows name := by
  induction names with
  | nil => simp [listing]
  | cons name rest ih =>
      rw [listing, List.forall_mem_cons, ← ih, Interpreter.Shows]
      cases list interpreter.state [name] with
      | ok listed => simp
      | error failure => simp

/-- The list of variables breaks off exactly if one of them cannot be shown. -/
theorem environment_eq_none_iff (interpreter : Interpreter) :
    (environment interpreter).2 = none ↔ ∀ name ∈ interpreter.names, interpreter.Shows name := by
  rw [← listing_eq_none_iff, environment]
  rcases listing interpreter interpreter.names with ⟨_ | ⟨_, _⟩, _ | _⟩ <;> simp

theorem any_word_iff (names : List String) (t : Text) :
    (names.any fun n => Text.ofString n == t) = true ↔ t ∈ names.map Text.ofString := by
  rw [List.any_eq_true, List.mem_map]
  exact exists_congr fun n => and_congr_right fun _ => beq_iff_eq

/-- Only a command to quit ends the loop, and one to list variables of which one cannot be
shown. -/
theorem perform_ended_iff (going : repl.ended = none) (act : Act) :
    (act.perform repl).1.ended = none ↔
      ¬ act.Quits ∧ (act.Lists → ∀ name ∈ repl.interpreter.names, repl.interpreter.Shows name) := by
  cases act with
  | input lines => exact ⟨fun _ => ⟨not_false, nofun⟩, fun _ => going⟩
  | command line =>
      let quitting : List String := [":quit", ":q", ":exit"]
      have quits : Act.Quits (.command line) ↔ word line ∈ quitting.map Text.ofString := Iff.rfl
      have lists : Act.Lists (.command line) ↔ word line ∈ [":env"].map Text.ofString :=
        List.mem_singleton.symm
      have is (names : List String) := any_word_iff names (word line)
      simp only [Act.perform, command]
      rw [quits, lists]
      split
      · rename_i help
        have apart : ∀ t ∈ [":help", ":h"].map Text.ofString,
            t ∉ quitting.map Text.ofString ∧ t ∉ [":env"].map Text.ofString := by decide
        have apart := apart _ ((is _).mp help)
        exact iff_of_true going ⟨apart.1, fun env => absurd env apart.2⟩
      split
      · rename_i quit
        exact iff_of_false nofun fun both => both.1 ((is _).mp quit)
      rename_i _ quit
      have quit : word line ∉ quitting.map Text.ofString := fun among => quit ((is _).mpr among)
      split
      · rename_i env
        have all := environment_eq_none_iff repl.interpreter
        generalize environment repl.interpreter = listed at all ⊢
        rcases listed with ⟨shown, _ | failure⟩
        · exact iff_of_true going ⟨quit, fun _ => all.mp rfl⟩
        · exact iff_of_false nofun fun both => nomatch all.mpr (both.2 ((is _).mp env))
      rename_i env
      have env : word line ∉ [":env"].map Text.ofString := fun among => env ((is _).mpr among)
      split
      · exact iff_of_true going ⟨quit, fun among => absurd among env⟩
      · exact iff_of_true going ⟨quit, fun among => absurd among env⟩

/-! What becomes of an input. -/

/-- How an input may end. A blank one is not run and one that cannot be read does nothing. Any
other is run once, and what a run that fails has done by then stays done. -/
inductive Submitted (i : Interpreter) (input : Text) : Interpreter → List Output → Prop where
  | blank (nothing : input = []) : Submitted i input i []
  | unread {d : Diagnostic} (some : input ≠ []) (refused : parseFile input none = .error d) :
      Submitted i input i [.err ("  " ++ d.message)]
  | ran {program : Program} {t : State} (some : input ≠ [])
      (read : parseFile input none = .ok program)
      (done : runRead (ordinary i.host) program none i.state = .ok () t) :
      Submitted i input { i with state := { t with emitted := [] } }
        (t.emitted.reverse.map Emission.output)
  | failed {program : Program} {t : State} {stop : Stop} (some : input ≠ [])
      (read : parseFile input none = .ok program)
      (broken : runRead (ordinary i.host) program none i.state = .error stop t) :
      Submitted i input { i with state := { t with emitted := [] } }
        (t.emitted.reverse.map Emission.output ++ [.err ("  " ++ stop.report)])

theorem submitted_submit {i : Interpreter} (quiet : i.state.emitted = []) (input : Text) :
    Submitted i input (submit i input).1 (submit i input).2 := by
  unfold submit
  split
  · rename_i nothing
    exact .blank (List.isEmpty_iff.mp nothing)
  rename_i some
  have some : input ≠ [] := fun nothing => some (List.isEmpty_iff.mpr nothing)
  cases read : parseFile input none with
  | error d =>
      have same : ({ i with state := { i.state with emitted := [] } } : Interpreter) = i := by
        rw [← quiet]
      simp only [runSource_of_error read, takeEmitted, quiet, same]
      exact .unread some read
  | ok program =>
      simp only [runSource, serve, read, Interpreter.step]
      cases outcome : runRead (ordinary i.host) program none i.state with
      | ok a t => exact .ran some read outcome
      | error stop t => exact .failed some read outcome

end Repl

theorem State.Retains.takeEmitted {s t : State} (retains : s.Retains t) :
    s.Retains { t with emitted := [] } :=
  ⟨retains.globals, retains.names,
    ⟨retains.tables.shared, retains.tables.natives, retains.tables.modules⟩, retains.heap,
    ⟨retains.grown.history, retains.grown.bindings, retains.grown.scopes⟩,
    ⟨retains.control.depth, retains.control.file, retains.control.loading,
      retains.control.running⟩⟩

namespace Repl

theorem submit_eq {i : Interpreter} {input : Text} (some : input ≠ []) :
    (submit i input).1 = (i.runSource input none).2.takeEmitted.2 := by
  unfold submit
  rw [if_neg fun nothing => some (List.isEmpty_iff.mp nothing)]
  rcases i.runSource input none with ⟨_ | _, _⟩ <;> rfl

theorem retains_submit {i : Interpreter} (closed : i.state.Closed) (input : Text) :
    i.state.Retains (submit i input).1.state := by
  by_cases nothing : input = []
  · subst nothing
    exact i.state.retains_refl
  · rw [submit_eq nothing]
    exact (retains_runSource closed input none).takeEmitted

/-! Between two acts. -/

/-- An interpreter that is ready for the next input: all that was put out has been shown, and
what it holds is in order. -/
structure Prepared (host : Host) (i : Interpreter) : Prop where
  quiet : i.state.emitted = []
  closed : i.state.Closed
  dense : (Discipline.dense host.CallsBack).Kept i

variable {host : Host}

theorem prepared_new (host : Host) : Prepared host (.new host []) where
  quiet := by
    obtain ⟨_, _, made⟩ := Discipline.withNewGlobals_eq (blankState [])
    simp only [Interpreter.new, made]
    rfl
  closed := closed_new host []
  dense := Discipline.kept_new (Discipline.admits_dense host) (fun _ => trivial) []

theorem Prepared.reset {i : Interpreter} (prepared : Prepared host i) : Prepared host i.reset where
  quiet := by
    obtain ⟨_, _, made⟩ := Discipline.withNewGlobals_eq i.state
    simp only [Interpreter.reset, made]
    exact prepared.quiet
  closed := closed_serve (Machine.closes_of · defaultFuel) prepared.closed .reset
  dense := (Discipline.after_reset prepared.dense).2.2

theorem Prepared.submit {i : Interpreter} (prepared : Prepared host i) (input : Text) :
    Prepared host (submit i input).1 := by
  by_cases nothing : input = []
  · subst nothing
    exact prepared
  rw [submit_eq nothing]
  have serves : (Discipline.dense host.CallsBack).Serves ordinary :=
    Discipline.serves_of (Nat.le_refl 0) defaultFuel
  have kept := (Discipline.allows_serve serves prepared.dense (.runSource input none)
    (Request.placed_of_lenient _)).kept
  have closed := closed_serve (Machine.closes_of · defaultFuel) prepared.closed
    (.runSource input none)
  exact
    { quiet := rfl
      closed := closed.of_same rfl rfl rfl rfl rfl
      dense :=
        ⟨kept.ready.of_same rfl rfl rfl rfl rfl rfl rfl, kept.top, kept.admitted, kept.addable⟩ }

/-- Where no position has vanished, every variable can be shown. -/
theorem Prepared.shows {i : Interpreter} (prepared : Prepared host i)
    (still : ¬ Vanished i.state.history) (name : Text) : i.Shows name := by
  have ready := prepared.dense.ready
  have held : i.state.scopes.All (· ≠ .missing) :=
    fun v member => ((ready.held.cells v member).resolve_right still).1
  have there : (i.state.scopes.get? i.state.globals name).getD .null ≠ .missing := by
    cases found : i.state.scopes.get? i.state.globals name with
    | none => simp
    | some v => exact held.get? (by simp) _ name v found
  have whole := Discipline.whole_of_dense ready still
  obtain ⟨text, written⟩ := text_of_whole i.state.heap whole _ there
  obtain ⟨type, kind⟩ := Option.isSome_iff_exists.mp ((Value.type_is_some_iff _).mpr there)
  unfold Interpreter.Shows
  simp only [list, kind, written]
  cases type <;> exact ⟨_, rfl⟩

/-- The loop between two acts: nothing is left in its buffer, and nothing has ended it. -/
structure Between (host : Host) (repl : Repl) : Prop where
  buffer : repl.buffer = []
  going : repl.ended = none
  prepared : Prepared host repl.interpreter

theorem between_start (host : Host) : Between host (start host) :=
  ⟨rfl, rfl, prepared_new host⟩

theorem command_interpreter (repl : Repl) (line : Text) :
    (repl.command line).1.interpreter = repl.interpreter ∨
      (repl.command line).1.interpreter = repl.interpreter.reset := by
  simp only [command]
  split
  · exact .inl rfl
  split
  · exact .inl rfl
  split
  · split <;> exact .inl rfl
  split
  · exact .inr rfl
  · exact .inl rfl

theorem Between.perform (between : Between host repl) {act : Act}
    (going : (act.perform repl).1.ended = none) : Between host (act.perform repl).1 where
  buffer := (perform_buffer repl act).trans between.buffer
  going := going
  prepared := by
    cases act with
    | command line =>
        rcases command_interpreter repl (Text.trim line) with same | renewed
        · exact same ▸ between.prepared
        · exact renewed ▸ between.prepared.reset
    | input lines => exact between.prepared.submit _

theorem performed_cons_of_going {act : Act} (going : (act.perform repl).1.ended = none)
    (rest : List Act) : repl.performed (act :: rest) = (act.perform repl).1.performed rest := by
  rw [performed, going]
  rfl

theorem Between.performed {done : List Act} {next : Repl} (between : Between host repl)
    (did : repl.performed done = some next) : Between host next := by
  induction done generalizing repl with
  | nil =>
      cases did
      exact between
  | cons act rest ih =>
      cases going : (act.perform repl).1.ended with
      | none => exact ih (between.perform going) (performed_cons_of_going going rest ▸ did)
      | some ending =>
          rw [Repl.performed, going] at did
          cases did

/-- Acts of which none quits are all performed, unless the variables are listed after a position
has vanished. -/
theorem Between.performed_or_vanished (between : Between host repl) {acts : List Act}
    (staying : ∀ act ∈ acts, ¬ act.Quits) :
    (∃ final, repl.performed acts = some final) ∨
      ∃ done act next, done ++ [act] <+: acts ∧ repl.performed done = some next ∧ act.Lists ∧
        Vanished next.interpreter.state.history := by
  induction acts generalizing repl with
  | nil => exact .inl ⟨repl, rfl⟩
  | cons act rest ih =>
      obtain ⟨stays, staying⟩ := List.forall_mem_cons.mp staying
      by_cases going : (act.perform repl).1.ended = none
      · rcases ih (between.perform going) staying with ⟨final, did⟩ | ⟨done, last, next, short, did⟩
        · exact .inl ⟨final, (performed_cons_of_going going rest).trans did⟩
        · refine .inr ⟨act :: done, last, next, ?_, ?_, did.2⟩
          · exact List.cons_prefix_cons.mpr ⟨rfl, short⟩
          · exact (performed_cons_of_going going done).trans did.1
      · refine .inr ⟨[], act, repl, List.prefix_append [act] rest, rfl, ?_⟩
        rw [perform_ended_iff between.going] at going
        by_contra other
        refine going ⟨stays, fun lists name _ => ?_⟩
        exact between.prepared.shows (fun vanished => other ⟨lists, vanished⟩) name

/-- Lines are divided into acts, in one way only and whatever is run: lines that are gathered, up
to the first point at which nothing is left open in them, and commands, which are the lines that
begin with a colon where nothing is pending. A session performs the acts in their order, and in
the end the buffer holds the lines that are pending. Each gathered input is run once unless it is
blank, and where it fails nothing is taken back. Only commands end a session: one to quit, and
one to list variables of which one cannot be shown, as it may be after a position has vanished. -/
theorem session_performs_acts (host : Host) (lines : List Text) :
    ∃ acts pending, Division lines acts pending ∧
      (∀ acts' pending', Division lines acts' pending' → acts' = acts ∧ pending' = pending) ∧
      (∀ before line rest acts' pending', lines = before ++ line :: rest → IsCommand line →
        Division before acts' pending' →
          (pending' = [] ↔ acts' ++ [.command line] <+: acts)) ∧
      (start host).session lines = (start host).transcript pending acts ∧
      (start host).after lines = ((start host).performed acts).map (holding · pending) ∧
      ((∀ act ∈ acts, ¬ act.Quits) →
        (∃ final, (start host).performed acts = some final) ∨
          ∃ done act next, done ++ [act] <+: acts ∧ (start host).performed done = some next ∧
            act.Lists ∧ Vanished next.interpreter.state.history) ∧
      ∀ done act repl, done ++ [act] <+: acts → (start host).performed done = some repl →
        repl.buffer = [] ∧
        ((act.perform repl).1.ended = none ↔
          ¬ act.Quits ∧
            (act.Lists → ∀ name ∈ repl.interpreter.names, repl.interpreter.Shows name)) ∧
        ∀ group, act = .input group → ∃ next shown,
          act.perform repl = ({ repl with interpreter := next }, shown ++ [.prompt prompt]) ∧
            Submitted repl.interpreter (Text.trim (joined group)) next shown ∧
            repl.interpreter.state.Retains next.state := by
  obtain ⟨acts, pending, division⟩ := exists_division lines
  have between := between_start host
  obtain ⟨shown, reached⟩ := session_eq division between.going
  refine ⟨acts, pending, division, fun _ _ => division.unique, ?_, shown, reached,
    between.performed_or_vanished, ?_⟩
  · rintro before line rest acts' pending' rfl is earlier
    exact division.command_iff earlier is
  · intro done act repl short did
    have between := between.performed did
    refine ⟨between.buffer, perform_ended_iff between.going act, ?_⟩
    rintro group rfl
    exact ⟨_, _, rfl, submitted_submit between.prepared.quiet _,
      retains_submit between.prepared.closed _⟩

def mixedLines : List Text := ["for [1] as x", ":help", "end", " ", ":help", "emit 2", "f("]

def mixedActs : List Act :=
  [.input ["for [1] as x", ":help", "end"], .input [" "], .command ":help", .input ["emit 2"]]

theorem mixed_division : Division mixedLines mixedActs ["f("] := by
  have opened : Division ["for [1] as x"] [] ["for [1] as x"] :=
    division_nil.gather (fun _ => by decide) (by decide +kernel)
  have held : Division ["for [1] as x", ":help"] [] ["for [1] as x", ":help"] :=
    opened.gather nofun (by decide +kernel)
  have ended : Division ["for [1] as x", ":help", "end"] (mixedActs.take 1) [] :=
    held.input nofun (by decide +kernel)
  have blank : Division (mixedLines.take 4) (mixedActs.take 2) [] :=
    ended.input (fun _ => by decide) (by decide +kernel)
  have helped : Division (mixedLines.take 5) (mixedActs.take 3) [] := blank.command (by decide)
  have emitted : Division (mixedLines.take 6) mixedActs [] :=
    helped.input (fun _ => by decide) (by decide +kernel)
  exact emitted.gather (fun _ => by decide) (by decide +kernel)

/-- The colon inside the loop is no command, and what cannot be read does not keep the later
lines from being run. -/
theorem mixed_lines_performed :
    ∃ final : Repl, (start .plain).after mixedLines = some (final.holding ["f("]) ∧
      (start .plain).session mixedLines = (start .plain).transcript ["f("] mixedActs ∧
      .err "  SyntaxError [line 2, col 0]: Unexpected ':'" ∈
        ((start .plain).session mixedLines).1 ∧
      .out "2" ∈ ((start .plain).session mixedLines).1 := by
  obtain ⟨acts, pending, -, unique, -, shown, reached, performs, -⟩ :=
    session_performs_acts .plain mixedLines
  obtain ⟨rfl, rfl⟩ := unique _ _ mixed_division
  have help : word ":help" ∉ quitWords ∧ word ":help" ≠ ":env" := by decide +kernel
  have other : ∀ act ∈ mixedActs, ¬ act.Quits ∧ ¬ act.Lists := by
    simp only [mixedActs, List.forall_mem_cons]
    exact ⟨⟨id, id⟩, ⟨id, id⟩, help, ⟨id, id⟩, nofun⟩
  rcases performs fun act member => (other act member).1 with
    ⟨final, did⟩ | ⟨done, act, next, short, -, lists, -⟩
  · refine ⟨final, reached.trans (congrArg _ did), shown, ?_⟩
    decide +kernel
  · exact absurd lists (other act (short.subset (by simp))).2

/-- An array of which a position vanishes, a variable that takes what is missing there, and a
list of the variables. -/
def holedLines : List Text :=
  ["a = [1, 2]", "a[1] = [Remove(a, 0), Remove(a, 0)]", "x = a[0]", ":env", "emit 1"]

/-- No command quits, but the loop ends where the variables are listed, and the last line is not
taken in. -/
theorem listing_ends_session :
    (∀ line ∈ holedLines, word line ∉ quitWords) ∧
      ((start .plain).after holedLines).isNone = true ∧
      .input "emit 1" ∉ ((start .plain).session holedLines).1 := by
  decide +kernel

end Repl

end Loom
