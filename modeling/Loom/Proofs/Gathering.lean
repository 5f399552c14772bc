import Mathlib.Data.List.Basic
import Mathlib.Data.List.Induction
import Loom.Repl

/-!
How lines fall into what an interactive loop does with them. Some are commands, some are
gathered and run together, and the last ones may wait for more. There is one way only to
divide lines so, and it depends on the lines alone.
-/

namespace Loom

namespace Repl

/-! How lines fall into acts. -/

/-- Lines put together, with a line end between each two. -/
def joined (lines : List Text) : Text := Text.join [0x0A] lines

theorem joined_concat {lines : List Text} (some : lines ≠ []) (line : Text) :
    joined (lines ++ [line]) = joined lines ++ [0x0A] ++ line := by
  induction lines with
  | nil => exact absurd rfl some
  | cons first rest ih =>
      cases rest with
      | nil => rfl
      | cons second rest =>
          have further := ih (List.cons_ne_nil _ _)
          simp only [joined, List.cons_append, Text.join, List.append_assoc] at further ⊢
          rw [further]

def IsCommand (line : Text) : Prop := (Text.trim line).head? = some 0x3A

instance : DecidablePred IsCommand := fun line =>
  inferInstanceAs (Decidable ((Text.trim line).head? = some 0x3A))

/-- What the loop does with lines: one is a command, or some are run together. -/
inductive Act where
  | command (line : Text)
  | input (lines : List Text)

def Act.lines : Act → List Text
  | command line => [line]
  | input lines => lines

/-- Lines that wait for more: the first is no command, and up to each of them something is
left open. -/
structure Waits (lines : List Text) : Prop where
  opening : ∀ line ∈ lines.head?, ¬ IsCommand line
  held : ∀ before, before <+: lines → before ≠ [] → isIncomplete (joined before) = true

/-- Lines that are run together: the first is no command, up to each but the last something
is left open, and up to the last nothing. -/
structure Gathered (lines : List Text) : Prop where
  some : lines ≠ []
  opening : ∀ line ∈ lines.head?, ¬ IsCommand line
  held : ∀ before, before <+: lines → before ≠ [] → before ≠ lines →
    isIncomplete (joined before) = true
  whole : isIncomplete (joined lines) = false

def Act.Fits : Act → Prop
  | command line => IsCommand line
  | input lines => Gathered lines

/-- Lines divided into acts and the lines that are pending behind them. -/
structure Division (lines : List Text) (acts : List Act) (pending : List Text) : Prop where
  whole : acts.flatMap Act.lines ++ pending = lines
  each : ∀ act ∈ acts, act.Fits
  waiting : Waits pending

theorem waits_nil : Waits [] :=
  ⟨nofun, fun _ short some => absurd (List.prefix_nil.mp short) some⟩

theorem isIncomplete_nil : isIncomplete [] = false := by decide +kernel

/-- Nothing is pending exactly where the buffer is empty. -/
theorem Waits.joined_eq_nil {lines : List Text} (waits : Waits lines) :
    joined lines = [] ↔ lines = [] := by
  constructor
  · intro empty
    by_contra some
    have held := waits.held lines (List.prefix_refl lines) some
    rw [empty, isIncomplete_nil] at held
    cases held
  · rintro rfl
    rfl

theorem Waits.of_append {before after : List Text} (waits : Waits (before ++ after)) :
    Waits before := by
  refine ⟨fun line first => waits.opening line ?_, fun short inside => ?_⟩
  · exact List.mem_head?_append_of_mem_head? first
  · exact waits.held short (inside.trans (List.prefix_append before after))

theorem opening_concat {lines : List Text} {line : Text}
    (opening : ∀ first ∈ lines.head?, ¬ IsCommand first) (plain : lines = [] → ¬ IsCommand line) :
    ∀ first ∈ (lines ++ [line]).head?, ¬ IsCommand first := by
  cases lines with
  | nil =>
      rintro first ⟨⟩
      exact plain rfl
  | cons _ _ => exact opening

theorem Waits.concat {lines : List Text} {line : Text} (waits : Waits lines)
    (plain : lines = [] → ¬ IsCommand line)
    (incomplete : isIncomplete (joined (lines ++ [line])) = true) : Waits (lines ++ [line]) := by
  refine ⟨opening_concat waits.opening plain, fun before short some => ?_⟩
  rcases List.prefix_concat_iff.mp short with rfl | short
  · exact incomplete
  · exact waits.held before short some

theorem Waits.gathered {lines : List Text} {line : Text} (waits : Waits lines)
    (plain : lines = [] → ¬ IsCommand line)
    (complete : isIncomplete (joined (lines ++ [line])) = false) : Gathered (lines ++ [line]) where
  some := by simp
  opening := opening_concat waits.opening plain
  held before short some proper := by
    rcases List.prefix_concat_iff.mp short with rfl | short
    · exact absurd rfl proper
    · exact waits.held before short some
  whole := complete

/-- Before the last of the lines that are run together the others were waiting. -/
theorem Gathered.exists_waits {lines : List Text} (gathered : Gathered lines) :
    ∃ before line, lines = before ++ [line] ∧ Waits before ∧ (before = [] → ¬ IsCommand line) := by
  obtain ⟨before, line, rfl⟩ := (List.eq_nil_or_concat' lines).resolve_left gathered.some
  refine ⟨before, line, rfl, ⟨fun first is => ?_, fun short inside some => ?_⟩, ?_⟩
  · exact gathered.opening first (List.mem_head?_append_of_mem_head? is)
  · refine gathered.held short (inside.trans (List.prefix_append _ _)) some ?_
    rintro rfl
    exact absurd inside.length_le (by simp)
  · rintro rfl
    exact gathered.opening line rfl

/-! There is one division, and a line more changes only its end. -/

theorem division_nil : Division [] [] [] := ⟨rfl, nofun, waits_nil⟩

namespace Division

variable {lines pending : List Text} {acts : List Act} {line : Text}

theorem command (division : Division lines acts []) (is : IsCommand line) :
    Division (lines ++ [line]) (acts ++ [.command line]) [] where
  whole := by simp [Act.lines, ← division.whole]
  each act member := by
    rcases List.mem_append.mp member with old | last
    · exact division.each act old
    · exact List.mem_singleton.mp last ▸ is
  waiting := waits_nil

theorem gather (division : Division lines acts pending) (plain : pending = [] → ¬ IsCommand line)
    (incomplete : isIncomplete (joined (pending ++ [line])) = true) :
    Division (lines ++ [line]) acts (pending ++ [line]) where
  whole := by rw [← List.append_assoc, division.whole]
  each := division.each
  waiting := division.waiting.concat plain incomplete

theorem input (division : Division lines acts pending) (plain : pending = [] → ¬ IsCommand line)
    (complete : isIncomplete (joined (pending ++ [line])) = false) :
    Division (lines ++ [line]) (acts ++ [.input (pending ++ [line])]) [] where
  whole := by simp [Act.lines, ← division.whole]
  each act member := by
    rcases List.mem_append.mp member with old | last
    · exact division.each act old
    · exact List.mem_singleton.mp last ▸ division.waiting.gathered plain complete
  waiting := waits_nil

end Division

theorem exists_division (lines : List Text) : ∃ acts pending, Division lines acts pending := by
  induction lines using List.reverseRecOn with
  | nil => exact ⟨[], [], division_nil⟩
  | append_singleton lines line ih =>
      obtain ⟨acts, pending, division⟩ := ih
      by_cases command : pending = [] ∧ IsCommand line
      · obtain ⟨rfl, is⟩ := command
        exact ⟨_, _, division.command is⟩
      · have plain : pending = [] → ¬ IsCommand line := not_and.mp command
        cases test : isIncomplete (joined (pending ++ [line])) with
        | true => exact ⟨_, _, division.gather plain test⟩
        | false => exact ⟨_, _, division.input plain test⟩

/-- Of two ways to begin with lines that are run together neither goes further. -/
theorem Gathered.eq_of_prefix {lines other : List Text} (gathered : Gathered lines)
    (gathered' : Gathered other) (short : lines <+: other) : lines = other := by
  by_contra proper
  have held := gathered'.held lines short gathered.some proper
  rw [gathered.whole] at held
  cases held

/-- What lines begin with, if it is an act, is one act only. -/
theorem Act.Fits.unique {act other : Act} (fits : act.Fits) (fits' : other.Fits)
    {rest rest' : List Text} (same : act.lines ++ rest = other.lines ++ rest') : act = other := by
  cases act with
  | command line =>
      cases other with
      | command line' =>
          cases same
          rfl
      | input lines =>
          refine absurd fits (fits'.opening line ?_)
          cases lines with
          | nil => exact absurd rfl fits'.some
          | cons first rest => exact congrArg List.head? same.symm
  | input lines =>
      cases other with
      | command line =>
          refine absurd fits' (fits.opening line ?_)
          cases lines with
          | nil => exact absurd rfl fits.some
          | cons first rest => exact congrArg List.head? same
      | input lines' =>
          have left : lines <+: lines' ++ rest' := same ▸ List.prefix_append lines rest
          have right : lines' <+: lines' ++ rest' := List.prefix_append lines' rest'
          rcases List.prefix_or_prefix_of_prefix left right with short | short
          · exact congrArg Act.input (fits.eq_of_prefix fits' short)
          · exact congrArg Act.input (fits'.eq_of_prefix fits short).symm

/-- Lines that wait begin with no act. -/
theorem Act.Fits.not_waits {act : Act} (fits : act.Fits) {rest : List Text} :
    ¬ Waits (act.lines ++ rest) := by
  intro waits
  cases act with
  | command line => exact waits.opening line rfl fits
  | input lines =>
      have held := waits.held lines (List.prefix_append lines rest) fits.some
      rw [fits.whole] at held
      cases held

theorem Division.cons {act : Act} {lines pending : List Text} {acts : List Act}
    (division : Division lines (act :: acts) pending) :
    ∃ rest, lines = act.lines ++ rest ∧ act.Fits ∧ Division rest acts pending := by
  refine ⟨acts.flatMap Act.lines ++ pending, ?_, division.each act (.head _), rfl, ?_,
    division.waiting⟩
  · rw [← division.whole, List.flatMap_cons, List.append_assoc]
  · exact fun other member => division.each other (.tail _ member)

theorem Division.unique {lines pending pending' : List Text} {acts acts' : List Act}
    (division : Division lines acts pending) (other : Division lines acts' pending') :
    acts' = acts ∧ pending' = pending := by
  induction acts generalizing lines acts' with
  | nil =>
      cases acts' with
      | nil => exact ⟨rfl, other.whole.trans division.whole.symm⟩
      | cons act acts' =>
          obtain ⟨rest, same, fits, -⟩ := other.cons
          have begins : pending = act.lines ++ rest := division.whole.trans same
          exact absurd (begins ▸ division.waiting) fits.not_waits
  | cons act acts ih =>
      obtain ⟨rest, same, fits, division⟩ := division.cons
      cases acts' with
      | nil =>
          have begins : pending' = act.lines ++ rest := other.whole.trans same
          exact absurd (begins ▸ other.waiting) fits.not_waits
      | cons act' acts' =>
          obtain ⟨rest', same', fits', other⟩ := other.cons
          obtain rfl := fits.unique fits' (same.symm.trans same')
          obtain rfl := List.append_cancel_left (same.symm.trans same')
          obtain ⟨rfl, rfl⟩ := ih division other
          exact ⟨rfl, rfl⟩

theorem Division.append {lines rest pending : List Text} {acts acts' : List Act}
    (division : Division lines acts []) (later : Division rest acts' pending) :
    Division (lines ++ rest) (acts ++ acts') pending where
  whole := by
    rw [List.flatMap_append, List.append_assoc, later.whole, ← division.whole, List.append_nil]
  each act member := (List.mem_append.mp member).elim (division.each act) (later.each act)
  waiting := later.waiting

/-- A line that begins with a colon is a command exactly where nothing is pending. -/
theorem Division.command_iff {before rest pending pending' : List Text} {acts acts' : List Act}
    {line : Text} (division : Division (before ++ line :: rest) acts pending)
    (earlier : Division before acts' pending') (is : IsCommand line) :
    pending' = [] ↔ acts' ++ [.command line] <+: acts := by
  constructor
  · rintro rfl
    obtain ⟨later, left, continued⟩ := exists_division rest
    have other := (earlier.command is).append continued
    rw [List.append_assoc, List.singleton_append] at other
    obtain ⟨rfl, -⟩ := other.unique division
    exact List.prefix_append _ _
  · rintro ⟨later, rfl⟩
    obtain rfl := earlier.whole
    have same := division.whole
    simp only [List.flatMap_append, List.flatMap_cons, List.flatMap_nil, Act.lines,
      List.append_assoc] at same
    have same := List.append_cancel_left same
    cases pending' with
    | nil => rfl
    | cons first more =>
        obtain ⟨rfl, -⟩ := List.cons.inj same
        exact absurd is (earlier.waiting.opening _ rfl)

end Repl

end Loom
