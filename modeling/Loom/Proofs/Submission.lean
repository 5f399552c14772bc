import Loom.Proofs.Tally.Statement

/-!
When the interactive loop submits a text. The loop counts words and brackets where
the grammar reads; this is how far the count can be relied on. It is the true number
of open blocks and brackets, and what it counts too much: the words that are keys of
a hash, and conditional expressions that stand first in a line.
-/

namespace Loom

open Repl Grammar

def Repl.Place.front : Place := ⟨true, false⟩

def tokensIn (source : Text) : List Token :=
  match tokenize source .origin with
  | .ok tokens => tokens
  | .error _ => []

def openBlocks (source : Text) : Int := blocksIn .front (tokensIn source)

def openBrackets (source : Text) : Int := bracketsIn (tokensIn source)

/-- How many blocks the loop counts too much in a text. -/
def misreadBlocks (source : Text) : Int := misreadIn .front (tokensIn source)

def lacksEnd (source : Text) : Bool :=
  match parse source with
  | .error ⟨.malformed fault, _, _⟩ =>
      fault.message == ("Expected 'end' but found end of input" : Text)
  | _ => false

theorem tokensIn_eq {source : Text} {tokens : List Token}
    (cut : tokenize source .origin = .ok tokens) : tokensIn source = tokens := by
  simp only [tokensIn, cut]

theorem isIncomplete_eq {source : Text} {tokens : List Token}
    (cut : tokenize source .origin = .ok tokens) :
    isIncomplete source = true ↔
      0 < openBlocks source + misreadBlocks source ∨ 0 < openBrackets source := by
  have counted : balance true tokens = _ := balance_eq .front tokens
  simp [isIncomplete, cut, counted, openBlocks, misreadBlocks, openBrackets, tokensIn]

theorem ends_program {source : Text} {tokens : List Token} {T : Tally}
    (cut : tokenize source .origin = .ok tokens) (blocks : T.blocks = blocksIn .front tokens)
    (brackets : T.brackets = bracketsIn tokens) (lines : T.lines)
    (folded : ∀ t ∈ tokens, ¬ t.lexeme.OnLine → T.folded) (fuel : Nat) :
    Ends (T.Lacks 0 0) (fun _ _ => T.blocks = 0 ∧ T.brackets = 0)
      (program (rules fuel) (.ofTokens tokens)) := by
  have front : T.Fresh 0 0 (.ofTokens tokens) :=
    ⟨.front, rfl, .inl rfl, Tally.at_front cut blocks brackets (fun _ => lines) folded⟩
  apply ends_bind (balanced_block (rules_balanced fuel) .program .input front (fun _ => lines))
  rintro b c ⟨there, done⟩
  exact ends_pure (there.here.total (done rfl))

theorem nothing_open_of_parse {source : Text} {p : Program} (read : parse source = .ok p) :
    openBlocks source = 0 ∧ openBrackets source = 0 := by
  obtain ⟨tokens, cut, read⟩ := ok_of_bind read
  have outcome := ends_program (T := ⟨_, _, True, True⟩) cut rfl rfl trivial
    (fun _ _ _ => trivial) (source.length + 1)
  obtain ⟨r, read, _⟩ := ok_of_bind read
  rw [read] at outcome
  have closed : blocksIn .front tokens = 0 ∧ bracketsIn tokens = 0 := outcome
  simpa only [openBlocks, openBrackets, tokensIn_eq cut] using closed

theorem fault_of_lacksEnd {source : Text} (lacking : lacksEnd source = true) :
    ∃ d fault, parse source = .error d ∧ d.fault = .malformed fault ∧ fault.LacksEnd := by
  unfold lacksEnd at lacking
  split at lacking
  · rename_i fault loc file failed
    exact ⟨_, fault, failed, rfl, fault.lacksEnd_iff.mpr (beq_iff_eq.mp lacking)⟩
  · cases lacking

theorem block_open_of_lacksEnd {source : Text} (lacking : lacksEnd source = true)
    (onLine : ∀ t ∈ tokensIn source, t.lexeme.OnLine) :
    ∃ tokens, tokenize source .origin = .ok tokens ∧
      0 < openBlocks source ∧ 0 ≤ openBrackets source := by
  obtain ⟨d, fault, failed, is, lacks⟩ := fault_of_lacksEnd lacking
  rcases error_of_bind failed with failed | ⟨tokens, cut, failed⟩
  · obtain ⟨fault', lexical, is'⟩ := faulty_tokenize failed
    rw [is] at is'
    cases is'
    exact absurd lacks (not_lacksEnd_lexical lexical)
  · rw [tokensIn_eq cut] at onLine
    have outcome := ends_program (T := ⟨_, _, True, False⟩) cut rfl rfl trivial
      (fun t h folded => folded (onLine t h)) (source.length + 1)
    rcases error_of_bind failed with failed | ⟨r, _, failed⟩
    · rw [failed] at outcome
      rcases outcome fault is lacks with folded | ⟨_, blocks, brackets⟩
      · exact folded.elim
      · refine ⟨tokens, cut, ?_⟩
        simpa only [openBlocks, openBrackets, tokensIn_eq cut] using ⟨blocks, brackets⟩
    · cases failed

/-- How far the loop's test can be relied on. A text that is accepted is held back
exactly when more words are taken for the beginning of a block than for its end. A
text that only lacks an `end` leaves a block open, and is held back unless that many
keys of a hash are taken for an `end`. -/
theorem isIncomplete_iff_misread (source : Text) :
    (∀ p, parse source = .ok p → (isIncomplete source = true ↔ 0 < misreadBlocks source)) ∧
      (lacksEnd source = true → (∀ t ∈ tokensIn source, t.lexeme.OnLine) →
        0 < openBlocks source ∧ 0 ≤ openBrackets source ∧
          (isIncomplete source = true ↔
            0 < openBlocks source + misreadBlocks source ∨ 0 < openBrackets source)) := by
  constructor
  · intro p read
    obtain ⟨blocks, brackets⟩ := nothing_open_of_parse read
    obtain ⟨tokens, cut, _⟩ := ok_of_bind read
    rw [isIncomplete_eq cut, blocks, brackets]
    omega
  · intro lacking onLine
    obtain ⟨tokens, cut, blocks, brackets⟩ := block_open_of_lacksEnd lacking onLine
    exact ⟨blocks, brackets, isIncomplete_eq cut⟩

/-- An assignment is run at once; a loop is held back for its `end`. -/
theorem loop_held_back :
    isIncomplete "x = y" = false ∧ isIncomplete "for x\ny()" = true := by
  have accepted : (parse "x = y").isOk = true := by decide +kernel
  constructor
  · cases read : parse "x = y" with
    | error d => simp [read, Except.isOk, Except.toBool] at accepted
    | ok p =>
        have none : ¬ 0 < misreadBlocks "x = y" := by decide +kernel
        have held := (isIncomplete_iff_misread "x = y").1 p read
        exact Bool.eq_false_iff.mpr (fun h => none (held.mp h))
  · have lacking : lacksEnd "for x\ny()" = true := by decide +kernel
    have held := (isIncomplete_iff_misread "for x\ny()").2 lacking (by decide +kernel)
    have misread : misreadBlocks "for x\ny()" = 0 := by decide +kernel
    have blocks := held.1
    exact held.2.2.mpr (.inl (by omega))

/-- The word `for` as a key holds back what could be run, and the word `end` as a
key lets through what could not. -/
theorem keys_mislead :
    ((parse "h = \x7bfor: x\x7d").isOk = true ∧ isIncomplete "h = \x7bfor: x\x7d" = true) ∧
      (lacksEnd "for \x7bend: x\x7d\ny()" = true ∧
        isIncomplete "for \x7bend: x\x7d\ny()" = false) := by
  decide +kernel

end Loom
