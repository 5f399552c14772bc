import Loom.Proofs.Tiling

/-!
Where tokens and faults are said to be. A place counts the line ends in front of it and
the units behind the last of them. The lexer counts the line ends that it cuts off as
tokens; one that it passes over within a string literal it does not count, and every
place behind it is too high up.
-/

namespace Loom

/-- The place behind a text: one line more than line ends, and the units behind the last
line end. -/
def Location.behind (before : Text) : Location :=
  ⟨1 + before.count 0x0A, (before.reverse.takeWhile (fun u => u != 0x0A)).length⟩

theorem Location.behind_line (t s : Text) :
    (behind (t ++ s)).line = (behind t).line + s.count 0x0A := by
  simp [behind, Nat.add_assoc]

theorem Location.behind_line_end (t : Text) : behind (t ++ [0x0A]) = (behind t).nextLine := by
  simp [behind, nextLine, Nat.add_assoc]

theorem Location.behind_append (t : Text) {s : Text} (same : 0x0A ∉ s) :
    behind (t ++ s) = (behind t).right s.length := by
  have units : ∀ u ∈ s.reverse, (u != 0x0A) = true := by
    intro u there
    have other : u ≠ 0x0A := by
      rintro rfl
      exact same (List.mem_reverse.mp there)
    simpa using other
  have column : ((t ++ s).reverse.takeWhile (fun u => u != 0x0A)).length =
      (t.reverse.takeWhile (fun u => u != 0x0A)).length + s.length := by
    rw [List.reverse_append, List.takeWhile_append_of_pos units, List.length_append,
      List.length_reverse, Nat.add_comm]
  have line : (t ++ s).count 0x0A = t.count 0x0A := by
    rw [List.count_append, List.count_eq_zero.mpr same, Nat.add_zero]
  simp only [behind, right, column, line]

namespace Lexer

/-- The line ends within a string literal. -/
def Piece.hidden : Piece → Nat
  | token ⟨.string text _, _⟩ => text.count 0x0A
  | _ => 0

/-- The line ends within the string literals among some pieces. -/
def hidden : List Piece → Nat
  | [] => 0
  | p :: pieces => p.hidden + hidden pieces

@[simp] theorem hidden_nil : hidden [] = 0 := rfl

@[simp] theorem hidden_cons (p : Piece) (pieces : List Piece) :
    hidden (p :: pieces) = p.hidden + hidden pieces := rfl

/-- A piece is a token for a line end, or it hides all of its line ends. -/
theorem Piece.lines {rest : Text} {p : Piece} (fits : p.Fits rest) :
    (∃ place, p = .token ⟨.newline, place⟩) ∨
      (p.text.count 0x0A = p.hidden ∧ ∀ loc, p.past loc = loc.right p.text.length) := by
  by_cases line : 0x0A ∈ p.text
  · rcases (Piece.line_mem_iff fits).mp line with own | ⟨text, parts, place, rfl, _⟩
    · exact .inl own
    · exact .inr ⟨rfl, fun _ => rfl⟩
  · refine .inr ?_
    have none := List.count_eq_zero.mpr line
    cases p with
    | blank u => exact ⟨none, fun _ => rfl⟩
    | comment written => exact ⟨none, fun _ => rfl⟩
    | token t =>
        obtain ⟨lexeme, place⟩ := t
        cases lexeme
        case newline => simp [text, Lexeme.text] at line
        case string text parts => exact ⟨rfl, fun _ => rfl⟩
        all_goals exact ⟨none, fun _ => rfl⟩

/-! What the place behind some pieces misses is what they hide. -/

theorem past_line {rest : Text} {p : Piece} (fits : p.Fits rest) (loc : Location) :
    (p.past loc).line + p.hidden = loc.line + p.text.count 0x0A := by
  rcases Piece.lines fits with ⟨place, rfl⟩ | ⟨count, past⟩
  · rfl
  · rw [past, count]
    rfl

theorem reach_line {rest : Text} {loc : Location} {pieces : List Piece}
    (laid : Laid rest loc pieces) :
    (reach loc pieces).line + hidden pieces = loc.line + (written pieces).count 0x0A := by
  induction pieces generalizing loc with
  | nil => rfl
  | cons p pieces ih =>
      obtain ⟨fits, _, laid⟩ := laid
      have first := past_line fits loc
      have later := ih laid
      rw [hidden_cons, written_cons, List.count_append]
      show (reach (p.past loc) pieces).line + _ = _
      omega

theorem past_behind {rest : Text} {p : Piece} (fits : p.Fits rest) (none : p.hidden = 0)
    (t : Text) : p.past (.behind t) = .behind (t ++ p.text) := by
  rcases Piece.lines fits with ⟨place, rfl⟩ | ⟨count, past⟩
  · exact (Location.behind_line_end t).symm
  · rw [past, Location.behind_append t (List.count_eq_zero.mp (count.trans none))]

theorem reach_behind {rest : Text} {loc : Location} {pieces : List Piece}
    (laid : Laid rest loc pieces) (none : hidden pieces = 0) (t : Text)
    (here : loc = .behind t) : reach loc pieces = .behind (t ++ written pieces) := by
  induction pieces generalizing loc t with
  | nil => simpa [reach] using here
  | cons p pieces ih =>
      obtain ⟨fits, _, laid⟩ := laid
      rw [hidden_cons, Nat.add_eq_zero_iff] at none
      have next : p.past loc = .behind (t ++ p.text) := by rw [here, past_behind fits none.1]
      have later := ih laid none.2 (t ++ p.text) next
      rw [written_cons, ← List.append_assoc]
      exact later

/-- A place some units behind the pieces of a text is true as far as nothing is hidden. -/
theorem reach_right_iff {rest : Text} {pieces : List Piece} (laid : Laid rest .origin pieces)
    (s : Text) :
    (reach .origin pieces).right s.length = .behind (written pieces ++ s) ↔
      hidden pieces = 0 ∧ 0x0A ∉ s := by
  constructor
  · intro same
    have reached := reach_line laid
    have lines := congrArg Location.line same
    rw [Location.behind_line] at lines
    have count : (Location.behind (written pieces)).line = 1 + (written pieces).count 0x0A := rfl
    have first : Location.origin.line = 1 := rfl
    have kept : ((reach .origin pieces).right s.length).line = (reach .origin pieces).line := rfl
    refine ⟨by omega, List.count_eq_zero.mp ?_⟩
    omega
  · rintro ⟨none, same⟩
    rw [reach_behind laid none [] rfl, List.nil_append, Location.behind_append _ same]

theorem Laid.front {rest : Text} {loc : Location} {before after : List Piece}
    (laid : Laid rest loc (before ++ after)) : Laid (written after ++ rest) loc before := by
  induction before generalizing loc with
  | nil => trivial
  | cons p before ih =>
      obtain ⟨fits, token, laid⟩ := laid
      exact ⟨by simpa using fits, token, ih laid⟩

/-- A hidden line end stands behind a backslash. -/
theorem infix_of_hidden {rest : Text} {loc : Location} {pieces : List Piece}
    (laid : Laid rest loc pieces) (some_hidden : 0 < hidden pieces) :
    [0x5C, 0x0A] <:+: written pieces := by
  induction pieces generalizing loc with
  | nil => cases some_hidden
  | cons p pieces ih =>
      obtain ⟨fits, _, laid⟩ := laid
      rw [hidden_cons] at some_hidden
      by_cases here : 0 < p.hidden
      · have inside : [0x5C, 0x0A] <:+: p.text := by
          unfold Piece.hidden at here
          split at here
          · rename_i text parts place
            exact fits.2.infix_of_mem (List.count_pos_iff.mp here)
          · cases here
        exact inside.trans (List.prefix_append _ _).isInfix
      · exact (ih laid (by omega)).trans (List.suffix_append _ _).isInfix

/-- A piece at fault: the unit that begins it, or something within a literal. -/
theorem piece_error {u : UInt16} {t : Text} {loc : Location} {d : Diagnostic}
    (failed : piece u (u :: t) loc = .error d) :
    ∃ (fault : SyntaxFault) (begun rest : Text), u :: t = begun ++ rest ∧ fault.PointsAt rest ∧
      d = fault.located (loc.right begun.length) ∧
      (begun = [] ∨ ∃ segments, begun = 0x22 :: spelled segments ∧
        Spelled rest (loc.right 1) segments) := by
  rcases piece_failed failed with ⟨quote, read⟩ | rfl
  · obtain rfl := eq_of_isQuote quote
    change stringParts loc 0 t (loc.right 1) = .error d at read
    obtain ⟨segments, rest, rfl, row, ends⟩ := stringParts_spelled loc (loc.right 1) t
    rw [read] at ends
    rcases ends with ⟨_, rfl⟩ | ⟨fault, points, rfl⟩
    · exact ⟨.unterminatedString, [], _, rfl, .inl rfl, rfl, .inl rfl⟩
    · refine ⟨fault, 0x22 :: spelled segments, rest, rfl, points, ?_, .inr ⟨segments, rfl, row⟩⟩
      rw [Location.right_right, List.length_cons, Nat.add_comm 1]
  · exact ⟨.unexpectedCharacter u, [], u :: t, rfl, rfl, rfl, .inl rfl⟩

end Lexer

open Lexer

/-- How true the places of a text's tokens are. A token's place is the one behind all that
is in front of it if and only if no line end is hidden in a string literal there, and the
place of code in a literal if and only if none is hidden in front of the code either. -/
def TokensPlaced (source : Text) (tokens : List Token) : Prop :=
  ∃ pieces stop, source = written pieces ∧ tokens = tokensOf pieces ++ [⟨.eof, stop⟩] ∧
    (∀ before p after, pieces = before ++ p :: after → p.Fits (written after)) ∧
    (stop = .behind source ↔ hidden pieces = 0) ∧
    (0 < hidden pieces → [0x5C, 0x0A] <:+: source) ∧
    ∀ before t after, pieces = before ++ .token t :: after →
      (t.loc = .behind (written before) ↔ hidden before = 0) ∧
      ∀ text parts, t.lexeme = .string text parts →
        ∃ segments, text = 0x22 :: spelled segments ++ [0x22] ∧
          parts = (if (partsOf segments).isEmpty then [.text []] else partsOf segments) ∧
          ∀ front code place back, segments = front ++ .code code place :: back →
            (place = .behind (written before ++ (0x22 :: spelled front ++ [0x24, 0x7B])) ↔
              hidden before = 0 ∧ 0x0A ∉ spelled front)

/-- How true the place of a text's fault is: the fault is put down to what stands behind
some pieces and perhaps the beginning of a literal, and its place is the one behind these if
and only if no line end is hidden there. -/
def FaultPlaced (source : Text) (d : Diagnostic) : Prop :=
  ∃ pieces begun rest, ∃ (fault : SyntaxFault) (loc : Location),
    source = written pieces ++ (begun ++ rest) ∧
    (∀ before p after, pieces = before ++ p :: after →
      p.Fits (written after ++ (begun ++ rest))) ∧
    (begun = [] ∨ ∃ segments, begun = 0x22 :: spelled segments ∧
      ∀ before s after, segments = before ++ s :: after → s.Fits (spelled after ++ rest)) ∧
    fault.PointsAt rest ∧ d = fault.located loc ∧
    (loc = .behind (written pieces ++ begun) ↔ hidden pieces = 0 ∧ 0x0A ∉ begun) ∧
    (0 < hidden pieces ∨ 0x0A ∈ begun → [0x5C, 0x0A] <:+: source)

/-- The places of tokens, of code in strings and of faults are true as far as no line end is
passed over within a string literal, which can only be one behind a backslash. -/
theorem places_true_iff (source : Text) :
    match tokenize source .origin with
    | .ok tokens => TokensPlaced source tokens
    | .error d => FaultPlaced source d := by
  have cut := scan_cut source .origin
  rw [show scan 0 source .origin = tokenize source .origin from rfl] at cut
  cases result : tokenize source .origin with
  | ok tokens =>
      rw [result] at cut
      obtain ⟨pieces, rfl, laid, rfl⟩ := cut
      have whole := reach_right_iff laid []
      refine ⟨pieces, reach .origin pieces, rfl, rfl, ?_, by simpa using whole,
        infix_of_hidden laid, ?_⟩
      · rintro before p after rfl
        simpa using laid.at_piece.1
      · rintro before t after rfl
        obtain ⟨place, spells⟩ := laid.at_piece.2 t rfl
        have place_iff := reach_right_iff laid.front
        refine ⟨by simpa [place] using place_iff [], ?_⟩
        intro text parts is
        obtain ⟨segments, behind, text_eq, parts_eq, row⟩ := spells text parts is
        refine ⟨segments, text_eq, parts_eq, ?_⟩
        rintro front code codePlace back rfl
        have begins : codePlace = _ := row.at_segment.2
        have further := place_iff (0x22 :: spelled front ++ [0x24, 0x7B])
        have units : (0x22 :: spelled front ++ [0x24, 0x7B]).length =
            1 + ((spelled front).length + 2) := by simp [Nat.add_comm 1]
        rw [begins, place, Location.right_right, Location.right_right, ← units, further]
        simp
  | error d =>
      rw [result] at cut
      obtain ⟨pieces, u, t, rfl, laid, failed⟩ := cut
      obtain ⟨fault, begun, rest, split, points, rfl, inside⟩ := piece_error failed
      rw [split] at laid ⊢
      refine ⟨pieces, begun, rest, fault, _, rfl, ?_, ?_, points, rfl,
        reach_right_iff laid begun, ?_⟩
      · rintro before p after rfl
        exact laid.at_piece.1
      · rcases inside with rfl | ⟨segments, rfl, row⟩
        · exact .inl rfl
        · refine .inr ⟨segments, rfl, ?_⟩
          rintro before s after rfl
          exact row.at_segment.1
      · rintro (some_hidden | line)
        · exact (infix_of_hidden laid some_hidden).trans (List.prefix_append _ _).isInfix
        · rcases inside with rfl | ⟨segments, rfl, row⟩
          · cases line
          · have escaped := (escaped_spelled row).cons (by decide : (0x22 : UInt16) ≠ 0x0A)
            refine (escaped.infix_of_mem line).trans ?_
            exact ⟨written pieces, rest, by simp⟩

/-- A line end that a string of code in a literal passes over is not counted: the name behind
the literal stands in the second line of the text. -/
theorem escaped_line_not_counted :
    ∃ text parts,
      tokenize (Text.ofString "\"$\x7b\"\\\n\"\x7d\" x") .origin =
        .ok [⟨.string text parts, ⟨1, 0⟩⟩, ⟨.ident (Text.ofString "x"), ⟨1, 10⟩⟩,
          ⟨.eof, ⟨1, 11⟩⟩] ∧
      Text.ofString "\"$\x7b\"\\\n\"\x7d\" x" = (text ++ [0x20]) ++ Text.ofString "x" ∧
      Location.behind (text ++ [0x20]) = ⟨2, 4⟩ := by
  refine ⟨Text.ofString "\"$\x7b\"\\\n\"\x7d\"", [.code (Text.ofString "\"\\\n\"") ⟨1, 3⟩],
    ?_, ?_, ?_⟩
  · -- results are told apart by what they give
    exact ok_of_toOption (by decide +kernel)
  · decide +kernel
  · decide +kernel

end Loom
