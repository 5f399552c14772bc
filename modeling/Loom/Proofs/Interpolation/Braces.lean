import Loom.Proofs.Interpolation.Flat
import Loom.Proofs.Tally.Expression

/-!
An expression closes the braces that it opens, one after the other. Each rule leaves as many
braces open as it finds open, so in a text of one line that is an expression as a whole the
braces among its tokens match, and the text is flat if its literals are.
-/

namespace Loom

namespace Grammar

def isBrace : Lexeme → Bool
  | .symbol .openBrace | .symbol .closeBrace => true
  | _ => false

/-- Tokens that close all braces that are open in front of them, and all their own. -/
inductive Closed : (braces : Nat) → List Token → Prop where
  | nil : Closed 0 []
  | opening {braces : Nat} {t : Token} {rest : List Token} (is : t.lexeme = .symbol .openBrace)
      (behind : Closed (braces + 1) rest) : Closed braces (t :: rest)
  | closing {braces : Nat} {t : Token} {rest : List Token} (is : t.lexeme = .symbol .closeBrace)
      (behind : Closed braces rest) : Closed (braces + 1) (t :: rest)
  | other {braces : Nat} {t : Token} {rest : List Token} (flat : isBrace t.lexeme = false)
      (behind : Closed braces rest) : Closed braces (t :: rest)

/-- Reading stands on a line with some braces open: where what is left closes these, it is
as it is aimed at. -/
structure Within (goal : Prop) (braces : Nat) (c : Cursor) : Prop where
  line : ∀ t ∈ c.tokens, isNewline t = false
  more : ∀ t ∈ c.tokens, t.lexeme ≠ .eof
  closed : Closed braces c.tokens → goal

variable {goal : Prop} {braces : Nat} {c : Cursor} {α β : Type}

namespace Within

theorem tail {outer : Nat} (within : Within goal outer c) (left : c.tokens ≠ [])
    (closed : ∀ rest, Closed braces rest → Closed outer (c.head :: rest)) :
    Within goal braces c.tail := by
  have tokens := Cursor.tokens_eq_cons left
  obtain ⟨line, more, reached⟩ := within
  rw [tokens] at line more reached
  exact ⟨fun t among => line t (.tail _ among), fun t among => more t (.tail _ among),
    fun inner => reached (closed _ inner)⟩

theorem plain {lexeme : Lexeme} (within : Within goal braces c) (is : c.head.lexeme = lexeme)
    (flat : isBrace lexeme = false) : Within goal braces c.tail := by
  subst is
  by_cases none : c.tokens = []
  · obtain ⟨tokens, stop⟩ := c
    obtain rfl : tokens = [] := none
    exact within
  · exact within.tail none fun _ => .other flat

theorem into (within : Within goal braces c) (is : c.head.lexeme = .symbol .openBrace) :
    Within goal (braces + 1) c.tail :=
  within.tail (Cursor.tokens_ne_nil (by simp [is])) fun _ => .opening is

theorem out (within : Within goal (braces + 1) c) (is : c.head.lexeme = .symbol .closeBrace) :
    Within goal braces c.tail :=
  within.tail (Cursor.tokens_ne_nil (by simp [is])) fun _ => .closing is

theorem skip (within : Within goal braces c) : Within goal braces c.skip := by
  have same : c.skip = c := by
    obtain ⟨_ | ⟨t, rest⟩, stop⟩ := c
    · rfl
    · simp [Cursor.skip, within.line t (.head _)]
  rwa [same]

theorem not_newline (within : Within goal braces c) : c.head.lexeme ≠ .newline := by
  intro line
  have more : c.head.lexeme ≠ .eof := by simp [line]
  have tokens := Cursor.tokens_eq_cons (Cursor.tokens_ne_nil more)
  have other := within.line c.head (by rw [tokens]; exact .head _)
  exact Bool.eq_false_iff.mp other (by simp [isNewline, line])

/-- At the end there is nothing left to close. -/
theorem reached (within : Within goal 0 c) (done : c.head.lexeme = .eof) : goal := by
  obtain ⟨_ | ⟨t, rest⟩, stop⟩ := c
  · exact within.closed .nil
  · exact absurd done (within.more t (.head _))

end Within

/-- An outcome that leaves some braces open, or a fault. -/
abbrev Leaves (goal : Prop) (braces : Nat) : Except Diagnostic (α × Cursor) → Prop :=
  Ends (fun _ => True) fun _ c => Within goal braces c

/-- A rule that leaves as many braces open as it finds open. -/
def Matching (p : Parse α) : Prop :=
  ∀ {goal : Prop} {braces : Nat} {c : Cursor}, Within goal braces c → Leaves goal braces (p c)

/-- Rules of which each that is come back to on a line is matching. -/
structure Rules.Matching (rules : Rules) : Prop where
  expression : Grammar.Matching rules.expression
  negation : Grammar.Matching rules.negation
  unary : Grammar.Matching rules.unary

theorem tolerates_all : Tolerates fun _ => True := fun _ _ _ => trivial

/-! Lists. -/

theorem isBrace_of_joins {op? : Lexeme → Option BinaryOp} (joins : Joins op?) {lexeme : Lexeme}
    {op : BinaryOp} (is : op? lexeme = some op) : isBrace lexeme = false := by
  have flat := (joins lexeme op is).2
  cases lexeme with
  | symbol s => cases s <;> first | rfl | cases flat
  | _ => rfl

theorem matching_chainFrom {op? : Lexeme → Option BinaryOp} {operand : Parse Expr}
    (joins : Joins op?) (each : Matching operand) (n : Nat) (left : Expr) :
    Matching (chainFrom op? operand n left) := by
  intro goal braces c within
  induction n generalizing left c with
  | zero => exact ends_pure within
  | succ n ih =>
      apply ends_peek
      cases is : op? c.head.lexeme with
      | none => exact ends_pure within
      | some op =>
          apply ends_advance
          apply ends_skipNewlines
          have behind := (within.plain rfl (isBrace_of_joins joins is)).skip
          exact ends_bind (each behind) fun right c' there => ih _ there

theorem matching_chain {op? : Lexeme → Option BinaryOp} {operand : Parse Expr}
    (joins : Joins op?) (each : Matching operand) : Matching (chain op? operand) := by
  intro goal braces c within
  apply ends_bind (each within)
  intro left c' there
  apply ends_peek
  split
  · apply ends_remaining
    exact matching_chainFrom joins each _ left there
  · exact ends_pure there

theorem matching_items {close : Symbol} {item : Parse α} (each : Matching item) (n : Nat) :
    Matching (items close item n) := by
  intro goal braces c within
  induction n generalizing c with
  | zero => exact ends_pure within
  | succ n ih =>
      apply ends_next
      · intro _
        exact ends_pure within
      · intro _
        apply ends_bind (each within)
        intro first c' there
        apply ends_skipNewlines
        apply ends_accept
        · intro comma
          apply ends_skipNewlines
          have behind := (there.skip.plain comma rfl).skip
          exact ends_bind (ih behind) fun rest c'' after => ends_pure after
        · intro _
          exact ends_pure there.skip

/-- A list in brackets ends behind the symbol that closes it. -/
theorem leaves_delimited {outer : Nat} {close : Symbol} {what : Expected}
    (other : what ≠ .endKeyword) {item : Parse α} (each : Matching item)
    (out : ∀ {c : Cursor}, Within goal braces c → c.head.lexeme = .symbol close →
      Within goal outer c.tail)
    (within : Within goal braces c) : Leaves goal outer (delimited close what item c) := by
  apply ends_skipNewlines
  apply ends_remaining
  apply ends_bind (matching_items each _ within.skip)
  intro list c' there
  apply ends_expect tolerates_all other
  intro is
  exact ends_pure (out there is)

theorem matching_parameters (taken : List Text) (n : Nat) : Matching (parameters taken n) := by
  intro goal braces c within
  induction n generalizing taken c with
  | zero => exact ends_pure within
  | succ n ih =>
      apply ends_next
      · intro _
        exact ends_pure within
      · intro _
        apply ends_expectName tolerates_all (by decide)
        intro name is
        have there := within.plain is rfl
        dsimp only
        split
        · exact ends_failAt trivial
        · apply ends_skipNewlines
          apply ends_accept
          · intro comma
            apply ends_skipNewlines
            exact ih _ (there.skip.plain comma rfl).skip
          · intro _
            exact ends_pure there.skip

theorem matching_moreNames (n : Nat) : Matching (moreNames n) := by
  intro goal braces c within
  induction n generalizing c with
  | zero => exact ends_pure within
  | succ n ih =>
      apply ends_accept
      · intro comma
        apply ends_expectName tolerates_all (by decide)
        intro name is
        exact ends_bind (ih ((within.plain comma rfl).plain is rfl)) fun _ _ there =>
          ends_pure there
      · intro _
        exact ends_pure within

theorem matching_sharedNames : Matching sharedNames := by
  intro goal braces c within
  apply ends_accept
  · intro uses
    apply ends_expectName tolerates_all (by decide)
    intro name is
    apply ends_remaining
    exact ends_bind (matching_moreNames _ ((within.plain uses rfl).plain is rfl)) fun _ _ there =>
      ends_pure there
  · intro _
    exact ends_pure within

theorem leaves_hashKey {ok : β → Cursor → Prop} {f : Text → Parse β}
    (within : Within goal braces c)
    (rest : ∀ key c', Within goal braces c' → Ends (fun _ => True) ok (f key c')) :
    Ends (fun _ => True) ok ((hashKey >>= f) c) := by
  apply ends_then
  apply ends_peek
  cases is : c.head.lexeme with
  | ident name | keyword word | number digits =>
      apply ends_advance
      exact rest _ _ (within.plain is rfl)
  | string written parts =>
      cases key? : plainText? parts with
      | some key =>
          simp only [key?]
          apply ends_advance
          exact rest _ _ (within.plain is rfl)
      | none =>
          simp only [key?]
          exact ends_failAt trivial
  | symbol _ | newline | eof => exact ends_failAt trivial

theorem leaves_separator {ok : β → Cursor → Prop} {f : Unit → Parse β}
    (within : Within goal braces c)
    (rest : ∀ c', Within goal braces c' → Ends (fun _ => True) ok (f () c')) :
    Ends (fun _ => True) ok ((separator >>= f) c) := by
  apply ends_then
  apply ends_skipNewlines
  apply ends_expect tolerates_all (by decide)
  intro comma
  exact rest _ (within.skip.plain comma rfl).skip

theorem matching_reference (loc : Location) : Matching (reference loc) := by
  intro goal braces c within
  apply ends_expectName tolerates_all (by decide)
  intro first is
  have there := within.plain is rfl
  apply ends_accept
  · intro dot
    apply ends_expectName tolerates_all (by decide)
    intro name is
    exact ends_pure ((there.plain dot rfl).plain is rfl)
  · intro _
    exact ends_pure there

section

variable {rules : Rules} (matching : rules.Matching)
include matching

/-- On a line a function has its body behind an arrow. -/
theorem matching_procedure : Matching (procedure rules) := by
  intro goal braces c within
  apply ends_expect tolerates_all (by decide)
  intro paren
  apply ends_skipNewlines
  apply ends_remaining
  apply ends_bind (matching_parameters [] _ (within.plain paren rfl).skip)
  intro params c₁ there
  apply ends_expect tolerates_all (by decide)
  intro close
  apply ends_bind (matching_sharedNames (there.plain close rfl))
  intro uses c₂ behind
  apply ends_next
  · intro arrow
    apply ends_advance
    exact ends_bind (matching.expression (behind.plain arrow rfl)) fun _ _ after =>
      ends_pure after
  · intro _
    apply ends_expect tolerates_all (by decide)
    intro line
    exact absurd line behind.not_newline

theorem matching_hashEntry : Matching (hashEntry rules) := by
  intro goal braces c within
  apply leaves_hashKey within
  intro key c' there
  apply ends_expect tolerates_all (by decide)
  intro colon
  apply ends_skipNewlines
  exact ends_bind (matching.expression (there.plain colon rfl).skip) fun _ _ after =>
    ends_pure after

theorem matching_hashEntries : Matching (hashEntries rules) := by
  intro goal braces c within
  apply ends_expect tolerates_all (by decide)
  intro brace
  apply ends_bind (leaves_delimited (by decide) (matching_hashEntry matching)
    (fun inside is => inside.out is) (within.into brace))
  exact fun _ _ there => ends_pure there

theorem matching_choice (loc : Location) : Matching (choice rules loc) := by
  intro goal braces c within
  apply ends_expect tolerates_all (by decide)
  intro paren
  apply ends_skipNewlines
  apply ends_bind (matching.expression (within.plain paren rfl).skip)
  intro condition c₁ there₁
  apply leaves_separator there₁
  intro c₂ there₂
  apply ends_bind (matching.expression there₂)
  intro consequent c₃ there₃
  apply leaves_separator there₃
  intro c₄ there₄
  apply ends_bind (matching.expression there₄)
  intro alternate c₅ there₅
  apply ends_skipNewlines
  apply ends_expect tolerates_all (by decide)
  intro close
  exact ends_pure (there₅.skip.plain close rfl)

theorem leaves_keywordExpression {word : Keyword} (loc : Location)
    (within : Within goal braces c) (is : c.head.lexeme = .keyword word) :
    Leaves goal braces (keywordExpression rules word loc c) := by
  have behind := within.plain is rfl
  unfold keywordExpression
  split
  · exact ends_advance (ends_pure behind)
  · exact ends_advance (ends_pure behind)
  · exact ends_advance (ends_pure behind)
  · apply ends_advance
    apply ends_next
    · intro _
      exact ends_bind (matching_hashEntries matching behind) fun _ _ there => ends_pure there
    · intro _
      exact ends_fail tolerates_all (by simp [SyntaxFault.LacksEnd])
  · exact ends_advance (matching_reference loc behind)
  · apply ends_advance
    exact ends_bind (matching_procedure matching behind) fun _ _ there => ends_pure there
  · exact ends_advance (matching_choice matching loc behind)
  · exact ends_failAt trivial

theorem matching_primary : Matching (primary rules) := by
  intro goal braces c within
  apply ends_peek
  cases is : c.head.lexeme with
  | number digits | ident name => exact ends_advance (ends_pure (within.plain is rfl))
  | string written parts =>
      apply ends_advance
      apply ends_lift
      · exact fun _ _ => trivial
      · exact fun _ _ => ends_pure (within.plain is rfl)
  | keyword word => exact leaves_keywordExpression matching _ within is
  | newline | eof => exact ends_failAt trivial
  | symbol s =>
      cases s with
      | openParen =>
          apply ends_advance
          apply ends_skipNewlines
          apply ends_bind (matching.expression (within.plain is rfl).skip)
          intro e c' there
          apply ends_skipNewlines
          apply ends_expect tolerates_all (by decide)
          intro close
          exact ends_pure (there.skip.plain close rfl)
      | openBracket =>
          apply ends_advance
          apply ends_bind (leaves_delimited (by decide) matching.expression
            (fun inside close => inside.plain close rfl) (within.plain is rfl))
          exact fun _ _ there => ends_pure there
      | openBrace =>
          exact ends_bind (matching_hashEntries matching within) fun _ _ there => ends_pure there
      | _ => exact ends_failAt trivial

theorem matching_suffixes (n : Nat) (e : Expr) : Matching (suffixes rules n e) := by
  intro goal braces c within
  induction n generalizing e c with
  | zero => exact ends_pure within
  | succ n ih =>
      apply ends_peek
      generalize is : c.head.lexeme = lexeme
      split
      · apply ends_advance
        apply ends_bind (leaves_delimited (by decide) matching.expression
          (fun inside close => inside.plain close rfl) (within.plain is rfl))
        exact fun args c' there => ih _ there
      · apply ends_advance
        apply ends_expectName tolerates_all (by decide)
        intro name named
        exact ih _ ((within.plain is rfl).plain named rfl)
      · apply ends_advance
        apply ends_skipNewlines
        apply ends_bind (matching.expression (within.plain is rfl).skip)
        intro position c' there
        apply ends_skipNewlines
        apply ends_expect tolerates_all (by decide)
        intro close
        exact ih _ (there.skip.plain close rfl)
      · exact ends_pure within

theorem matching_access : Matching (access rules) := by
  intro goal braces c within
  apply ends_bind (matching_primary matching within)
  intro e c' there
  apply ends_peek
  split
  · apply ends_remaining
    exact matching_suffixes matching _ e there
  · exact ends_pure there

theorem matching_unary : Matching (unary rules) := by
  intro goal braces c within
  apply ends_peek
  split
  · rename_i minus
    apply ends_advance
    have behind := within.plain (beq_iff_eq.mp minus) rfl
    exact ends_bind (matching.unary behind) fun _ _ there => ends_pure there
  · exact matching_access matching within

theorem matching_negation : Matching (negation rules) := by
  intro goal braces c within
  apply ends_peek
  split
  · rename_i word
    apply ends_advance
    have behind := within.plain (beq_iff_eq.mp word) rfl
    exact ends_bind (matching.negation behind) fun _ _ there => ends_pure there
  · exact matching_chain joins_compare
      (matching_chain joins_sum (matching_chain joins_product (matching_unary matching))) within

theorem matching_expression : Matching (expression rules) :=
  matching_chain joins_concat
    (matching_chain joins_or (matching_chain joins_and (matching_negation matching)))

end

theorem matching_rules (fuel : Nat) : (rules fuel).Matching := by
  induction fuel with
  | zero =>
      have fails : Matching (fail .nesting : Parse Expr) := fun _ =>
        ends_fail tolerates_all (by simp [SyntaxFault.LacksEnd])
      exact ⟨fails, fails, fails⟩
  | succ fuel ih =>
      exact ⟨matching_expression ih, matching_negation ih, matching_unary ih⟩

/-- Among the tokens of code that is an expression the braces match. -/
theorem closed_of_interpolation {fuel : Nat} {source : Text} {loc : Location} {e : Expr}
    (line : 0x0A ∉ source) (is : interpolation (rules fuel) source loc = .ok e)
    {init : List Token} {stop : Location}
    (cut : tokenize source loc = .ok (init ++ [⟨.eof, stop⟩])) : Closed 0 init := by
  obtain ⟨init', stop', same, held⟩ := tokenize_eq cut
  obtain ⟨rfl, -⟩ := List.append_inj' same rfl
  have within : Within (Closed 0 init) 0 ⟨init, stop⟩ :=
    { line := fun t among => Bool.eq_false_iff.mpr fun is =>
        line (Lexer.mem_of_newline (held t among) (isNewline_iff.mp is))
      more := fun t among => Lexer.held_ne_eof (held t among)
      closed := fun closed => closed }
  have reads : Ends (fun _ => True) (fun _ _ => Closed 0 init)
      (wholeExpression (rules fuel) ⟨init, stop⟩) := by
    apply ends_bind ((matching_rules fuel).expression within)
    intro e c' behind
    apply ends_peek
    split
    · rename_i done
      exact ends_pure (behind.reached (beq_iff_eq.mp done))
    · exact ends_failAt trivial
  rw [interpolation_eq] at is
  obtain ⟨tokens, cut', is⟩ := ok_of_bind is
  obtain rfl : tokens = init ++ [⟨.eof, stop⟩] := Except.ok.inj (cut'.symm.trans cut)
  obtain ⟨r, ended, -⟩ := ok_of_bind is
  rw [Cursor.ofTokens_append] at ended
  rw [ended] at reads
  exact reads

end Grammar

namespace Lexer

open Grammar

/-! A text is flat where its tokens are. -/

theorem flat_of_isNumber {t : Text} (number : IsNumber t) : Flat t := by
  obtain ⟨whole, -, digits, split⟩ := number
  have units : ∀ u ∈ t, Decimal.isDigit u = true ∨ u = 0x2E := by
    intro u among
    rcases split with rfl | ⟨fraction, -, more, rfl⟩
    · exact .inl (digits u among)
    · rcases List.mem_append.mp among with among | among
      · exact .inl (digits u among)
      · rcases List.mem_cons.mp among with point | among
        · exact .inr point
        · exact .inl (more u among)
  refine flat_of_plain ?_ ?_ ?_ ?_ <;> exact fun among => absurd (units _ among) (by decide)

theorem flat_of_isWord {t : Text} (word : IsWord t) : Flat t := by
  obtain ⟨u, tail, rfl, start, parts⟩ := word
  have units : ∀ v ∈ u :: tail, isIdentPart v = true := by
    intro v among
    rcases List.mem_cons.mp among with rfl | among
    · rw [isIdentPart, start, Bool.true_or]
    · exact parts v among
  refine flat_of_plain ?_ ?_ ?_ ?_ <;> exact fun among => absurd (units _ among) (by decide)

theorem flat_of_fits {lexeme : Lexeme} {rest : Text} (fits : lexeme.Fits rest)
    (line : lexeme ≠ .newline) (flat : isBrace lexeme = false)
    (literals : ∀ text parts, lexeme = .string text parts → Flat text) : Flat lexeme.text := by
  cases lexeme with
  | number digits => exact flat_of_isNumber fits.1
  | ident name => exact flat_of_isWord fits.1
  | keyword word => exact flat_of_isWord fits.1
  | symbol s =>
      have plain : 0x0A ∉ s.text ∧ 0x22 ∉ s.text ∧ 0x7B ∉ s.text ∧ 0x7D ∉ s.text := by
        revert flat
        cases s <;> decide
      exact flat_of_plain plain.1 plain.2.1 plain.2.2.1 plain.2.2.2
  | string text parts => exact literals text parts rfl
  | newline => exact absurd rfl line
  | eof => exact fits.elim

/-- Code whose literals are flat and whose braces match is passed over as a whole. -/
theorem codeLength_written {braces : Nat} {pieces : List Piece} {rest : Text} {loc : Location}
    (laid : Laid rest loc pieces) (line : 0x0A ∉ written pieces) (hash : 0x23 ∉ written pieces)
    (literals : ∀ t ∈ tokensOf pieces, ∀ text parts, t.lexeme = .string text parts → Flat text)
    (closed : Closed braces (tokensOf pieces)) (after : Text) :
    codeLength false braces (written pieces ++ 0x7D :: after) = .ok (written pieces).length := by
  -- a brace opens or closes; every other piece is flat
  induction pieces generalizing braces loc with
  | nil =>
      cases closed
      rfl
  | cons p pieces ih =>
      obtain ⟨fits, -, laid⟩ := laid
      rw [written_cons, List.mem_append, not_or] at line hash
      have passed {t : Text} (flat : Flat t)
          (later : codeLength false braces (written pieces ++ 0x7D :: after) =
            .ok (written pieces).length) :
          codeLength false braces (t ++ written pieces ++ 0x7D :: after) =
            .ok (t ++ written pieces).length := by
        rw [List.append_assoc, flat.codeLength, later, List.length_append, Nat.add_comm]
        rfl
      rw [written_cons]
      cases p with
      | blank u =>
          have flat : Flat [u] := by
            rcases fits with rfl | rfl | rfl <;>
              exact flat_of_plain (by decide) (by decide) (by decide) (by decide)
          exact passed flat (ih laid line.2 hash.2 literals closed)
      | comment inside =>
          obtain ⟨tail, is⟩ := List.head?_eq_some_iff.mp fits.1
          exact absurd (is ▸ List.mem_cons_self : (0x23 : UInt16) ∈ inside) hash.1
      | token t =>
          have later {braces : Nat} (closed : Closed braces (tokensOf pieces)) :=
            ih laid line.2 hash.2 (fun t among => literals t (.tail _ among)) closed
          have other : t.lexeme ≠ .newline := by
            intro is
            exact line.1 (by simp [Piece.text, is, Lexeme.text])
          cases closed with
          | opening is behind =>
              have text : Piece.text (.token t) = [0x7B] := by rw [Piece.text, is]; rfl
              rw [text, List.append_assoc, List.singleton_append, codeLength_open, later behind]
              rfl
          | closing is behind =>
              have text : Piece.text (.token t) = [0x7D] := by rw [Piece.text, is]; rfl
              rw [text, List.append_assoc, List.singleton_append, codeLength_close, later behind]
              rfl
          | other flat behind =>
              have whole := flat_of_fits fits other flat fun text parts is =>
                literals t (.head _) text parts is
              exact passed whole (later behind)

/-- A literal without quotes in its code is flat. -/
theorem flat_of_spells {t : Token} {text : Text} {parts : List StringPart} (spells : Spells t)
    (is : t.lexeme = .string text parts) (line : 0x0A ∉ text)
    (quoteless : ∀ code place, .code code place ∈ parts → 0x22 ∉ code) : Flat text := by
  obtain ⟨segments, behind, rfl, rfl, row⟩ := spells text parts is
  have inside : 0x0A ∉ spelled segments := fun among => line (by simp [among])
  refine .quoted (stretch_spelled row inside ?_) .nil
  intro code place among
  have part := code_mem_partsOf among
  refine quoteless code place ?_
  rwa [if_neg (by simp [List.ne_nil_of_mem part])]

end Lexer

/-- An expression is flat where each of its literals is, or has no quotes in its code. -/
theorem flat_of_expression {fuel : Nat} {source : Text} {loc : Location} {e : Expr}
    {tokens : List Token} (line : 0x0A ∉ source) (hash : 0x23 ∉ source)
    (is : Grammar.interpolation (Grammar.rules fuel) source loc = .ok e)
    (cut : tokenize source loc = .ok tokens)
    (literals : ∀ t ∈ tokens, ∀ text parts, t.lexeme = .string text parts →
      Lexer.Flat text ∨ ∀ code place, .code code place ∈ parts → 0x22 ∉ code) :
    Lexer.Flat source := by
  obtain ⟨pieces, rfl, laid, rfl⟩ := Lexer.pieces_of_tokenize cut
  have closed := Grammar.closed_of_interpolation line is cut
  refine (Lexer.codeLength_iff _ []).mp (Lexer.codeLength_written laid line hash ?_ closed [])
  intro t among text parts string
  obtain ⟨_, _, spells, inside⟩ := Lexer.piece_of_token laid among
  rcases literals t (List.mem_append_left _ among) text parts string with flat | quoteless
  · exact flat
  · rw [string] at inside
    exact Lexer.flat_of_spells spells string (fun there => line (inside there)) quoteless

end Loom
