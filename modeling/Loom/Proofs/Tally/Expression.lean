import Loom.Proofs.Tally.Cursor

/-!
An expression opens nothing that it does not close. Each rule ends in the middle of
a line with as much open as it began with, or finds fault; and where an `end` is
missing inside of it, more is open than it began with.
-/

namespace Loom

namespace Grammar

open Repl Tally

variable {T : Tally} {b k : Int} {c : Cursor} {α β : Type} {ok : β → Cursor → Prop}

/-- A rule that leaves open what it finds open, and ends within a line. -/
def Balanced (p : Parse α) : Prop :=
  ∀ {T : Tally} {b k : Int} {c : Cursor}, T.Apt b k c →
    Ends (T.Lacks b k) (fun _ c' => T.Inline b k c') (p c)

/-- A rule that is balanced, where more is open than what a fault has to speak of. -/
theorem ends_within {p : Parse α} (each : Balanced p) {b' k' : Int} (at_c : T.Apt b' k' c)
    (blocks : b ≤ b') (brackets : k ≤ k') :
    Ends (T.Lacks b k) (fun _ c' => T.Inline b' k' c') (p c) :=
  ends_of_imp (each at_c) (fun _ _ h => h) (fun _ lacks => lacks.of_le blocks brackets)

/-- How many blocks are open around statements that end so: not only those that were
open before, where the statements have an `end` of their own to come. -/
def Ending.around (ending : Ending) (b : Int) : Int :=
  match ending with
  | .input => b
  | .endKeyword | .branchKeyword => b - 1

/-- Statements that leave open what they find open, and end with a line. -/
def BalancedBlock (ending : Ending) (p : Parse α) : Prop :=
  ∀ {T : Tally} {b k : Int} {c : Cursor}, T.Fresh b k c → (ending ≠ .input → T.lines) →
    Ends (T.Lacks (ending.around b) k)
      (fun _ c' => T.Fresh b k c' ∧ (ending = .input → c'.head.lexeme = .eof)) (p c)

/-- Rules of which each is balanced. -/
structure Rules.Balanced (rules : Rules) : Prop where
  expression : Grammar.Balanced rules.expression
  negation : Grammar.Balanced rules.negation
  unary : Grammar.Balanced rules.unary
  block : ∀ ctx ending, BalancedBlock ending (rules.block ctx ending)

/-! Levels of precedence. -/

/-- Operators behind which a line goes on. -/
def Joins (op? : Lexeme → Option BinaryOp) : Prop :=
  ∀ lexeme op, op? lexeme = some op → asksMore lexeme = true ∧ nesting lexeme = 0

theorem joins_concat : Joins concatOp? := by
  intro lexeme op is
  unfold concatOp? at is
  split at is <;> simp_all [asksMore, nesting]

theorem joins_or : Joins orOp? := by
  intro lexeme op is
  unfold orOp? at is
  split at is <;> simp_all [asksMore, nesting]

theorem joins_and : Joins andOp? := by
  intro lexeme op is
  unfold andOp? at is
  split at is <;> simp_all [asksMore, nesting]

theorem joins_compare : Joins compareOp? := by
  intro lexeme op is
  unfold compareOp? at is
  split at is <;> simp_all [asksMore, nesting]

theorem joins_sum : Joins sumOp? := by
  intro lexeme op is
  unfold sumOp? at is
  split at is <;> simp_all [asksMore, nesting]

theorem joins_product : Joins productOp? := by
  intro lexeme op is
  unfold productOp? at is
  split at is <;> simp_all [asksMore, nesting]

theorem ends_chainFrom {op? : Lexeme → Option BinaryOp} {operand : Parse Expr}
    (joins : Joins op?) (each : Balanced operand) (n : Nat) (left : Expr)
    (at_c : T.Inline b k c) :
    Ends (T.Lacks b k) (fun _ c' => T.Inline b k c') (chainFrom op? operand n left c) := by
  induction n generalizing left c with
  | zero => exact ends_pure at_c
  | succ n ih =>
      apply ends_peek
      cases is : op? c.head.lexeme with
      | none => exact ends_pure at_c
      | some op =>
          obtain ⟨on, flat⟩ := joins _ op is
          apply ends_advance
          apply ends_skipNewlines
          have going : T.Going b k c.tail := at_c.here.goOn rfl on flat
          exact ends_bind (each going.skip.apt) (fun right c' there => ih _ there)

theorem balanced_chain {op? : Lexeme → Option BinaryOp} {operand : Parse Expr}
    (joins : Joins op?) (each : Balanced operand) : Balanced (chain op? operand) := by
  intro T b k c at_c
  apply ends_bind (each at_c)
  intro left c' there
  apply ends_peek
  split
  · apply ends_remaining
    exact ends_chainFrom joins each _ left there
  · exact ends_pure there

/-! Lists in brackets. -/

theorem ends_items {bad : Diagnostic → Prop} {close : Symbol} {item : Parse α}
    (each : ∀ {c}, T.Going b k c → Ends bad (fun _ c' => T.Inline b k c') (item c)) (n : Nat)
    (at_c : T.Going b k c) : Ends bad (fun _ c' => T.Here b k c') (items close item n c) := by
  induction n generalizing c with
  | zero => exact ends_pure at_c.here
  | succ n ih =>
      apply ends_next
      · intro _
        exact ends_pure at_c.here
      · intro _
        apply ends_bind (each at_c)
        intro first c' there
        apply ends_skipNewlines
        apply ends_accept
        · intro comma
          apply ends_skipNewlines
          have going := there.here.skip.goOn comma rfl rfl
          exact ends_bind (ih going.skip) (fun rest c'' behind => ends_pure behind)
        · intro _
          exact ends_pure there.here.skip

theorem ends_delimited {bad : Diagnostic → Prop} (tolerant : Tolerates bad) {close : Symbol}
    (closes : nesting (.symbol close) = -1) {what : Expected} (other : what ≠ .endKeyword)
    {item : Parse α}
    (each : ∀ {c}, T.Going b (k + 1) c →
      Ends bad (fun _ c' => T.Inline b (k + 1) c') (item c))
    (at_c : T.Going b (k + 1) c) :
    Ends bad (fun _ c' => T.Inline b k c') (delimited close what item c) := by
  apply ends_skipNewlines
  apply ends_remaining
  apply ends_bind (ends_items each _ at_c.skip)
  intro list c' there
  apply ends_expect tolerant other
  intro is
  exact ends_pure (there.out is closes)

/-! Functions. -/

theorem opensBlock_tail (inside : c.head.lexeme ≠ .symbol .closeParen) :
    opensBlock c.tail.all = opensBlock c.all := by
  rcases c with ⟨_ | ⟨t, rest⟩, stop⟩
  · rfl
  · exact (opensBlock_cons inside).symm

theorem opensBlock_skip : opensBlock c.skip.all = opensBlock c.all := by
  rcases c with ⟨tokens, stop⟩
  induction tokens with
  | nil => rfl
  | cons t rest ih =>
      by_cases line : isNewline t = true
      · have other : t.lexeme ≠ .symbol .closeParen := by
          intro is
          simp [isNewline, is] at line
        have passed : Cursor.skip ⟨t :: rest, stop⟩ = Cursor.skip ⟨rest, stop⟩ := by
          simp [Cursor.skip, List.dropWhile_cons_of_pos line]
        rw [passed, ih]
        exact (opensBlock_cons other).symm
      · simp [Cursor.skip, List.dropWhile_cons_of_neg line]

/-- Parameters are read up to the first closing parenthesis and not over it. -/
theorem ends_parameters (taken : List Text) (n : Nat) (at_c : T.Here b k c) :
    Ends (T.Lacks b' k') (fun _ c' => T.Here b k c' ∧ opensBlock c'.all = opensBlock c.all)
      (parameters taken n c) := by
  induction n generalizing taken c with
  | zero => exact ends_pure ⟨at_c, rfl⟩
  | succ n ih =>
      apply ends_next
      · intro _
        exact ends_pure ⟨at_c, rfl⟩
      · intro _
        apply ends_expectName tolerates_lacks (by decide)
        intro name is
        have inside : opensBlock c.tail.all = opensBlock c.all := opensBlock_tail (by simp [is])
        have there : T.Here b k c.tail := (at_c.plain is rfl).here
        dsimp only
        split
        · exact ends_failAt (tolerates_lacks _ _ (by simp [SyntaxFault.LacksEnd]))
        · apply ends_skipNewlines
          apply ends_accept
          · intro comma
            apply ends_skipNewlines
            have going := there.skip.goOn comma rfl rfl
            refine ends_of_imp (ih _ going.skip.here) ?_ (fun _ lacks => lacks)
            rintro _ c' ⟨behind, same⟩
            rw [opensBlock_skip, opensBlock_tail (by simp [comma]), opensBlock_skip, inside]
              at same
            exact ⟨behind, same⟩
          · intro _
            exact ends_pure ⟨there.skip, opensBlock_skip.trans inside⟩

theorem dropWhile_listed_tail (listed : isListed c.head = true) :
    c.tail.all.dropWhile isListed = c.all.dropWhile isListed := by
  rcases c with ⟨_ | ⟨t, rest⟩, stop⟩
  · rfl
  · exact (List.dropWhile_cons_of_pos listed).symm

theorem ends_moreNames (n : Nat) (at_c : T.Inline b k c) :
    Ends (T.Lacks b' k')
      (fun _ c' => T.Inline b k c' ∧ c'.all.dropWhile isListed = c.all.dropWhile isListed)
      (moreNames n c) := by
  induction n generalizing c with
  | zero => exact ends_pure ⟨at_c, rfl⟩
  | succ n ih =>
      apply ends_accept
      · intro comma
        apply ends_expectName tolerates_lacks (by decide)
        intro name is
        have going := at_c.here.goOn comma rfl rfl
        apply ends_bind (ih (going.here.plain is rfl))
        rintro rest c' ⟨there, same⟩
        rw [dropWhile_listed_tail (by simp [isListed, is]),
          dropWhile_listed_tail (by simp [isListed, comma])] at same
        exact ends_pure ⟨there, same⟩
      · intro _
        exact ends_pure ⟨at_c, rfl⟩

theorem ends_nameList (at_c : T.Inline b k c) :
    Ends (T.Lacks b' k')
      (fun _ c' => T.Inline b k c' ∧ c'.all.dropWhile isListed = c.all.dropWhile isListed)
      (nameList c) := by
  apply ends_expectName tolerates_lacks (by decide)
  intro name is
  apply ends_remaining
  apply ends_bind (ends_moreNames _ (at_c.here.plain is rfl))
  rintro rest c' ⟨there, same⟩
  rw [dropWhile_listed_tail (by simp [isListed, is])] at same
  exact ends_pure ⟨there, same⟩

/-- What is behind the parameters and the shared names tells whether there is a block. -/
theorem ends_sharedNames (at_c : T.Inline b k c) :
    Ends (T.Lacks b' k')
      (fun _ c' => T.Inline b k c' ∧
        (c'.head.lexeme = .symbol .arrow → blockFollows c.all = false) ∧
        (c'.head.lexeme = .newline → blockFollows c.all = true)) (sharedNames c) := by
  have first : c.all = c.head :: c.all.tail := by
    rcases c with ⟨_ | ⟨t, rest⟩, stop⟩ <;> rfl
  apply ends_accept
  · intro uses
    have more : c.tokens ≠ [] := Cursor.tokens_ne_nil (by simp [uses])
    have follows : blockFollows c.all = bodyOpens (c.tail.all.dropWhile isListed) := by
      rw [Cursor.all_eq_cons more]
      simp [blockFollows, uses]
    refine ends_of_imp (ends_nameList (at_c.here.plain uses rfl)) ?_ (fun _ lacks => lacks)
    rintro _ c' ⟨there, same⟩
    have first' : c'.all = c'.head :: c'.all.tail := by
      rcases c' with ⟨_ | ⟨t, rest⟩, stop⟩ <;> rfl
    refine ⟨there, ?_, ?_⟩
    · intro arrow
      rw [follows, ← same, first', List.dropWhile_cons_of_neg (by simp [isListed, arrow])]
      simp [bodyOpens, arrow]
    · intro line
      rw [follows, ← same, first', List.dropWhile_cons_of_neg (by simp [isListed, line])]
      simp [bodyOpens, line]
  · intro other
    refine ends_pure ⟨at_c, ?_, ?_⟩
    · intro arrow
      rw [first]
      simp [blockFollows, bodyOpens, arrow]
    · intro line
      rw [first]
      simp [blockFollows, bodyOpens, line]

section

variable {rules : Rules} (balanced : rules.Balanced)
include balanced

/-- A function whose word is taken: its block, if it has one, is closed at its end. -/
theorem ends_procedure
    (at_c : c.head.lexeme = .symbol .openParen → T.Here (b + funcBlocks c) k c) :
    Ends (T.Lacks b k) (fun _ c' => T.Inline b k c') (procedure rules c) := by
  apply ends_expect tolerates_lacks (by decide)
  intro paren
  apply ends_skipNewlines
  apply ends_remaining
  have inside : T.Here (b + funcBlocks c) (k + 1) c.tail.skip :=
    ((at_c paren).into paren rfl).skip.here
  apply ends_bind (ends_parameters [] _ inside)
  rintro params c₁ ⟨there, same⟩
  rw [opensBlock_skip, opensBlock_tail (by simp [paren])] at same
  apply ends_expect tolerates_lacks (by decide)
  intro close
  have more : c₁.tokens ≠ [] := Cursor.tokens_ne_nil (by simp [close])
  rw [Cursor.all_eq_cons more, opensBlock_close close] at same
  have follows : funcBlocks c = if blockFollows c₁.tail.all then 1 else 0 := by
    simp [funcBlocks, paren, same]
  apply ends_bind (ends_sharedNames (there.out close rfl))
  rintro uses c₂ ⟨behind, arrow, line⟩
  apply ends_next
  · intro is
    rw [follows, arrow is] at behind
    apply ends_advance
    have expression : T.Apt b k c₂.tail := by
      simpa using (behind.here.plain is rfl).apt
    exact ends_bind (balanced.expression expression) (fun value c' h => ends_pure h)
  · intro _
    apply ends_expect tolerates_lacks (by decide)
    intro is
    rw [follows, line is] at behind
    have lines : T.lines := At.head_lines behind is
    have body : T.Fresh (b + 1) k c₂.tail := by
      simpa using behind.newline is
    have inner := balanced.block .function .endKeyword body (fun _ => lines)
    rw [Ending.around, Int.add_sub_cancel] at inner
    apply ends_bind inner
    rintro statements c₃ ⟨closing, _⟩
    apply ends_expect_or (closing.here.lacks_end lines)
    intro word
    exact ends_pure (closing.end_word word)

/-! Hashes. -/

omit balanced in
theorem ends_hashKey {f : Text → Parse β} (at_c : T.Going b k c)
    (rest : ∀ key c', (c'.head.lexeme = .symbol .colon → T.Here b k c') →
      Ends (T.Lacks b' k') ok (f key c')) :
    Ends (T.Lacks b' k') ok ((hashKey >>= f) c) := by
  apply ends_then
  apply ends_peek
  cases is : c.head.lexeme with
  | ident name =>
      apply ends_advance
      exact rest _ _ (fun _ => (at_c.here.plain is rfl).here)
  | keyword word =>
      apply ends_advance
      exact rest _ _ (fun colon => at_c.key_word is colon)
  | number digits =>
      apply ends_advance
      exact rest _ _ (fun _ => (at_c.here.plain is rfl).here)
  | string written parts =>
      cases key? : plainText? parts with
      | some key =>
          simp only [key?]
          apply ends_advance
          exact rest _ _ (fun _ => (at_c.here.plain is rfl).here)
      | none =>
          simp only [key?]
          exact ends_failAt (tolerates_lacks _ _ (by simp [SyntaxFault.LacksEnd]))
  | symbol _ | newline | eof =>
      exact ends_failAt (tolerates_lacks _ _ (by simp [SyntaxFault.LacksEnd]))

theorem ends_hashEntry (at_c : T.Going b (k + 1) c) :
    Ends (T.Lacks b k) (fun _ c' => T.Inline b (k + 1) c') (hashEntry rules c) := by
  apply ends_hashKey at_c
  intro key c' there
  apply ends_expect tolerates_lacks (by decide)
  intro colon
  apply ends_skipNewlines
  have going : T.Going b (k + 1) c'.tail := (there colon).goOn colon rfl rfl
  have value :=
    ends_within balanced.expression going.skip.apt (Int.le_refl b) (by omega : k ≤ k + 1)
  exact ends_bind value (fun _ _ h => ends_pure h)

theorem ends_hashEntries (at_c : T.Here b k c) :
    Ends (T.Lacks b k) (fun _ c' => T.Inline b k c') (hashEntries rules c) := by
  apply ends_expect tolerates_lacks (by decide)
  intro brace
  apply ends_bind (ends_delimited tolerates_lacks rfl (by decide)
    (fun h => ends_hashEntry balanced h) (at_c.into brace rfl))
  exact fun _ _ h => ends_pure h

/-! Expressions that begin with a keyword. -/

omit balanced in
theorem ends_separator {bad : Diagnostic → Prop} (tolerant : Tolerates bad)
    {f : Unit → Parse β} (at_c : T.Here b k c)
    (rest : ∀ c', T.Going b k c' → Ends bad ok (f () c')) :
    Ends bad ok ((separator >>= f) c) := by
  apply ends_then
  apply ends_skipNewlines
  apply ends_expect tolerant (by decide)
  intro comma
  exact rest _ (at_c.skip.goOn comma rfl rfl).skip

theorem ends_choice (loc : Location) (at_c : T.Inline b k c) :
    Ends (T.Lacks b k) (fun _ c' => T.Inline b k c') (choice rules loc c) := by
  have part {c : Cursor} (h : T.Going b (k + 1) c) :=
    ends_within balanced.expression h.apt (Int.le_refl b) (by omega : k ≤ k + 1)
  apply ends_expect tolerates_lacks (by decide)
  intro paren
  apply ends_skipNewlines
  apply ends_bind (part (at_c.here.into paren rfl).skip)
  intro condition c₁ h₁
  apply ends_separator tolerates_lacks h₁.here
  intro c₂ h₂
  apply ends_bind (part h₂)
  intro consequent c₃ h₃
  apply ends_separator tolerates_lacks h₃.here
  intro c₄ h₄
  apply ends_bind (part h₄)
  intro alternate c₅ h₅
  apply ends_skipNewlines
  apply ends_expect tolerates_lacks (by decide)
  intro close
  exact ends_pure (h₅.here.skip.out close rfl)

omit balanced in
theorem ends_reference (loc : Location) (at_c : T.Here b k c) :
    Ends (T.Lacks b k) (fun _ c' => T.Inline b k c') (reference loc c) := by
  apply ends_expectName tolerates_lacks (by decide)
  intro first is
  have there := at_c.plain is rfl
  apply ends_accept
  · intro dot
    apply ends_expectName tolerates_lacks (by decide)
    intro name is
    exact ends_pure ((there.here.plain dot rfl).here.plain is rfl)
  · intro _
    exact ends_pure there

theorem ends_keywordExpression {word : Keyword} (loc : Location) (at_c : T.Apt b k c)
    (is : c.head.lexeme = .keyword word) :
    Ends (T.Lacks b k) (fun _ c' => T.Inline b k c') (keywordExpression rules word loc c) := by
  unfold keywordExpression
  split
  · apply ends_advance
    exact ends_pure (at_c.here.plain is rfl)
  · apply ends_advance
    exact ends_pure (at_c.here.plain is rfl)
  · apply ends_advance
    exact ends_pure (at_c.here.plain is rfl)
  · apply ends_advance
    apply ends_next
    · intro _
      have behind := at_c.here.plain is rfl
      exact ends_bind (ends_hashEntries balanced behind.here) (fun _ _ h => ends_pure h)
    · intro _
      exact ends_fail tolerates_lacks (by simp [SyntaxFault.LacksEnd])
  · apply ends_advance
    exact ends_reference loc (at_c.here.plain is rfl).here
  · apply ends_advance
    have behind := at_c.here.func_word is
    exact ends_bind (ends_procedure balanced (fun _ => behind.here)) (fun _ _ h => ends_pure h)
  · apply ends_advance
    exact ends_choice balanced loc (at_c.if_word is)
  · exact ends_failAt (tolerates_lacks _ _ (by simp [SyntaxFault.LacksEnd]))

/-! Strings. Code on one line has no line for a block to begin with. -/

omit balanced in
theorem not_lacksEnd_lexical {fault : SyntaxFault} (lexical : fault.IsLexical) :
    ¬ fault.LacksEnd := by
  rintro (rfl | rfl)
  · exact lexical
  · exact lexical

/-- What has a fault, but not that an `end` is missing. -/
def Complete (x : Except Diagnostic α) : Prop :=
  ∀ d fault, x = .error d → d.fault = .malformed fault → ¬ fault.LacksEnd

theorem complete_interpolation {source : Text} (one : 0x0A ∉ source) (loc : Location) :
    Complete (interpolation rules source loc) := by
  intro d fault failed is lacking
  rcases error_of_bind failed with failed | ⟨tokens, cut, failed⟩
  · obtain ⟨fault', lexical, is'⟩ := faulty_tokenize failed
    rw [is] at is'
    cases is'
    exact not_lacksEnd_lexical lexical lacking
  · -- a tally of the code alone, in which no line end counts
    let T : Tally := ⟨blocksIn ⟨false, false⟩ tokens, bracketsIn tokens, False, False⟩
    have front : T.Inline 0 0 (.ofTokens tokens) :=
      Tally.at_front cut rfl rfl one (fun t h folded => folded
        (Tally.onLine_of_tokenize cut one t h))
    have read : Ends (T.Lacks 0 0) (fun _ _ => True) ((do
        let e ← rules.expression
        let t ← peek
        if t.lexeme == Lexeme.eof then pure e
        else failAt t.loc (.unexpectedInInterpolation t.lexeme) : Parse Expr)
          (.ofTokens tokens)) := by
      apply ends_bind (balanced.expression front.apt)
      intro e c' _
      apply ends_peek
      split
      · trivial
      · exact ends_failAt (tolerates_lacks _ _ (by simp [SyntaxFault.LacksEnd]))
    rcases error_of_bind failed with failed | ⟨r, _, failed⟩
    · rw [failed] at read
      rcases read fault is lacking with folded | ⟨lines, _⟩
      · exact folded
      · exact lines
    · cases failed

theorem complete_segments {parts : List StringPart} (onLine : ∀ part ∈ parts, part.OnLine) :
    Complete (segments rules parts) := by
  induction parts with
  | nil =>
      intro d fault failed
      cases failed
  | cons part rest ih =>
      have later := ih (fun part h => onLine part (List.mem_cons_of_mem _ h))
      intro d fault failed is
      cases part with
      | text value =>
          rcases error_of_bind failed with failed | ⟨_, _, failed⟩
          · exact later d fault failed is
          · cases failed
      | code source loc =>
          have one : 0x0A ∉ source := onLine (.code source loc) (by simp)
          rcases error_of_bind failed with failed | ⟨_, _, failed⟩
          · exact complete_interpolation balanced one loc d fault failed is
          · rcases error_of_bind failed with failed | ⟨_, _, failed⟩
            · exact later d fault failed is
            · cases failed

/-! The levels above. -/

theorem balanced_primary : Balanced (primary rules) := by
  intro T b k c at_c
  apply ends_peek
  cases is : c.head.lexeme with
  | number digits =>
      apply ends_advance
      exact ends_pure (at_c.here.plain is rfl)
  | string written parts =>
      apply ends_advance
      apply ends_lift
      · intro d failed fault is' lacking
        by_cases onLine : ∀ part ∈ parts, part.OnLine
        · exact absurd lacking (complete_segments balanced onLine d fault failed is')
        · obtain ⟨p, here⟩ := at_c.here
          exact .inl (here.head_folded (by rw [is]; exact onLine))
      · intro list _
        exact ends_pure (at_c.here.plain is rfl)
  | ident name =>
      apply ends_advance
      exact ends_pure (at_c.here.plain is rfl)
  | keyword word => exact ends_keywordExpression balanced _ at_c is
  | newline | eof => exact ends_failAt (tolerates_lacks _ _ (by simp [SyntaxFault.LacksEnd]))
  | symbol s =>
      cases s with
      | openParen =>
          apply ends_advance
          apply ends_skipNewlines
          have going := (at_c.here.into is rfl).skip
          apply ends_bind
            (ends_within balanced.expression going.apt (Int.le_refl b) (by omega : k ≤ k + 1))
          intro e c' there
          apply ends_skipNewlines
          apply ends_expect tolerates_lacks (by decide)
          intro close
          exact ends_pure (there.here.skip.out close rfl)
      | openBracket =>
          apply ends_advance
          apply ends_bind (ends_delimited tolerates_lacks rfl (by decide)
            (fun h => ends_within balanced.expression h.apt (Int.le_refl b) (by omega))
            (at_c.here.into is rfl))
          exact fun _ _ h => ends_pure h
      | openBrace =>
          exact ends_bind (ends_hashEntries balanced at_c.here) (fun _ _ h => ends_pure h)
      | _ => exact ends_failAt (tolerates_lacks _ _ (by simp [SyntaxFault.LacksEnd]))

theorem ends_suffixes (n : Nat) (e : Expr) (at_c : T.Inline b k c) :
    Ends (T.Lacks b k) (fun _ c' => T.Inline b k c') (suffixes rules n e c) := by
  have inside {c : Cursor} (h : T.Going b (k + 1) c) :=
    ends_within balanced.expression h.apt (Int.le_refl b) (by omega : k ≤ k + 1)
  induction n generalizing e c with
  | zero => exact ends_pure at_c
  | succ n ih =>
      apply ends_peek
      generalize is : c.head.lexeme = lexeme
      split
      · apply ends_advance
        apply ends_bind (ends_delimited tolerates_lacks rfl (by decide) inside
          (at_c.here.into is rfl))
        intro args c' there
        exact ih _ there
      · apply ends_advance
        apply ends_expectName tolerates_lacks (by decide)
        intro name named
        exact ih _ ((at_c.here.plain is rfl).here.plain named rfl)
      · apply ends_advance
        apply ends_skipNewlines
        apply ends_bind (inside (at_c.here.into is rfl).skip)
        intro position c' there
        apply ends_skipNewlines
        apply ends_expect tolerates_lacks (by decide)
        intro close
        exact ih _ (there.here.skip.out close rfl)
      · exact ends_pure at_c

theorem balanced_access : Balanced (access rules) := by
  intro T b k c at_c
  apply ends_bind (balanced_primary balanced at_c)
  intro e c' there
  apply ends_peek
  split
  · apply ends_remaining
    exact ends_suffixes balanced _ e there
  · exact ends_pure there

theorem balanced_unary : Balanced (unary rules) := by
  intro T b k c at_c
  apply ends_peek
  split
  · rename_i minus
    apply ends_advance
    have going := at_c.here.goOn (by simpa using minus) rfl rfl
    exact ends_bind (balanced.unary going.apt) (fun _ _ h => ends_pure h)
  · exact balanced_access balanced at_c

theorem balanced_product : Balanced (product rules) :=
  balanced_chain joins_product (balanced_unary balanced)

theorem balanced_sum : Balanced (sum rules) := balanced_chain joins_sum (balanced_product balanced)

theorem balanced_comparison : Balanced (comparison rules) :=
  balanced_chain joins_compare (balanced_sum balanced)

theorem balanced_negation : Balanced (negation rules) := by
  intro T b k c at_c
  apply ends_peek
  split
  · rename_i word
    apply ends_advance
    have there := at_c.here.plain (by simpa using word) rfl
    exact ends_bind (balanced.negation there.apt) (fun _ _ h => ends_pure h)
  · exact balanced_comparison balanced at_c

theorem balanced_conjunction : Balanced (conjunction rules) :=
  balanced_chain joins_and (balanced_negation balanced)

theorem balanced_disjunction : Balanced (disjunction rules) :=
  balanced_chain joins_or (balanced_conjunction balanced)

theorem balanced_expression : Balanced (expression rules) :=
  balanced_chain joins_concat (balanced_disjunction balanced)

end

end Grammar

end Loom
