import Loom.Proofs.Tally.Expression

/-!
A statement closes what it opens, and ends with its line. Blocks are opened by the
word that a statement begins with and closed by the `end` behind their statements;
a text that ends before that leaves them open.
-/

namespace Loom

namespace Grammar

open Repl Tally

variable {T : Tally} {b k b' k' : Int} {c : Cursor} {α β : Type} {ok : β → Cursor → Prop}

theorem ends_line {f : Unit → Parse β} (at_c : T.Inline b k c)
    (rest : ∀ c', T.Fresh b k c' → Ends (T.Lacks b' k') ok (f () c')) :
    Ends (T.Lacks b' k') ok ((endStatement >>= f) c) := by
  apply ends_endStatement tolerates_lacks
  · intro done
    exact rest c (at_c.fresh done)
  · intro line
    exact rest c.tail (at_c.newline line)

/-- The line behind a block's word ends, and its statements begin. -/
theorem ends_expectNewline {what : Expected} {f : Token → Parse β} (other : what ≠ .endKeyword)
    (at_c : T.Inline b k c)
    (rest : T.Fresh b k c.tail → T.lines → Ends (T.Lacks b' k') ok (f c.head c.tail)) :
    Ends (T.Lacks b' k') ok ((expectNewline what >>= f) c) := by
  apply ends_expect tolerates_lacks other
  intro line
  exact rest (at_c.newline line) (At.head_lines at_c line)

/-- The last `end` of a statement, and the end of its line. -/
theorem ends_closing {p : Parse β} (at_c : T.Fresh (b + 1) k c) (lines : T.lines)
    (rest : ∀ c', T.Fresh b k c' → Ends (T.Lacks b k) ok (p c')) :
    Ends (T.Lacks b k) ok ((do
      let _ ← expectKeyword .endKw .endKeyword
      endStatement
      p) c) := by
  apply ends_expect_or (at_c.here.lacks_end lines)
  intro word
  exact ends_line (at_c.end_word word) rest

theorem ends_namedAs (what : Expected) (other : what ≠ .endKeyword) (at_c : T.Inline b k c) :
    Ends (T.Lacks b' k') (fun _ c' => T.Inline b k c') (namedAs what c) := by
  apply ends_accept
  · intro as
    apply ends_expectName tolerates_lacks other
    intro name is
    exact ends_pure ((at_c.here.plain as rfl).here.plain is rfl)
  · intro _
    exact ends_pure at_c

theorem ends_loopDepth (at_c : T.Inline b k c) :
    Ends (T.Lacks b' k') (fun _ c' => T.Inline b k c') (loopDepth c) := by
  apply ends_peek
  generalize is : c.head.lexeme = lexeme
  split
  · apply ends_advance
    generalize wholeOf? _ = depth?
    split
    · exact ends_pure (at_c.here.plain is rfl)
    · exact ends_failAt (tolerates_lacks _ _ (by simp [SyntaxFault.LacksEnd]))
  · exact ends_pure at_c

theorem ends_loopControl (ctx : Context) (word : Keyword) (loc : Location)
    (at_c : T.Inline b k c) :
    Ends (T.Lacks b' k') (fun _ c' => T.Fresh b k c') (loopControl ctx word loc c) := by
  apply ends_bind (ends_loopDepth at_c)
  intro depth c' there
  split
  · split
    · exact ends_failAt (tolerates_lacks _ _ (by simp [SyntaxFault.LacksEnd]))
    · exact ends_failAt (tolerates_lacks _ _ (by simp [SyntaxFault.LacksEnd]))
  · exact ends_line there (fun _ h => ends_pure h)

theorem ends_sharing (ctx : Context) (loc : Location) (at_c : T.Inline b k c) :
    Ends (T.Lacks b' k') (fun _ c' => T.Fresh b k c') (sharing ctx loc c) := by
  unfold sharing
  split
  · exact ends_failAt (tolerates_lacks _ _ (by simp [SyntaxFault.LacksEnd]))
  · apply ends_bind (ends_nameList at_c)
    rintro names c' ⟨there, _⟩
    exact ends_line there (fun _ h => ends_pure h)

theorem ends_importing (ctx : Context) (loc : Location) (at_c : T.Inline b k c) :
    Ends (T.Lacks b' k') (fun _ c' => T.Fresh b k c') (importing ctx loc c) := by
  have names (native : Bool) {c : Cursor} (at_c : T.Inline b k c) :
      Ends (T.Lacks b' k') (fun _ c' => T.Fresh b k c') ((do
        let modules ← nameList
        endStatement
        pure (Stmt.imports native modules loc) : Parse Stmt) c) := by
    apply ends_bind (ends_nameList at_c)
    rintro modules c' ⟨there, _⟩
    exact ends_line there (fun _ h => ends_pure h)
  unfold importing
  split
  · exact ends_failAt (tolerates_lacks _ _ (by simp [SyntaxFault.LacksEnd]))
  · apply ends_accept
    · intro native
      exact names true (at_c.here.plain native rfl)
    · intro _
      exact names false at_c

theorem joins_assign (lexeme : Lexeme) (op : AssignOp) (is : assignOp? lexeme = some op) :
    asksMore lexeme = true ∧ nesting lexeme = 0 := by
  unfold assignOp? at is
  split at is <;> simp_all [asksMore, nesting]

section

variable {rules : Rules} (balanced : rules.Balanced)
include balanced

theorem ends_returning (ctx : Context) (loc : Location) (at_c : T.Inline b k c) :
    Ends (T.Lacks b k) (fun _ c' => T.Fresh b k c') (returning rules ctx loc c) := by
  have value : Ends (T.Lacks b k) (fun _ c' => T.Inline b k c') (returnedValue rules c) := by
    apply ends_peek
    split
    · exact ends_pure at_c
    · exact ends_bind (balanced.expression at_c.apt) (fun _ _ h => ends_pure h)
  unfold returning
  split
  · exact ends_failAt (tolerates_lacks _ _ (by simp [SyntaxFault.LacksEnd]))
  · apply ends_bind value
    intro e? c' there
    exact ends_line there (fun _ h => ends_pure h)

theorem ends_emission (loc : Location) (at_c : T.Inline b k c) :
    Ends (T.Lacks b k) (fun _ c' => T.Fresh b k c') (emission rules loc c) := by
  apply ends_bind (balanced.expression at_c.apt)
  intro value c₁ h₁
  apply ends_bind (ends_namedAs .outputName (by decide) h₁)
  intro key c₂ h₂
  exact ends_line h₂ (fun _ h => ends_pure h)

theorem ends_assignmentOrCall (at_c : T.Apt b k c) :
    Ends (T.Lacks b k) (fun _ c' => T.Fresh b k c') (assignmentOrCall rules c) := by
  apply ends_peek
  apply ends_bind (balanced_expression balanced at_c)
  intro e c₁ h₁
  apply ends_peek
  cases is : assignOp? c₁.head.lexeme with
  | some op =>
      obtain ⟨on, flat⟩ := joins_assign _ op is
      apply ends_advance
      cases e.target? with
      | none => exact ends_failAt (tolerates_lacks _ _ (by simp [SyntaxFault.LacksEnd]))
      | some target =>
          apply ends_skipNewlines
          apply ends_bind (balanced.expression (h₁.here.goOn rfl on flat).skip.apt)
          intro value c₂ h₂
          exact ends_line h₂ (fun _ h => ends_pure h)
  | none =>
      cases e with
      | call callee args callLoc => exact ends_line h₁ (fun _ h => ends_pure h)
      | _ => exact ends_failAt (tolerates_lacks _ _ (by simp [SyntaxFault.LacksEnd]))

/-- A block whose word has been counted: where it has no end, it is open. -/
theorem ends_inner (ctx : Context) {ending : Ending} (inner : ending ≠ .input)
    (at_c : T.Fresh (b + 1) k c) (lines : T.lines) :
    Ends (T.Lacks b k) (fun _ c' => T.Fresh (b + 1) k c') (rules.block ctx ending c) := by
  have around : ending.around (b + 1) = b := by
    cases ending with
    | input => exact absurd rfl inner
    | endKeyword | branchKeyword => exact Int.add_sub_cancel b 1
  have block := balanced.block ctx ending at_c (fun _ => lines)
  rw [around] at block
  exact ends_of_imp block (fun _ _ h => h.1) (fun _ lacks => lacks)

theorem ends_definition (loc : Location) (at_c : T.Inline (b + funcBlocks c) k c) :
    Ends (T.Lacks b k) (fun _ c' => T.Fresh b k c') (definition rules loc c) := by
  apply ends_expectName tolerates_lacks (by decide)
  intro name is
  have there := (at_c.here.plain is rfl).here
  have behind (paren : c.tail.head.lexeme = .symbol .openParen) :
      T.Here (b + funcBlocks c.tail) k c.tail := by
    have same : funcBlocks c.tail = funcBlocks c := by
      simp [funcBlocks, is, paren, opensBlock_tail]
    rw [same]
    exact there
  apply ends_bind (ends_procedure balanced behind)
  intro p c' h
  exact ends_line h (fun _ h => ends_pure h)

theorem ends_branch (ctx : Context) (at_c : T.Inline (b + 1) k c) :
    Ends (T.Lacks b k) (fun _ c' => T.Fresh (b + 1) k c' ∧ T.lines) (branch rules ctx c) := by
  apply ends_bind
    (ends_within balanced.expression at_c.apt (by omega : b ≤ b + 1) (Int.le_refl k))
  intro condition c₁ h₁
  apply ends_expectNewline (by decide) h₁
  intro h₂ lines
  apply ends_bind (ends_inner balanced ctx.branch (by decide) h₂ lines)
  exact fun body c' h => ends_pure ⟨h, lines⟩

theorem ends_moreBranches (ctx : Context) (n : Nat) (at_c : T.Fresh (b + 1) k c) :
    Ends (T.Lacks b k) (fun _ c' => T.Fresh (b + 1) k c') (moreBranches rules ctx n c) := by
  induction n generalizing c with
  | zero => exact ends_pure at_c
  | succ n ih =>
      apply ends_accept
      · intro elsif
        apply ends_bind (ends_branch balanced ctx (at_c.here.plain elsif rfl))
        rintro first c' ⟨there, _⟩
        exact ends_bind (ih there) (fun _ _ h => ends_pure h)
      · intro _
        exact ends_pure at_c

theorem ends_alternative (ctx : Context) (at_c : T.Fresh (b + 1) k c) :
    Ends (T.Lacks b k) (fun _ c' => T.Fresh (b + 1) k c') (alternative rules ctx c) := by
  apply ends_accept
  · intro word
    apply ends_expectNewline (by decide) (at_c.here.plain word rfl)
    intro there lines
    exact ends_bind (ends_inner balanced ctx.branch (by decide) there lines)
      (fun _ _ h => ends_pure h)
  · intro _
    exact ends_pure at_c

theorem ends_conditional (ctx : Context) (loc : Location) (at_c : T.Inline (b + 1) k c) :
    Ends (T.Lacks b k) (fun _ c' => T.Fresh b k c') (conditional rules ctx loc c) := by
  apply ends_bind (ends_branch balanced ctx at_c)
  rintro first c₁ ⟨h₁, lines⟩
  apply ends_remaining
  apply ends_bind (ends_moreBranches balanced ctx _ h₁)
  intro others c₂ h₂
  apply ends_bind (ends_alternative balanced ctx h₂)
  intro alternate c₃ h₃
  exact ends_closing h₃ lines (fun _ h => ends_pure h)

theorem ends_loop (ctx : Context) (loc : Location) (at_c : T.Inline (b + 1) k c) :
    Ends (T.Lacks b k) (fun _ c' => T.Fresh b k c') (loop rules ctx loc c) := by
  apply ends_bind
    (ends_within balanced.expression at_c.apt (by omega : b ≤ b + 1) (Int.le_refl k))
  intro subject c₁ h₁
  apply ends_bind (ends_namedAs .loopVariable (by decide) h₁)
  intro item? c₂ h₂
  apply ends_expectNewline (by decide) h₂
  intro h₃ lines
  apply ends_bind (ends_inner balanced ctx.loop (by decide) h₃ lines)
  intro body c₄ h₄
  apply ends_closing h₄ lines
  intro c₅ h₅
  cases item? with
  | some item => exact ends_pure h₅
  | none => exact ends_pure h₅

theorem ends_statement (ctx : Context) (at_c : T.At b k ⟨true, false⟩ c) :
    Ends (T.Lacks b k) (fun _ c' => T.Fresh b k c') (statement rules ctx c) := by
  have here : T.Here b k c := ⟨_, at_c⟩
  apply ends_peek
  cases is : c.head.lexeme with
  | keyword word =>
      have apt (other : word ≠ .ifKw) : T.Apt b k c := here.apt (by simpa [is] using other)
      cases word with
      | funcKw =>
          apply ends_peekSecond (Cursor.tokens_ne_nil (by simp [is]))
          generalize named : c.tail.head.lexeme = second
          split
          · apply ends_advance
            exact ends_definition balanced _ (here.func_word is)
          · exact ends_failAt (tolerates_lacks _ _ (by simp [SyntaxFault.LacksEnd]))
      | ifKw =>
          apply ends_advance
          exact ends_conditional balanced ctx _ (at_c.statement_word (.inl is))
      | forKw =>
          apply ends_advance
          exact ends_loop balanced ctx _ (at_c.statement_word (.inr is))
      | breakKw =>
          apply ends_advance
          apply ends_bind (ends_loopControl ctx .breakKw _ (here.plain is rfl))
          exact fun _ _ h => ends_pure h
      | continueKw =>
          apply ends_advance
          apply ends_bind (ends_loopControl ctx .continueKw _ (here.plain is rfl))
          exact fun _ _ h => ends_pure h
      | returnKw =>
          apply ends_advance
          exact ends_returning balanced ctx _ (here.plain is rfl)
      | emitKw =>
          apply ends_advance
          exact ends_emission balanced _ (here.plain is rfl)
      | useKw =>
          apply ends_advance
          exact ends_sharing ctx _ (here.plain is rfl)
      | importKw =>
          apply ends_advance
          exact ends_importing ctx _ (here.plain is rfl)
      | _ => exact ends_assignmentOrCall balanced (apt (by decide))
  | number _ | string _ _ | ident _ | symbol _ | newline | eof =>
      exact ends_assignmentOrCall balanced (here.apt (by simp [is]))

/-- Statements leave as much open as they find; where they have to end before the
text does and do not, what is around them is open. -/
theorem ends_statements (ctx : Context) (ending : Ending) (n : Nat) (at_c : T.Fresh b k c)
    (lines : ending ≠ .input → T.lines) :
    Ends (T.Lacks (ending.around b) k)
      (fun _ c' => T.Fresh b k c' ∧ (ending = .input → c'.head.lexeme = .eof))
      (statements rules ctx ending n c) := by
  induction n generalizing c with
  | zero => exact ends_fail tolerates_lacks (by simp [SyntaxFault.LacksEnd])
  | succ n ih =>
      apply ends_skipNewlines
      have fresh := at_c.skip
      apply ends_peek
      split
      · rename_i done
        have done : c.skip.head.lexeme = .eof := by simpa using done
        split
        · exact ends_pure ⟨fresh, fun _ => done⟩
        · rename_i other
          obtain ⟨blocks, brackets⟩ := fresh.here.total done
          have around : ending.around b < b := by
            cases ending with
            | input => exact absurd rfl other
            | endKeyword | branchKeyword => exact Int.sub_one_lt_of_le (Int.le_refl b)
          exact ends_failAt (fun _ _ _ => .inr ⟨lines other, by omega, by omega⟩)
      · rename_i more
        split
        · rename_i stops
          refine ends_pure ⟨fresh, fun input => ?_⟩
          subst input
          simp [Ending.stops] at stops
        · have front := fresh.at_start (by simpa using more)
          have around : ending.around b ≤ b := by
            cases ending with
            | input => exact Int.le_refl b
            | endKeyword | branchKeyword => exact Int.sub_le_self b (by decide)
          have first := ends_of_imp (ends_statement balanced ctx front) (fun _ _ h => h)
            (fun _ lacks => lacks.of_le around (Int.le_refl k))
          apply ends_bind first
          intro s c' there
          exact ends_bind (ih there) (fun _ _ h => ends_pure h)

theorem balanced_block (ctx : Context) (ending : Ending) :
    BalancedBlock ending (block rules ctx ending) := by
  intro T b k c at_c lines
  apply ends_peek
  apply ends_remaining
  exact ends_bind (ends_statements balanced ctx ending _ at_c lines) (fun _ _ h => ends_pure h)

end

/-- The rules of any depth are balanced: each is made of those of the depth below. -/
theorem rules_balanced (fuel : Nat) : (rules fuel).Balanced := by
  induction fuel with
  | zero =>
      exact
        { expression := fun _ => ends_fail tolerates_lacks (by simp [SyntaxFault.LacksEnd])
          negation := fun _ => ends_fail tolerates_lacks (by simp [SyntaxFault.LacksEnd])
          unary := fun _ => ends_fail tolerates_lacks (by simp [SyntaxFault.LacksEnd])
          block := fun _ _ _ _ _ _ _ _ =>
            ends_fail tolerates_lacks (by simp [SyntaxFault.LacksEnd]) }
  | succ fuel ih =>
      exact
        { expression := balanced_expression ih
          negation := balanced_negation ih
          unary := balanced_unary ih
          block := fun ctx ending => balanced_block ih ctx ending }

end Grammar

end Loom
