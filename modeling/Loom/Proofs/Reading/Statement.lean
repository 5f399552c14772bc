import Loom.Proofs.Reading.Expression

/-!
Statements that are read keep a standard in the context that they are read in, and so does a
whole program. This is where each check of a context is made use of.
-/

namespace Loom

namespace Grammar

variable {std : Standard}

section

variable {rules : Rules} (keep : rules.Keep std) {loc : Location} (place : Stands std.token loc)
include keep place

theorem reads_definition (ctx : Context) :
    std.Reads (definition rules loc) (std.stmt ctx) := by
  apply reads_bind (reads_expectName _)
  rintro ⟨name, t⟩ named
  apply reads_bind (reads_procedure keep)
  intro p fine
  apply reads_after reads_endStatement
  intro _
  exact reads_pure (std.define place named fine)

omit place in
theorem reads_branch (ctx : Context) :
    std.Reads (branch rules ctx) fun b =>
      std.expr b.condition ∧ std.block ctx.branch b.body := by
  apply reads_bind keep.expression
  intro condition fine
  apply reads_after (reads_expect _ _)
  intro _
  apply reads_bind (keep.block ctx.branch .branchKeyword)
  intro body inside
  exact reads_pure ⟨fine, inside⟩

omit place in
theorem reads_moreBranches (ctx : Context) (n : Nat) :
    std.Reads (moreBranches rules ctx n) fun list =>
      ∀ b ∈ list, std.expr b.condition ∧ std.block ctx.branch b.body := by
  induction n with
  | zero => exact reads_pure (List.forall_mem_nil _)
  | succ n ih =>
      apply reads_after (reads_accept _)
      intro more
      cases more with
      | true =>
          apply reads_bind (reads_branch keep ctx)
          intro b fine
          apply reads_bind ih
          intro rest others
          exact reads_pure (List.forall_mem_cons.mpr ⟨fine, others⟩)
      | false => exact reads_pure (List.forall_mem_nil _)

omit place in
theorem reads_alternative (ctx : Context) :
    std.Reads (alternative rules ctx) fun b? => ∀ b ∈ b?, std.block ctx.branch b := by
  apply reads_after (reads_accept _)
  intro found
  cases found with
  | true =>
      apply reads_after (reads_expect _ _)
      intro _
      apply reads_bind (keep.block ctx.branch .endKeyword)
      intro body fine
      exact reads_pure (by simpa using fine)
  | false => exact reads_pure (by simp)

theorem reads_conditional (ctx : Context) :
    std.Reads (conditional rules ctx loc) (std.stmt ctx) := by
  apply reads_bind (reads_branch keep ctx)
  intro first fine
  apply reads_after reads_remaining
  intro n
  apply reads_bind (reads_moreBranches keep ctx n)
  intro others fine'
  apply reads_bind (reads_alternative keep ctx)
  intro alternate inside
  apply reads_after (reads_expect _ _)
  intro _
  apply reads_after reads_endStatement
  intro _
  exact reads_pure (std.cond place (List.forall_mem_cons.mpr ⟨fine, fine'⟩) inside)

omit keep place in
theorem reads_namedAs (what : Expected) :
    std.Reads (namedAs what) fun name? => ∀ name ∈ name?, Spells std.token name := by
  apply reads_after (reads_accept _)
  intro found
  cases found with
  | true =>
      apply reads_bind (reads_expectName _)
      rintro ⟨name, t⟩ named
      exact reads_pure (by simpa using named)
  | false => exact reads_pure (by simp)

theorem reads_loop (ctx : Context) : std.Reads (loop rules ctx loc) (std.stmt ctx) := by
  apply reads_bind keep.expression
  intro subject fine
  apply reads_bind (reads_namedAs _)
  intro item? named
  apply reads_after (reads_expect _ _)
  intro _
  apply reads_bind (keep.block ctx.loop .endKeyword)
  intro body inside
  apply reads_after (reads_expect _ _)
  intro _
  apply reads_after reads_endStatement
  intro _
  cases item? with
  | some item => exact reads_pure (std.forEach place (named item rfl) fine inside)
  | none => exact reads_pure (std.whileLoop place fine inside)

omit keep place in
theorem reads_loopDepth : std.Reads loopDepth LoopCount := by
  apply reads_after reads_peek
  intro t
  split
  · apply reads_after reads_advance
    intro _
    split
    · rename_i whole
      exact reads_pure (.literal whole)
    · exact reads_failAt _ _
  · exact reads_pure .one

omit keep place in
theorem reads_loopControl (ctx : Context) (word : Keyword) (loc : Location) :
    std.Reads (loopControl ctx word loc) fun depth =>
      LoopCount depth ∧ depth ≤ ctx.loopDepth := by
  apply reads_bind reads_loopDepth
  intro depth counts
  by_cases few : ctx.loopDepth < depth
  · simp only [few, if_true]
    split
    · exact reads_failAt _ _
    · exact reads_failAt _ _
  · simp only [few, if_false]
    apply reads_after reads_endStatement
    intro _
    exact reads_pure ⟨counts, Nat.le_of_not_lt few⟩

omit place in
theorem reads_returnedValue :
    std.Reads (returnedValue rules) fun value => ∀ e ∈ value, std.expr e := by
  apply reads_after reads_peek
  intro t
  split
  · exact reads_pure (by simp)
  · apply reads_bind keep.expression
    intro e fine
    exact reads_pure (by simpa using fine)

theorem reads_returning (ctx : Context) : std.Reads (returning rules ctx loc) (std.stmt ctx) := by
  unfold returning
  cases inside : ctx.inFunction with
  | false => exact reads_failAt _ _
  | true =>
      apply reads_bind (reads_returnedValue keep)
      intro value fine
      apply reads_after reads_endStatement
      intro _
      exact reads_pure (std.giveBack place inside fine)

theorem reads_emission (ctx : Context) : std.Reads (emission rules loc) (std.stmt ctx) := by
  apply reads_bind keep.expression
  intro value fine
  apply reads_bind (reads_namedAs _)
  intro key named
  apply reads_after reads_endStatement
  intro _
  exact reads_pure (std.emit place fine named)

omit keep in
theorem reads_sharing (ctx : Context) : std.Reads (sharing ctx loc) (std.stmt ctx) := by
  unfold sharing
  cases top : ctx.scopeRoot with
  | false => exact reads_failAt _ _
  | true =>
      apply reads_bind reads_nameList
      rintro _ ⟨first, others, rfl, spelled⟩
      apply reads_after reads_endStatement
      intro _
      exact reads_pure (std.use place top spelled)

omit keep in
theorem reads_importing (ctx : Context) : std.Reads (importing ctx loc) (std.stmt ctx) := by
  unfold importing
  cases top : ctx.topLevel with
  | false => exact reads_failAt _ _
  | true =>
      apply reads_after (reads_accept _)
      intro native
      apply reads_bind reads_nameList
      rintro _ ⟨first, others, rfl, spelled⟩
      apply reads_after reads_endStatement
      intro _
      exact reads_pure (std.imports place top spelled)

omit place in
theorem reads_assignmentOrCall (ctx : Context) :
    std.Reads (assignmentOrCall rules) (std.stmt ctx) := by
  apply reads_bind reads_peek
  intro start token
  have place : Stands std.token start.loc := .of_token token
  apply reads_bind (reads_expression keep)
  intro e fine
  apply reads_after reads_peek
  intro t
  split
  · apply reads_after reads_advance
    intro _
    split
    · exact reads_failAt _ _
    · rename_i target found
      apply reads_after reads_skipNewlines
      intro _
      apply reads_bind keep.expression
      intro value fine'
      apply reads_after reads_endStatement
      intro _
      exact reads_pure (std.assign place fine found fine')
  · split
    · apply reads_after reads_endStatement
      intro _
      exact reads_pure (std.perform place fine)
    · exact reads_failAt _ _

omit place in
theorem reads_statement (ctx : Context) : std.Reads (statement rules ctx) (std.stmt ctx) := by
  -- by the first word; a statement without one assigns or calls
  apply reads_bind reads_peek
  intro t token
  have place : Stands std.token t.loc := .of_token token
  split
  · apply reads_after reads_peekSecond
    intro second
    split
    · exact reads_after reads_advance fun _ => reads_definition keep place ctx
    · exact reads_failAt _ _
  · exact reads_after reads_advance fun _ => reads_conditional keep place ctx
  · exact reads_after reads_advance fun _ => reads_loop keep place ctx
  · apply reads_after reads_advance
    intro _
    apply reads_bind (reads_loopControl ctx .breakKw t.loc)
    intro depth fits
    exact reads_pure (std.leave place fits.1 fits.2)
  · apply reads_after reads_advance
    intro _
    apply reads_bind (reads_loopControl ctx .continueKw t.loc)
    intro depth fits
    exact reads_pure (std.next place fits.1 fits.2)
  · exact reads_after reads_advance fun _ => reads_returning keep place ctx
  · exact reads_after reads_advance fun _ => reads_emission keep place ctx
  · exact reads_after reads_advance fun _ => reads_sharing place ctx
  · exact reads_after reads_advance fun _ => reads_importing place ctx
  · exact reads_assignmentOrCall keep ctx

omit place in
theorem reads_statements (ctx : Context) (ending : Ending) (n : Nat) :
    std.Reads (statements rules ctx ending n) fun list => ∀ s ∈ list, std.stmt ctx s := by
  induction n with
  | zero => exact reads_fail _
  | succ n ih =>
      apply reads_after reads_skipNewlines
      intro _
      apply reads_after reads_peek
      intro t
      split
      · split
        · exact reads_pure (List.forall_mem_nil _)
        · exact reads_failAt _ _
      · split
        · exact reads_pure (List.forall_mem_nil _)
        · apply reads_bind (reads_statement keep ctx)
          intro first fine
          apply reads_bind ih
          intro rest others
          exact reads_pure (List.forall_mem_cons.mpr ⟨fine, others⟩)

omit place in
theorem reads_block (ctx : Context) (ending : Ending) :
    std.Reads (block rules ctx ending) (std.block ctx) := by
  apply reads_bind reads_peek
  intro t token
  apply reads_after reads_remaining
  intro n
  apply reads_bind (reads_statements keep ctx ending (n + 1))
  intro list fine
  exact reads_pure (std.statements (.of_token token) fine)

end

/-- The rules of any depth keep a standard: each is made of those of the depth below. -/
theorem rules_keep (std : Standard) (fuel : Nat) : (rules fuel).Keep std := by
  induction fuel with
  | zero =>
      exact
        { expression := reads_fail _
          negation := reads_fail _
          unary := reads_fail _
          block := fun _ _ => reads_fail _ }
  | succ fuel ih =>
      exact
        { expression := reads_expression ih
          negation := reads_negation ih
          unary := reads_unary ih
          block := reads_block ih }

theorem reads_program {rules : Rules} (keep : rules.Keep std) :
    std.Reads (program rules) fun p => std.block .program ⟨p.statements, p.loc⟩ := by
  apply reads_bind (reads_block keep .program .input)
  rintro ⟨list, loc⟩ fine
  exact reads_pure fine

/-- If the tokens of a text are up to a standard, then so is what the text is read as, or the fault
that is found with it. -/
theorem gives_parse {source : Text} (ahead : ∀ tokens, tokenize source .origin = .ok tokens →
    (Cursor.ofTokens tokens).Ahead std.token) :
    std.Gives (fun p => std.block .program ⟨p.statements, p.loc⟩) (parse source) := by
  apply gives_bind (gives_tokenize source .origin)
  intro tokens cut _
  have read := reads_program (rules_keep std (source.length + 1))
  exact gives_bind (read.gives (ahead tokens cut)) fun _ _ fine => fine

end Grammar

end Loom
