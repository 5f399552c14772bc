import Loom.Proofs.Reading.Run
import Loom.Proofs.Reading.Standard

/-!
Expressions that are read keep a standard. The rules that the grammar comes back to are taken
to keep it, level by level, as they are tied together.
-/

namespace Loom

namespace Grammar

/-- Rules of which each gives what is up to a standard. -/
structure Rules.Keep (rules : Rules) (std : Standard) : Prop where
  expression : std.Reads rules.expression std.expr
  negation : std.Reads rules.negation std.expr
  unary : std.Reads rules.unary std.expr
  block : ∀ ctx ending, std.Reads (rules.block ctx ending) (std.block ctx)

variable {std : Standard}

theorem reads_chainFrom {op? : Lexeme → Option BinaryOp} {operand : Parse Expr}
    (each : std.Reads operand std.expr) (n : Nat) (left : Expr) (fine : std.expr left) :
    std.Reads (chainFrom op? operand n left) std.expr := by
  induction n generalizing left with
  | zero => exact reads_pure fine
  | succ n ih =>
      apply reads_bind reads_peek
      intro t token
      split
      · exact reads_pure fine
      · apply reads_after reads_advance
        intro _
        apply reads_after reads_skipNewlines
        intro _
        apply reads_bind each
        intro right fine'
        exact ih _ (std.binary (.of_token token) fine fine')

theorem reads_chain {op? : Lexeme → Option BinaryOp} {operand : Parse Expr}
    (each : std.Reads operand std.expr) : std.Reads (chain op? operand) std.expr := by
  apply reads_bind each
  intro left fine
  apply reads_after reads_peek
  intro t
  split
  · exact reads_after reads_remaining fun n => reads_chainFrom each n left fine
  · exact reads_pure fine

section

variable {rules : Rules} (keep : rules.Keep std)
include keep

theorem reads_wholeExpression : std.Reads (wholeExpression rules) std.expr := by
  apply reads_bind keep.expression
  intro e fine
  apply reads_after reads_peek
  intro t
  split
  · exact reads_pure fine
  · exact reads_failAt _ _

/-- The code of a string is read from tokens of its own. -/
theorem gives_interpolation {t : Token} {written : Text} {parts : List StringPart}
    {source : Text} {loc : Location} (token : std.token t) (is : t.lexeme = .string written parts)
    (among : .code source loc ∈ parts) : std.Gives std.expr (interpolation rules source loc) := by
  rw [interpolation_eq]
  apply gives_bind (gives_tokenize source loc)
  intro tokens cut _
  have read := (reads_wholeExpression keep).gives (std.cut token is among cut)
  exact gives_bind read fun _ _ fine => fine

theorem gives_segments {t : Token} {written : Text} {parts : List StringPart}
    (token : std.token t) (is : t.lexeme = .string written parts) (list : List StringPart)
    (among : list ⊆ parts) :
    std.Gives (fun segments => ∀ e, .code e ∈ segments → std.expr e) (segments rules list) := by
  induction list with
  | nil => exact nofun
  | cons part rest ih =>
      obtain ⟨here, later⟩ := List.cons_subset.mp among
      cases part with
      | text value =>
          apply gives_bind (ih later)
          intro segments _ fine e member
          cases member with
          | tail _ inside => exact fine e inside
      | code source loc =>
          apply gives_bind (gives_interpolation keep token is here)
          intro first _ fine
          apply gives_bind (ih later)
          intro segments _ others e member
          cases member with
          | head => exact fine
          | tail _ inside => exact others e inside

omit keep in
theorem reads_hashKey : std.Reads hashKey fun _ => True := by
  apply reads_after reads_peek
  intro t
  split
  · exact reads_after reads_advance fun _ => reads_pure trivial
  · exact reads_after reads_advance fun _ => reads_pure trivial
  · exact reads_after reads_advance fun _ => reads_pure trivial
  · split
    · exact reads_after reads_advance fun _ => reads_pure trivial
    · exact reads_failAt _ _
  · exact reads_failAt _ _

theorem reads_hashEntry : std.Reads (hashEntry rules) fun entry => std.expr entry.value := by
  apply reads_after reads_hashKey
  intro key
  apply reads_after (reads_expect _ _)
  intro _
  apply reads_after reads_skipNewlines
  intro _
  exact reads_bind keep.expression fun value fine => reads_pure fine

theorem reads_hashEntries :
    std.Reads (hashEntries rules) fun r =>
      (∀ entry ∈ r.1, std.expr entry.value) ∧ Stands std.token r.2 := by
  apply reads_bind (reads_expect _ _)
  intro t token
  apply reads_bind (reads_delimited (reads_hashEntry keep))
  intro entries fine
  exact reads_pure ⟨fine, .of_token token⟩

omit keep in
theorem reads_parameters (taken : List Text) (n : Nat)
    (named : ∀ name ∈ taken, Spells std.token name) :
    std.Reads (parameters taken n) fun names => ∀ name ∈ names, Spells std.token name := by
  induction n generalizing taken with
  | zero => exact reads_pure named
  | succ n ih =>
      apply reads_after (reads_next _)
      intro closed
      cases closed with
      | true => exact reads_pure named
      | false =>
          apply reads_bind (reads_expectName _)
          rintro ⟨name, t⟩ spelled
          have more : ∀ other ∈ taken ++ [name], Spells std.token other :=
            List.forall_mem_append.mpr ⟨named, List.forall_mem_singleton.mpr spelled⟩
          show std.Reads (if taken.contains name then _ else _) _
          split
          · exact reads_failAt _ _
          · apply reads_after reads_skipNewlines
            intro _
            apply reads_after (reads_accept _)
            intro comma
            cases comma with
            | true => exact reads_after reads_skipNewlines fun _ => ih _ more
            | false => exact reads_pure more

omit keep in
theorem reads_sharedNames :
    std.Reads sharedNames fun names => ∀ name ∈ names, Spells std.token name := by
  apply reads_after (reads_accept _)
  intro shared
  cases shared with
  | true =>
      refine reads_of_imp reads_nameList ?_
      rintro _ ⟨_, _, rfl, spelled⟩
      exact spelled
  | false => exact reads_pure (List.forall_mem_nil _)

theorem reads_procedure : std.Reads (procedure rules) std.procedure := by
  apply reads_after (reads_expect _ _)
  intro _
  apply reads_after reads_skipNewlines
  intro _
  apply reads_after reads_remaining
  intro n
  apply reads_bind (reads_parameters [] _ (List.forall_mem_nil _))
  intro params named
  apply reads_after (reads_expect _ _)
  intro _
  apply reads_bind reads_sharedNames
  intro uses shared
  apply reads_after (reads_next _)
  intro short
  cases short with
  | true =>
      apply reads_bind reads_advance
      intro arrow token
      apply reads_bind keep.expression
      intro value fine
      -- the made-up `return` and its block stand where the arrow does, in a function
      have returned : std.stmt .function (.giveBack (some value) arrow.loc) :=
        std.giveBack (.of_token token) rfl (by simpa using fine)
      have body := std.statements (.of_token token) (List.forall_mem_singleton.mpr returned)
      exact reads_pure (std.body named shared body)
  | false =>
      apply reads_after (reads_expect _ _)
      intro _
      apply reads_bind (keep.block .function .endKeyword)
      intro body fine
      apply reads_after (reads_expect _ _)
      intro _
      exact reads_pure (std.body named shared fine)

omit keep in
theorem reads_separator : std.Reads separator fun _ => True := by
  apply reads_after reads_skipNewlines
  intro _
  exact reads_after (reads_expect _ _) fun _ => reads_skipNewlines

theorem reads_choice {loc : Location} (place : Stands std.token loc) :
    std.Reads (choice rules loc) std.expr := by
  apply reads_after (reads_expect _ _)
  intro _
  apply reads_after reads_skipNewlines
  intro _
  apply reads_bind keep.expression
  intro condition first
  apply reads_after reads_separator
  intro _
  apply reads_bind keep.expression
  intro consequent second
  apply reads_after reads_separator
  intro _
  apply reads_bind keep.expression
  intro alternate third
  apply reads_after reads_skipNewlines
  intro _
  apply reads_after (reads_expect _ _)
  intro _
  exact reads_pure (std.choice place first second third)

omit keep in
theorem reads_reference {loc : Location} (place : Stands std.token loc) :
    std.Reads (reference loc) std.expr := by
  apply reads_bind (reads_expectName _)
  rintro ⟨first, t⟩ spelled
  apply reads_after (reads_accept _)
  intro dotted
  cases dotted with
  | true =>
      apply reads_bind (reads_expectName _)
      rintro ⟨name, t'⟩ named
      exact reads_pure (std.ref place named (by simpa using spelled))
  | false => exact reads_pure (std.ref place spelled (by simp))

theorem reads_keywordExpression (word : Keyword) {loc : Location} (place : Stands std.token loc) :
    std.Reads (keywordExpression rules word loc) std.expr := by
  unfold keywordExpression
  split
  · exact reads_after reads_advance fun _ => reads_pure (std.bool place)
  · exact reads_after reads_advance fun _ => reads_pure (std.bool place)
  · exact reads_after reads_advance fun _ => reads_pure (std.null place)
  · apply reads_after reads_advance
    intro _
    apply reads_after (reads_next _)
    intro opened
    cases opened with
    | true =>
        apply reads_bind (reads_hashEntries keep)
        rintro ⟨entries, hashLoc⟩ ⟨fine, there⟩
        exact reads_pure (std.new place there fine)
    | false => exact reads_fail _
  · exact reads_after reads_advance fun _ => reads_reference place
  · apply reads_after reads_advance
    intro _
    apply reads_bind (reads_procedure keep)
    intro p fine
    exact reads_pure (std.lambda place fine)
  · exact reads_after reads_advance fun _ => reads_choice keep place
  · exact reads_failAt _ _

theorem reads_primary : std.Reads (primary rules) std.expr := by
  apply reads_bind reads_peek
  intro t token
  have place : Stands std.token t.loc := .of_token token
  split
  · exact reads_after reads_advance fun _ => reads_pure (std.number place)
  · rename_i parts is
    apply reads_after reads_advance
    intro _
    apply reads_bind (reads_lift (gives_segments keep token is parts (List.Subset.refl parts)))
    intro list fine
    exact reads_pure (std.string place fine)
  · rename_i name is
    exact reads_after reads_advance fun _ => reads_pure (std.ident place ⟨t, token, is⟩)
  · apply reads_after reads_advance
    intro _
    apply reads_after reads_skipNewlines
    intro _
    apply reads_bind keep.expression
    intro e fine
    apply reads_after reads_skipNewlines
    intro _
    exact reads_after (reads_expect _ _) fun _ => reads_pure fine
  · apply reads_after reads_advance
    intro _
    apply reads_bind (reads_delimited keep.expression)
    intro list fine
    exact reads_pure (std.array place fine)
  · apply reads_bind (reads_hashEntries keep)
    rintro ⟨entries, loc⟩ ⟨fine, there⟩
    exact reads_pure (std.hash there fine)
  · exact reads_keywordExpression keep _ place
  · exact reads_failAt _ _

theorem reads_suffixes (n : Nat) (e : Expr) (fine : std.expr e) :
    std.Reads (suffixes rules n e) std.expr := by
  induction n generalizing e with
  | zero => exact reads_pure fine
  | succ n ih =>
      apply reads_bind reads_peek
      intro t token
      have place : Stands std.token t.loc := .of_token token
      split
      · apply reads_after reads_advance
        intro _
        apply reads_bind (reads_delimited keep.expression)
        intro args others
        exact ih _ (std.call place fine others)
      · apply reads_after reads_advance
        intro _
        apply reads_bind (reads_expectName _)
        rintro ⟨name, t'⟩ named
        exact ih _ (std.field place fine named)
      · apply reads_after reads_advance
        intro _
        apply reads_after reads_skipNewlines
        intro _
        apply reads_bind keep.expression
        intro position other
        apply reads_after reads_skipNewlines
        intro _
        apply reads_after (reads_expect _ _)
        intro _
        exact ih _ (std.index place fine other)
      · exact reads_pure fine

theorem reads_access : std.Reads (access rules) std.expr := by
  apply reads_bind (reads_primary keep)
  intro e fine
  apply reads_after reads_peek
  intro t
  split
  · exact reads_after reads_remaining fun n => reads_suffixes keep n e fine
  · exact reads_pure fine

omit keep in
theorem expr_negated {operand : Expr} {loc : Location} (fine : std.expr operand)
    (place : Stands std.token loc) : std.expr (negated operand loc) := by
  cases operand with
  | number value _ => exact std.opposite fine place
  | _ => exact std.unary place fine

theorem reads_unary : std.Reads (unary rules) std.expr := by
  apply reads_bind reads_peek
  intro t token
  split
  · apply reads_after reads_advance
    intro _
    apply reads_bind keep.unary
    intro operand fine
    exact reads_pure (expr_negated fine (.of_token token))
  · exact reads_access keep

theorem reads_comparison : std.Reads (comparison rules) std.expr :=
  reads_chain (reads_chain (reads_chain (reads_unary keep)))

theorem reads_negation : std.Reads (negation rules) std.expr := by
  apply reads_bind reads_peek
  intro t token
  split
  · apply reads_after reads_advance
    intro _
    apply reads_bind keep.negation
    intro operand fine
    exact reads_pure (std.unary (.of_token token) fine)
  · exact reads_comparison keep

theorem reads_expression : std.Reads (expression rules) std.expr :=
  reads_chain (reads_chain (reads_chain (reads_negation keep)))

end

end Grammar

end Loom
