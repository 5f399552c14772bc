import Loom.Proofs.Progress.Cursor

/-!
Expressions take tokens. Each rule of expressions is the same whichever way the rules are tied
together, if they are alike behind the first token and in the code of literals; what it reads
as an expression it has taken at least one token for.
-/

namespace Loom

namespace Grammar

variable {α β : Type} {w : Faults} {P : Cursor → Prop} {rules rules' : Rules} {c : Cursor}

/-- Rules that are alike where `P` holds. -/
structure Rules.AlikeAt (w : Faults) (P : Cursor → Prop) (rules rules' : Rules) : Prop where
  expression : ∀ c, P c → Alike w (fun _ d => c.Before d) (rules.expression c)
    (rules'.expression c)
  negation : ∀ c, P c → Alike w (fun _ d => c.Before d) (rules.negation c) (rules'.negation c)
  unary : ∀ c, P c → Alike w (fun _ d => c.Before d) (rules.unary c) (rules'.unary c)
  block : ∀ ctx ending c, P c →
    Alike w (fun _ d => c.Upto d) (rules.block ctx ending c) (rules'.block ctx ending c)

section

variable {op? : Lexeme → Option BinaryOp} {operand operand' : Parse Expr}

theorem alike_chainFrom
    (each : ∀ d, c.Upto d → Alike w (fun _ e => d.Before e) (operand d) (operand' d)) (n : Nat)
    (left : Expr) {d : Cursor} (on : c.Before d) :
    Alike w (fun _ e => c.Before e) (chainFrom op? operand n left d)
      (chainFrom op? operand' n left d) := by
  induction n generalizing left d with
  | zero => exact alike_pure on
  | succ n ih =>
      apply alike_peek
      cases is : op? d.head.lexeme with
      | none => exact alike_pure on
      | some op =>
          have further := (on.upto (Cursor.upto_tail d)).upto (Cursor.upto_skip _)
          apply alike_advance
          apply alike_skipNewlines
          refine alike_bind (each _ further.toUpto) fun right e more => ?_
          exact ih _ (further.trans more)

theorem alike_chain
    (each : ∀ d, c.Upto d → Alike w (fun _ e => d.Before e) (operand d) (operand' d)) :
    Alike w (fun _ d => c.Before d) (chain op? operand c) (chain op? operand' c) := by
  refine alike_bind (each c (.refl c)) fun left d on => ?_
  apply alike_peek
  by_cases more : (op? d.head.lexeme).isSome = true
  · rw [if_pos more, if_pos more]
    apply alike_remaining
    exact alike_chainFrom each _ _ on
  · rw [if_neg more, if_neg more]
    exact alike_pure on

end

/-- The same outcome, where a fault is one of those that there may be. -/
def AlikeOutcome (w : Faults) (x x' : Except Diagnostic α) : Prop :=
  x' = x ∧ ∀ d, x = .error d → w.bad d

theorem alikeOutcome_bind {x x' : Except Diagnostic α} {f f' : α → Except Diagnostic β}
    (first : AlikeOutcome w x x') (rest : ∀ a, x = .ok a → AlikeOutcome w (f a) (f' a)) :
    AlikeOutcome w (x >>= f) (x' >>= f') := by
  obtain ⟨rfl, faults⟩ := first
  cases x' with
  | ok a => exact rest a rfl
  | error d =>
      refine ⟨rfl, ?_⟩
      rintro _ ⟨⟩
      exact faults d rfl

theorem alikeOutcome_ok (a : α) : AlikeOutcome w (.ok a) (.ok a) := by
  refine ⟨rfl, ?_⟩
  rintro _ ⟨⟩

theorem Alike.outcome {ok : α → Cursor → Prop} {x x' : Except Diagnostic (α × Cursor)}
    (alike : Alike w ok x x') : AlikeOutcome w x x' := by
  refine ⟨alike.1, ?_⟩
  rintro d rfl
  exact alike.2

theorem alike_lift {ok : β → Cursor → Prop} {x x' : Except Diagnostic α} {f f' : α → Parse β}
    (first : AlikeOutcome w x x') (rest : ∀ a, Alike w ok (f a c) (f' a c)) :
    Alike w ok (((liftM x : Parse α) >>= f) c) (((liftM x' : Parse α) >>= f') c) := by
  obtain ⟨rfl, faults⟩ := first
  cases x' with
  | ok a => exact rest a
  | error d => exact ⟨rfl, faults d rfl⟩

section

variable (alike : rules.AlikeAt w P rules')
include alike

/-- Code is read alike by rules that are alike at its front. -/
theorem alike_interpolation {source : Text} {loc : Location} (fine : w.place loc)
    (front : ∀ tokens, tokenize source loc = .ok tokens → P (.ofTokens tokens)) :
    AlikeOutcome w (interpolation rules source loc) (interpolation rules' source loc) := by
  rw [interpolation_eq, interpolation_eq]
  refine alikeOutcome_bind ⟨rfl, fun d failed => bad_of_tokenize failed fine⟩ fun tokens cut => ?_
  have placed := placed_ofTokens cut fine
  have whole : Alike w (fun _ _ => True) (wholeExpression rules (.ofTokens tokens))
      (wholeExpression rules' (.ofTokens tokens)) := by
    refine alike_bind (alike.expression _ (front tokens cut)) fun e d on => ?_
    apply alike_peek
    split
    · exact alike_pure trivial
    · exact alike_failAt nofun (placed.upto on.toUpto).head
  exact alikeOutcome_bind whole.outcome fun r _ => alikeOutcome_ok r.1

theorem alike_segments {parts : List StringPart}
    (fine : ∀ code loc, .code code loc ∈ parts → w.place loc)
    (front : ∀ code loc tokens, .code code loc ∈ parts → tokenize code loc = .ok tokens →
      P (.ofTokens tokens)) :
    AlikeOutcome w (segments rules parts) (segments rules' parts) := by
  induction parts with
  | nil => exact alikeOutcome_ok []
  | cons part parts ih =>
      have later := ih (fun code loc among => fine code loc (.tail _ among))
        fun code loc tokens among => front code loc tokens (.tail _ among)
      cases part with
      | text value => exact alikeOutcome_bind later fun list _ => alikeOutcome_ok _
      | code source loc =>
          have here := alike_interpolation alike (fine source loc (.head _))
            fun tokens => front source loc tokens (.head _)
          exact alikeOutcome_bind here fun e _ =>
            alikeOutcome_bind later fun list _ => alikeOutcome_ok _

omit alike in
theorem alike_hashKey (placed : c.Placed w) :
    Alike w (fun _ d => c.Before d) (hashKey c) (hashKey c) := by
  apply alike_peek
  have before {lexeme : Lexeme} (is : c.head.lexeme = lexeme) (solid : lexeme ≠ .eof) :
      c.Before c.tail := Cursor.before_tail (is ▸ solid)
  cases is : c.head.lexeme with
  | ident name => exact alike_advance (alike_pure (before is nofun))
  | keyword word => exact alike_advance (alike_pure (before is nofun))
  | number digits => exact alike_advance (alike_pure (before is nofun))
  | string written parts =>
      cases plain : plainText? parts with
      | some key =>
          simp only [plain]
          exact alike_advance (alike_pure (before is nofun))
      | none =>
          simp only [plain]
          exact alike_failAt nofun placed.head
  | symbol _ | newline | eof => exact alike_failAt nofun placed.head

theorem alike_hashEntry (o : c.Open w P) :
    Alike w (fun _ d => c.Before d) (hashEntry rules c) (hashEntry rules' c) := by
  refine alike_bind (alike_hashKey o.placed) fun key d on => ?_
  refine alike_expectSymbol (o.before on).placed.head fun colon => ?_
  have behind := (on.trans colon).upto (Cursor.upto_skip _)
  apply alike_skipNewlines
  refine alike_bind (alike.expression _ (o.call behind)) fun value e more => ?_
  exact alike_pure (behind.trans more)

theorem alike_hashEntries (o : c.Open w P) :
    Alike w (fun _ d => c.Before d) (hashEntries rules c) (hashEntries rules' c) := by
  refine alike_expectSymbol o.placed.head fun brace => ?_
  have inside := o.before brace
  refine alike_bind (alike_delimited inside.placed fun d on => ?_) fun entries d on => ?_
  · exact (alike_hashEntry alike (inside.upto on)).imp fun _ _ more => more.toUpto
  · exact alike_pure (brace.trans on)

/-- Expressions with commas between them, behind the symbol that opens a bracket. -/
theorem alike_expressions {opened : Cursor} (o : c.Open w P) (on : c.Before opened)
    {close : Symbol} {what : Expected} :
    Alike w (fun _ d => c.Before d) (delimited close what rules.expression opened)
      (delimited close what rules'.expression opened) := by
  refine (alike_delimited (o.before on).placed fun d more => ?_).imp fun _ _ more => on.trans more
  exact (alike.expression d (o.call (on.upto more))).imp fun _ _ more => more.toUpto

omit alike in
theorem alike_parameters (taken : List Text) (n : Nat) (placed : c.Placed w) {d : Cursor}
    (on : c.Upto d) :
    Alike w (fun _ e => c.Upto e) (parameters taken n d) (parameters taken n d) := by
  induction n generalizing taken d with
  | zero => exact alike_pure on
  | succ n ih =>
      apply alike_next
      · intro _
        exact alike_pure on
      · intro _
        refine alike_expectName (placed.upto on).head fun name named => ?_
        show Alike w _ ((if taken.contains name then _ else _ : Parse (List Text)) d.tail)
          ((if taken.contains name then _ else _ : Parse (List Text)) d.tail)
        split
        · exact alike_failAt nofun (placed.upto on).head
        · have there := (on.trans named.toUpto).trans (Cursor.upto_skip _)
          apply alike_skipNewlines
          apply alike_acceptSymbol
          · intro comma
            apply alike_skipNewlines
            exact ih _ ((there.trans comma.toUpto).trans (Cursor.upto_skip _))
          · exact alike_pure there

omit alike in
theorem alike_sharedNames (placed : c.Placed w) :
    Alike w (fun _ d => c.Upto d) (sharedNames c) (sharedNames c) := by
  apply alike_acceptKeyword
  · intro on
    exact (alike_nameList (placed.upto on.toUpto)).imp fun _ _ more => (on.trans more).toUpto
  · exact alike_pure (.refl c)

theorem alike_procedure (o : c.Open w P) :
    Alike w (fun _ d => c.Before d) (procedure rules c) (procedure rules' c) := by
  refine alike_expectSymbol o.placed.head fun opened => ?_
  have inside := opened.upto (Cursor.upto_skip _)
  apply alike_skipNewlines
  apply alike_remaining
  refine alike_bind (alike_parameters [] _ (o.before inside).placed (.refl _)) fun params d on => ?_
  have listed := inside.upto on
  refine alike_expectSymbol (o.before listed).placed.head fun closed => ?_
  have behind := listed.trans closed
  refine alike_bind (alike_sharedNames (o.before behind).placed) fun uses e more => ?_
  have begun := behind.upto more
  apply alike_next
  · intro is
    have body := begun.trans (Cursor.before_tail (is ▸ nofun))
    apply alike_advance
    refine alike_bind (alike.expression _ (o.call body)) fun value f further => ?_
    exact alike_pure (body.trans further)
  · intro _
    refine alike_expectNewline (o.before begun).placed.head fun line => ?_
    have body := begun.trans line
    refine alike_bind (alike.block _ _ _ (o.call body)) fun b f further => ?_
    have ended := body.upto further
    refine alike_expectKeyword (o.before ended).placed.head fun word => ?_
    exact alike_pure (ended.trans word)

omit alike in
theorem alike_separator (placed : c.Placed w) :
    Alike w (fun _ d => c.Before d) (separator c) (separator c) := by
  have lines := Cursor.upto_skip c
  apply alike_skipNewlines
  refine alike_expectSymbol (placed.upto lines).head fun comma => ?_
  exact ⟨rfl, (lines.before comma).upto (Cursor.upto_skip _)⟩

theorem alike_choice (loc : Location) (o : c.Open w P) :
    Alike w (fun _ d => c.Before d) (choice rules loc c) (choice rules' loc c) := by
  refine alike_expectSymbol o.placed.head fun opened => ?_
  have first := opened.upto (Cursor.upto_skip _)
  apply alike_skipNewlines
  refine alike_bind (alike.expression _ (o.call first)) fun condition d on => ?_
  have asked := first.trans on
  refine alike_bind (alike_separator (o.before asked).placed) fun _ d on => ?_
  have second := asked.trans on
  refine alike_bind (alike.expression _ (o.call second)) fun consequent d on => ?_
  have chosen := second.trans on
  refine alike_bind (alike_separator (o.before chosen).placed) fun _ d on => ?_
  have third := chosen.trans on
  refine alike_bind (alike.expression _ (o.call third)) fun alternate d on => ?_
  have behind := (third.trans on).upto (Cursor.upto_skip _)
  apply alike_skipNewlines
  refine alike_expectSymbol (o.before behind).placed.head fun closed => ?_
  exact alike_pure (behind.trans closed)

omit alike in
theorem alike_reference (loc : Location) (placed : c.Placed w) :
    Alike w (fun _ d => c.Before d) (reference loc c) (reference loc c) := by
  refine alike_expectName placed.head fun first on => ?_
  apply alike_acceptSymbol
  · intro dot
    have behind := on.trans dot
    refine alike_expectName (placed.upto behind.toUpto).head fun name more => ?_
    exact alike_pure (behind.trans more)
  · exact alike_pure on

theorem alike_keywordExpression {word : Keyword} {loc : Location}
    (is : c.head.lexeme = .keyword word) (fine : w.place loc) (o : c.Open w P) :
    Alike w (fun _ d => c.Before d) (keywordExpression rules word loc c)
      (keywordExpression rules' word loc c) := by
  have on : c.Before c.tail := Cursor.before_tail (is ▸ nofun)
  have behind := o.before on
  unfold keywordExpression
  split
  · exact alike_advance (alike_pure on)
  · exact alike_advance (alike_pure on)
  · exact alike_advance (alike_pure on)
  · apply alike_advance
    apply alike_next
    · intro _
      refine alike_bind (alike_hashEntries alike behind) fun r d more => ?_
      exact alike_pure (on.trans more)
    · intro _
      exact alike_peek (alike_failAt nofun behind.placed.head)
  · apply alike_advance
    exact (alike_reference loc behind.placed).imp fun _ _ more => on.trans more
  · apply alike_advance
    refine alike_bind (alike_procedure alike behind) fun p d more => ?_
    exact alike_pure (on.trans more)
  · apply alike_advance
    exact (alike_choice alike loc behind).imp fun _ _ more => on.trans more
  · exact alike_failAt nofun fine

theorem alike_primary (o : c.Open w P) :
    Alike w (fun _ d => c.Before d) (primary rules c) (primary rules' c) := by
  apply alike_peek
  have before {lexeme : Lexeme} (is : c.head.lexeme = lexeme) (solid : lexeme ≠ .eof) :
      c.Before c.tail := Cursor.before_tail (is ▸ solid)
  cases is : c.head.lexeme with
  | number digits => exact alike_advance (alike_pure (before is nofun))
  | string written parts =>
      have on := before is nofun
      have among : c.head ∈ c.tokens := Cursor.head_mem (Cursor.tokens_ne_nil (is ▸ nofun))
      have read := alike_segments alike
        (fun code loc => (o.placed.tokens _ among).2 written parts code loc is)
        fun code loc tokens part cut => o.within _ (.inr ⟨_, among, .intro is part cut⟩)
      apply alike_advance
      exact alike_lift read fun list => alike_pure on
  | ident name => exact alike_advance (alike_pure (before is nofun))
  | keyword word => exact alike_keywordExpression alike is o.placed.head o
  | symbol s =>
      have on := before is nofun
      cases s with
      | openParen =>
          have inside := on.upto (Cursor.upto_skip _)
          apply alike_advance
          apply alike_skipNewlines
          refine alike_bind (alike.expression _ (o.call inside)) fun e d on => ?_
          have behind := (inside.trans on).upto (Cursor.upto_skip _)
          apply alike_skipNewlines
          refine alike_expectSymbol (o.before behind).placed.head fun closed => ?_
          exact alike_pure (behind.trans closed)
      | openBracket =>
          apply alike_advance
          exact alike_bind (alike_expressions alike o on) fun list d on => alike_pure on
      | openBrace => exact alike_bind (alike_hashEntries alike o) fun r d on => alike_pure on
      | _ => exact alike_failAt nofun o.placed.head
  | newline | eof => exact alike_failAt nofun o.placed.head

theorem alike_suffixes (o : c.Open w P) (n : Nat) (e : Expr) {d : Cursor} (on : c.Before d) :
    Alike w (fun _ f => c.Before f) (suffixes rules n e d) (suffixes rules' n e d) := by
  induction n generalizing e d with
  | zero => exact alike_pure on
  | succ n ih =>
      have behind := on.upto (Cursor.upto_tail d)
      apply alike_peek
      by_cases call : d.head.lexeme = .symbol .openParen
      · rw [call]
        apply alike_advance
        refine alike_bind (alike_expressions alike o behind) fun args f more => ?_
        exact ih _ more
      by_cases field : d.head.lexeme = .symbol .dot
      · rw [field]
        apply alike_advance
        refine alike_expectName (o.before behind).placed.head fun name more => ?_
        exact ih _ (behind.trans more)
      by_cases index : d.head.lexeme = .symbol .openBracket
      · rw [index]
        have inside := behind.upto (Cursor.upto_skip _)
        apply alike_advance
        apply alike_skipNewlines
        refine alike_bind (alike.expression _ (o.call inside)) fun position f more => ?_
        have closing := (inside.trans more).upto (Cursor.upto_skip _)
        apply alike_skipNewlines
        refine alike_expectSymbol (o.before closing).placed.head fun closed => ?_
        exact ih _ (closing.trans closed)
      · cases is : d.head.lexeme with
        | symbol s => cases s <;> first | exact alike_pure on | contradiction
        | _ => exact alike_pure on

theorem alike_access (o : c.Open w P) :
    Alike w (fun _ d => c.Before d) (access rules c) (access rules' c) := by
  refine alike_bind (alike_primary alike o) fun e d on => ?_
  apply alike_peek
  split
  · apply alike_remaining
    exact alike_suffixes alike o _ _ on
  · exact alike_pure on

theorem alike_unary (o : c.Open w P) :
    Alike w (fun _ d => c.Before d) (unary rules c) (unary rules' c) := by
  apply alike_peek
  split
  · rename_i minus
    have on := Cursor.before_tail (c := c) (beq_iff_eq.mp minus ▸ nofun)
    apply alike_advance
    refine alike_bind (alike.unary _ (o.call on)) fun operand d more => ?_
    exact alike_pure (on.trans more)
  · exact alike_access alike o

theorem alike_product (o : c.Open w P) :
    Alike w (fun _ d => c.Before d) (product rules c) (product rules' c) :=
  alike_chain fun _ on => alike_unary alike (o.upto on)

theorem alike_sum (o : c.Open w P) :
    Alike w (fun _ d => c.Before d) (sum rules c) (sum rules' c) :=
  alike_chain fun _ on => alike_product alike (o.upto on)

theorem alike_comparison (o : c.Open w P) :
    Alike w (fun _ d => c.Before d) (comparison rules c) (comparison rules' c) :=
  alike_chain fun _ on => alike_sum alike (o.upto on)

theorem alike_negation (o : c.Open w P) :
    Alike w (fun _ d => c.Before d) (negation rules c) (negation rules' c) := by
  apply alike_peek
  split
  · rename_i word
    have on := Cursor.before_tail (c := c) (beq_iff_eq.mp word ▸ nofun)
    apply alike_advance
    refine alike_bind (alike.negation _ (o.call on)) fun operand d more => ?_
    exact alike_pure (on.trans more)
  · exact alike_comparison alike o

theorem alike_conjunction (o : c.Open w P) :
    Alike w (fun _ d => c.Before d) (conjunction rules c) (conjunction rules' c) :=
  alike_chain fun _ on => alike_negation alike (o.upto on)

theorem alike_disjunction (o : c.Open w P) :
    Alike w (fun _ d => c.Before d) (disjunction rules c) (disjunction rules' c) :=
  alike_chain fun _ on => alike_conjunction alike (o.upto on)

theorem alike_expression (o : c.Open w P) :
    Alike w (fun _ d => c.Before d) (expression rules c) (expression rules' c) :=
  alike_chain fun _ on => alike_disjunction alike (o.upto on)

end

end Grammar

end Loom
