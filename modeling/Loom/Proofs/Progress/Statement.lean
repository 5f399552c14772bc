import Loom.Proofs.Progress.Expression

/-!
Statements take tokens, and a run of statements goes on until its ending is in front. The
bound on its passes is never met, so that all the faults are those of the grammar.
-/

namespace Loom

namespace Grammar

variable {w : Faults} {P : Cursor → Prop} {rules rules' : Rules} {c d : Cursor}

theorem alike_namedAs {what : Expected} (placed : c.Placed w) :
    Alike w (fun _ d => c.Upto d) (namedAs what c) (namedAs what c) := by
  apply alike_acceptKeyword
  · intro on
    refine alike_expectName (placed.upto on.toUpto).head fun name more => ?_
    exact alike_pure (on.trans more).toUpto
  · exact alike_pure (.refl c)

theorem alike_loopDepth (placed : c.Placed w) :
    Alike w (fun _ d => c.Upto d) (loopDepth c) (loopDepth c) := by
  apply alike_peek
  cases is : c.head.lexeme with
  | number digits =>
      apply alike_advance
      cases wholeOf? (Decimal.literalValue digits) with
      | none => exact alike_failAt nofun placed.head
      | some depth =>
          rcases depth with (_ | depth) | _
          · exact alike_failAt nofun placed.head
          · exact alike_pure (Cursor.upto_tail c)
          · exact alike_failAt nofun placed.head
  | _ => exact alike_pure (.refl c)

/-! What stands behind the word that a statement begins with. -/

section

variable (placed : c.Placed w) (on : c.Before d)
include placed on

/-- A statement is given behind its line end. -/
theorem alike_line {α : Type} (a : α) :
    Alike w (fun _ e => c.Before e) ((endStatement >>= fun _ => pure a : Parse α) d)
      ((endStatement >>= fun _ => pure a : Parse α) d) := by
  refine alike_bind (alike_endStatement (placed.upto on.toUpto)) fun _ e more => ?_
  exact alike_pure (on.upto more)

theorem alike_loopControl (ctx : Context) (word : Keyword) {loc : Location}
    (fine : w.place loc) :
    Alike w (fun _ e => c.Before e) (loopControl ctx word loc d)
      (loopControl ctx word loc d) := by
  refine alike_bind (alike_loopDepth (placed.upto on.toUpto)) fun depth e more => ?_
  split
  · split
    · exact alike_failAt nofun fine
    · exact alike_failAt nofun fine
  · exact alike_line placed (on.upto more) depth

theorem alike_names {stmt : List Text → Stmt} :
    Alike w (fun _ e => c.Before e)
      ((nameList >>= fun names => endStatement >>= fun _ => pure (stmt names) : Parse Stmt) d)
      ((nameList >>= fun names => endStatement >>= fun _ => pure (stmt names) : Parse Stmt) d) :=
  alike_bind (alike_nameList (placed.upto on.toUpto)) fun names _ more =>
    alike_line placed (on.trans more) (stmt names)

theorem alike_sharing (ctx : Context) {loc : Location} (fine : w.place loc) :
    Alike w (fun _ e => c.Before e) (sharing ctx loc d) (sharing ctx loc d) := by
  unfold sharing
  split
  · exact alike_failAt nofun fine
  · exact alike_names placed on

theorem alike_importing (ctx : Context) {loc : Location} (fine : w.place loc) :
    Alike w (fun _ e => c.Before e) (importing ctx loc d) (importing ctx loc d) := by
  unfold importing
  split
  · exact alike_failAt nofun fine
  · apply alike_acceptKeyword
    · intro native
      exact alike_names placed (on.trans native)
    · exact alike_names placed on

end

section

variable (alike : rules.AlikeAt w P rules') (o : c.Open w P) (on : c.Before d)
include alike o on

theorem alike_definition (loc : Location) :
    Alike w (fun _ e => c.Before e) (definition rules loc d) (definition rules' loc d) := by
  have behind := o.before on
  refine alike_expectName behind.placed.head fun name named => ?_
  refine alike_bind (alike_procedure alike (behind.before named)) fun p e more => ?_
  exact alike_line o.placed ((on.trans named).trans more) _

theorem alike_branch (ctx : Context) :
    Alike w (fun _ e => c.Before e) (branch rules ctx d) (branch rules' ctx d) := by
  refine alike_bind (alike.expression d (o.call on)) fun condition e more => ?_
  have asked := on.trans more
  refine alike_expectNewline (o.before asked).placed.head fun line => ?_
  have begun := asked.trans line
  refine alike_bind (alike.block _ _ _ (o.call begun)) fun body f further => ?_
  exact alike_pure (begun.upto further)

theorem alike_moreBranches (ctx : Context) (n : Nat) :
    Alike w (fun _ e => c.Before e) (moreBranches rules ctx n d)
      (moreBranches rules' ctx n d) := by
  induction n generalizing d with
  | zero => exact alike_pure on
  | succ n ih =>
      apply alike_acceptKeyword
      · intro word
        refine alike_bind (alike_branch alike o (on.trans word) ctx) fun first e more => ?_
        exact alike_bind (ih more) fun rest f further => alike_pure further
      · exact alike_pure on

theorem alike_alternative (ctx : Context) :
    Alike w (fun _ e => c.Before e) (alternative rules ctx d) (alternative rules' ctx d) := by
  apply alike_acceptKeyword
  · intro word
    have behind := on.trans word
    refine alike_expectNewline (o.before behind).placed.head fun line => ?_
    have begun := behind.trans line
    refine alike_bind (alike.block _ _ _ (o.call begun)) fun body e more => ?_
    exact alike_pure (begun.upto more)
  · exact alike_pure on

theorem alike_conditional (ctx : Context) (loc : Location) :
    Alike w (fun _ e => c.Before e) (conditional rules ctx loc d)
      (conditional rules' ctx loc d) := by
  refine alike_bind (alike_branch alike o on ctx) fun first e guarded => ?_
  apply alike_remaining
  refine alike_bind (alike_moreBranches alike o guarded ctx _) fun others f more => ?_
  refine alike_bind (alike_alternative alike o more ctx) fun alternate g further => ?_
  refine alike_expectKeyword (o.before further).placed.head fun ended => ?_
  exact alike_line o.placed (further.trans ended) _

theorem alike_loop (ctx : Context) (loc : Location) :
    Alike w (fun _ e => c.Before e) (loop rules ctx loc d) (loop rules' ctx loc d) := by
  refine alike_bind (alike.expression d (o.call on)) fun subject e more => ?_
  have asked := on.trans more
  refine alike_bind (alike_namedAs (o.before asked).placed) fun item? f as => ?_
  have named := asked.upto as
  refine alike_expectNewline (o.before named).placed.head fun line => ?_
  have begun := named.trans line
  refine alike_bind (alike.block _ _ _ (o.call begun)) fun body g through => ?_
  have done := begun.upto through
  refine alike_expectKeyword (o.before done).placed.head fun ended => ?_
  cases item? with
  | some item => exact alike_line o.placed (done.trans ended) _
  | none => exact alike_line o.placed (done.trans ended) _

theorem alike_returning (ctx : Context) {loc : Location} (fine : w.place loc) :
    Alike w (fun _ e => c.Before e) (returning rules ctx loc d) (returning rules' ctx loc d) := by
  have value : Alike w (fun _ e => c.Before e) (returnedValue rules d)
      (returnedValue rules' d) := by
    apply alike_peek
    split
    · exact alike_pure on
    · refine alike_bind (alike.expression d (o.call on)) fun e f more => ?_
      exact alike_pure (on.trans more)
  unfold returning
  split
  · exact alike_failAt nofun fine
  · exact alike_bind value fun e? f further => alike_line o.placed further _

theorem alike_emission (loc : Location) :
    Alike w (fun _ e => c.Before e) (emission rules loc d) (emission rules' loc d) := by
  refine alike_bind (alike.expression d (o.call on)) fun value e more => ?_
  have given := on.trans more
  refine alike_bind (alike_namedAs (o.before given).placed) fun key f as => ?_
  exact alike_line o.placed (given.upto as) _

end

section

variable (alike : rules.AlikeAt w P rules')
include alike

theorem alike_assignmentOrCall (o : c.Open w P) :
    Alike w (fun _ d => c.Before d) (assignmentOrCall rules c) (assignmentOrCall rules' c) := by
  apply alike_peek
  refine alike_bind (alike_expression alike o) fun e d on => ?_
  apply alike_peek
  cases assignOp? d.head.lexeme with
  | some op =>
      have begun := (on.upto (Cursor.upto_tail d)).upto (Cursor.upto_skip _)
      apply alike_advance
      cases e.target? with
      | none => exact alike_failAt nofun o.placed.head
      | some target =>
          apply alike_skipNewlines
          refine alike_bind (alike.expression _ (o.call begun)) fun value f more => ?_
          exact alike_line o.placed (begun.trans more) _
  | none =>
      cases e with
      | call callee args callLoc => exact alike_line o.placed on _
      | _ => exact alike_failAt nofun o.placed.head

/-- A statement is one token at the least. -/
theorem alike_statement (ctx : Context) (o : c.Open w P) :
    Alike w (fun _ d => c.Before d) (statement rules ctx c) (statement rules' ctx c) := by
  apply alike_peek
  have fine := o.placed.head
  cases is : c.head.lexeme with
  | keyword word =>
      have on : c.Before c.tail := Cursor.before_tail (is ▸ nofun)
      have controlled {word : Keyword} {stmt : Nat → Stmt} :
          Alike w (fun _ e => c.Before e)
            ((loopControl ctx word c.head.loc >>= fun depth => pure (stmt depth)) c.tail)
            ((loopControl ctx word c.head.loc >>= fun depth => pure (stmt depth)) c.tail) :=
        alike_bind (alike_loopControl o.placed on ctx word fine) fun _ _ more => alike_pure more
      cases word with
      | funcKw =>
          refine alike_of_eq (peekSecond_eq (Cursor.tokens_ne_nil (is ▸ nofun))) ?_
          cases c.tail.head.lexeme with
          | ident name => exact alike_advance (alike_definition alike o on _)
          | _ => exact alike_failAt nofun (o.before on).placed.head
      | ifKw => exact alike_advance (alike_conditional alike o on ctx _)
      | forKw => exact alike_advance (alike_loop alike o on ctx _)
      | breakKw => exact alike_advance controlled
      | continueKw => exact alike_advance controlled
      | returnKw => exact alike_advance (alike_returning alike o on ctx fine)
      | emitKw => exact alike_advance (alike_emission alike o on _)
      | useKw => exact alike_advance (alike_sharing o.placed on ctx fine)
      | importKw => exact alike_advance (alike_importing o.placed on ctx fine)
      | _ => exact alike_assignmentOrCall alike o
  | number _ | string _ _ | ident _ | symbol _ | newline | eof =>
      exact alike_assignmentOrCall alike o

/-- With a pass for each token and one more, statements are read up to their ending. -/
theorem alike_statements (ctx : Context) (ending : Ending) {n : Nat} (o : c.Open w P)
    (on : c.Upto d) (enough : d.tokens.length < n) :
    Alike w (fun _ e => c.Upto e ∧ (ending = .input → e.head.lexeme = .eof))
      (statements rules ctx ending n d) (statements rules' ctx ending n d) := by
  induction n generalizing d with
  | zero => exact absurd enough (Nat.not_lt_zero _)
  | succ n ih =>
      have there := on.trans (Cursor.upto_skip d)
      apply alike_skipNewlines
      apply alike_peek
      by_cases done : d.skip.head.lexeme = .eof
      · rw [if_pos (beq_iff_eq.mpr done), if_pos (beq_iff_eq.mpr done)]
        split
        · exact alike_pure ⟨there, fun _ => done⟩
        · exact alike_failAt nofun (o.upto there).placed.head
      · have more : ¬ (d.skip.head.lexeme == .eof) = true := by simpa using done
        rw [if_neg more, if_neg more]
        cases stops : ending.stops d.skip.head.lexeme with
        | true =>
            refine alike_pure ⟨there, ?_⟩
            rintro rfl
            cases stops
        | false =>
            refine alike_bind (alike_statement alike ctx (o.upto there)) fun first e more => ?_
            have fewer := ((Cursor.upto_skip d).before more).fewer
            refine alike_bind (ih (there.trans more.toUpto) (by omega)) fun rest f further => ?_
            exact alike_pure further

theorem alike_block (ctx : Context) (ending : Ending) (o : c.Open w P) :
    Alike w (fun _ d => c.Upto d ∧ (ending = .input → d.head.lexeme = .eof))
      (block rules ctx ending c) (block rules' ctx ending c) := by
  apply alike_peek
  apply alike_remaining
  refine alike_bind (alike_statements alike ctx ending o (.refl c) (Nat.lt_succ_self _)) ?_
  exact fun list d on => alike_pure on

end

end Grammar

end Loom
