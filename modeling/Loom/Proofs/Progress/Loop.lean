import Loom.Proofs.Progress.Descent

/-!
Loops. Each pass of a loop of the grammar is its last one or has taken a token before the
next one, so that a loop ends with the tokens: the bound on its passes is never what ends it.
-/

namespace Loom

namespace Grammar

variable {α β σ : Type}

/-- What a pass of a loop does at a cursor, whatever more passes do. It is the last one, or it
has taken a token and gives what more passes give behind it. -/
inductive Pass (c : Cursor) (run : (σ → Parse β) → Except Diagnostic (β × Cursor)) : Prop where
  | last (outcome : Except Diagnostic (β × Cursor)) (ends : ∀ more, run more = outcome)
  | again {s : σ} {d : Cursor} (on : c.Before d) (give : β → β)
      (goes : ∀ more, run more = (fun r => (give r.1, r.2)) <$> more s d)

/-- A loop that goes pass by pass, each of which takes a token before the next one. A bound
on its passes that is by so many higher than the number of tokens does not end it. -/
structure Advances (spare : Nat) (pass : (σ → Parse β) → σ → Parse β)
    (loop : Nat → σ → Parse β) : Prop where
  goes : ∀ n, loop (n + 1) = pass (loop n)
  takes : ∀ s c, Pass c fun more => pass more s c
  enough : ∀ s c n, c.tokens.length + spare ≤ n → loop (n + 1) s c = loop n s c

section

variable {pass : (σ → Parse β) → σ → Parse β} {loop : Nat → σ → Parse β}
  (goes : ∀ n, loop (n + 1) = pass (loop n)) (takes : ∀ s c, Pass c fun more => pass more s c)
include goes takes

/-- A loop may be ended by its bound only where no token is left. -/
theorem advances_of_idle {spare : Nat}
    (idle : ∀ s c n, c.tokens = [] → spare ≤ n → loop (n + 1) s c = loop n s c) :
    Advances spare pass loop := by
  refine ⟨goes, takes, fun s c n enough => ?_⟩
  induction n generalizing s c with
  | zero => exact idle s c 0 (List.length_eq_zero_iff.mp (by omega)) (by omega)
  | succ n ih =>
      have step (k : Nat) : loop (k + 1) s c = pass (loop k) s c := by rw [goes]
      rw [step (n + 1), step n]
      cases takes s c with
      | last outcome ends => rw [ends, ends]
      | @again s' d on give same =>
          have fewer := on.fewer
          rw [same, same, ih s' d (by omega)]

/-- With one pass more than there are tokens none is left where the bound is met. -/
theorem advances_spare : Advances 1 pass loop := by
  refine advances_of_idle goes takes fun s c n none more => ?_
  obtain ⟨n, rfl⟩ := Nat.exists_eq_add_of_le' more
  have step (k : Nat) : loop (k + 1) s c = pass (loop k) s c := by rw [goes]
  rw [step (n + 1), step n]
  cases takes s c with
  | last outcome ends => rw [ends, ends]
  | again on =>
      have fewer := on.fewer
      rw [none] at fewer
      exact absurd fewer (Nat.not_lt_zero _)

end

/-! Passes through the rules on tokens. -/

section

variable {start c : Cursor}

theorem pass_last {outcome : Except Diagnostic (β × Cursor)} :
    Pass start fun (_ : σ → Parse β) => outcome := .last outcome fun _ => rfl

theorem pass_again {s : σ} (on : start.Before c) :
    Pass start fun (more : σ → Parse β) => more s c := by
  refine .again (s := s) on id fun more => ?_
  exact (id_map (more s c)).symm

theorem pass_give {s : σ} {give : β → β} (on : start.Before c) :
    Pass start fun more => (more s >>= fun b => pure (give b)) c := by
  refine .again (s := s) on give fun more => ?_
  show (more s c >>= fun r => .ok (give r.1, r.2)) = _
  cases more s c with
  | ok r => rfl
  | error d => rfl

theorem pass_bind {p : Parse α} {f : (σ → Parse β) → α → Parse β} {good : α → Cursor → Prop}
    (first : Ends (fun _ => True) good (p c))
    (rest : ∀ a d, good a d → Pass start fun more => f more a d) :
    Pass start fun more => (p >>= f more) c := by
  have run (more : σ → Parse β) : (p >>= f more) c = p c >>= fun r => f more r.1 r.2 := rfl
  simp only [run]
  cases outcome : p c with
  | ok r =>
      rw [outcome] at first
      exact rest r.1 r.2 first
  | error d => exact pass_last

theorem pass_of_eq {p : Parse α} {f : (σ → Parse β) → α → Parse β} {a : α} {d : Cursor}
    (run : p c = .ok (a, d)) (rest : Pass start fun more => f more a d) :
    Pass start fun more => (p >>= f more) c := by
  have step (more : σ → Parse β) : (p >>= f more) c = f more a d := run_bind run
  simpa only [step] using rest

theorem pass_skipNewlines {f : (σ → Parse β) → Unit → Parse β}
    (rest : Pass start fun more => f more () c.skip) :
    Pass start fun more => (skipNewlines >>= f more) c := pass_of_eq rfl rest

theorem pass_accept {lexeme : Lexeme} (solid : lexeme ≠ .eof) {f : (σ → Parse β) → Bool → Parse β}
    (yes : c.Before c.tail → Pass start fun more => f more true c.tail)
    (no : Pass start fun more => f more false c) :
    Pass start fun more => (accept lexeme >>= f more) c := by
  refine pass_bind (ends_accept_token solid) ?_
  rintro _ _ (⟨rfl, rfl, on⟩ | ⟨rfl, rfl⟩)
  · exact yes on
  · exact no

theorem pass_expectName {what : Expected} {f : (σ → Parse β) → Text × Token → Parse β}
    (there : ∀ name, c.Before c.tail → Pass start fun more => f more (name, c.head) c.tail) :
    Pass start fun more => (expectName what >>= f more) c := by
  refine pass_bind (ends_expectName_token fun _ => trivial) ?_
  rintro ⟨name, _⟩ _ ⟨rfl, rfl, on⟩
  exact there name on

theorem pass_expectSymbol {s : Symbol} {what : Expected} {f : (σ → Parse β) → Token → Parse β}
    (there : c.Before c.tail → Pass start fun more => f more c.head c.tail) :
    Pass start fun more => (expectSymbol s what >>= f more) c := by
  refine pass_bind (ends_expect_token (by nofun) fun _ => trivial) ?_
  rintro _ _ ⟨rfl, rfl, on⟩
  exact there on

end

/-! The loops of the grammar, each with what one pass of it does before it goes on. -/

def chainPass (op? : Lexeme → Option BinaryOp) (operand : Parse Expr) (more : Expr → Parse Expr)
    (left : Expr) : Parse Expr := do
  let t ← peek
  match op? t.lexeme with
  | none => pure left
  | some op => do
      let _ ← advance
      skipNewlines
      let right ← operand
      more (.binary op left right t.loc)

theorem advances_chainFrom {op? : Lexeme → Option BinaryOp} {operand : Parse Expr}
    (ends : op? .eof = none)
    (each : ∀ c, Ends (fun _ => True) (fun _ d => c.Before d) (operand c)) :
    Advances 0 (chainPass op? operand) (chainFrom op? operand) := by
  refine advances_of_idle (fun _ => rfl) ?_ ?_
  · intro left c
    apply pass_of_eq (peek_eq c)
    cases op? c.head.lexeme with
    | none => exact pass_last
    | some op =>
        apply pass_of_eq (advance_eq c)
        apply pass_skipNewlines
        refine pass_bind (each _) fun right d on => ?_
        exact pass_again (((Cursor.upto_tail c).trans (Cursor.upto_skip _)).before on)
  · rintro left ⟨_, stop⟩ n rfl -
    have stays (n : Nat) : chainFrom op? operand n left ⟨[], stop⟩ = .ok (left, ⟨[], stop⟩) := by
      cases n with
      | zero => rfl
      | succ n =>
          show (match op? .eof with
            | none => pure left
            | some op => _ : Parse Expr) ⟨[], stop⟩ = _
          rw [ends]
          rfl
    rw [stays, stays]

def namesPass (more : Parse (List Text)) : Parse (List Text) := do
  if ← acceptSymbol .comma then
    let (name, _) ← expectName .name
    let rest ← more
    pure (name :: rest)
  else pure []

theorem advances_moreNames :
    Advances 0 (fun more (_ : Unit) => namesPass (more ())) (fun n _ => moreNames n) := by
  refine advances_of_idle (fun _ => rfl) ?_ ?_
  · intro _ c
    apply pass_accept (by nofun)
    · intro comma
      refine pass_expectName fun name on => ?_
      exact pass_give (s := ()) (comma.trans on)
    · exact pass_last
  · rintro _ ⟨_, stop⟩ n rfl -
    cases n <;> rfl

def itemsPass (close : Symbol) (item : Parse α) (more : Parse (List α)) : Parse (List α) := do
  if ← nextSymbol close then pure []
  else
    let first ← item
    skipNewlines
    if ← acceptSymbol .comma then
      skipNewlines
      let rest ← more
      pure (first :: rest)
    else pure [first]

theorem advances_items {close : Symbol} {item : Parse α}
    (each : ∀ c, Ends (fun _ => True) (fun _ d => c.Upto d) (item c)) :
    Advances 1 (fun more (_ : Unit) => itemsPass close item (more ()))
      (fun n _ => items close item n) := by
  refine advances_spare (fun _ => rfl) ?_
  intro _ c
  apply pass_of_eq (run_next c)
  cases c.head.lexeme == .symbol close with
  | true => exact pass_last
  | false =>
      refine pass_bind (each c) fun first d on => ?_
      have behind := on.trans (Cursor.upto_skip d)
      apply pass_skipNewlines
      apply pass_accept (by nofun)
      · intro comma
        apply pass_skipNewlines
        exact pass_give (s := ()) ((behind.before comma).upto (Cursor.upto_skip _))
      · exact pass_last

def parametersPass (more : List Text → Parse (List Text)) (taken : List Text) :
    Parse (List Text) := do
  if ← nextSymbol .closeParen then pure taken
  else
    let (name, t) ← expectName .parameterName
    if taken.contains name then failAt t.loc (.duplicateParameter name)
    else
      skipNewlines
      if ← acceptSymbol .comma then
        skipNewlines
        more (taken ++ [name])
      else pure (taken ++ [name])

theorem advances_parameters :
    Advances 1 parametersPass (fun n taken => parameters taken n) := by
  refine advances_spare (fun _ => rfl) ?_
  intro taken c
  apply pass_of_eq (run_next c)
  cases c.head.lexeme == .symbol .closeParen with
  | true => exact pass_last
  | false =>
      refine pass_expectName fun name on => ?_
      have behind := on.upto (Cursor.upto_skip _)
      show Pass c fun more => ((if taken.contains name then _ else _ : Parse (List Text)) c.tail)
      cases taken.contains name with
      | true => exact pass_last
      | false =>
          apply pass_skipNewlines
          apply pass_accept (by nofun)
          · intro comma
            apply pass_skipNewlines
            exact pass_again ((behind.trans comma).upto (Cursor.upto_skip _))
          · exact pass_last

section

variable {rules : Rules} (take : rules.Take)

def suffixesPass (rules : Rules) (more : Expr → Parse Expr) (e : Expr) : Parse Expr := do
  let t ← peek
  match t.lexeme with
  | .symbol .openParen => do
      let _ ← advance
      let args ← delimited .closeParen .closeParen rules.expression
      more (.call e args t.loc)
  | .symbol .dot => do
      let _ ← advance
      let (name, _) ← expectName .fieldName
      more (.field e name t.loc)
  | .symbol .openBracket => do
      let _ ← advance
      skipNewlines
      let position ← rules.expression
      skipNewlines
      let _ ← expectSymbol .closeBracket .closeBracket
      more (.index e position t.loc)
  | _ => pure e

include take in
theorem advances_suffixes : Advances 0 (suffixesPass rules) (suffixes rules) := by
  refine advances_of_idle (fun _ => rfl) ?_ ?_
  · intro e c
    have behind := Cursor.upto_tail c
    apply pass_of_eq (peek_eq c)
    by_cases call : c.head.lexeme = .symbol .openParen
    · rw [call]
      apply pass_of_eq (advance_eq c)
      have paren : c.Before c.tail := Cursor.before_tail (call ▸ nofun)
      refine pass_bind (alike_expressions take.always c.open_any paren).2 fun args d on => ?_
      exact pass_again on
    by_cases field : c.head.lexeme = .symbol .dot
    · rw [field]
      apply pass_of_eq (advance_eq c)
      exact pass_expectName fun name on => pass_again (behind.before on)
    by_cases index : c.head.lexeme = .symbol .openBracket
    · rw [index]
      apply pass_of_eq (advance_eq c)
      apply pass_skipNewlines
      refine pass_bind (take.expression _) fun position d on => ?_
      have inside := ((behind.trans (Cursor.upto_skip _)).before on).upto (Cursor.upto_skip d)
      apply pass_skipNewlines
      exact pass_expectSymbol fun closed => pass_again (inside.trans closed)
    · cases is : c.head.lexeme with
      | symbol s => cases s <;> first | exact pass_last | contradiction
      | _ => exact pass_last
  · rintro e ⟨_, stop⟩ n rfl -
    cases n <;> rfl

def branchesPass (rules : Rules) (ctx : Context) (more : Parse (List Branch)) :
    Parse (List Branch) := do
  if ← acceptKeyword .elsifKw then
    let b ← branch rules ctx
    let rest ← more
    pure (b :: rest)
  else pure []

include take in
theorem advances_moreBranches (ctx : Context) :
    Advances 0 (fun more (_ : Unit) => branchesPass rules ctx (more ()))
      (fun n _ => moreBranches rules ctx n) := by
  refine advances_of_idle (fun _ => rfl) ?_ ?_
  · intro _ c
    apply pass_accept (by nofun)
    · intro word
      have branch := (alike_branch take.always c.open_any word ctx).2
      exact pass_bind branch fun first d on => pass_give (s := ()) on
    · exact pass_last
  · rintro _ ⟨_, stop⟩ n rfl -
    cases n <;> rfl

def statementsPass (rules : Rules) (ctx : Context) (ending : Ending)
    (more : Parse (List Stmt)) : Parse (List Stmt) := do
  skipNewlines
  let t ← peek
  if t.lexeme == .eof then
    if ending = .input then pure [] else failAt t.loc .missingEnd
  else if ending.stops t.lexeme then pure []
  else
    let first ← statement rules ctx
    let rest ← more
    pure (first :: rest)

include take in
theorem advances_statements (ctx : Context) (ending : Ending) :
    Advances 1 (fun more (_ : Unit) => statementsPass rules ctx ending (more ()))
      (fun n _ => statements rules ctx ending n) := by
  refine advances_spare (fun _ => rfl) ?_
  intro _ c
  apply pass_skipNewlines
  apply pass_of_eq (peek_eq _)
  cases c.skip.head.lexeme == .eof with
  | true => exact pass_last
  | false =>
      cases ending.stops c.skip.head.lexeme with
      | true => exact pass_last
      | false =>
          refine pass_bind (alike_statement take.always ctx c.skip.open_any).2 fun first d on => ?_
          exact pass_give (s := ()) ((Cursor.upto_skip c).before on)

end

end Grammar

end Loom
