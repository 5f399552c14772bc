import Loom.Proofs.Layout.Expression

/-!
Statements read side by side. A statement ends with its line in both texts, and behind it
the line ends that are next are passed over, however many there are.
-/

namespace Loom

namespace Grammar

variable {v : Views} {loose : Prop} {weight w n : Nat} {c c' : Cursor} {rules rules' : Rules}

/-- Both give a statement, which is the same up to places, and have ended its line. -/
def GiveStmt (v : Views) (loose : Prop) (w n : Nat) :
    Except Diagnostic (Stmt × Cursor) → Except Diagnostic (Stmt × Cursor) → Prop :=
  InStep fun s s' d d' => s.relocated v.left = s'.relocated v.right ∧ NearLine v loose w n d d'

/-- A statement and the end of its line, in front of what follows them. -/
theorem inStep_line {s s' : Stmt} (near : Near v loose w n c c')
    (same : s.relocated v.left = s'.relocated v.right) :
    GiveStmt v loose w n ((do endStatement; pure s : Parse Stmt) c)
      ((do endStatement; pure s' : Parse Stmt) c') :=
  inStep_endStatement near fun _ _ line => inStep_pure ⟨same, line⟩

theorem inStep_namedAs (what : Expected) (near : Near v loose w n c c') :
    InStep (fun name name' d d' => name = name' ∧ Near v loose w n d d')
      (namedAs what c) (namedAs what c') := by
  apply inStep_accept near (Lexeme.isMark_keyword .asKw)
  · intro nearer
    apply inStep_expectName nearer.near
    rintro name - nearer₁
    exact inStep_pure ⟨rfl, nearer₁.near⟩
  · intro _
    exact inStep_pure ⟨rfl, near⟩

theorem inStep_loopDepth (near : Near v loose w n c c') :
    InStep (fun depth depth' d d' => depth = depth' ∧ Near v loose w n d d')
      (loopDepth c) (loopDepth c') := by
  apply inStep_peek
  rcases near.cases with ⟨w₁, n₁, _, less, less', same, _, _, behind⟩ | ⟨gap, gap'⟩
  · rcases Lexeme.relocated_cases same.lexeme with ⟨is, _⟩ | ⟨_, _, _, is, is', _⟩
    · rw [is]
      cases c.head.lexeme with
      | number digits =>
          apply inStep_advance
          generalize wholeOf? (Decimal.literalValue digits) = depth?
          split
          · exact inStep_pure ⟨rfl, behind.mono less.le less'.le⟩
          · trivial
      | _ => exact inStep_pure ⟨rfl, near⟩
    · rw [is, is']
      exact inStep_pure ⟨rfl, near⟩
  · rcases gap with is | is <;> rcases gap' with is' | is' <;> rw [is, is'] <;>
      exact inStep_pure ⟨rfl, near⟩

theorem inStep_loopControl (ctx : Context) (word : Keyword) (loc loc' : Location)
    (near : Near v loose w n c c') :
    InStep (fun depth depth' d d' => depth = depth' ∧ NearLine v loose w n d d')
      (loopControl ctx word loc c) (loopControl ctx word loc' c') := by
  apply inStep_bind (inStep_loopDepth near)
  rintro depth _ d d' ⟨rfl, behind⟩
  by_cases few : ctx.loopDepth < depth
  · simp only [few, if_true]
    split <;> trivial
  · simp only [few, if_false]
    exact inStep_endStatement behind fun _ _ line => inStep_pure ⟨rfl, line⟩

theorem inStep_sharing (ctx : Context) {loc loc' : Location} (place : v.left loc = v.right loc')
    (near : Near v loose w n c c') :
    GiveStmt v loose w n (sharing ctx loc c) (sharing ctx loc' c') := by
  unfold sharing
  split
  · trivial
  · apply inStep_bind (inStep_nameList near)
    rintro names _ d d' ⟨rfl, behind⟩
    exact inStep_line behind (by rw [Stmt.relocated, Stmt.relocated, place])

theorem inStep_importing (ctx : Context) {loc loc' : Location} (place : v.left loc = v.right loc')
    (near : Near v loose w n c c') :
    GiveStmt v loose w n (importing ctx loc c) (importing ctx loc' c') := by
  have names (native : Bool) {c c' : Cursor} (near : Near v loose w n c c') :
      GiveStmt v loose w n
        ((do
          let modules ← nameList
          endStatement
          pure (Stmt.imports native modules loc) : Parse Stmt) c)
        ((do
          let modules ← nameList
          endStatement
          pure (Stmt.imports native modules loc') : Parse Stmt) c') := by
    apply inStep_bind (inStep_nameList near)
    rintro modules _ d d' ⟨rfl, behind⟩
    exact inStep_line behind (by rw [Stmt.relocated, Stmt.relocated, place])
  unfold importing
  split
  · trivial
  · apply inStep_accept near (Lexeme.isMark_keyword .nativeKw)
    · exact fun nearer => names true nearer.near
    · exact fun _ => names false near

theorem byMark_assignOp? : ByMark none assignOp? := by
  intro lexeme is
  cases lexeme with
  | symbol s => exact Lexeme.isMark_symbol s
  | _ => exact absurd rfl is

theorem byMark_stops (ending : Ending) : ByMark false ending.stops := by
  intro lexeme is
  cases lexeme with
  | keyword word => exact Lexeme.isMark_keyword word
  | _ => cases ending <;> exact absurd rfl is

section

variable (agree : rules.Agree v weight rules')
include agree

theorem inStep_definition {loc loc' : Location} (place : v.left loc = v.right loc')
    (less : w < weight) (near : Near v loose w n c c') :
    GiveStmt v loose w n (definition rules loc c) (definition rules' loc' c') := by
  apply inStep_expectName near
  rintro name - nearer
  apply inStep_bind (inStep_procedure agree less nearer.near)
  rintro p p' d d' ⟨same, behind⟩
  exact inStep_line behind (by rw [Stmt.relocated, Stmt.relocated, same, place])

/-- The statements of a block behind the end of a line. -/
theorem inStep_body {β : Type} {ok : β → β → Cursor → Cursor → Prop} {what : Expected}
    (ctx : Context) {ending : Ending} (inner : ending ≠ .input) (less : w < weight)
    (near : Near v loose w n c c') {f f' : Block → Parse β}
    (rest : ∀ b b' d d', b.relocated v.left = b'.relocated v.right → Near v loose w n d d' →
      InStep ok (f b d) (f' b' d')) :
    InStep ok
      ((do
        let _ ← expectNewline what
        let b ← rules.block ctx ending
        f b : Parse β) c)
      ((do
        let _ ← expectNewline what
        let b ← rules'.block ctx ending
        f' b : Parse β) c') := by
  apply inStep_expectNewline near
  · intro blind line
    exact inStep_bind (agree.block ctx ending less blind line) fun b b' d d' fine =>
      rest b b' d d' fine.1 fine.2
  · intro t d lines
    obtain ⟨fails, fails'⟩ := agree.missing ctx ending inner
    exact ⟨fails_bind (fails d lines), fails_bind (fails' d lines)⟩

/-- Branches that are the same up to places. -/
def SameBranch (v : Views) (b b' : Branch) : Prop :=
  b.condition.relocated v.left = b'.condition.relocated v.right ∧
    b.body.relocated v.left = b'.body.relocated v.right

omit agree in
theorem allRelocated_of_sameBranch {list list' : List Branch}
    (same : List.Forall₂ (SameBranch v) list list') :
    Branch.allRelocated v.left list = Branch.allRelocated v.right list' := by
  induction same with
  | nil => rfl
  | @cons b b' _ _ first _ ih =>
      obtain ⟨condition, body⟩ := b
      obtain ⟨condition', body'⟩ := b'
      obtain ⟨same, same'⟩ := first
      simp only at same same'
      rw [Branch.allRelocated, Branch.allRelocated, same, same', ih]

theorem inStep_branch (ctx : Context) (less : w < weight) (near : Near v loose w n c c') :
    InStep (fun b b' d d' => SameBranch v b b' ∧ Near v loose w n d d')
      (branch rules ctx c) (branch rules' ctx c') := by
  apply inStep_expr (agree.expression w less) near
  intro condition condition' d d' same nearer
  apply inStep_body agree ctx.branch (by decide) less nearer.near
  intro body body' d₁ d₁' same' behind
  exact inStep_pure ⟨⟨same, same'⟩, behind⟩

theorem inStep_moreBranches (ctx : Context) (less : w < weight) (near : Near v loose w n c c')
    {m m' : Nat} (room : n ≤ m) (room' : n ≤ m') :
    InStep (fun list list' d d' => List.Forall₂ (SameBranch v) list list' ∧ Near v loose w n d d')
      (moreBranches rules ctx m c) (moreBranches rules' ctx m' c') :=
  inStep_more (Lexeme.isMark_keyword .elsifKw) ⟨rfl, fun _ => rfl⟩ ⟨rfl, fun _ => rfl⟩
    (inStep_branch agree ctx less) near room room'

theorem inStep_alternative (ctx : Context) (less : w < weight) (near : Near v loose w n c c') :
    InStep (fun b b' d d' =>
        b.map (Block.relocated v.left) = b'.map (Block.relocated v.right) ∧ Near v loose w n d d')
      (alternative rules ctx c) (alternative rules' ctx c') := by
  apply inStep_accept near (Lexeme.isMark_keyword .elseKw)
  · intro nearer
    apply inStep_body agree ctx.branch (by decide) less nearer.near
    intro body body' d d' same behind
    exact inStep_pure ⟨congrArg some same, behind⟩
  · intro _
    exact inStep_pure ⟨rfl, near⟩

theorem inStep_conditional (ctx : Context) {loc loc' : Location}
    (place : v.left loc = v.right loc') (less : w < weight) (near : Near v loose w n c c') :
    GiveStmt v loose w n (conditional rules ctx loc c) (conditional rules' ctx loc' c') := by
  apply inStep_bind (inStep_branch agree ctx less near)
  rintro first first' d d' ⟨same, behind⟩
  apply inStep_remaining behind
  intro m m' room room'
  apply inStep_bind (inStep_moreBranches agree ctx less behind.exact room room')
  rintro others others' d₁ d₁' ⟨same₁, behind₁⟩
  apply inStep_bind
    (inStep_alternative agree ctx less (behind₁.mono (Nat.le_refl w) behind.count))
  rintro alternate alternate' d₂ d₂' ⟨same₂, behind₂⟩
  apply inStep_expect behind₂ (Lexeme.isMark_keyword .endKw)
  intro _ nearer
  apply inStep_line nearer.near
  have branches := allRelocated_of_sameBranch (.cons same same₁)
  cases alternate with
  | none =>
      cases alternate' with
      | none => rw [Stmt.relocated, Stmt.relocated, branches, place]
      | some body' => cases same₂
  | some body =>
      cases alternate' with
      | none => cases same₂
      | some body' =>
          have body := Option.some.inj same₂
          rw [Stmt.relocated, Stmt.relocated, branches, body, place]

theorem inStep_loop (ctx : Context) {loc loc' : Location} (place : v.left loc = v.right loc')
    (less : w < weight) (near : Near v loose w n c c') :
    GiveStmt v loose w n (loop rules ctx loc c) (loop rules' ctx loc' c') := by
  apply inStep_expr (agree.expression w less) near
  intro subject subject' d d' same nearer
  apply inStep_bind (inStep_namedAs .loopVariable nearer.near)
  rintro item? _ d₁ d₁' ⟨rfl, behind⟩
  apply inStep_body agree ctx.loop (by decide) less behind
  intro body body' d₂ d₂' same' behind₁
  apply inStep_expect behind₁ (Lexeme.isMark_keyword .endKw)
  intro _ nearer₁
  apply inStep_endStatement nearer₁.near
  intro d₃ d₃' line
  cases item? with
  | some item =>
      refine inStep_pure ⟨?_, line⟩
      rw [Stmt.relocated, Stmt.relocated, same, same', place]
  | none =>
      refine inStep_pure ⟨?_, line⟩
      rw [Stmt.relocated, Stmt.relocated, same, same', place]

theorem inStep_returning (ctx : Context) {loc loc' : Location} (place : v.left loc = v.right loc')
    (less : w < weight) (near : Near v loose w n c c') :
    GiveStmt v loose w n (returning rules ctx loc c) (returning rules' ctx loc' c') := by
  have value : InStep (fun e e' d d' =>
      e.map (Expr.relocated v.left) = e'.map (Expr.relocated v.right) ∧ Near v loose w n d d')
      (returnedValue rules c) (returnedValue rules' c') := by
    apply inStep_peek
    have test (lexeme : Lexeme) : (lexeme == .newline || lexeme == .eof) = true ↔ IsGap lexeme := by
      rw [Bool.or_eq_true, beq_iff_eq, beq_iff_eq, IsGap]
    rcases near.cases with ⟨_, _, _, _, _, same, _, other, _⟩ | ⟨gap, gap'⟩
    · rw [if_neg ((test _).not.mpr other), if_neg ((test _).not.mpr ((gap_iff same).not.mp other))]
      apply inStep_expr (agree.expression w less) near
      intro e e' d d' same nearer
      exact inStep_pure ⟨congrArg some same, nearer.near⟩
    · rw [if_pos ((test _).mpr gap), if_pos ((test _).mpr gap')]
      exact inStep_pure ⟨rfl, near⟩
  unfold returning
  split
  · trivial
  · apply inStep_bind value
    rintro e e' d d' ⟨same, behind⟩
    apply inStep_line behind
    cases e with
    | none =>
        cases e' with
        | none => rw [Stmt.relocated, Stmt.relocated, place]
        | some e' => cases same
    | some e =>
        cases e' with
        | none => cases same
        | some e' =>
            have value := Option.some.inj same
            rw [Stmt.relocated, Stmt.relocated, value, place]

theorem inStep_emission {loc loc' : Location} (place : v.left loc = v.right loc')
    (less : w < weight) (near : Near v loose w n c c') :
    GiveStmt v loose w n (emission rules loc c) (emission rules' loc' c') := by
  apply inStep_expr (agree.expression w less) near
  intro value value' d d' same nearer
  apply inStep_bind (inStep_namedAs .outputName nearer.near)
  rintro key _ d₁ d₁' ⟨rfl, behind⟩
  exact inStep_line behind (by rw [Stmt.relocated, Stmt.relocated, same, place])

/-- Both give a statement, having taken something. -/
def TakeStmt (v : Views) (loose : Prop) (w n : Nat) :
    Except Diagnostic (Stmt × Cursor) → Except Diagnostic (Stmt × Cursor) → Prop :=
  InStep fun s s' d d' => s.relocated v.left = s'.relocated v.right ∧
    ∃ w₁ n₁, w₁ < w ∧ n₁ < n ∧ NearLine v loose w₁ n₁ d d'

omit agree in
theorem TakeStmt.of_line {w₁ n₁ : Nat} {x x' : Except Diagnostic (Stmt × Cursor)} (less : w₁ < w)
    (less' : n₁ < n) (given : GiveStmt v loose w₁ n₁ x x') : TakeStmt v loose w n x x' :=
  both_of_imp given fun _ _ fine => ⟨fine.1, w₁, n₁, less, less', fine.2⟩

omit agree in
/-- Whether an expression is a call. -/
def isCall : Expr → Bool
  | .call _ _ _ => true
  | _ => false

omit agree in
theorem isCall_relocated (f : Location → Location) (e : Expr) :
    isCall (e.relocated f) = isCall e := by
  cases e <;> rfl

omit agree in
theorem exists_of_isCall {e : Expr} (call : isCall e = true) :
    ∃ callee args loc, e = .call callee args loc := by
  cases e with
  | call callee args loc => exact ⟨callee, args, loc, rfl⟩
  | _ => cases call

theorem inStep_assignmentOrCall (le : w ≤ weight) (near : Near v loose w n c c')
    (place : v.left c.head.loc = v.right c'.head.loc) :
    TakeStmt v loose w n (assignmentOrCall rules c) (assignmentOrCall rules' c') := by
  apply inStep_peek
  apply inStep_bind (readAlike_expression agree le near)
  rintro e e' d d' ⟨same, w₁, n₁, less, less', behind⟩
  apply inStep_peek
  rw [behind.told_eq byMark_assignOp?]
  cases operator : assignOp? d.head.lexeme with
  | some op =>
      apply inStep_advance
      have targets : e.target?.map (Target.relocated v.left) =
          e'.target?.map (Target.relocated v.right) := by
        rw [← Expr.target?_relocated, same, Expr.target?_relocated]
      cases known : e.target? with
      | none =>
          cases known' : e'.target? with
          | none => exact True.intro
          | some target' =>
              rw [known, known'] at targets
              cases targets
      | some target =>
          cases known' : e'.target? with
          | none =>
              rw [known, known'] at targets
              cases targets
          | some target' =>
              rw [known, known'] at targets
              have target := Option.some.inj targets
              obtain ⟨_, w₂, n₂, less₂, less₂', after⟩ :=
                behind.take_told byMark_assignOp? (by simp [operator])
              apply inStep_skipNewlines
              apply inStep_expr (agree.expression w₁ (less.trans_le le))
                (after.skip.mono less₂.le less₂'.le)
              intro value value' d₁ d₁' same₁ nearer
              exact TakeStmt.of_line less less'
                (inStep_line nearer.near
                  (by rw [Stmt.relocated, Stmt.relocated, target, same₁, place]))
  | none =>
      have calls : isCall e = isCall e' := by
        rw [← isCall_relocated v.left, same, isCall_relocated]
      cases call : isCall e with
      | true =>
          obtain ⟨callee, args, loc, rfl⟩ := exists_of_isCall call
          obtain ⟨callee', args', loc', rfl⟩ := exists_of_isCall (calls.symm.trans call)
          simp only [Expr.relocated, Expr.call.injEq] at same
          obtain ⟨same₁, same₂, same₃⟩ := same
          exact TakeStmt.of_line less less'
            (inStep_line behind
              (by rw [Stmt.relocated, Stmt.relocated, same₁, same₂, same₃, place]))
      | false =>
          have refused {e : Expr} (call : isCall e = false) (c d : Cursor) : ∃ fault,
              ((match e with
                | .call callee args callLoc => do
                    endStatement
                    pure (.call callee args callLoc c.head.loc)
                | _ => failAt c.head.loc .notAStatement : Parse Stmt) d) = .error fault := by
            cases e <;> first | exact ⟨_, rfl⟩ | cases call
          exact inStep_fails (refused call c d) (refused (calls.symm.trans call) c' d')

theorem inStep_statement (ctx : Context) (le : w ≤ weight) (near : Near v loose w n c c')
    (solid : ¬ IsGap c.head.lexeme) :
    TakeStmt v loose w n (statement rules ctx c) (statement rules' ctx c') := by
  rcases near.cases with ⟨w₁, n₁, _, less, less', token, _, _, behind⟩ | ⟨gap, _⟩
  · have place := token.loc
    have other := inStep_assignmentOrCall agree le near place
    have short : w₁ < weight := less.trans_le le
    apply inStep_peek
    rcases Lexeme.relocated_cases token.lexeme with ⟨is, _⟩ | ⟨_, _, _, is, is', _⟩
    · rw [is]
      cases head : c.head.lexeme with
      | keyword word =>
          cases word with
          | funcKw =>
              have more : c.tokens ≠ [] := Cursor.tokens_ne_nil (by simp [head])
              have more' : c'.tokens ≠ [] := Cursor.tokens_ne_nil (by simp [is, head])
              apply inStep_peekSecond more more'
              have named := inStep_definition agree place short behind
              rcases behind.cases with ⟨_, _, _, _, _, second, _⟩ | ⟨gap, gap'⟩
              · rcases Lexeme.relocated_cases second.lexeme with ⟨is, _⟩ | ⟨_, _, _, is, is', _⟩
                · rw [is]
                  cases c.tail.head.lexeme with
                  | ident name =>
                      apply inStep_advance
                      exact TakeStmt.of_line less less' named
                  | _ => exact True.intro
                · rw [is, is']
                  exact True.intro
              · rcases gap with is | is <;> rcases gap' with is' | is' <;> rw [is, is'] <;>
                  exact True.intro
          | ifKw =>
              apply inStep_advance
              exact TakeStmt.of_line less less' (inStep_conditional agree ctx place short behind)
          | forKw =>
              apply inStep_advance
              exact TakeStmt.of_line less less' (inStep_loop agree ctx place short behind)
          | breakKw =>
              apply inStep_advance
              apply inStep_bind (inStep_loopControl ctx .breakKw c.head.loc c'.head.loc behind)
              rintro depth _ d d' ⟨rfl, line⟩
              exact inStep_pure ⟨by rw [Stmt.relocated, Stmt.relocated, place],
                w₁, n₁, less, less', line⟩
          | continueKw =>
              apply inStep_advance
              apply inStep_bind (inStep_loopControl ctx .continueKw c.head.loc c'.head.loc behind)
              rintro depth _ d d' ⟨rfl, line⟩
              exact inStep_pure ⟨by rw [Stmt.relocated, Stmt.relocated, place],
                w₁, n₁, less, less', line⟩
          | returnKw =>
              apply inStep_advance
              exact TakeStmt.of_line less less' (inStep_returning agree ctx place short behind)
          | emitKw =>
              apply inStep_advance
              exact TakeStmt.of_line less less' (inStep_emission agree place short behind)
          | useKw =>
              apply inStep_advance
              exact TakeStmt.of_line less less' (inStep_sharing ctx place behind)
          | importKw =>
              apply inStep_advance
              exact TakeStmt.of_line less less' (inStep_importing ctx place behind)
          | _ => exact other
      | _ => exact other
    · rw [is, is']
      exact other
  · exact absurd gap solid

theorem inStep_statements (ctx : Context) (ending : Ending) (le : w ≤ weight)
    (near : NearLine v loose w n c c') {m m' : Nat} (room : n < m) (room' : n < m') :
    InStep (fun list list' d d' =>
        Stmt.allRelocated v.left list = Stmt.allRelocated v.right list' ∧ Near v loose w n d d')
      (statements rules ctx ending m c) (statements rules' ctx ending m' c') := by
  induction m generalizing n c c' m' with
  | zero => omega
  | succ m ih =>
      obtain ⟨m', rfl⟩ : ∃ k, m' = k + 1 := ⟨m' - 1, by omega⟩
      apply inStep_skipNewlines
      apply inStep_peek
      rcases near.cases with ⟨_, _, _, _, _, token, _, solid, _⟩ | ⟨gap, gap'⟩
      · have more : ¬ (c.skip.head.lexeme == .eof) = true := fun is =>
          solid (.inr (beq_iff_eq.mp is))
        have more' : ¬ (c'.skip.head.lexeme == .eof) = true := fun is =>
          (gap_iff token).not.mp solid (.inr (beq_iff_eq.mp is))
        rw [if_neg more, if_neg more', near.told_eq (byMark_stops ending)]
        split
        · exact inStep_pure ⟨rfl, near⟩
        · apply inStep_bind (inStep_statement agree ctx le near solid)
          rintro first first' d d' ⟨same, w₁, n₁, less, less', line⟩
          have room₁ : n₁ < m := by omega
          have room₁' : n₁ < m' := by omega
          have line : NearLine v loose w n₁ d d' := Near.mono line less.le (Nat.le_refl n₁)
          apply inStep_bind (ih line room₁ room₁')
          rintro others others' e e' ⟨same', behind⟩
          refine inStep_pure ⟨?_, behind.mono (Nat.le_refl w) less'.le⟩
          rw [Stmt.allRelocated, Stmt.allRelocated, same, same']
      · have done := gap.resolve_left (skip_head c)
        have done' := gap'.resolve_left (skip_head c')
        rw [if_pos (beq_iff_eq.mpr done), if_pos (beq_iff_eq.mpr done')]
        split
        · exact inStep_pure ⟨rfl, near⟩
        · trivial

theorem inStep_block (ctx : Context) (ending : Ending) (le : w ≤ weight) (blind : v.Blind)
    (near : NearLine v loose w n c c') :
    GiveBlock v loose w n (block rules ctx ending c) (block rules' ctx ending c') := by
  have count : countOf c.skip.tokens ≤ c.tokens.length :=
    (countOf_dropWhile c.tokens).trans_le (countOf_le c.tokens)
  have count' : countOf c.skip.tokens ≤ c'.tokens.length := by
    rw [← near.paired.count]
    exact (countOf_dropWhile c'.tokens).trans_le (countOf_le c'.tokens)
  apply inStep_peek
  show InStep _
    ((statements rules ctx ending (c.tokens.length + 1) >>= fun list =>
      pure (Block.mk list c.head.loc) : Parse Block) c)
    ((statements rules' ctx ending (c'.tokens.length + 1) >>= fun list =>
      pure (Block.mk list c'.head.loc) : Parse Block) c')
  apply inStep_bind (inStep_statements agree ctx ending le near.exact (Nat.lt_succ_of_le count)
    (Nat.lt_succ_of_le count'))
  rintro list list' d d' ⟨same, behind⟩
  refine inStep_pure ⟨?_, behind.mono (Nat.le_refl w) near.count⟩
  rw [Block.relocated, Block.relocated, same, blind c.head.loc c'.head.loc]

end

/-- A block that has to be ended is not where nothing but line ends is left. -/
theorem fails_block (fuel : Nat) (ctx : Context) {ending : Ending} (inner : ending ≠ .input) :
    FailsAtEnd ((Grammar.rules fuel).block ctx ending) := by
  intro c lines
  cases fuel with
  | zero => exact ⟨_, run_bind (peek_eq c)⟩
  | succ fuel =>
      have done : c.skip = ⟨[], c.stop⟩ := by
        simp only [Cursor.skip, List.dropWhile_eq_nil_iff.mpr lines]
      have stops : ∃ d,
          statements (Grammar.rules fuel) ctx ending (c.tokens.length + 1) c = .error d := by
        refine ⟨SyntaxFault.missingEnd.located c.stop, ?_⟩
        rw [statements, run_bind (show skipNewlines c = .ok ((), c.skip) from rfl), done,
          run_bind (peek_eq _)]
        show (if ending = .input then pure [] else failAt c.stop .missingEnd : Parse (List Stmt))
          ⟨[], c.stop⟩ = _
        rw [if_neg inner]
        rfl
      show ∃ d, block (Grammar.rules fuel) ctx ending c = .error d
      rw [block, run_bind (peek_eq c), run_bind (show remaining c = .ok (_, c) from rfl)]
      exact fails_bind stops

/-- With as much fuel as there is text left the rules agree, however much more it is. -/
theorem rules_agree (v : Views) {weight fuel fuel' : Nat} (room : weight ≤ fuel)
    (room' : weight ≤ fuel') :
    (Grammar.rules fuel).Agree v weight (Grammar.rules fuel') := by
  induction fuel generalizing weight fuel' with
  | zero =>
      obtain rfl := Nat.le_zero.mp room
      exact ⟨nofun, nofun, nofun, nofun, fun ctx ending inner =>
        ⟨fails_block 0 ctx inner, fails_block fuel' ctx inner⟩⟩
  | succ fuel ih =>
      have missing (ctx : Context) (ending : Ending) (inner : ending ≠ .input) :=
        And.intro (fails_block (fuel + 1) ctx inner) (fails_block fuel' ctx inner)
      cases fuel' with
      | zero =>
          obtain rfl := Nat.le_zero.mp room'
          exact ⟨nofun, nofun, nofun, nofun, missing⟩
      | succ fuel' =>
          have inner {w : Nat} (less : w < weight) :
              (Grammar.rules fuel).Agree v w (Grammar.rules fuel') :=
            ih (by omega) (by omega)
          exact
            { expression := fun w less => readAlike_expression (inner less)
              negation := fun w less => readAlike_negation (inner less)
              unary := fun w less => readAlike_unary (inner less)
              block := fun ctx ending less => inStep_block (inner less) ctx ending (Nat.le_refl _)
              missing := missing }

end Grammar

end Loom
