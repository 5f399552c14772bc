import Loom.Proofs.Layout.Lexing
import Loom.Proofs.Precedence

/-!
Expressions read side by side. The rules that the grammar comes back to are taken to read
alike where less is left than there is where they are come back from, so how deep the text
may be nested and how often a loop may go round play no part.
-/

namespace Loom

namespace Grammar

variable {α : Type} {v : Views} {loose : Prop} {weight w n : Nat} {c c' : Cursor}
variable {rules rules' : Rules}

/-- Both give an expression, which is the same up to places, and have taken something. -/
def GiveExpr (v : Views) (loose : Prop) (w n : Nat) :
    Except Diagnostic (Expr × Cursor) → Except Diagnostic (Expr × Cursor) → Prop :=
  InStep fun e e' d d' => e.relocated v.left = e'.relocated v.right ∧ Nearer v loose w n d d'

/-- Both give a block, which is the same up to places. -/
def GiveBlock (v : Views) (loose : Prop) (w n : Nat) :
    Except Diagnostic (Block × Cursor) → Except Diagnostic (Block × Cursor) → Prop :=
  InStep fun b b' d d' => b.relocated v.left = b'.relocated v.right ∧ Near v loose w n d d'

/-- Rules that read expressions alike where no more than some weight is left. -/
def ReadAlike (v : Views) (weight : Nat) (p p' : Parse Expr) : Prop :=
  ∀ {loose : Prop} {w n : Nat} {c c' : Cursor}, w ≤ weight → Near v loose w n c c' →
    GiveExpr v loose w n (p c) (p' c')

/-- A rule that fails where nothing but line ends is left. -/
def FailsAtEnd (p : Parse α) : Prop :=
  ∀ c : Cursor, (∀ t ∈ c.tokens, isNewline t = true) → ∃ d, p c = .error d

/-- Rules that read alike where less than some weight is left. -/
structure Rules.Agree (v : Views) (weight : Nat) (rules rules' : Rules) : Prop where
  expression : ∀ w, w < weight → ReadAlike v w rules.expression rules'.expression
  negation : ∀ w, w < weight → ReadAlike v w rules.negation rules'.negation
  unary : ∀ w, w < weight → ReadAlike v w rules.unary rules'.unary
  block : ∀ {loose : Prop} {w n : Nat} {c c' : Cursor} (ctx : Context) (ending : Ending),
    w < weight → v.Blind → NearLine v loose w n c c' →
      GiveBlock v loose w n (rules.block ctx ending c) (rules'.block ctx ending c')
  missing : ∀ (ctx : Context) (ending : Ending), ending ≠ .input →
    FailsAtEnd (rules.block ctx ending) ∧ FailsAtEnd (rules'.block ctx ending)

/-- An expression and what is behind it, where less is left than some weight. -/
theorem inStep_expr {β : Type} {p p' : Parse Expr} (each : ReadAlike v w p p')
    (near : Near v loose w n c c') {ok : β → β → Cursor → Cursor → Prop}
    {f f' : Expr → Parse β}
    (rest : ∀ e e' d d', e.relocated v.left = e'.relocated v.right → Nearer v loose w n d d' →
      InStep ok (f e d) (f' e' d')) :
    InStep ok ((p >>= f) c) ((p' >>= f') c') :=
  inStep_bind (each (Nat.le_refl w) near) fun e e' d d' fine => rest e e' d d' fine.1 fine.2

theorem ReadAlike.element {p p' : Parse Expr} (each : ReadAlike v w p p')
    (near : Near v loose w n c c') :
    InStep (fun e e' d d' => e.relocated v.left = e'.relocated v.right ∧ Near v loose w n d d')
      (p c) (p' c') :=
  both_of_imp (each (Nat.le_refl w) near) fun _ _ fine => ⟨fine.1, fine.2.near⟩

/-! Operands joined from the left. -/

/-- What is told of keywords and symbols only: of all else it is the same. -/
def ByMark (other : α) (f : Lexeme → α) : Prop := ∀ lexeme, f lexeme ≠ other → lexeme.IsMark

theorem byMark_opAt? (level : Nat) : ByMark none (opAt? level) := by
  intro lexeme is
  match level with
  | 0 | 1 | 2 | 4 | 5 | 6 =>
      cases lexeme with
      | keyword word => exact Lexeme.isMark_keyword word
      | symbol s => exact Lexeme.isMark_symbol s
      | _ => exact absurd rfl is
  | 3 | _ + 7 => exact absurd rfl is

theorem byMark_beginsSuffix : ByMark false beginsSuffix := by
  intro lexeme is
  cases lexeme with
  | symbol s => exact Lexeme.isMark_symbol s
  | _ => exact absurd rfl is

/-- It is the same of what is in front of both cursors. -/
theorem Near.told_eq (near : Near v loose w n c c') {other : α} {f : Lexeme → α}
    (marks : ByMark other f) : f c'.head.lexeme = f c.head.lexeme := by
  by_cases is : f c.head.lexeme = other
  · by_cases is' : f c'.head.lexeme = other
    · rw [is, is']
    · rw [(near.head_iff (marks _ is')).mpr rfl]
  · rw [(near.head_iff (marks _ is)).mp rfl]

/-- What is told apart from all else can be taken. -/
theorem Near.take_told (near : Near v loose w n c c') {other : α} {f : Lexeme → α}
    (marks : ByMark other f) (is : f c.head.lexeme ≠ other) :
    v.Same c.head c'.head ∧ Nearer v loose w n c.tail c'.tail := near.take (marks _ is) rfl

theorem chainFrom_stop {op? : Lexeme → Option BinaryOp} {operand : Parse Expr} (n : Nat)
    (left : Expr) (none : op? c.head.lexeme = none) :
    chainFrom op? operand n left c = .ok (left, c) := by
  cases n with
  | zero => rfl
  | succ n =>
      rw [chainFrom, run_bind (peek_eq c), none]
      rfl

theorem inStep_chainFrom {op? : Lexeme → Option BinaryOp} {operand operand' : Parse Expr}
    (marks : ByMark none op?) (each : ReadAlike v weight operand operand') (le : w ≤ weight)
    (near : Near v loose w n c c') {m m' : Nat} (room : n ≤ m) (room' : n ≤ m')
    {left left' : Expr} (same : left.relocated v.left = left'.relocated v.right) :
    InStep (fun e e' d d' => e.relocated v.left = e'.relocated v.right ∧ Near v loose w n d d')
      (chainFrom op? operand m left c) (chainFrom op? operand' m' left' c') := by
  induction m generalizing n c c' m' left left' with
  | zero =>
      have none : op? c.head.lexeme = none := by
        by_contra is
        obtain ⟨_, _, n₁, _, less, _⟩ := near.take_told marks is
        omega
      rw [chainFrom_stop 0 left none, chainFrom_stop m' left' ((near.told_eq marks).trans none)]
      exact ⟨same, near⟩
  | succ m ih =>
      cases is : op? c.head.lexeme with
      | none =>
          rw [chainFrom_stop _ left is, chainFrom_stop m' left' ((near.told_eq marks).trans is)]
          exact ⟨same, near⟩
      | some op =>
          obtain ⟨token, w₁, n₁, less, less', behind⟩ := near.take_told marks (by simp [is])
          obtain ⟨m', rfl⟩ : ∃ k, m' = k + 1 := ⟨m' - 1, by omega⟩
          have room₁ : n₁ ≤ m := by omega
          have room₁' : n₁ ≤ m' := by omega
          apply inStep_peek
          simp only [near.told_eq marks, is]
          apply inStep_advance
          apply inStep_skipNewlines
          apply inStep_bind (each le (behind.skip.mono less.le (Nat.le_refl n₁)))
          rintro right right' d d' ⟨same', nearer⟩
          have joined : (Expr.binary op left right c.head.loc).relocated v.left =
              (Expr.binary op left' right' c'.head.loc).relocated v.right := by
            rw [Expr.relocated, Expr.relocated, same, same', token.loc]
          exact both_of_imp (ih nearer.near room₁ room₁' joined) fun _ _ fine =>
            ⟨fine.1, fine.2.mono (Nat.le_refl w) less'.le⟩

/-- An expression that is gone on with, for as many rounds as there are tokens left, where
the token behind it tells so. -/
theorem readAlike_onward {told : Lexeme → Bool} (marks : ByMark false told)
    {first first' : Parse Expr} (each : ReadAlike v weight first first')
    {more more' : Nat → Expr → Parse Expr}
    (rounds : ∀ {loose : Prop} {w n m m' : Nat} {c c' : Cursor} {e e' : Expr}, w < weight →
      Near v loose w n c c' → n ≤ m → n ≤ m' → e.relocated v.left = e'.relocated v.right →
      InStep (fun e e' d d' => e.relocated v.left = e'.relocated v.right ∧ Near v loose w n d d')
        (more m e c) (more' m' e' c')) :
    ReadAlike v weight
      (do
        let e ← first
        if told (← peek).lexeme then more (← remaining) e else pure e)
      (do
        let e ← first'
        if told (← peek).lexeme then more' (← remaining) e else pure e) := by
  intro loose w n c c' le near
  apply inStep_bind (each le near)
  rintro e e' d d' ⟨same, w₁, n₁, less, less', behind⟩
  apply inStep_peek
  rw [behind.told_eq marks]
  split
  · apply inStep_remaining behind
    intro m m' room room'
    have rest := rounds (less.trans_le le) behind.exact room room' same
    exact both_of_imp rest fun _ _ fine =>
      ⟨fine.1, w₁, _, less, behind.count.trans_lt less', fine.2⟩
  · exact inStep_pure ⟨same, w₁, n₁, less, less', behind⟩

theorem ByMark.isSome {op? : Lexeme → Option α} (marks : ByMark none op?) :
    ByMark false fun lexeme => (op? lexeme).isSome :=
  fun lexeme is => marks lexeme fun none => is (by simp [none])

theorem readAlike_chain {op? : Lexeme → Option BinaryOp} {operand operand' : Parse Expr}
    (marks : ByMark none op?) (each : ReadAlike v weight operand operand') :
    ReadAlike v weight (chain op? operand) (chain op? operand') :=
  readAlike_onward marks.isSome each fun less near room room' same =>
    inStep_chainFrom marks each less.le near room room' same

/-! Lists. -/

theorem inStep_items (close : Symbol) {item item' : Parse α} {rel : α → α → Prop}
    (each : ∀ {n : Nat} {c c' : Cursor}, Near v loose w n c c' →
      InStep (fun a a' d d' => rel a a' ∧ Near v loose w n d d') (item c) (item' c'))
    (near : Near v loose w n c c') {m m' : Nat} (room : n < m) (room' : n < m') :
    InStep (fun list list' d d' => List.Forall₂ rel list list' ∧ Near v loose w n d d')
      (items close item m c) (items close item' m' c') := by
  induction m generalizing n c c' m' with
  | zero => omega
  | succ m ih =>
      obtain ⟨m', rfl⟩ : ∃ k, m' = k + 1 := ⟨m' - 1, by omega⟩
      apply inStep_next near (Lexeme.isMark_symbol close)
      · intro _
        exact inStep_pure ⟨.nil, near⟩
      · intro _
        apply inStep_bind (each near)
        rintro first first' d d' ⟨same, behind⟩
        apply inStep_skipNewlines
        apply inStep_accept behind.skip (Lexeme.isMark_symbol .comma)
        · rintro ⟨w₁, n₁, less, less', after⟩
          apply inStep_skipNewlines
          have room₁ : n₁ < m := by omega
          have room₁' : n₁ < m' := by omega
          apply inStep_bind (ih (after.skip.mono less.le (Nat.le_refl n₁)) room₁ room₁')
          rintro others others' e e' ⟨same', there⟩
          exact inStep_pure ⟨.cons same same', there.mono (Nat.le_refl w) less'.le⟩
        · intro _
          exact inStep_pure ⟨.cons same .nil, behind.skip⟩

theorem inStep_delimited {close : Symbol} {what : Expected} {item item' : Parse α}
    {rel : α → α → Prop}
    (each : ∀ {n : Nat} {c c' : Cursor}, Near v loose w n c c' →
      InStep (fun a a' d d' => rel a a' ∧ Near v loose w n d d') (item c) (item' c'))
    (near : Near v loose w n c c') :
    InStep (fun list list' d d' => List.Forall₂ rel list list' ∧ Near v loose w n d d')
      (delimited close what item c) (delimited close what item' c') := by
  apply inStep_skipNewlines
  have inside := near.skip
  apply inStep_remaining inside
  intro m m' room room'
  have list := inStep_items close each inside.exact (Nat.lt_succ_of_le room)
    (Nat.lt_succ_of_le room')
  apply inStep_bind list
  rintro list list' d d' ⟨same, behind⟩
  have behind := behind.mono (Nat.le_refl w) inside.count
  apply inStep_expect behind (Lexeme.isMark_symbol close)
  intro _ nearer
  exact inStep_pure ⟨same, nearer.near⟩

/-- A rule that reads items, at most so many, each behind the same lexeme. -/
def ReadsBehind (lexeme : Lexeme) (item : Parse α) (more : Nat → Parse (List α)) : Prop :=
  more 0 = pure [] ∧ ∀ m, more (m + 1) = do
    if ← accept lexeme then
      let a ← item
      let rest ← more m
      pure (a :: rest)
    else pure []

theorem ReadsBehind.none {lexeme : Lexeme} {item : Parse α} {more : Nat → Parse (List α)}
    (reads : ReadsBehind lexeme item more) (other : c.head.lexeme ≠ lexeme) (m : Nat) :
    more m c = .ok ([], c) := by
  cases m with
  | zero =>
      rw [reads.1]
      rfl
  | succ m =>
      rw [reads.2]
      exact run_bind (run_accept_other other)

theorem inStep_more {lexeme : Lexeme} (mark : lexeme.IsMark) {item item' : Parse α}
    {more more' : Nat → Parse (List α)} {rel : α → α → Prop}
    (reads : ReadsBehind lexeme item more) (reads' : ReadsBehind lexeme item' more')
    (each : ∀ {n : Nat} {c c' : Cursor}, Near v loose w n c c' →
      InStep (fun a a' d d' => rel a a' ∧ Near v loose w n d d') (item c) (item' c'))
    (near : Near v loose w n c c') {m m' : Nat} (room : n ≤ m) (room' : n ≤ m') :
    InStep (fun list list' d d' => List.Forall₂ rel list list' ∧ Near v loose w n d d')
      (more m c) (more' m' c') := by
  have absent {n m m' : Nat} {c c' : Cursor} (near : Near v loose w n c c')
      (other : c.head.lexeme ≠ lexeme) :
      InStep (fun list list' d d' => List.Forall₂ rel list list' ∧ Near v loose w n d d')
        (more m c) (more' m' c') := by
    rw [reads.none other, reads'.none (mt (near.head_iff mark).mpr other)]
    exact ⟨.nil, near⟩
  induction m generalizing n c c' m' with
  | zero =>
      apply absent near
      intro there
      obtain ⟨_, _, n₁, _, less, _⟩ := near.take mark there
      omega
  | succ m ih =>
      by_cases there : c.head.lexeme = lexeme
      · obtain ⟨_, w₁, n₁, less, less', behind⟩ := near.take mark there
        obtain ⟨m', rfl⟩ : ∃ k, m' = k + 1 := ⟨m' - 1, by omega⟩
        have room₁ : n₁ ≤ m := by omega
        have room₁' : n₁ ≤ m' := by omega
        rw [reads.2, reads'.2]
        apply inStep_accept near mark
        · intro _
          apply inStep_bind (each (behind.mono less.le (Nat.le_refl n₁)))
          rintro a a' d d' ⟨same, after⟩
          apply inStep_bind (ih after room₁ room₁')
          rintro others others' e e' ⟨same', further⟩
          exact inStep_pure ⟨.cons same same', further.mono (Nat.le_refl w) less'.le⟩
        · exact fun other => absurd there other
      · exact absent near there

theorem moreNames_reads : ReadsBehind (.symbol .comma) (do
    let (name, _) ← expectName .name
    pure name) moreNames :=
  ⟨rfl, fun m => by simp only [moreNames, acceptSymbol, bind_assoc, pure_bind]⟩

theorem inStep_moreNames (near : Near v loose w n c c') {m m' : Nat} (room : n ≤ m)
    (room' : n ≤ m') :
    InStep (fun names names' d d' => names = names' ∧ Near v loose w n d d')
      (moreNames m c) (moreNames m' c') := by
  have each {n : Nat} {c c' : Cursor} (near : Near v loose w n c c') :
      InStep (fun name name' d d' => name = name' ∧ Near v loose w n d d')
        ((do
          let (name, _) ← expectName .name
          pure name : Parse Text) c)
        ((do
          let (name, _) ← expectName .name
          pure name : Parse Text) c') := by
    apply inStep_expectName near
    rintro name - nearer
    exact inStep_pure ⟨rfl, nearer.near⟩
  have list := inStep_more (Lexeme.isMark_symbol .comma) moreNames_reads moreNames_reads each near
    room room'
  rwa [List.forall₂_eq_eq_eq] at list

theorem inStep_nameList (near : Near v loose w n c c') :
    InStep (fun names names' d d' => names = names' ∧ Near v loose w n d d')
      (nameList c) (nameList c') := by
  apply inStep_expectName near
  rintro name - nearer
  apply inStep_remaining nearer.near
  intro m m' room room'
  apply inStep_bind (inStep_moreNames nearer.near.exact room room')
  rintro names _ d d' ⟨rfl, behind⟩
  exact inStep_pure ⟨rfl, behind.mono (Nat.le_refl w) nearer.near.count⟩

theorem inStep_parameters (near : Near v loose w n c c') {m m' : Nat} (room : n < m)
    (room' : n < m') (taken : List Text) :
    InStep (fun names names' d d' => names = names' ∧ Near v loose w n d d')
      (parameters taken m c) (parameters taken m' c') := by
  induction m generalizing n c c' m' taken with
  | zero => omega
  | succ m ih =>
      obtain ⟨m', rfl⟩ : ∃ k, m' = k + 1 := ⟨m' - 1, by omega⟩
      apply inStep_next near (Lexeme.isMark_symbol .closeParen)
      · intro _
        exact inStep_pure ⟨rfl, near⟩
      · intro _
        apply inStep_expectName near
        rintro name - nearer
        show InStep _ ((if taken.contains name then _ else _ : Parse (List Text)) c.tail)
          ((if taken.contains name then _ else _ : Parse (List Text)) c'.tail)
        split
        · trivial
        · apply inStep_skipNewlines
          have behind := nearer.near.skip
          apply inStep_accept behind (Lexeme.isMark_symbol .comma)
          · rintro ⟨w₁, n₁, less, less', after⟩
            apply inStep_skipNewlines
            have room₁ : n₁ < m := by omega
            have room₁' : n₁ < m' := by omega
            have rest := ih (after.skip.mono less.le (Nat.le_refl n₁)) room₁ room₁'
              (taken ++ [name])
            exact both_of_imp rest fun r r' fine =>
              ⟨fine.1, fine.2.mono (Nat.le_refl w) less'.le⟩
          · intro _
            exact inStep_pure ⟨rfl, behind⟩

theorem inStep_sharedNames (near : Near v loose w n c c') :
    InStep (fun names names' d d' => names = names' ∧ Near v loose w n d d')
      (sharedNames c) (sharedNames c') := by
  apply inStep_accept near (Lexeme.isMark_keyword .useKw)
  · intro nearer
    exact inStep_nameList nearer.near
  · intro _
    exact inStep_pure ⟨rfl, near⟩

section

variable (agree : rules.Agree v weight rules')
include agree

/-- Both give a procedure, which is the same up to places. -/
theorem inStep_procedure (less : w < weight) (near : Near v loose w n c c') :
    InStep (fun p p' d d' => p.relocated v.left = p'.relocated v.right ∧ Near v loose w n d d')
      (procedure rules c) (procedure rules' c') := by
  apply inStep_expect near (Lexeme.isMark_symbol .openParen)
  intro _ nearer
  apply inStep_skipNewlines
  have inside := nearer.near.skip
  apply inStep_remaining inside
  intro m m' room room'
  apply inStep_bind
    (inStep_parameters inside.exact (Nat.lt_succ_of_le room) (Nat.lt_succ_of_le room') [])
  rintro params _ d d' ⟨rfl, behind⟩
  apply inStep_expect (behind.mono (Nat.le_refl w) inside.count) (Lexeme.isMark_symbol .closeParen)
  intro _ nearer₁
  apply inStep_bind (inStep_sharedNames nearer₁.near)
  rintro uses _ d₁ d₁' ⟨rfl, behind₁⟩
  apply inStep_next behind₁ (Lexeme.isMark_symbol .arrow)
  · intro arrow
    obtain ⟨token, nearer₂⟩ := behind₁.take (Lexeme.isMark_symbol .arrow) arrow
    apply inStep_advance
    apply inStep_expr (agree.expression w less) nearer₂.near
    intro value value' d₂ d₂' same nearer₃
    refine inStep_pure ⟨?_, nearer₃.near⟩
    simp only [Procedure.relocated, Block.relocated, Stmt.allRelocated, Stmt.relocated, same,
      token.loc]
  · intro _
    apply inStep_expectNewline behind₁
    · intro blind line
      apply inStep_bind (agree.block .function .endKeyword less blind line)
      rintro body body' d₂ d₂' ⟨same, behind₂⟩
      apply inStep_expect behind₂ (Lexeme.isMark_keyword .endKw)
      intro _ nearer₂
      refine inStep_pure ⟨?_, nearer₂.near⟩
      rw [Procedure.relocated, Procedure.relocated, same]
    · intro t d lines
      obtain ⟨fails, fails'⟩ := agree.missing .function .endKeyword (by decide)
      exact ⟨fails_bind (fails d lines), fails_bind (fails' d lines)⟩

/-! Hashes. -/

omit agree in
theorem plainText?_relocated (f : Location → Location) (parts : List StringPart) :
    plainText? (parts.map (StringPart.relocated f)) = plainText? parts := by
  induction parts with
  | nil => rfl
  | cons part rest ih =>
      cases part with
      | text value => simp only [List.map_cons, StringPart.relocated, plainText?, ih]
      | code source loc => rfl

omit agree in
theorem inStep_hashKey (near : Near v loose w n c c') :
    InStep (fun key key' d d' => key = key' ∧ Near v loose w n d d') (hashKey c) (hashKey c') := by
  apply inStep_peek
  rcases near.cases with ⟨w₁, n₁, _, less, less', same, _, _, behind⟩ | ⟨gap, gap'⟩
  · have after := behind.mono less.le less'.le
    rcases Lexeme.relocated_cases same.lexeme with ⟨is, other⟩ | ⟨_, parts, parts', is, is', alike⟩
    · rw [is]
      cases head : c.head.lexeme with
      | string written parts => exact absurd (congrArg Lexeme.kind head) other
      | ident _ | keyword _ | number _ => exact inStep_advance (inStep_pure ⟨rfl, after⟩)
      | symbol _ | newline | eof => trivial
    · rw [is, is']
      have plain : plainText? parts' = plainText? parts := by
        rw [← plainText?_relocated v.right, ← alike, plainText?_relocated]
      simp only [plain]
      cases plainText? parts with
      | some key => exact inStep_advance (inStep_pure ⟨rfl, after⟩)
      | none => trivial
  · rcases gap with is | is <;> rcases gap' with is' | is' <;> rw [is, is'] <;> trivial

theorem inStep_hashEntry (less : w < weight) (near : Near v loose w n c c') :
    InStep (fun e e' d d' => Entry.Same v.left v.right e e' ∧ Near v loose w n d d')
      (hashEntry rules c) (hashEntry rules' c') := by
  apply inStep_bind (inStep_hashKey near)
  rintro key _ d d' ⟨rfl, behind⟩
  apply inStep_expect behind (Lexeme.isMark_symbol .colon)
  intro _ nearer
  apply inStep_skipNewlines
  apply inStep_expr (agree.expression w less) nearer.near.skip
  intro value value' d₁ d₁' same nearer₁
  exact inStep_pure ⟨⟨rfl, same⟩, nearer₁.near⟩

/-- A hash takes at least its opening brace. -/
theorem inStep_hashEntries {w n : Nat} (le : w ≤ weight) (near : Near v loose w n c c') :
    InStep (fun r r' d d' => Entry.allRelocated v.left r.1 = Entry.allRelocated v.right r'.1 ∧
        v.left r.2 = v.right r'.2 ∧ Nearer v loose w n d d')
      (hashEntries rules c) (hashEntries rules' c') := by
  apply inStep_expect near (Lexeme.isMark_symbol .openBrace)
  rintro token ⟨w₁, n₁, less, less', behind⟩
  apply inStep_bind (inStep_delimited (inStep_hashEntry agree (less.trans_le le)) behind)
  rintro entries entries' d d' ⟨same, after⟩
  exact inStep_pure ⟨Entry.allRelocated_of_same same, token.loc, w₁, n₁, less, less', after⟩

/-! Expressions that begin with a keyword. -/

omit agree in
theorem inStep_separator (near : Near v loose w n c c') :
    InStep (fun _ _ d d' => Near v loose w n d d') (separator c) (separator c') := by
  apply inStep_skipNewlines
  apply inStep_expect near.skip (Lexeme.isMark_symbol .comma)
  intro _ nearer
  exact nearer.near.skip

theorem inStep_choice {loc loc' : Location} (place : v.left loc = v.right loc')
    (less : w < weight) (near : Near v loose w n c c') :
    InStep (fun e e' d d' => e.relocated v.left = e'.relocated v.right ∧ Near v loose w n d d')
      (choice rules loc c) (choice rules' loc' c') := by
  have each : ReadAlike v w rules.expression rules'.expression := agree.expression w less
  apply inStep_expect near (Lexeme.isMark_symbol .openParen)
  intro _ nearer
  apply inStep_skipNewlines
  apply inStep_expr each nearer.near.skip
  intro condition condition' d₁ d₁' same₁ nearer₁
  apply inStep_bind (inStep_separator nearer₁.near)
  intro _ _ d₂ d₂' near₂
  apply inStep_expr each near₂
  intro consequent consequent' d₃ d₃' same₂ nearer₃
  apply inStep_bind (inStep_separator nearer₃.near)
  intro _ _ d₄ d₄' near₄
  apply inStep_expr each near₄
  intro alternate alternate' d₅ d₅' same₃ nearer₅
  apply inStep_skipNewlines
  apply inStep_expect nearer₅.near.skip (Lexeme.isMark_symbol .closeParen)
  intro _ nearer₆
  refine inStep_pure ⟨?_, nearer₆.near⟩
  rw [Expr.relocated, Expr.relocated, same₁, same₂, same₃, place]

omit agree in
theorem inStep_reference {loc loc' : Location} (place : v.left loc = v.right loc')
    (near : Near v loose w n c c') :
    InStep (fun e e' d d' => e.relocated v.left = e'.relocated v.right ∧ Near v loose w n d d')
      (reference loc c) (reference loc' c') := by
  apply inStep_expectName near
  rintro first - nearer
  apply inStep_accept nearer.near (Lexeme.isMark_symbol .dot)
  · intro nearer₁
    apply inStep_expectName nearer₁.near
    rintro name - nearer₂
    refine inStep_pure ⟨?_, nearer₂.near⟩
    rw [Expr.relocated, Expr.relocated, place]
  · intro _
    refine inStep_pure ⟨?_, nearer.near⟩
    rw [Expr.relocated, Expr.relocated, place]

theorem inStep_keywordExpression (le : w ≤ weight) (near : Near v loose w n c c')
    {word : Keyword} (is : c.head.lexeme = .keyword word) :
    GiveExpr v loose w n (keywordExpression rules word c.head.loc c)
      (keywordExpression rules' word c'.head.loc c') := by
  obtain ⟨token, nearer⟩ := near.take (Lexeme.isMark_keyword word) is
  obtain ⟨w₁, n₁, less, less', behind⟩ := nearer
  have place := token.loc
  have taken {d d' : Cursor} (near : Near v loose w₁ n₁ d d') : Nearer v loose w n d d' :=
    ⟨w₁, n₁, less, less', near⟩
  cases word with
  | trueKw | falseKw | nullKw =>
      apply inStep_advance
      refine inStep_pure ⟨?_, taken behind⟩
      rw [Expr.relocated, Expr.relocated, place]
  | newKw =>
      apply inStep_advance
      apply inStep_next behind (Lexeme.isMark_symbol .openBrace)
      · intro _
        apply inStep_bind (inStep_hashEntries agree (less.le.trans le) behind)
        rintro ⟨entries, hash⟩ ⟨entries', hash'⟩ d d' ⟨same, place', nearer⟩
        refine inStep_pure ⟨?_, taken nearer.near⟩
        simp only at same place'
        rw [Expr.relocated, Expr.relocated, same, place, place']
      · intro _
        exact inStep_peek trivial
  | refKw =>
      apply inStep_advance
      exact both_of_imp (inStep_reference place behind) fun _ _ fine => ⟨fine.1, taken fine.2⟩
  | funcKw =>
      apply inStep_advance
      apply inStep_bind (inStep_procedure agree (less.trans_le le) behind)
      rintro p p' d d' ⟨same, near⟩
      refine inStep_pure ⟨?_, taken near⟩
      rw [Expr.relocated, Expr.relocated, same, place]
  | ifKw =>
      apply inStep_advance
      exact both_of_imp (inStep_choice agree place (less.trans_le le) behind) fun _ _ fine =>
        ⟨fine.1, taken fine.2⟩
  | _ => exact True.intro

/-! Strings. -/

/-- Code is read alike, wherever it stands. -/
theorem both_interpolation {source : Text} {loc loc' : Location} (less : source.length < weight)
    (place : v.left loc = v.right loc') (lines : 0x0A ∈ source → v.Blind) :
    Both (fun e e' => e.relocated v.left = e'.relocated v.right)
      (interpolation rules source loc) (interpolation rules' source loc') := by
  rw [interpolation_eq, interpolation_eq]
  apply both_bind (both_tokenize place lines)
  rintro tokens tokens' ⟨n, near⟩
  have read : InStep (fun e e' _ _ => e.relocated v.left = e'.relocated v.right)
      (wholeExpression rules (.ofTokens tokens)) (wholeExpression rules' (.ofTokens tokens')) := by
    apply inStep_expr (agree.expression _ less) near
    intro e e' d d' same nearer
    apply inStep_peek
    by_cases done : d.head.lexeme = .eof
    · rw [if_pos (beq_iff_eq.mpr done), if_pos (beq_iff_eq.mpr (nearer.near.eof_iff.mp done))]
      exact inStep_pure same
    · have more := mt nearer.near.eof_iff.mpr done
      rw [if_neg (by simpa using done), if_neg (by simpa using more)]
      trivial
  exact both_bind read fun r r' same => same

theorem both_segments {parts parts' : List StringPart}
    (alike : parts.map (StringPart.relocated v.left) = parts'.map (StringPart.relocated v.right))
    (tame : ∀ code loc, .code code loc ∈ parts →
      code.length < weight ∧ (0x0A ∈ code → v.Blind)) :
    Both (fun list list' => Segment.allRelocated v.left list = Segment.allRelocated v.right list')
      (segments rules parts) (segments rules' parts') := by
  induction parts generalizing parts' with
  | nil =>
      obtain rfl := List.map_eq_nil_iff.mp alike.symm
      exact rfl
  | cons part rest ih =>
      obtain ⟨part', rest', rfl, first, others⟩ := List.map_eq_cons_iff.mp alike.symm
      have later := ih others.symm fun code loc among => tame code loc (.tail _ among)
      cases part with
      | text value =>
          cases part' <;> cases first
          apply both_bind later
          intro list list' same
          show Segment.allRelocated v.left _ = Segment.allRelocated v.right _
          rw [Segment.allRelocated, Segment.allRelocated, same]
      | code code loc =>
          obtain ⟨less, lines⟩ := tame code loc (.head _)
          cases part' with
          | text value => cases first
          | code code' loc' =>
              rw [StringPart.relocated, StringPart.relocated, StringPart.code.injEq] at first
              obtain ⟨rfl, place⟩ := first
              apply both_bind (both_interpolation agree less place.symm lines)
              intro e e' same
              apply both_bind later
              intro list list' same'
              show Segment.allRelocated v.left _ = Segment.allRelocated v.right _
              rw [Segment.allRelocated, Segment.allRelocated, same, same']

/-! The levels above. -/

theorem readAlike_primary : ReadAlike v weight (primary rules) (primary rules') := by
  intro loose w n c c' le near
  apply inStep_peek
  rcases near.cases with ⟨w₁, n₁, fits, less, less', token, tame, _, behind⟩ | ⟨gap, gap'⟩
  · have place := token.loc
    have taken {d d' : Cursor} (near : Near v loose w₁ n₁ d d') : Nearer v loose w n d d' :=
      ⟨w₁, n₁, less, less', near⟩
    have each : ReadAlike v w₁ rules.expression rules'.expression :=
      agree.expression w₁ (less.trans_le le)
    rcases Lexeme.relocated_cases token.lexeme with
      ⟨is, other⟩ | ⟨written, parts, parts', is, is', alike⟩
    · rw [is]
      cases head : c.head.lexeme with
      | number digits =>
          apply inStep_advance
          refine inStep_pure ⟨?_, taken behind⟩
          rw [Expr.relocated, Expr.relocated, place]
      | string written parts => exact absurd (congrArg Lexeme.kind head) other
      | ident name =>
          apply inStep_advance
          refine inStep_pure ⟨?_, taken behind⟩
          rw [Expr.relocated, Expr.relocated, place]
      | keyword word => exact inStep_keywordExpression agree le near head
      | symbol s =>
          cases s with
          | openParen =>
              apply inStep_advance
              apply inStep_skipNewlines
              apply inStep_expr each behind.skip
              intro e e' d d' same nearer
              apply inStep_skipNewlines
              apply inStep_expect nearer.near.skip (Lexeme.isMark_symbol .closeParen)
              intro _ nearer₁
              exact inStep_pure ⟨same, taken nearer₁.near⟩
          | openBracket =>
              apply inStep_advance
              apply inStep_bind (inStep_delimited each.element behind)
              rintro list list' d d' ⟨same, near⟩
              refine inStep_pure ⟨?_, taken near⟩
              rw [Expr.relocated, Expr.relocated, Expr.allRelocated_of_same same, place]
          | openBrace =>
              apply inStep_bind (inStep_hashEntries agree le near)
              rintro ⟨entries, hash⟩ ⟨entries', hash'⟩ d d' ⟨same, place', nearer⟩
              refine inStep_pure ⟨?_, nearer⟩
              simp only at same place'
              rw [Expr.relocated, Expr.relocated, same, place']
          | _ => exact True.intro
      | newline | eof => exact True.intro
    · rw [is, is']
      apply inStep_advance
      have short : ∀ code loc, .code code loc ∈ parts →
          code.length < weight ∧ (0x0A ∈ code → v.Blind) := by
        intro code loc among
        obtain ⟨shorter, lines⟩ := tame.2 written parts code loc is among
        rw [is, Lexeme.text] at fits
        exact ⟨by omega, lines⟩
      apply inStep_lift (both_segments agree alike short)
      intro list list' same
      refine inStep_pure ⟨?_, taken behind⟩
      rw [Expr.relocated, Expr.relocated, same, place]
  · rcases gap with is | is <;> rcases gap' with is' | is' <;> rw [is, is'] <;> trivial

omit agree in
theorem suffixes_stop (m : Nat) (e : Expr) (other : beginsSuffix c.head.lexeme = false) :
    suffixes rules m e c = .ok (e, c) := by
  have stops : joins 8 c.head.lexeme = false := by rw [joins, other]; rfl
  exact goOn_stop stops

theorem inStep_suffixes (less : w < weight) (near : Near v loose w n c c') {m m' : Nat}
    (room : n ≤ m) (room' : n ≤ m') {e e' : Expr}
    (same : e.relocated v.left = e'.relocated v.right) :
    InStep (fun e e' d d' => e.relocated v.left = e'.relocated v.right ∧ Near v loose w n d d')
      (suffixes rules m e c) (suffixes rules' m' e' c') := by
  have each : ReadAlike v w rules.expression rules'.expression := agree.expression w less
  induction m generalizing n c c' m' e e' with
  | zero =>
      have other : beginsSuffix c.head.lexeme = false := by
        by_contra is
        obtain ⟨_, _, n₁, _, less, _⟩ := near.take_told byMark_beginsSuffix is
        omega
      rw [suffixes_stop 0 e other,
        suffixes_stop m' e' ((near.told_eq byMark_beginsSuffix).trans other)]
      exact ⟨same, near⟩
  | succ m ih =>
      cases is : beginsSuffix c.head.lexeme with
      | false =>
          rw [suffixes_stop _ e is,
            suffixes_stop m' e' ((near.told_eq byMark_beginsSuffix).trans is)]
          exact ⟨same, near⟩
      | true =>
          have mark := byMark_beginsSuffix c.head.lexeme (by simp [is])
          obtain ⟨token, w₁, n₁, less₁, less₁', behind⟩ := near.take mark rfl
          obtain ⟨m', rfl⟩ : ∃ k, m' = k + 1 := ⟨m' - 1, by omega⟩
          have room₁ : n₁ ≤ m := by omega
          have room₁' : n₁ ≤ m' := by omega
          have behind := behind.mono less₁.le (Nat.le_refl n₁)
          have further {d d' : Cursor} {e e' : Expr} (near : Near v loose w n₁ d d')
              (same : e.relocated v.left = e'.relocated v.right) :
              InStep (fun e e' d d' => e.relocated v.left = e'.relocated v.right ∧
                Near v loose w n d d') (suffixes rules m e d) (suffixes rules' m' e' d') :=
            both_of_imp (ih near room₁ room₁' same) fun _ _ fine =>
              ⟨fine.1, fine.2.mono (Nat.le_refl w) less₁'.le⟩
          apply inStep_peek
          rw [(near.head_iff mark).mp rfl]
          cases head : c.head.lexeme with
          | symbol s =>
              rw [head] at is
              cases s with
              | openParen =>
                  apply inStep_advance
                  apply inStep_bind (inStep_delimited each.element behind)
                  rintro args args' d d' ⟨same', near⟩
                  apply further near
                  rw [Expr.relocated, Expr.relocated, same, Expr.allRelocated_of_same same',
                    token.loc]
              | dot =>
                  apply inStep_advance
                  apply inStep_expectName behind
                  rintro name - nearer
                  apply further nearer.near
                  rw [Expr.relocated, Expr.relocated, same, token.loc]
              | openBracket =>
                  apply inStep_advance
                  apply inStep_skipNewlines
                  apply inStep_expr each behind.skip
                  intro position position' d d' same' nearer
                  apply inStep_skipNewlines
                  apply inStep_expect nearer.near.skip (Lexeme.isMark_symbol .closeBracket)
                  intro _ nearer₁
                  apply further nearer₁.near
                  rw [Expr.relocated, Expr.relocated, same, same', token.loc]
              | _ => cases is
          | _ =>
              rw [head] at is
              cases is

theorem readAlike_access : ReadAlike v weight (access rules) (access rules') :=
  readAlike_onward byMark_beginsSuffix (readAlike_primary agree)
    fun less near room room' same => inStep_suffixes agree less near room room' same

omit agree in
theorem negated_relocated (f : Location → Location) (e : Expr) (loc : Location) :
    (negated e loc).relocated f = negated (e.relocated f) (f loc) := by
  cases e <;> rfl

omit agree in
/-- A prefix operator in front of both operands, or in front of neither. -/
theorem readAlike_prefixed {lexeme : Lexeme} (mark : lexeme.IsMark)
    {operand operand' other other' : Parse Expr} {join : Expr → Location → Expr}
    (joined : ∀ (f : Location → Location) (e : Expr) (loc : Location),
      (join e loc).relocated f = join (e.relocated f) (f loc))
    (inner : ∀ w, w < weight → ReadAlike v w operand operand')
    (outer : ReadAlike v weight other other') :
    ReadAlike v weight
      (do
        let t ← peek
        if t.lexeme == lexeme then
          let _ ← advance
          let e ← operand
          pure (join e t.loc)
        else other)
      (do
        let t ← peek
        if t.lexeme == lexeme then
          let _ ← advance
          let e ← operand'
          pure (join e t.loc)
        else other') := by
  intro loose w n c c' le near
  apply inStep_choose near mark
  · rintro _ token ⟨w₁, n₁, less, less', behind⟩
    apply inStep_advance
    apply inStep_expr (inner w₁ (less.trans_le le)) behind
    intro e e' d d' same nearer
    refine inStep_pure ⟨?_, w₁, n₁, less, less', nearer.near⟩
    rw [joined, joined, same, token.loc]
  · intro _
    exact outer le near

theorem readAlike_unary : ReadAlike v weight (unary rules) (unary rules') :=
  readAlike_prefixed (Lexeme.isMark_symbol .minus) negated_relocated agree.unary
    (readAlike_access agree)

theorem readAlike_product : ReadAlike v weight (product rules) (product rules') :=
  readAlike_chain (byMark_opAt? 6) (readAlike_unary agree)

theorem readAlike_sum : ReadAlike v weight (sum rules) (sum rules') :=
  readAlike_chain (byMark_opAt? 5) (readAlike_product agree)

theorem readAlike_comparison : ReadAlike v weight (comparison rules) (comparison rules') :=
  readAlike_chain (byMark_opAt? 4) (readAlike_sum agree)

theorem readAlike_negation : ReadAlike v weight (negation rules) (negation rules') :=
  readAlike_prefixed (Lexeme.isMark_keyword .notKw) (fun _ _ _ => rfl) agree.negation
    (readAlike_comparison agree)

theorem readAlike_conjunction : ReadAlike v weight (conjunction rules) (conjunction rules') :=
  readAlike_chain (byMark_opAt? 2) (readAlike_negation agree)

theorem readAlike_disjunction : ReadAlike v weight (disjunction rules) (disjunction rules') :=
  readAlike_chain (byMark_opAt? 1) (readAlike_conjunction agree)

theorem readAlike_expression : ReadAlike v weight (expression rules) (expression rules') :=
  readAlike_chain (byMark_opAt? 0) (readAlike_disjunction agree)

end

end Grammar

end Loom
