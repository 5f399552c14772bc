import Mathlib.Data.List.Forall2
import Loom.Proofs.Precedence.Written
import Loom.Proofs.Reading.Run
import Loom.Proofs.Relocation

/-!
What is written is read back. The rule of each level reads what is written at that
level, up to a lexeme that binds less tightly, and gives the same tree up to its places.
-/

namespace Loom

namespace Grammar

variable {α β : Type}

/-! Levels. -/

/-- The rule of a level. -/
def atLevel (rules : Rules) : Nat → Parse Expr
  | 0 => expression rules
  | 1 => disjunction rules
  | 2 => conjunction rules
  | 3 => negation rules
  | 4 => comparison rules
  | 5 => sum rules
  | 6 => product rules
  | 7 => unary rules
  | 8 => access rules
  | _ => primary rules

/-- The operators between the operands of a level. -/
def opAt? : Nat → Lexeme → Option BinaryOp
  | 0 => concatOp?
  | 1 => orOp?
  | 2 => andOp?
  | 4 => compareOp?
  | 5 => sumOp?
  | 6 => productOp?
  | _ => fun _ => none

/-- Whether a lexeme goes on with an expression of a level. -/
def joins (level : Nat) (lexeme : Lexeme) : Bool :=
  (opAt? level lexeme).isSome || (level == 8 && beginsSuffix lexeme)

/-- How the rule of a level goes on behind an expression, at most `n` times. -/
def goOn (rules : Rules) (level n : Nat) (left : Expr) : Parse Expr :=
  if level = 8 then suffixes rules n left
  else chainFrom (opAt? level) (atLevel rules (level + 1)) n left

theorem opAt?_lexeme (op : BinaryOp) : opAt? op.level op.lexeme = some op := by
  cases op <;> rfl

/-- A binary operator goes on with expressions of its own level only. -/
theorem level_eq_of_joins {op : BinaryOp} {k : Nat} (on : joins k op.lexeme = true) :
    k = op.level := by
  match k with
  | 0 | 1 | 2 | 3 | 4 | 5 | 6 | 7 | 8 => cases op <;> first | rfl | cases on
  | k + 9 => cases op <;> simp [joins, opAt?] at on

theorem goOn_stop {rules : Rules} {level n : Nat} {e : Expr} {c : Cursor}
    (stops : joins level c.head.lexeme = false) : goOn rules level n e c = .ok (e, c) := by
  simp only [joins, Bool.or_eq_false_iff] at stops
  obtain ⟨none, other⟩ := stops
  rw [Option.isSome_eq_false_iff, Option.isNone_iff_eq_none] at none
  cases n with
  | zero => unfold goOn; split <;> rfl
  | succ n =>
      unfold goOn
      split
      · rename_i is
        rw [is, beq_self_eq_true, Bool.true_and] at other
        rw [suffixes, run_bind (peek_eq c)]
        unfold beginsSuffix at other
        split at other
        · cases other
        · cases other
        · cases other
        · rfl
      · rw [chainFrom, run_bind (peek_eq c), none]
        rfl

/-- A rule has read an expression and goes on with what is behind it. -/
def Reached (rules : Rules) (level : Nat) (c : Cursor) (e : Expr) (d : Cursor) : Prop :=
  ∃ n, d.tokens.length ≤ n ∧ atLevel rules level c = goOn rules level n e d

theorem Reached.run {rules : Rules} {level : Nat} {c d : Cursor} {e : Expr}
    (reached : Reached rules level c e d) (stops : joins level d.head.lexeme = false) :
    atLevel rules level c = .ok (e, d) := by
  obtain ⟨n, _, run⟩ := reached
  rw [run, goOn_stop stops]

theorem reached_of_run {rules : Rules} {level : Nat} {c d : Cursor} {e : Expr}
    (run : atLevel rules level c = .ok (e, d)) (stops : joins level d.head.lexeme = false) :
    Reached rules level c e d :=
  ⟨_, le_refl _, by rw [run, goOn_stop stops]⟩

theorem reached_of_chain {rules : Rules} {k : Nat} {c d : Cursor} {e : Expr} (other : k ≠ 8)
    (rule : atLevel rules k = chain (opAt? k) (atLevel rules (k + 1)))
    (run : atLevel rules (k + 1) c = .ok (e, d)) : Reached rules k c e d := by
  refine ⟨d.tokens.length, le_refl _, ?_⟩
  rw [rule, chain, run_bind run, run_bind (peek_eq d)]
  split
  · rw [run_bind rfl, goOn, if_neg other]
  · rename_i none
    have stops : joins k d.head.lexeme = false := by
      rw [joins, Bool.or_eq_false_iff, beq_false_of_ne other]
      exact ⟨by simpa using none, rfl⟩
    rw [goOn_stop stops]
    rfl

/-- The rule of a level begins with that of the next one, unless with an operator of its own. -/
theorem reached_below {rules : Rules} {k : Nat} {c d : Cursor} {e : Expr} (level : k ≤ 8)
    (run : atLevel rules (k + 1) c = .ok (e, d))
    (begins : c.head.lexeme.begins (k + 1) = true) : Reached rules k c e d := by
  have no : k = 3 → c.head.lexeme ≠ .keyword .notKw := by
    rintro rfl is
    simp [is, Lexeme.begins] at begins
  have sign : k = 7 → c.head.lexeme ≠ .symbol .minus := by
    rintro rfl is
    simp [is, Lexeme.begins] at begins
  match k with
  | 0 | 1 | 2 | 4 | 5 | 6 => exact reached_of_chain (by decide) rfl run
  | 3 =>
      refine reached_of_run ?_ rfl
      show negation rules c = _
      rw [negation, run_bind (peek_eq c), if_neg (by simpa using no rfl)]
      exact run
  | 7 =>
      refine reached_of_run ?_ rfl
      show unary rules c = _
      rw [unary, run_bind (peek_eq c), if_neg (by simpa using sign rfl)]
      exact run
  | 8 =>
      have first : primary rules c = .ok (e, d) := run
      refine ⟨d.tokens.length, le_refl _, ?_⟩
      show access rules c = _
      rw [access, run_bind first, run_bind (peek_eq d)]
      split
      · rfl
      · rename_i none
        rw [goOn_stop (by simpa [joins, opAt?] using none)]
        rfl

/-- Down to a level, where no lexeme of a level in between goes on. -/
theorem Reached.down {rules : Rules} {j k : Nat} {c d : Cursor} {e : Expr} (le : k ≤ j)
    (top : j ≤ 9) (stops : ∀ i, k < i → joins i d.head.lexeme = false)
    (begins : c.head.lexeme.begins j = true) (reached : Reached rules j c e d) :
    Reached rules k c e d := by
  induction le using Nat.decreasingInduction with
  | self => exact reached
  | of_succ i below ih =>
      have above := ih fun l more => stops l (by omega)
      exact reached_below (by omega) (above.run (stops _ (Nat.lt_succ_self i)))
        (Lexeme.begins_of_le begins below)

/-! Lists with commas between their items. -/

section

variable {close : Symbol} {item : Parse α} {t : Token} {rest : List Token} {stop : Location}

theorem items_none (n : Nat) (closing : t.lexeme = .symbol close) :
    items close item (n + 1) ⟨t :: rest, stop⟩ = .ok ([], ⟨t :: rest, stop⟩) := by
  have found : (Cursor.head ⟨t :: rest, stop⟩).lexeme = .symbol close := closing
  rw [items, nextSymbol, run_bind (run_next _), if_pos (beq_iff_eq.mpr found)]
  rfl

theorem items_last {c : Cursor} {a : α} (n : Nat) (more : c.head.lexeme ≠ .symbol close)
    (run : item c = .ok (a, ⟨t :: rest, stop⟩)) (closing : t.lexeme = .symbol close)
    (other : close ≠ .comma) :
    items close item (n + 1) c = .ok ([a], ⟨t :: rest, stop⟩) := by
  have ends : (Cursor.head ⟨t :: rest, stop⟩).lexeme ≠ .symbol .comma := by
    show t.lexeme ≠ _
    rw [closing]
    simpa using other
  rw [items, nextSymbol, run_bind (run_next c), if_neg (by simpa using more), run_bind run,
    run_bind (run_skipNewlines (by simp [Cursor.head, closing])), acceptSymbol,
    run_bind (run_accept_other ends)]
  rfl

theorem items_more {c d : Cursor} {a : α} {list : List α} (n : Nat)
    (more : c.head.lexeme ≠ .symbol close)
    (run : item c = .ok (a, ⟨t :: rest, stop⟩)) (comma : t.lexeme = .symbol .comma)
    (line : (Cursor.mk rest stop).head.lexeme ≠ .newline)
    (others : items close item n ⟨rest, stop⟩ = .ok (list, d)) :
    items close item (n + 1) c = .ok (a :: list, d) := by
  rw [items, nextSymbol, run_bind (run_next c), if_neg (by simpa using more), run_bind run,
    run_bind (run_skipNewlines (by simp [Cursor.head, comma])), acceptSymbol,
    run_bind (run_accept comma), if_pos rfl, run_bind (run_skipNewlines line), run_bind others]
  rfl

theorem run_delimited {c : Cursor} {list : List α} (what : Expected)
    (line : c.head.lexeme ≠ .newline) (closing : t.lexeme = .symbol close)
    (run : items close item (c.tokens.length + 1) c = .ok (list, ⟨t :: rest, stop⟩)) :
    delimited close what item c = .ok (list, ⟨rest, stop⟩) := by
  rw [delimited, run_bind (run_skipNewlines line), run_bind rfl, run_bind run, expectSymbol,
    run_bind (run_expect what closing)]
  rfl

end

/-! Each tree is read back from what it is written as. -/

/-- What is written is read at a level as an expression, up to places, wherever no lexeme
of a higher level follows. -/
def ReadsAt (level : Nat) (written : List Lexeme) (e : Expr) : Prop :=
  ∀ n front rest stop, front.map Token.lexeme = written → front.length ≤ n →
    (∀ i, level < i → joins i (Cursor.mk rest stop).head.lexeme = false) →
    ∃ e', e'.unplaced = e.unplaced ∧
      Reached (rules n) level ⟨front ++ rest, stop⟩ e' ⟨rest, stop⟩

/-- A lexeme that no expression goes on with. -/
def Closes (lexeme : Lexeme) : Prop := ∀ i, joins i lexeme = false

theorem closes_symbol {s : Symbol}
    (closing : s = .closeParen ∨ s = .closeBracket ∨ s = .closeBrace ∨ s = .comma) :
    Closes (.symbol s) := by
  intro i
  match i with
  | 0 | 1 | 2 | 3 | 4 | 5 | 6 | 7 | 8 => rcases closing with rfl | rfl | rfl | rfl <;> rfl
  | i + 9 => simp [joins, opAt?]

/-- The first of the tokens that an expression is written as. -/
theorem exists_first {front : List Token} {written : List Lexeme} {level : Nat}
    (same : front.map Token.lexeme = written)
    (begins : ∃ first rest, written = first :: rest ∧ Lexeme.begins level first = true) :
    ∃ first tail, front = first :: tail ∧ first.lexeme.begins level = true := by
  obtain ⟨first, rest, rfl, begins⟩ := begins
  obtain ⟨t, tail, rfl, rfl, _⟩ := List.map_eq_cons_iff.mp same
  exact ⟨t, tail, rfl, begins⟩

theorem ne_newline_of_begins {level : Nat} {lexeme : Lexeme}
    (begins : lexeme.begins level = true) : lexeme ≠ .newline := by
  rintro rfl
  cases begins

theorem begins_append {written : List Lexeme} {level : Nat} (more : List Lexeme)
    (begins : ∃ first rest, written = first :: rest ∧ Lexeme.begins level first = true) :
    ∃ first rest, written ++ more = first :: rest ∧ Lexeme.begins level first = true := by
  obtain ⟨first, rest, rfl, begins⟩ := begins
  exact ⟨first, rest ++ more, rfl, begins⟩

theorem head_ne_newline {front : List Token} {written : List Lexeme} {level : Nat}
    (same : front.map Token.lexeme = written)
    (begins : ∃ first rest, written = first :: rest ∧ Lexeme.begins level first = true)
    (rest : List Token) (stop : Location) :
    (Cursor.mk (front ++ rest) stop).head.lexeme ≠ .newline := by
  obtain ⟨first, tail, rfl, starts⟩ := exists_first same begins
  exact ne_newline_of_begins starts

theorem run_separator {place stop : Location} {rest : List Token}
    (line : (Cursor.mk rest stop).head.lexeme ≠ .newline) :
    separator ⟨⟨.symbol .comma, place⟩ :: rest, stop⟩ = .ok ((), ⟨rest, stop⟩) := by
  rw [separator, run_bind (run_skipNewlines (by simp [Cursor.head])), expectSymbol,
    run_bind (run_expect .comma (rfl : (Token.mk (.symbol .comma) place).lexeme = _)),
    run_skipNewlines line]

theorem ne_close_of_begins {level : Nat} {lexeme : Lexeme} {s : Symbol}
    (begins : lexeme.begins level = true)
    (closing : s = .closeParen ∨ s = .closeBracket ∨ s = .closeBrace) :
    lexeme ≠ .symbol s := by
  rintro rfl
  rcases closing with rfl | rfl | rfl <;> cases begins

/-- Tokens behind one of them, and up to another. -/
theorem exists_ended {front : List Token} {inner : List Lexeme} {last : Lexeme}
    (same : front.map Token.lexeme = inner ++ [last]) :
    ∃ middle closer, front = middle ++ [closer] ∧ middle.map Token.lexeme = inner ∧
      closer.lexeme = last := by
  obtain ⟨middle, ending, rfl, within, same⟩ := List.map_eq_append_iff.mp same
  obtain ⟨closer, _, rfl, closing, none⟩ := List.map_eq_cons_iff.mp same
  obtain rfl := List.map_eq_nil_iff.mp none
  exact ⟨middle, closer, rfl, within, closing⟩

theorem exists_opened {front : List Token} {first : Lexeme} {rest : List Lexeme}
    (same : front.map Token.lexeme = first :: rest) :
    ∃ place back, front = ⟨first, place⟩ :: back ∧ back.map Token.lexeme = rest := by
  obtain ⟨⟨_, place⟩, back, rfl, rfl, behind⟩ := List.map_eq_cons_iff.mp same
  exact ⟨place, back, rfl, behind⟩

/-- An expression in brackets, which the grammar comes back to its lowest level for. -/
theorem ReadsAt.expression {written : List Lexeme} {e : Expr} (reads : ReadsAt 0 written e)
    {n : Nat} {front : List Token} {t : Token} (rest : List Token) (stop : Location)
    (same : front.map Token.lexeme = written) (room : front.length < n)
    (closes : Closes t.lexeme) :
    ∃ e', e'.unplaced = e.unplaced ∧
      (rules n).expression ⟨front ++ t :: rest, stop⟩ = .ok (e', ⟨t :: rest, stop⟩) := by
  obtain ⟨m, rfl⟩ : ∃ m, n = m + 1 := ⟨n - 1, by omega⟩
  obtain ⟨e', is, reached⟩ := reads m front (t :: rest) stop same (by omega) fun i _ => closes i
  exact ⟨e', is, reached.run (closes 0)⟩

/-- An expression up to the symbol that closes it, which is taken too. -/
theorem ReadsAt.closed {written : List Lexeme} {e : Expr} (reads : ReadsAt 0 written e)
    {close : Symbol} (bracket : close = .closeParen ∨ close = .closeBracket) (what : Expected)
    {n : Nat} {front : List Token} (rest : List Token) (stop : Location)
    (same : front.map Token.lexeme = written ++ [.symbol close]) (room : front.length ≤ n) :
    ∃ e', e'.unplaced = e.unplaced ∧ ∀ {β : Type} (f : Expr → Parse β),
      (do
        let e ← (rules n).expression
        skipNewlines
        let _ ← expectSymbol close what
        f e) ⟨front ++ rest, stop⟩ = f e' ⟨rest, stop⟩ := by
  obtain ⟨middle, closer, rfl, inside, closing⟩ := exists_ended same
  simp only [List.length_append, List.length_cons, List.length_nil] at room
  have closes : Closes closer.lexeme := by
    rw [closing]
    exact closes_symbol (bracket.imp_right .inl)
  have line : (Cursor.mk (closer :: rest) stop).head.lexeme ≠ .newline := by
    simp [Cursor.head, closing]
  obtain ⟨e', is, run⟩ := reads.expression (n := n) rest stop inside (by omega) closes
  refine ⟨e', is, fun f => ?_⟩
  have shape : middle ++ [closer] ++ rest = middle ++ closer :: rest := by simp
  rw [shape, run_bind run, run_bind (run_skipNewlines line), expectSymbol,
    run_bind (run_expect what closing)]

/-- What is read at its own level is read at a place that it may stand at. -/
theorem ReadsAt.down {level place : Nat} {written : List Lexeme} {e : Expr}
    (reads : ReadsAt level written e) (le : place ≤ level) (top : level ≤ 9)
    (begins : ∃ first rest, written = first :: rest ∧ Lexeme.begins level first = true) :
    ReadsAt place written e := by
  intro n front rest stop same room stops
  obtain ⟨e', is, reached⟩ := reads n front rest stop same room fun i more => stops i (by omega)
  obtain ⟨first, tail, rfl, begins⟩ := exists_first same begins
  exact ⟨e', is, reached.down le top stops begins⟩

theorem readsAt_placed {level place : Nat} {bare : List Lexeme → Prop} {written : List Lexeme}
    {e : Expr} (is : Placed level place bare written) (low : place ≤ 9) (top : level ≤ 9)
    (reads : ∀ inner, bare inner → ReadsAt level inner e)
    (begins : ∀ inner, bare inner → ∃ first rest, inner = first :: rest ∧
      Lexeme.begins level first = true) : ReadsAt place written e := by
  unfold Placed at is
  split at is
  · obtain ⟨inner, inside, rfl⟩ := is
    have starts := begins inner inside
    have within : ReadsAt 0 inner e := (reads inner inside).down (Nat.zero_le _) top starts
    have read : ReadsAt 9 (.symbol .openParen :: (inner ++ [.symbol .closeParen])) e := by
      intro n front rest stop same room stops
      obtain ⟨place, tail, rfl, behind⟩ := exists_opened same
      obtain ⟨e', is, run⟩ := within.closed (.inl rfl) .closeParen rest stop behind
        (Nat.le_of_succ_le room)
      have step : primary (rules n) ⟨⟨.symbol .openParen, place⟩ :: (tail ++ rest), stop⟩ =
          (do
            skipNewlines
            let e ← (rules n).expression
            skipNewlines
            let _ ← expectSymbol .closeParen .closeParen
            pure e) ⟨tail ++ rest, stop⟩ := rfl
      refine ⟨e', is, reached_of_run (step.trans ?_) rfl⟩
      rw [run_bind (run_skipNewlines (head_ne_newline behind (begins_append _ starts) _ _)), run]
      rfl
    exact read.down low (le_refl 9) ⟨_, _, rfl, rfl⟩
  · rename_i tight
    exact (reads written is).down (Nat.le_of_not_lt tight) top (begins written is)

section

variable {written front back : List Lexeme} {e : Expr}

/-- An expression of one lexeme. -/
theorem readsAt_single {lexeme : Lexeme}
    (reads : ∀ rules place rest stop, ∃ e', e'.unplaced = e.unplaced ∧
      primary rules ⟨⟨lexeme, place⟩ :: rest, stop⟩ = .ok (e', ⟨rest, stop⟩)) :
    ReadsAt 9 [lexeme] e := by
  intro n front rest stop same room stops
  obtain ⟨place, back, rfl, behind⟩ := exists_opened same
  obtain rfl := List.map_eq_nil_iff.mp behind
  obtain ⟨e', is, run⟩ := reads (rules n) place rest stop
  exact ⟨e', is, reached_of_run run rfl⟩

/-- The left operand stands at the level of the operator, the right one above it. -/
theorem readsAt_binary {op : BinaryOp} {left right : Expr} (loc : Location)
    (reads : ReadsAt op.level front left) (reads' : ReadsAt (op.level + 1) back right)
    (begins : ∃ first rest, back = first :: rest ∧ Lexeme.begins (op.level + 1) first = true) :
    ReadsAt op.level (front ++ op.lexeme :: back) (.binary op left right loc) := by
  intro n tokens rest stop same room stops
  obtain ⟨before, behind, rfl, lead, trail⟩ := List.map_eq_append_iff.mp same
  obtain ⟨place, after, rfl, second⟩ := exists_opened trail
  simp only [List.length_append, List.length_cons] at room
  have other : op.level ≠ 8 := by cases op <;> decide
  obtain ⟨left', is, m, enough, run⟩ := reads n before (⟨op.lexeme, place⟩ :: (after ++ rest)) stop
    lead (by omega) fun i more => Bool.eq_false_iff.mpr fun on =>
      absurd (level_eq_of_joins on) (by omega)
  obtain ⟨right', is', reached⟩ := reads' n after rest stop second (by omega)
    fun i more => stops i (by omega)
  have operand := reached.run (stops _ (Nat.lt_succ_self _))
  obtain ⟨k, rfl⟩ : ∃ k, m = k + 1 := ⟨m - 1, by simp only [List.length_cons] at enough; omega⟩
  refine ⟨.binary op left' right' place, ?_, k, ?_, ?_⟩
  · simp only [Expr.unplaced, Expr.relocated] at is is' ⊢
    rw [is, is']
  · simp only [List.length_cons, List.length_append] at enough ⊢
    omega
  · have line := head_ne_newline second begins rest stop
    have shape : before ++ ⟨op.lexeme, place⟩ :: after ++ rest =
        before ++ ⟨op.lexeme, place⟩ :: (after ++ rest) := by simp
    rw [shape, run, goOn, if_neg other, goOn, if_neg other, chainFrom, run_bind rfl]
    simp only [opAt?_lexeme]
    rw [run_bind rfl, run_bind (run_skipNewlines line), run_bind operand]

theorem isNumber_unplaced (e : Expr) : e.unplaced.IsNumber ↔ e.IsNumber := by
  cases e <;> simp only [Expr.unplaced, Expr.relocated, Expr.IsNumber]

theorem negated_eq (loc : Location) (other : ¬ e.IsNumber) :
    negated e loc = .unary .negate e loc := by
  cases e with
  | number value place => exact absurd trivial other
  | _ => rfl

/-- A prefix operator takes an operand of its own level. -/
theorem readsAt_unary {op : UnaryOp} {operand : Expr} (loc : Location)
    (reads : ReadsAt op.level back operand) (other : op = .negate → ¬ operand.IsNumber) :
    ReadsAt op.level (op.lexeme :: back) (.unary op operand loc) := by
  intro n tokens rest stop same room stops
  obtain ⟨place, after, rfl, behind⟩ := exists_opened same
  simp only [List.length_cons] at room
  obtain ⟨m, rfl⟩ : ∃ m, n = m + 1 := ⟨n - 1, by omega⟩
  obtain ⟨operand', is, reached⟩ := reads m after rest stop behind (by omega) stops
  refine ⟨.unary op operand' place, ?_, ?_⟩
  · simp only [Expr.unplaced, Expr.relocated] at is ⊢
    rw [is]
  · cases op with
    | not =>
        have run : (rules (m + 1)).negation ⟨after ++ rest, stop⟩ =
            .ok (operand', ⟨rest, stop⟩) := reached.run rfl
        have step : negation (rules (m + 1)) ⟨⟨.keyword .notKw, place⟩ :: (after ++ rest), stop⟩ =
            (do pure (.unary .not (← (rules (m + 1)).negation) place) : Parse Expr)
              ⟨after ++ rest, stop⟩ := rfl
        refine reached_of_run (step.trans ?_) rfl
        rw [run_bind run]
        rfl
    | negate =>
        have run : (rules (m + 1)).unary ⟨after ++ rest, stop⟩ =
            .ok (operand', ⟨rest, stop⟩) := reached.run rfl
        have sign : ¬ operand'.IsNumber := by
          rw [← isNumber_unplaced, is, isNumber_unplaced]
          exact other rfl
        have step : unary (rules (m + 1)) ⟨⟨.symbol .minus, place⟩ :: (after ++ rest), stop⟩ =
            (do pure (negated (← (rules (m + 1)).unary) place) : Parse Expr)
              ⟨after ++ rest, stop⟩ := rfl
        refine reached_of_run (step.trans ?_) rfl
        rw [run_bind run, negated_eq _ sign]
        rfl

/-! Accesses, which stand behind what they are applied to. -/

/-- Behind an expression that may be called or accessed, one pass takes one suffix. -/
theorem readsAt_suffix {object whole : Expr} (reads : ReadsAt 8 front object)
    {opener : Lexeme}
    (step : ∀ n k object' place after rest stop, object'.unplaced = object.unplaced →
      after.map Token.lexeme = back → after.length < n →
      ∃ whole', whole'.unplaced = whole.unplaced ∧
        suffixes (rules n) (k + 1) object' ⟨⟨opener, place⟩ :: (after ++ rest), stop⟩ =
          suffixes (rules n) k whole' ⟨rest, stop⟩) :
    ReadsAt 8 (front ++ opener :: back) whole := by
  intro n tokens rest stop same room stops
  obtain ⟨before, behind, rfl, lead, trail⟩ := List.map_eq_append_iff.mp same
  obtain ⟨place, after, rfl, second⟩ := exists_opened trail
  simp only [List.length_append, List.length_cons] at room
  have higher : ∀ i, 8 < i → joins i opener = false := by
    intro i more
    obtain ⟨k, rfl⟩ : ∃ k, i = k + 9 := ⟨i - 9, by omega⟩
    simp [joins, opAt?]
  obtain ⟨object', is, m, enough, run⟩ := reads n before (⟨opener, place⟩ :: (after ++ rest)) stop
    lead (by omega) higher
  obtain ⟨k, rfl⟩ : ∃ k, m = k + 1 := ⟨m - 1, by simp only [List.length_cons] at enough; omega⟩
  obtain ⟨whole', same, suffix⟩ := step n k object' place after rest stop is second (by omega)
  refine ⟨whole', same, k, ?_, ?_⟩
  · simp only [List.length_cons, List.length_append] at enough ⊢
    omega
  · have shape : before ++ ⟨opener, place⟩ :: after ++ rest =
        before ++ ⟨opener, place⟩ :: (after ++ rest) := by simp
    rw [shape, run, goOn, if_pos rfl, goOn, if_pos rfl, suffix]

theorem readsAt_field {object : Expr} (name : Text) (loc : Location)
    (reads : ReadsAt 8 front object) :
    ReadsAt 8 (front ++ [.symbol .dot, .ident name]) (.field object name loc) := by
  apply readsAt_suffix reads
  intro n k object' place after rest stop is same room
  obtain ⟨place', none, rfl, nothing⟩ := exists_opened same
  obtain rfl := List.map_eq_nil_iff.mp nothing
  refine ⟨.field object' name place, ?_, rfl⟩
  simp only [Expr.unplaced, Expr.relocated] at is ⊢
  rw [is]

theorem readsAt_index {object position : Expr} (loc : Location) (reads : ReadsAt 8 front object)
    (reads' : ReadsAt 0 back position)
    (begins : ∃ first rest, back = first :: rest ∧ Lexeme.begins 0 first = true) :
    ReadsAt 8 (front ++ .symbol .openBracket :: (back ++ [.symbol .closeBracket]))
      (.index object position loc) := by
  apply readsAt_suffix reads
  intro n k object' place after rest stop is same room
  obtain ⟨position', is', run⟩ := reads'.closed (.inr rfl) .closeBracket rest stop same room.le
  refine ⟨.index object' position' place, ?_, ?_⟩
  · simp only [Expr.unplaced, Expr.relocated] at is is' ⊢
    rw [is, is']
  · have step : suffixes (rules n) (k + 1) object'
        ⟨⟨.symbol .openBracket, place⟩ :: (after ++ rest), stop⟩ =
          (do
            skipNewlines
            let position ← (rules n).expression
            skipNewlines
            let _ ← expectSymbol .closeBracket .closeBracket
            suffixes (rules n) k (.index object' position place)) ⟨after ++ rest, stop⟩ := rfl
    rw [step, run_bind (run_skipNewlines (head_ne_newline same (begins_append _ begins) _ _)), run]

/-- A conditional, whose parts have commas between them. -/
theorem readsAt_choice {first second third : List Lexeme} {a b c : Expr} (loc : Location)
    (reads : ReadsAt 0 first a) (reads' : ReadsAt 0 second b) (reads'' : ReadsAt 0 third c)
    (begins : ∃ l rest, first = l :: rest ∧ Lexeme.begins 0 l = true)
    (begins' : ∃ l rest, second = l :: rest ∧ Lexeme.begins 0 l = true)
    (begins'' : ∃ l rest, third = l :: rest ∧ Lexeme.begins 0 l = true) :
    ReadsAt 9 (.keyword .ifKw :: .symbol .openParen :: (first ++ .symbol .comma ::
      (second ++ .symbol .comma :: (third ++ [.symbol .closeParen])))) (.choice a b c loc) := by
  intro n tokens rest stop same room stops
  obtain ⟨place, _, rfl, same₁⟩ := exists_opened same
  obtain ⟨place₁, _, rfl, same₂⟩ := exists_opened same₁
  obtain ⟨front₁, _, rfl, same₃, same₄⟩ := List.map_eq_append_iff.mp same₂
  obtain ⟨place₂, _, rfl, same₅⟩ := exists_opened same₄
  obtain ⟨front₂, _, rfl, same₆, same₇⟩ := List.map_eq_append_iff.mp same₅
  obtain ⟨place₃, front₃, rfl, same₈⟩ := exists_opened same₇
  simp only [List.length_append, List.length_cons] at room
  have comma : Closes (.symbol .comma) := closes_symbol (.inr (.inr (.inr rfl)))
  let tail₃ := front₃ ++ rest
  let tail₂ := front₂ ++ ⟨.symbol .comma, place₃⟩ :: tail₃
  obtain ⟨a', is, run⟩ := reads.expression (n := n) (t := ⟨.symbol .comma, place₂⟩)
    tail₂ stop same₃ (by omega) comma
  obtain ⟨b', is', run'⟩ := reads'.expression (n := n) (t := ⟨.symbol .comma, place₃⟩)
    tail₃ stop same₆ (by omega) comma
  obtain ⟨c', is'', run''⟩ := reads''.closed (n := n) (.inl rfl) .closeParen rest stop same₈
    (by omega)
  refine ⟨.choice a' b' c' place, ?_, reached_of_run ?_ rfl⟩
  · simp only [Expr.unplaced, Expr.relocated] at is is' is'' ⊢
    rw [is, is', is'']
  · have step : primary (rules n) ⟨⟨.keyword .ifKw, place⟩ :: ⟨.symbol .openParen, place₁⟩ ::
        (front₁ ++ ⟨.symbol .comma, place₂⟩ :: tail₂), stop⟩ =
          (do
            skipNewlines
            let condition ← (rules n).expression
            separator
            let consequent ← (rules n).expression
            separator
            let alternate ← (rules n).expression
            skipNewlines
            let _ ← expectSymbol .closeParen .closeParen
            pure (Expr.choice condition consequent alternate place) : Parse Expr)
          ⟨front₁ ++ ⟨.symbol .comma, place₂⟩ :: tail₂, stop⟩ := rfl
    have shape : ⟨.keyword .ifKw, place⟩ :: ⟨.symbol .openParen, place₁⟩ ::
        (front₁ ++ ⟨.symbol .comma, place₂⟩ :: (front₂ ++ ⟨.symbol .comma, place₃⟩ ::
          front₃)) ++ rest =
        ⟨.keyword .ifKw, place⟩ :: ⟨.symbol .openParen, place₁⟩ ::
          (front₁ ++ ⟨.symbol .comma, place₂⟩ :: tail₂) := by simp [tail₂, tail₃]
    rw [shape, show atLevel (rules n) 9 = primary (rules n) from rfl, step,
      run_bind (run_skipNewlines (head_ne_newline same₃ begins _ _)), run_bind run,
      run_bind (run_separator (head_ne_newline same₆ begins' _ _)), run_bind run',
      run_bind (run_separator (head_ne_newline same₈ (begins_append _ begins'') _ _)), run'']
    rfl

end

/-! Elements and entries. -/

section

variable {close : Symbol} {item : Nat → Parse α} {same : α → α → Prop} {a : α} {list : List α}
  {first others written : List Lexeme}

/-- Lexemes that may stand for an item where one begins. -/
def Starts (close : Symbol) (written : List Lexeme) : Prop :=
  ∃ first rest, written = first :: rest ∧ first ≠ .newline ∧ first ≠ .symbol close

/-- What is written is read as an item in front of a comma or a closing symbol. -/
def ReadsItem (item : Nat → Parse α) (same : α → α → Prop) (written : List Lexeme) (a : α) :
    Prop :=
  ∀ n front t rest stop, front.map Token.lexeme = written → front.length < n → Closes t.lexeme →
    ∃ a', same a' a ∧ item n ⟨front ++ t :: rest, stop⟩ = .ok (a', ⟨t :: rest, stop⟩)

/-- What is written is read as a list of items in front of a closing symbol. -/
structure ReadsList (close : Symbol) (item : Nat → Parse α) (same : α → α → Prop)
    (written : List Lexeme) (list : List α) : Prop where
  line : ∀ first ∈ written.head?, first ≠ .newline
  items : ∀ n m front t rest stop, front.map Token.lexeme = written → front.length < n →
    front.length < m → t.lexeme = .symbol close →
    ∃ list', List.Forall₂ same list' list ∧
      items close (item n) m ⟨front ++ t :: rest, stop⟩ = .ok (list', ⟨t :: rest, stop⟩)

theorem Starts.head {front : List Token} (starts : Starts close first)
    (is : front.map Token.lexeme = first) (rest : List Token) (stop : Location) :
    (Cursor.mk (front ++ rest) stop).head.lexeme ≠ .newline ∧
      (Cursor.mk (front ++ rest) stop).head.lexeme ≠ .symbol close := by
  obtain ⟨lexeme, back, rfl, line, other⟩ := starts
  obtain ⟨place, tail, rfl, _⟩ := exists_opened is
  exact ⟨line, other⟩

theorem readsList_nil : ReadsList close item same [] [] where
  line := by simp
  items n m front t rest stop is room enough closing := by
    obtain rfl := List.map_eq_nil_iff.mp is
    obtain ⟨k, rfl⟩ : ∃ k, m = k + 1 := ⟨m - 1, by omega⟩
    exact ⟨[], .nil, items_none k closing⟩

theorem readsList_single (reads : ReadsItem item same first a) (starts : Starts close first)
    (closes : Closes (.symbol close)) (other : close ≠ .comma) :
    ReadsList close item same first [a] where
  line := by
    obtain ⟨lexeme, rest, rfl, line, _⟩ := starts
    simpa using line
  items n m front t rest stop is room enough closing := by
    obtain ⟨k, rfl⟩ : ∃ k, m = k + 1 := ⟨m - 1, by omega⟩
    obtain ⟨a', alike, run⟩ := reads n front t rest stop is room (closing ▸ closes)
    exact ⟨[a'], .cons alike .nil,
      items_last k (starts.head is _ stop).2 run closing other⟩

theorem readsList_cons (reads : ReadsItem item same first a) (starts : Starts close first)
    (more : ReadsList close item same others list) (starts' : Starts close others) :
    ReadsList close item same (first ++ .symbol .comma :: others) (a :: list) where
  line := by
    obtain ⟨lexeme, rest, rfl, line, _⟩ := starts
    simpa using line
  items n m front t rest stop is room enough closing := by
    obtain ⟨before, behind, rfl, lead, trail⟩ := List.map_eq_append_iff.mp is
    obtain ⟨place, after, rfl, second⟩ := exists_opened trail
    simp only [List.length_append, List.length_cons] at room enough
    obtain ⟨k, rfl⟩ : ∃ k, m = k + 1 := ⟨m - 1, by omega⟩
    obtain ⟨list', alike', run'⟩ := more.items n k after t rest stop second (by omega) (by omega)
      closing
    obtain ⟨a', alike, run⟩ := reads n before ⟨.symbol .comma, place⟩ (after ++ t :: rest) stop
      lead (by omega) (closes_symbol (.inr (.inr (.inr rfl))))
    refine ⟨a' :: list', .cons alike alike', ?_⟩
    have shape : before ++ ⟨.symbol .comma, place⟩ :: after ++ t :: rest =
        before ++ ⟨.symbol .comma, place⟩ :: (after ++ t :: rest) := by simp
    rw [shape]
    exact items_more k (starts.head lead _ stop).2 run rfl (starts'.head second _ stop).1 run'

/-- A list between brackets, up to the symbol that closes it, which is taken too. -/
theorem ReadsList.delimited (reads : ReadsList close item same written list) (what : Expected)
    {n : Nat} {front : List Token} (rest : List Token) (stop : Location)
    (is : front.map Token.lexeme = written ++ [.symbol close]) (room : front.length ≤ n) :
    ∃ list', List.Forall₂ same list' list ∧
      delimited close what (item n) ⟨front ++ rest, stop⟩ = .ok (list', ⟨rest, stop⟩) := by
  obtain ⟨middle, closer, rfl, inside, closing⟩ := exists_ended is
  simp only [List.length_append, List.length_cons, List.length_nil] at room
  obtain ⟨list', alike, run⟩ := reads.items n ((middle ++ closer :: rest).length + 1) middle
    closer rest stop inside (by omega) (by simp only [List.length_append]; omega) closing
  refine ⟨list', alike, ?_⟩
  rw [List.append_assoc, List.singleton_append]
  refine run_delimited what ?_ closing run
  cases middle with
  | nil => simp [Cursor.head, closing]
  | cons first tail => exact reads.line first.lexeme (by simp [← inside])

end

/-- Expressions that are the same up to places. -/
def SameExpr (e e' : Expr) : Prop := e.unplaced = e'.unplaced

/-- Entries that are the same up to their places. -/
abbrev SameEntry : Entry → Entry → Prop := Entry.Same (fun _ => .origin) (fun _ => .origin)

section

variable {front back written : List Lexeme}

theorem run_hashKey {lexeme : Lexeme} {key : Text} (is : lexeme.IsKey key) (place : Location)
    (rest : List Token) (stop : Location) :
    hashKey ⟨⟨lexeme, place⟩ :: rest, stop⟩ = .ok (key, ⟨rest, stop⟩) := by
  cases lexeme with
  | ident name | keyword word | number digits =>
      cases is
      rfl
  | string literal parts =>
      have plain : plainText? parts = some key := is
      rw [hashKey, run_bind (peek_eq _)]
      simp only [Cursor.head, plain]
      rfl
  | symbol _ | newline | eof => cases is

theorem ReadsAt.item {e : Expr} (reads : ReadsAt 0 written e) :
    ReadsItem (fun n => (rules n).expression) SameExpr written e :=
  fun _ _ _ rest stop is room closes => reads.expression rest stop is room closes

theorem ReadsAt.entry {e : Expr} {lexeme : Lexeme} {key : Text} (is : lexeme.IsKey key)
    (reads : ReadsAt 0 written e)
    (begins : ∃ first rest, written = first :: rest ∧ Lexeme.begins 0 first = true) :
    ReadsItem (fun n => hashEntry (rules n)) SameEntry (lexeme :: .symbol .colon :: written)
      ⟨key, e⟩ := by
  intro n tokens t rest stop same room closes
  obtain ⟨place, _, rfl, same'⟩ := exists_opened same
  obtain ⟨place', after, rfl, behind⟩ := exists_opened same'
  simp only [List.length_cons] at room
  obtain ⟨e', alike, run⟩ := reads.expression (n := n) rest stop behind (by omega) closes
  refine ⟨⟨key, e'⟩, ⟨rfl, alike⟩, ?_⟩
  show hashEntry (rules n) ⟨⟨lexeme, place⟩ :: ⟨.symbol .colon, place'⟩ ::
    (after ++ t :: rest), stop⟩ = _
  rw [hashEntry, run_bind (run_hashKey is place _ stop), expectSymbol,
    run_bind (run_expect .colon (rfl : (Token.mk (.symbol .colon) place').lexeme = _)),
    run_bind (run_skipNewlines (head_ne_newline behind begins _ _)), run_bind run]
  rfl

theorem starts_of_begins {level : Nat} {close : Symbol}
    (closing : close = .closeParen ∨ close = .closeBracket ∨ close = .closeBrace)
    (begins : ∃ first rest, written = first :: rest ∧ Lexeme.begins level first = true) :
    Starts close written := by
  obtain ⟨first, rest, rfl, begins⟩ := begins
  exact ⟨first, rest, rfl, ne_newline_of_begins begins, ne_close_of_begins begins closing⟩

theorem starts_of_isKey {lexeme : Lexeme} {key : Text} (is : lexeme.IsKey key) :
    Starts .closeBrace (lexeme :: written) := by
  refine ⟨lexeme, written, rfl, ?_, ?_⟩
  · rintro rfl
    cases is
  · rintro rfl
    cases is

/-- How a list of expressions is read. -/
abbrev ReadsExprs (close : Symbol) (written : List Lexeme) (list : List Expr) : Prop :=
  ReadsList close (fun n => (rules n).expression) SameExpr written list

theorem readsAt_call {callee : Expr} {args : List Expr} (loc : Location)
    (reads : ReadsAt 8 front callee) (reads' : ReadsExprs .closeParen back args) :
    ReadsAt 8 (front ++ .symbol .openParen :: (back ++ [.symbol .closeParen]))
      (.call callee args loc) := by
  apply readsAt_suffix reads
  intro n k callee' place after rest stop is same room
  obtain ⟨args', alike, run⟩ := reads'.delimited .closeParen rest stop same room.le
  refine ⟨.call callee' args' place, ?_, ?_⟩
  · simp only [Expr.unplaced, Expr.relocated] at is ⊢
    rw [is, Expr.allRelocated_of_same alike]
  · have step : suffixes (rules n) (k + 1) callee'
        ⟨⟨.symbol .openParen, place⟩ :: (after ++ rest), stop⟩ =
          (do
            let args ← delimited .closeParen .closeParen (rules n).expression
            suffixes (rules n) k (.call callee' args place)) ⟨after ++ rest, stop⟩ := rfl
    rw [step, run_bind run]

theorem readsAt_array {elements : List Expr} (loc : Location)
    (reads : ReadsExprs .closeBracket back elements) :
    ReadsAt 9 (.symbol .openBracket :: (back ++ [.symbol .closeBracket]))
      (.array elements loc) := by
  intro n tokens rest stop same room stops
  obtain ⟨place, tail, rfl, behind⟩ := exists_opened same
  obtain ⟨elements', alike, run⟩ := reads.delimited .closeBracket rest stop behind
    (Nat.le_of_succ_le room)
  refine ⟨.array elements' place, ?_, reached_of_run ?_ rfl⟩
  · simp only [Expr.unplaced, Expr.relocated]
    rw [Expr.allRelocated_of_same alike]
  · have step : primary (rules n)
        ⟨⟨.symbol .openBracket, place⟩ :: (tail ++ rest), stop⟩ =
          (do
            let elements ← delimited .closeBracket .closeBracket (rules n).expression
            pure (Expr.array elements place) : Parse Expr) ⟨tail ++ rest, stop⟩ := rfl
    refine step.trans ?_
    rw [run_bind run]
    rfl

theorem readsAt_hash {entries : List Entry} (loc : Location)
    (reads : ReadsList .closeBrace (fun n => hashEntry (rules n)) SameEntry back entries) :
    ReadsAt 9 (.symbol .openBrace :: (back ++ [.symbol .closeBrace])) (.hash entries loc) := by
  intro n tokens rest stop same room stops
  obtain ⟨place, tail, rfl, behind⟩ := exists_opened same
  obtain ⟨entries', alike, run⟩ := reads.delimited .closeBrace rest stop behind
    (Nat.le_of_succ_le room)
  refine ⟨.hash entries' place, ?_, reached_of_run ?_ rfl⟩
  · simp only [Expr.unplaced, Expr.relocated]
    rw [Entry.allRelocated_of_same alike]
  · have opened : hashEntries (rules n)
        ⟨⟨.symbol .openBrace, place⟩ :: (tail ++ rest), stop⟩ =
          .ok ((entries', place), ⟨rest, stop⟩) := by
      rw [hashEntries, expectSymbol,
        run_bind (run_expect .openBrace (rfl : (Token.mk (.symbol .openBrace) place).lexeme = _)),
        run_bind run]
      rfl
    have step : primary (rules n)
        ⟨⟨.symbol .openBrace, place⟩ :: (tail ++ rest), stop⟩ =
          (hashEntries (rules n) >>= fun read => pure (Expr.hash read.1 read.2) : Parse Expr)
            ⟨⟨.symbol .openBrace, place⟩ :: (tail ++ rest), stop⟩ := rfl
    refine step.trans ?_
    rw [run_bind opened]
    rfl

end

/-- The parts of a string without code are its segments. -/
theorem segments_texts (rules : Rules) (texts : List Text) :
    segments rules (texts.map StringPart.text) = .ok (texts.map Segment.text) := by
  induction texts with
  | nil => rfl
  | cons value rest ih =>
      show (segments rules (rest.map StringPart.text) >>= _) = _
      rw [ih]
      rfl

theorem level_le (e : Expr) : e.level ≤ 9 := by
  cases e with
  | binary op _ _ _ => cases op <;> simp only [Expr.level, BinaryOp.level] <;> decide
  | unary op _ _ => cases op <;> simp only [Expr.level, UnaryOp.level] <;> decide
  | _ => exact Nat.le_of_ble_eq_true rfl

theorem level_lt (op : BinaryOp) : op.level < 8 := by
  cases op <;> decide

/-- Where no level is asked for, every expression stands without parentheses. -/
theorem readsAt_lowest (e : Expr) (written : List Lexeme) (is : e.Bare written)
    (reads : ReadsAt e.level written e) : ReadsAt 0 written e :=
  reads.down (Nat.zero_le _) (level_le e) (e.begins_bare written is)

theorem begins_lowest (e : Expr) (written : List Lexeme) (is : e.Bare written) :
    ∃ first rest, written = first :: rest ∧ Lexeme.begins 0 first = true := by
  obtain ⟨first, rest, same, begins⟩ := e.begins_bare written is
  exact ⟨first, rest, same, Lexeme.begins_of_le begins (Nat.zero_le _)⟩

theorem begins_all (list : List Expr) (written : List Lexeme) (are : Expr.AllBare list written)
    (filled : list ≠ []) :
    ∃ first rest, written = first :: rest ∧ Lexeme.begins 0 first = true := by
  match list with
  | [e] => exact begins_lowest e written are
  | e :: next :: rest =>
      obtain ⟨first, others, is, _, rfl⟩ := are
      obtain ⟨lexeme, tail, rfl, begins⟩ := begins_lowest e first is
      exact ⟨lexeme, _, rfl, begins⟩

theorem starts_entries (list : List Entry) (written : List Lexeme)
    (are : Entry.AllBare list written) (filled : list ≠ []) : Starts .closeBrace written := by
  match list with
  | [⟨key, value⟩] =>
      obtain ⟨name, first, is, _, rfl⟩ := are
      exact starts_of_isKey is
  | ⟨key, value⟩ :: next :: rest =>
      obtain ⟨name, first, others, is, _, _, rfl⟩ := are
      exact starts_of_isKey is

mutual

/-- An expression is read at its own level. -/
theorem readsAt_bare (e : Expr) (written : List Lexeme) (is : e.Bare written) :
    ReadsAt e.level written e := by
  match e with
  | .number value loc =>
      obtain ⟨digits, _, rfl, rfl⟩ := is
      exact readsAt_single fun rules place rest stop => ⟨.number _ place, rfl, rfl⟩
  | .bool value loc =>
      cases is
      cases value with
      | true => exact readsAt_single fun rules place rest stop => ⟨.bool true place, rfl, rfl⟩
      | false => exact readsAt_single fun rules place rest stop => ⟨.bool false place, rfl, rfl⟩
  | .null loc =>
      cases is
      exact readsAt_single fun rules place rest stop => ⟨.null place, rfl, rfl⟩
  | .ident name loc =>
      cases is
      exact readsAt_single fun rules place rest stop => ⟨.ident name place, rfl, rfl⟩
  | .string segments loc =>
      obtain ⟨texts, literal, rfl, rfl⟩ := is
      refine readsAt_single fun rules place rest stop =>
        ⟨.string (texts.map Segment.text) place, ?_, ?_⟩
      · simp only [Expr.unplaced, Expr.relocated]
      · have step : primary rules
            ⟨⟨.string literal (texts.map StringPart.text), place⟩ :: rest, stop⟩ =
              (do
                let list ← (Grammar.segments rules (texts.map StringPart.text) :
                  Except Diagnostic (List Segment))
                pure (Expr.string list place) : Parse Expr) ⟨rest, stop⟩ := rfl
        rw [step, segments_texts]
        rfl
  | .array elements loc =>
      obtain ⟨inner, are, rfl⟩ := is
      exact readsAt_array loc (readsExprs_bare elements inner are (.inr rfl))
  | .hash entries loc =>
      obtain ⟨inner, are, rfl⟩ := is
      exact readsAt_hash loc (readsEntries_bare entries inner are)
  | .call callee args loc =>
      obtain ⟨front, inner, called, are, rfl⟩ := is
      exact readsAt_call loc (readsAt_placed called (by decide) (level_le callee)
        (readsAt_bare callee) (Expr.begins_bare callee)) (readsExprs_bare args inner are (.inl rfl))
  | .field object name loc =>
      obtain ⟨front, of, rfl⟩ := is
      exact readsAt_field name loc (readsAt_placed of (by decide) (level_le object)
        (readsAt_bare object) (Expr.begins_bare object))
  | .index object position loc =>
      obtain ⟨front, inner, of, at_, rfl⟩ := is
      exact readsAt_index loc (readsAt_placed of (by decide) (level_le object)
        (readsAt_bare object) (Expr.begins_bare object)) (readsAt_lowest position inner at_
        (readsAt_bare position inner at_)) (begins_lowest position inner at_)
  | .choice condition consequent alternate loc =>
      obtain ⟨first, second, third, is, is', is'', rfl⟩ := is
      exact readsAt_choice loc
        (readsAt_lowest condition first is (readsAt_bare condition first is))
        (readsAt_lowest consequent second is' (readsAt_bare consequent second is'))
        (readsAt_lowest alternate third is'' (readsAt_bare alternate third is''))
        (begins_lowest condition first is) (begins_lowest consequent second is')
        (begins_lowest alternate third is'')
  | .unary op operand loc =>
      obtain ⟨inner, of, other, rfl⟩ := is
      exact readsAt_unary loc (readsAt_placed of (by cases op <;> decide) (level_le operand)
        (readsAt_bare operand) (Expr.begins_bare operand)) other
  | .binary op left right loc =>
      obtain ⟨front, back, is, is', rfl⟩ := is
      have low := level_lt op
      exact readsAt_binary loc
        (readsAt_placed is (by omega) (level_le left) (readsAt_bare left) (Expr.begins_bare left))
        (readsAt_placed is' (by omega) (level_le right) (readsAt_bare right)
          (Expr.begins_bare right))
        (begins_placed is' (Expr.begins_bare right))
  | .new _ _ _ | .ref _ _ _ | .lambda _ _ => cases is

theorem readsExprs_bare (list : List Expr) (written : List Lexeme)
    (are : Expr.AllBare list written) {close : Symbol}
    (closing : close = .closeParen ∨ close = .closeBracket) : ReadsExprs close written list := by
  have bracket : close = .closeParen ∨ close = .closeBracket ∨ close = .closeBrace :=
    closing.imp_right .inl
  match list with
  | [] =>
      cases are
      exact readsList_nil
  | [e] =>
      have reads := readsAt_lowest e written are (readsAt_bare e written are)
      exact readsList_single reads.item (starts_of_begins bracket (begins_lowest e written are))
        (closes_symbol (closing.imp_right .inl)) (by rcases closing with rfl | rfl <;> decide)
  | e :: next :: rest =>
      obtain ⟨first, others, is, more, rfl⟩ := are
      have reads := readsAt_lowest e first is (readsAt_bare e first is)
      have filled := begins_all (next :: rest) others more (List.cons_ne_nil next rest)
      exact readsList_cons reads.item (starts_of_begins bracket (begins_lowest e first is))
        (readsExprs_bare (next :: rest) others more closing) (starts_of_begins bracket filled)

theorem readsEntries_bare (list : List Entry) (written : List Lexeme)
    (are : Entry.AllBare list written) :
    ReadsList .closeBrace (fun n => hashEntry (rules n)) SameEntry written list := by
  match list with
  | [] =>
      cases are
      exact readsList_nil
  | [⟨key, value⟩] =>
      obtain ⟨name, first, is, bare, rfl⟩ := are
      have reads := readsAt_lowest value first bare (readsAt_bare value first bare)
      exact readsList_single (reads.entry is (begins_lowest value first bare))
        (starts_of_isKey is) (closes_symbol (.inr (.inr (.inl rfl)))) (by decide)
  | ⟨key, value⟩ :: next :: rest =>
      obtain ⟨name, first, others, is, bare, more, rfl⟩ := are
      have reads := readsAt_lowest value first bare (readsAt_bare value first bare)
      have shape : name :: .symbol .colon :: (first ++ .symbol .comma :: others) =
          (name :: .symbol .colon :: first) ++ .symbol .comma :: others := rfl
      rw [shape]
      exact readsList_cons (reads.entry is (begins_lowest value first bare))
        (starts_of_isKey is) (readsEntries_bare (next :: rest) others more)
        (starts_entries (next :: rest) others more (List.cons_ne_nil next rest))

end

end Grammar

open Grammar

/-- The levels of precedence are those of the operators. Every expression made of names, digits,
constants, strings without code, operators, calls, accesses, arrays, hashes and conditionals can
be written with parentheses around those operands alone that bind less tightly than their place
asks for; and whatever tokens it is written as in that way, wherever they stand and whatever
follows that does not go on with an expression, they are read as the same tree up to its places,
and no other token is taken. -/
theorem written_reads_back {e : Expr} (plain : e.IsPlain) :
    (∃ written, e.Bare written) ∧
    ∀ written, e.Bare written → ∀ tokens rest stop n, tokens.map Token.lexeme = written →
      tokens.length ≤ n → (∀ level, joins level (Cursor.mk rest stop).head.lexeme = false) →
      ∃ e', expression (rules n) ⟨tokens ++ rest, stop⟩ = .ok (e', ⟨rest, stop⟩) ∧
        e'.unplaced = e.unplaced := by
  refine ⟨e.exists_bare plain, ?_⟩
  intro written is tokens rest stop n same room stops
  have reads := readsAt_lowest e written is (readsAt_bare e written is)
  obtain ⟨e', alike, reached⟩ := reads n tokens rest stop same room fun level _ => stops level
  exact ⟨e', reached.run (stops 0), alike⟩

/-- A difference from a difference, joined to the negation of a number with its sign changed. -/
def mixedLevels : Expr :=
  .binary .concat
    (.binary .subtract (.ident [97] .origin)
      (.binary .subtract (.ident [98] .origin) (.ident [99] .origin) .origin) .origin)
    (.unary .not (.unary .negate (.ident [120] .origin) .origin) .origin) .origin

/-- It is written `a - (b - c) & not -x`, and only the right operand has parentheses. -/
theorem mixed_levels_read_back :
    let written : List Lexeme :=
      [.ident [97], .symbol .minus, .symbol .openParen, .ident [98], .symbol .minus, .ident [99],
        .symbol .closeParen, .symbol .ampersand, .keyword .notKw, .symbol .minus, .ident [120]]
    mixedLevels.IsPlain ∧ mixedLevels.Bare written ∧
      ∃ e', expression (rules 11) ⟨written.map (Token.mk · .origin), .origin⟩ =
        .ok (e', ⟨[], .origin⟩) ∧ e'.unplaced = mixedLevels.unplaced := by
  intro written
  have plain : mixedLevels.IsPlain := by
    simp [mixedLevels, Expr.IsPlain, Expr.IsNumber]
  have inner : (Expr.binary .subtract (.ident [98] .origin) (.ident [99] .origin) .origin).Bare
      [.ident [98], .symbol .minus, .ident [99]] := ⟨[.ident [98]], [.ident [99]], rfl, rfl, rfl⟩
  have bare : mixedLevels.Bare written :=
    ⟨written.take 7, written.drop 8,
      ⟨[.ident [97]], (written.take 7).drop 2, rfl, ⟨_, inner, rfl⟩, rfl⟩,
      ⟨written.drop 9, ⟨[.ident [120]], rfl, fun _ number => number, rfl⟩, nofun, rfl⟩, rfl⟩
  have read := (written_reads_back plain).2 written bare (written.map (Token.mk · .origin)) []
    .origin 11 (by simp [Function.comp_def]) (by decide) fun level => by
      match level with
      | 0 | 1 | 2 | 3 | 4 | 5 | 6 | 7 | 8 => rfl
      | level + 9 => simp [joins, opAt?]
  exact ⟨plain, bare, by simpa using read⟩

end Loom
