import Loom.Proofs.Reading.Outcome

/-!
What the rules on tokens give from a cursor whose next token is known.
-/

namespace Loom

namespace Grammar

variable {α β : Type}

/-- A rule followed by others, from what it gives. -/
theorem run_bind {p : Parse α} {f : α → Parse β} {a : α} {c d : Cursor}
    (run : p c = .ok (a, d)) : (p >>= f) c = f a d := by
  show (p c >>= fun r => f r.1 r.2) = f a d
  rw [run]
  rfl

section

variable {t : Token} {rest : List Token} {stop : Location}

theorem run_skipNewlines {c : Cursor} (other : c.head.lexeme ≠ .newline) :
    skipNewlines c = .ok ((), c) := by
  obtain ⟨_ | ⟨t, rest⟩, stop⟩ := c
  · rfl
  · have stays : isNewline t = false := beq_eq_false_iff_ne.mpr other
    simp [skipNewlines, stays]

theorem run_expect {lexeme : Lexeme} (what : Expected) (is : t.lexeme = lexeme) :
    expect lexeme what ⟨t :: rest, stop⟩ = .ok (t, ⟨rest, stop⟩) := by
  rw [expect, run_bind rfl, if_pos (beq_iff_eq.mpr is)]
  rfl

theorem run_next {lexeme : Lexeme} (c : Cursor) :
    next lexeme c = .ok (c.head.lexeme == lexeme, c) := by
  rw [next, run_bind (peek_eq c)]
  rfl

theorem run_accept {lexeme : Lexeme} (is : t.lexeme = lexeme) :
    accept lexeme ⟨t :: rest, stop⟩ = .ok (true, ⟨rest, stop⟩) := by
  have found : (Cursor.head ⟨t :: rest, stop⟩).lexeme = lexeme := is
  rw [accept, run_bind (run_next _), if_pos (beq_iff_eq.mpr found)]
  rfl

theorem run_accept_other {lexeme : Lexeme} {c : Cursor} (other : c.head.lexeme ≠ lexeme) :
    accept lexeme c = .ok (false, c) := by
  rw [accept, run_bind (run_next c), if_neg (by simpa using other)]
  rfl

end

/-- An expression up to the end of the code that it is. -/
def wholeExpression (rules : Rules) : Parse Expr := do
  let e ← rules.expression
  let t ← peek
  if t.lexeme == .eof then pure e
  else failAt t.loc (.unexpectedInInterpolation t.lexeme)

theorem interpolation_eq (rules : Rules) (source : Text) (loc : Location) :
    interpolation rules source loc = (do
      let tokens ← tokenize source loc
      let r ← wholeExpression rules (.ofTokens tokens)
      pure r.1) := rfl

end Grammar

end Loom
