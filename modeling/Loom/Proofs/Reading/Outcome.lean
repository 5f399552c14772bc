import Loom.Grammar.Statement

/-!
How a rule of the grammar ends when it starts at a given cursor: with what it
gives and the cursor it leaves, or with a fault. The rules on tokens are each
described once, by the token in front of the cursor and by the cursor behind it,
so that a proof about a rule made of them goes from cursor to cursor.
-/

namespace Loom

/-- The faults that say that an `end` was expected where the input ends. -/
def SyntaxFault.LacksEnd (fault : SyntaxFault) : Prop :=
  fault = .missingEnd ∨ fault = .expected .endKeyword .eof

theorem ne_of_take_ne (n : Nat) {t t' : Text} (differ : (t.take n == t'.take n) = false) :
    t ≠ t' := by
  rintro rfl
  simp at differ

theorem eof_of_description {found : Lexeme}
    (is : found.description = ("end of input" : Text)) : found = .eof := by
  cases found with
  | eof => rfl
  | newline => exact absurd is (by decide)
  | string _ _ => exact absurd is (ne_of_take_ne 1 rfl)
  | number _ | ident _ | keyword _ | symbol _ => exact absurd is (ne_of_take_ne 1 rfl)

theorem SyntaxFault.lacksEnd_iff (fault : SyntaxFault) :
    fault.LacksEnd ↔ fault.message = ("Expected 'end' but found end of input" : Text) := by
  constructor
  · rintro (rfl | rfl)
    · rfl
    · rfl
  · intro is
    cases fault with
    | missingEnd => exact .inl rfl
    | expected what found =>
        cases what with
        | endKeyword =>
            have words : ("Expected " : Text) ++ Expected.endKeyword.text ++ " but found " ++
                found.description =
              ("Expected " : Text) ++ Expected.endKeyword.text ++ " but found " ++
                ("end of input" : Text) := is.trans rfl
            exact .inr (by rw [eof_of_description (List.append_cancel_left words)])
        | _ => exact absurd is (ne_of_take_ne 13 rfl)
    | _ => exact absurd is (ne_of_take_ne 13 rfl)

namespace Grammar

variable {α β : Type}

/-- The next token; past the last one it is the end of input. -/
def Cursor.head (c : Cursor) : Token :=
  match c.tokens with
  | [] => ⟨.eof, c.stop⟩
  | t :: _ => t

/-- The cursor behind the next token. -/
def Cursor.tail (c : Cursor) : Cursor := { c with tokens := c.tokens.tail }

/-- The cursor behind the line ends that are next. -/
def Cursor.skip (c : Cursor) : Cursor := { c with tokens := c.tokens.dropWhile isNewline }

/-- All the tokens that are left, up to and with the end of input. -/
def Cursor.all (c : Cursor) : List Token := c.tokens ++ [⟨.eof, c.stop⟩]

theorem Cursor.tokens_eq_cons {c : Cursor} (more : c.tokens ≠ []) :
    c.tokens = c.head :: c.tail.tokens := by
  cases h : c.tokens with
  | nil => exact absurd h more
  | cons t rest => simp [Cursor.head, Cursor.tail, h]

theorem Cursor.all_eq_cons {c : Cursor} (more : c.tokens ≠ []) :
    c.all = c.head :: c.tail.all := by
  unfold Cursor.all
  rw [Cursor.tokens_eq_cons more]
  rfl

theorem Cursor.tokens_ne_nil {c : Cursor} (more : c.head.lexeme ≠ .eof) : c.tokens ≠ [] := by
  intro none
  exact more (by simp [Cursor.head, none])

/-- An outcome of a rule: `ok` of what it gives and leaves, or `bad` of its fault. -/
def Ends (bad : Diagnostic → Prop) (ok : α → Cursor → Prop) :
    Except Diagnostic (α × Cursor) → Prop
  | .ok r => ok r.1 r.2
  | .error d => bad d

/-- Faults that are of no concern, save that a block lacks its `end`. -/
def Tolerates (bad : Diagnostic → Prop) : Prop :=
  ∀ (fault : SyntaxFault) loc, ¬ fault.LacksEnd → bad (fault.located loc)

section

variable {bad : Diagnostic → Prop} {ok : β → Cursor → Prop} {c : Cursor}

theorem ends_bind {p : Parse α} {f : α → Parse β} {good : α → Cursor → Prop}
    (first : Ends bad good (p c)) (rest : ∀ a c', good a c' → Ends bad ok (f a c')) :
    Ends bad ok ((p >>= f) c) := by
  have h : (p >>= f) c = p c >>= fun r => f r.1 r.2 := rfl
  rw [h]
  cases hp : p c with
  | ok r =>
      rw [hp] at first
      exact rest r.1 r.2 first
  | error d =>
      rw [hp] at first
      exact first

theorem ends_of_imp {p : Parse α} {good better : α → Cursor → Prop} {worse : Diagnostic → Prop}
    (first : Ends bad good (p c)) (fine : ∀ a c', good a c' → better a c')
    (faults : ∀ d, bad d → worse d) : Ends worse better (p c) := by
  cases hp : p c with
  | ok r =>
      rw [hp] at first
      exact fine r.1 r.2 first
  | error d =>
      rw [hp] at first
      exact faults d first

theorem ends_pure {b : β} (fine : ok b c) : Ends bad ok ((pure b : Parse β) c) := fine

theorem ends_failAt {loc : Location} {fault : SyntaxFault} (fine : bad (fault.located loc)) :
    Ends bad ok (failAt loc fault c) := fine

/-- A rule followed by others ends as they do from where it ends. -/
theorem ends_then {p : Parse α} {f : α → Parse β}
    (first : Ends bad (fun a c' => Ends bad ok (f a c')) (p c)) : Ends bad ok ((p >>= f) c) :=
  ends_bind first (fun _ _ rest => rest)

theorem ends_of_eq {p : Parse α} {f : α → Parse β} {a : α} {c' : Cursor}
    (run : p c = .ok (a, c')) (rest : Ends bad ok (f a c')) : Ends bad ok ((p >>= f) c) := by
  apply ends_then
  rw [run]
  exact rest

theorem ends_lift {x : Except Diagnostic α} {f : α → Parse β}
    (faults : ∀ d, x = .error d → bad d) (rest : ∀ a, x = .ok a → Ends bad ok (f a c)) :
    Ends bad ok (((liftM x : Parse α) >>= f) c) := by
  cases x with
  | ok a => exact rest a rfl
  | error d => exact faults d rfl

/-! The rules on tokens, in front of what follows them. -/

theorem peek_eq (c : Cursor) : peek c = .ok (c.head, c) := by
  rcases c with ⟨_ | ⟨t, rest⟩, stop⟩ <;> rfl

theorem peekSecond_eq {c : Cursor} (more : c.tokens ≠ []) :
    peekSecond c = .ok (c.tail.head, c) := by
  rcases c with ⟨_ | ⟨t, _ | ⟨t', rest⟩⟩, stop⟩
  · exact absurd rfl more
  · rfl
  · rfl

theorem advance_eq (c : Cursor) : advance c = .ok (c.head, c.tail) := by
  rcases c with ⟨_ | ⟨t, rest⟩, stop⟩ <;> rfl

theorem ends_peek {f : Token → Parse β} (rest : Ends bad ok (f c.head c)) :
    Ends bad ok ((peek >>= f) c) := ends_of_eq (peek_eq c) rest

theorem ends_peekSecond {f : Token → Parse β} (more : c.tokens ≠ [])
    (rest : Ends bad ok (f c.tail.head c)) : Ends bad ok ((peekSecond >>= f) c) :=
  ends_of_eq (peekSecond_eq more) rest

theorem ends_advance {f : Token → Parse β} (rest : Ends bad ok (f c.head c.tail)) :
    Ends bad ok ((advance >>= f) c) := ends_of_eq (advance_eq c) rest

theorem ends_remaining {f : Nat → Parse β} (rest : Ends bad ok (f c.tokens.length c)) :
    Ends bad ok ((remaining >>= f) c) := rest

theorem ends_skipNewlines {f : Unit → Parse β} (rest : Ends bad ok (f () c.skip)) :
    Ends bad ok ((skipNewlines >>= f) c) := rest

theorem ends_next {lexeme : Lexeme} {f : Bool → Parse β}
    (yes : c.head.lexeme = lexeme → Ends bad ok (f true c))
    (no : c.head.lexeme ≠ lexeme → Ends bad ok (f false c)) :
    Ends bad ok ((next lexeme >>= f) c) := by
  apply ends_then
  apply ends_peek
  by_cases is : c.head.lexeme = lexeme
  · rw [beq_iff_eq.mpr is]
    exact yes is
  · rw [beq_eq_false_iff_ne.mpr is]
    exact no is

theorem ends_accept {lexeme : Lexeme} {f : Bool → Parse β}
    (yes : c.head.lexeme = lexeme → Ends bad ok (f true c.tail))
    (no : c.head.lexeme ≠ lexeme → Ends bad ok (f false c)) :
    Ends bad ok ((accept lexeme >>= f) c) := by
  apply ends_then
  apply ends_next
  · intro is
    exact ends_advance (yes is)
  · intro is
    exact no is

theorem ends_expect_or {lexeme : Lexeme} {what : Expected} {f : Token → Parse β}
    (faults : bad ((SyntaxFault.expected what c.head.lexeme).located c.head.loc))
    (there : c.head.lexeme = lexeme → Ends bad ok (f c.head c.tail)) :
    Ends bad ok ((expect lexeme what >>= f) c) := by
  apply ends_then
  apply ends_peek
  by_cases is : c.head.lexeme = lexeme
  · rw [if_pos (beq_iff_eq.mpr is), advance_eq]
    exact there is
  · rw [if_neg (by simpa using is)]
    exact faults

theorem not_lacksEnd_expected {what : Expected} {found : Lexeme} (other : what ≠ .endKeyword) :
    ¬ (SyntaxFault.expected what found).LacksEnd := by
  rintro (is | is)
  · cases is
  · cases is
    exact other rfl

theorem ends_expect (tolerant : Tolerates bad) {lexeme : Lexeme} {what : Expected}
    {f : Token → Parse β} (other : what ≠ .endKeyword)
    (there : c.head.lexeme = lexeme → Ends bad ok (f c.head c.tail)) :
    Ends bad ok ((expect lexeme what >>= f) c) :=
  ends_expect_or (tolerant _ _ (not_lacksEnd_expected other)) there

theorem ends_expectName (tolerant : Tolerates bad) {what : Expected}
    {f : Text × Token → Parse β} (other : what ≠ .endKeyword)
    (there : ∀ name, c.head.lexeme = .ident name → Ends bad ok (f (name, c.head) c.tail)) :
    Ends bad ok ((expectName what >>= f) c) := by
  apply ends_then
  apply ends_peek
  cases is : c.head.lexeme with
  | ident name => exact ends_advance (there name is)
  | number _ | string _ _ | keyword _ | symbol _ | newline | eof =>
      exact tolerant _ _ (not_lacksEnd_expected other)

theorem ends_endStatement (tolerant : Tolerates bad) {f : Unit → Parse β}
    (atEnd : c.head.lexeme = .eof → Ends bad ok (f () c))
    (atLine : c.head.lexeme = .newline → Ends bad ok (f () c.tail)) :
    Ends bad ok ((endStatement >>= f) c) := by
  apply ends_then
  apply ends_next
  · exact atEnd
  · intro _
    exact ends_expect tolerant (by decide) atLine

theorem ends_fail (tolerant : Tolerates bad) {fault : SyntaxFault}
    (other : ¬ fault.LacksEnd) : Ends bad ok (fail fault c) :=
  ends_peek (tolerant _ _ other)

end

end Grammar

end Loom
