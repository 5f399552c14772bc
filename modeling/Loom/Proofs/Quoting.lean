import Loom.Proofs.Interpolation
import Loom.Proofs.OrderedHash
import Loom.Proofs.Steps

/-!
Texts as they are quoted. Every text has a literal: its quotes, backslashes, dollars, line
ends and tabulators are written as escapes, and all its other units as they are. The literal
is one token wherever it stands, and it is read as the text itself, as a value and as a key.
-/

namespace Loom

namespace Text

/-- A unit as a literal has it. -/
def quotedUnit (u : UInt16) : Text :=
  if u = 0x22 ∨ u = 0x5C ∨ u = 0x24 then [0x5C, u]
  else if u = 0x0A then [0x5C, 0x6E]
  else if u = 0x09 then [0x5C, 0x74]
  else [u]

/-- A text between the quotes of its literal. -/
def escaped (t : Text) : Text := t.flatMap quotedUnit

/-- The literal of a text. -/
def quoted (t : Text) : Text := 0x22 :: (t.escaped ++ [0x22])

@[simp] theorem escaped_nil : escaped [] = [] := rfl

@[simp] theorem escaped_cons (u : UInt16) (t : Text) :
    escaped (u :: t) = quotedUnit u ++ escaped t := rfl

end Text

namespace Lexer

variable (start loc : Location) (rest : Text)

/-- The escape of a unit stands for the unit, and a unit without one is read as it is. -/
theorem stringParts_quotedUnit (u : UInt16) :
    stringParts start 0 (Text.quotedUnit u ++ rest) loc =
      (fun r => (consUnit u r.1, r.2 + (Text.quotedUnit u).length)) <$>
        stringParts start 0 rest (loc.right (Text.quotedUnit u).length) := by
  unfold Text.quotedUnit
  split
  · rename_i marked
    exact stringParts_escape start loc rest (if_pos marked)
  rename_i unmarked
  rw [not_or, not_or] at unmarked
  split
  · rename_i line
    subst line
    exact stringParts_escape start loc rest rfl
  rename_i solid
  split
  · rename_i tab
    subst tab
    exact stringParts_escape start loc rest rfl
  · have fits : (Segment.unit u).Fits rest :=
      ⟨solid, unmarked.1, unmarked.2.1, fun opening => unmarked.2.2 opening.1⟩
    exact stringParts_unit start loc fits

/-- What is written between the quotes is read as the units it stands for. -/
theorem stringParts_escaped (t : Text) :
    stringParts start 0 (t.escaped ++ 0x22 :: rest) loc =
      .ok (t.foldr consUnit [], t.escaped.length + 1) := by
  induction t generalizing loc with
  | nil => rfl
  | cons u t ih =>
      rw [Text.escaped_cons, List.append_assoc, stringParts_quotedUnit, ih, List.length_append]
      exact congrArg (fun n => Except.ok (_, n)) (by omega)

/-- Units without code between them are one part. -/
theorem foldr_consUnit (t : Text) (filled : t ≠ []) : t.foldr consUnit [] = [.text t] := by
  induction t with
  | nil => exact absurd rfl filled
  | cons u t ih =>
      cases t with
      | nil => rfl
      | cons v t =>
          rw [List.foldr_cons, ih (List.cons_ne_nil v t)]
          rfl

theorem stringLexeme_quoted (t : Text) :
    stringLexeme (t.quoted ++ rest) loc =
      .ok (.string t.quoted [.text t], t.quoted.length) := by
  have text : t.quoted ++ rest = 0x22 :: (t.escaped ++ 0x22 :: rest) := by
    simp [Text.quoted]
  have parts : (if (t.foldr consUnit []).isEmpty then [.text []] else t.foldr consUnit []) =
      [StringPart.text t] := by
    cases t with
    | nil => rfl
    | cons u t =>
        rw [foldr_consUnit (u :: t) (List.cons_ne_nil u t)]
        rfl
  have size : t.escaped.length + 1 + 1 = t.quoted.length := by simp [Text.quoted]
  have read := stringParts_escaped loc (loc.right 1) rest t
  rw [stringLexeme, text, List.drop_one, List.tail_cons, read]
  show Except.ok (Lexeme.string _ (if _ then _ else _), _) = _
  rw [parts, ← text, size, List.take_left]

/-- Wherever the literal of a text stands, it is cut off as one token. -/
theorem scan_quoted (t : Text) :
    scan 0 (t.quoted ++ rest) loc =
      (⟨.string t.quoted [.text t], loc⟩ :: ·) <$> scan 0 rest (loc.right t.quoted.length) := by
  have piece : piece 0x22 (t.quoted ++ rest) loc =
      .ok (some (.string t.quoted [.text t]), t.quoted.length) := by
    show (stringLexeme (t.quoted ++ rest) loc >>= fun r => pure (some r.1, r.2)) = _
    rw [stringLexeme_quoted]
    rfl
  exact scan_lexeme piece rfl

end Lexer

theorem tokenize_quoted (t : Text) (loc : Location) :
    tokenize t.quoted loc =
      .ok [⟨.string t.quoted [.text t], loc⟩, ⟨.eof, loc.right t.quoted.length⟩] := by
  have cut := Lexer.scan_quoted loc [] t
  rw [List.append_nil] at cut
  exact cut

/-- A hash with a text as its only key. -/
def Text.keyed (t : Text) : Text := 0x7B :: (t.quoted ++ Text.ofString ": true\x7d")

section

variable (t : Text)

theorem tokenize_keyed :
    tokenize t.keyed .origin =
      .ok ([⟨.symbol .openBrace, ⟨1, 0⟩⟩, ⟨.string t.quoted [.text t], ⟨1, 1⟩⟩,
        ⟨.symbol .colon, ⟨1, t.quoted.length + 1⟩⟩,
        ⟨.keyword .trueKw, ⟨1, t.quoted.length + 3⟩⟩,
        ⟨.symbol .closeBrace, ⟨1, t.quoted.length + 7⟩⟩] ++
        [⟨.eof, ⟨1, t.quoted.length + 8⟩⟩]) := by
  have brace : Lexer.piece 0x7B t.keyed .origin = .ok (some (.symbol .openBrace), 1) := rfl
  have behind (column : Nat) : Lexer.scan 0 (Text.ofString ": true\x7d") ⟨1, column⟩ =
      .ok [⟨.symbol .colon, ⟨1, column⟩⟩, ⟨.keyword .trueKw, ⟨1, column + 2⟩⟩,
        ⟨.symbol .closeBrace, ⟨1, column + 6⟩⟩, ⟨.eof, ⟨1, column + 7⟩⟩] := rfl
  have place : (Location.mk 1 1).right t.quoted.length = ⟨1, t.quoted.length + 1⟩ := by
    simp [Location.right, Nat.add_comm]
  show Lexer.scan 0 t.keyed .origin = _
  rw [Text.keyed] at brace ⊢
  rw [Lexer.scan_lexeme brace rfl]
  show (_ :: ·) <$> Lexer.scan 0 (t.quoted ++ Text.ofString ": true\x7d") ⟨1, 1⟩ = _
  rw [Lexer.scan_quoted, place, behind]
  rfl

namespace Grammar

variable (loc stop : Location) (rest : List Token)

theorem hashKey_quoted :
    hashKey ⟨⟨.string t.quoted [.text t], loc⟩ :: rest, stop⟩ = .ok (t, ⟨rest, stop⟩) := by
  have key : (Lexeme.string t.quoted [.text t]).IsKey t := congrArg some (List.append_nil t)
  exact run_hashKey key loc rest stop

theorem primary_quoted (rules : Rules) :
    primary rules ⟨⟨.string t.quoted [.text t], loc⟩ :: rest, stop⟩ =
      .ok (.string [.text t] loc, ⟨rest, stop⟩) := rfl

/-- A bracket with one item, closed right behind it. -/
theorem delimited_single {α : Type} {close : Symbol} (what : Expected) {item : Parse α} {a : α}
    {c : Cursor} (other : close ≠ .comma) (solid : c.head.lexeme ≠ .newline)
    (filled : c.head.lexeme ≠ .symbol close)
    (read : item c = .ok (a, ⟨⟨.symbol close, loc⟩ :: rest, stop⟩)) :
    delimited close what item c = .ok ([a], ⟨rest, stop⟩) := by
  have comma : acceptSymbol .comma ⟨⟨.symbol close, loc⟩ :: rest, stop⟩ =
      .ok (false, ⟨⟨.symbol close, loc⟩ :: rest, stop⟩) :=
    run_accept_other fun is => other (Lexeme.symbol.inj is)
  rw [delimited, run_bind (run_skipNewlines solid), run_bind rfl, items, nextSymbol, bind_assoc,
    run_bind (run_next c), beq_eq_false_iff_ne.mpr filled]
  show ((item >>= _) >>= _) c = _
  rw [bind_assoc, run_bind read, bind_assoc, run_bind (run_skipNewlines (by simp [Cursor.head])),
    bind_assoc, run_bind comma]
  show ((pure [a] : Parse (List α)) >>= _) _ = _
  have closed : expectSymbol close what ⟨⟨.symbol close, loc⟩ :: rest, stop⟩ =
      .ok (⟨.symbol close, loc⟩, ⟨rest, stop⟩) := run_expect what rfl
  rw [pure_bind, run_bind closed]
  rfl

theorem primary_keyed (fuel : Nat) {colon braceLoc word close : Location} :
    primary (Grammar.rules (fuel + 1))
        ⟨[⟨.symbol .openBrace, braceLoc⟩, ⟨.string t.quoted [.text t], loc⟩,
          ⟨.symbol .colon, colon⟩, ⟨.keyword .trueKw, word⟩, ⟨.symbol .closeBrace, close⟩], stop⟩ =
      .ok (.hash [⟨t, .bool true word⟩] braceLoc, ⟨[], stop⟩) := by
  have entry : hashEntry (Grammar.rules (fuel + 1))
      ⟨[⟨.string t.quoted [.text t], loc⟩, ⟨.symbol .colon, colon⟩, ⟨.keyword .trueKw, word⟩,
        ⟨.symbol .closeBrace, close⟩], stop⟩ =
      .ok (⟨t, .bool true word⟩, ⟨[⟨.symbol .closeBrace, close⟩], stop⟩) := by
    rw [hashEntry, run_bind (hashKey_quoted ..)]
    rfl
  have entries := delimited_single close stop [] .closeBrace
    (by decide) (by simp [Cursor.head]) (by simp [Cursor.head]) entry
  have opened (rest : List Token) : expectSymbol .openBrace .openBrace
      ⟨⟨.symbol .openBrace, braceLoc⟩ :: rest, stop⟩ =
      .ok (⟨.symbol .openBrace, braceLoc⟩, ⟨rest, stop⟩) := run_expect _ rfl
  rw [primary, run_bind (peek_eq _)]
  show (hashEntries _ >>= _) _ = _
  rw [hashEntries, bind_assoc, run_bind (opened _), bind_assoc, run_bind entries]
  rfl

end Grammar

theorem parseExpression_quoted : parseExpression t.quoted = .ok (.string [.text t] .origin) :=
  parseExpression_of_primary [_] (tokenize_quoted t .origin) rfl
    (Grammar.primary_quoted t _ _ [] _)

theorem parseExpression_keyed :
    parseExpression t.keyed = .ok (.hash [⟨t, .bool true ⟨1, t.quoted.length + 3⟩⟩] .origin) := by
  have keyed : (Grammar.rules t.keyed.length) =
      Grammar.rules ((t.quoted ++ Text.ofString ": true\x7d").length + 1) := rfl
  exact parseExpression_of_primary _ (tokenize_keyed t) rfl (keyed ▸ Grammar.primary_keyed ..)

namespace Eval

variable (m : Machine) (scope : Nat) (s : State) (loc : Location)

theorem evalExpr_text : evalExpr m (.string [.text t] loc) scope s = .ok (.string t) s := by
  have text : evalSegments m scope [.text t] s = .ok (t ++ []) s := rfl
  rw [List.append_nil] at text
  rw [evalExpr, bind_ok text]
  rfl

/-- A hash written with one key has that key, with the value behind it. -/
theorem evalExpr_entry {e : Expr} {v : Value} {u : State} (evaluated : m.eval e scope s = .ok v u) :
    ∃ ref w, evalExpr m (.hash [⟨t, e⟩] loc) scope s = .ok (.hash ref) w ∧
      w.heap.hash ref = [(t, v)] := by
  have entries : evalEntries m scope false [] [⟨t, e⟩] s = .ok [(t, v)] u := by
    rw [evalEntries, bind_ok evaluated]
    rfl
  have made : newHash [(t, v)] u = .ok (.hash u.heap.hashes.size) _ := rfl
  refine ⟨_, _, ?_, (newHash_eq_ok made).2⟩
  rw [evalExpr, bind_ok entries]
  exact made

end Eval

/-- Every text has a literal. It is one token of one part, which is the text; read as an
expression it has the text as its value, and read as a key it is the key that is the text. -/
theorem every_text_has_literal :
    (∀ start, tokenize t.quoted start =
      .ok [⟨.string t.quoted [.text t], start⟩, ⟨.eof, start.right t.quoted.length⟩]) ∧
    (∃ e, parseExpression t.quoted = .ok e ∧ ∀ host fuel scope s,
      (Machine.of host (fuel + 1)).eval e scope s = .ok (.string t) s) ∧
    (∀ loc rest stop, Grammar.hashKey ⟨⟨.string t.quoted [.text t], loc⟩ :: rest, stop⟩ =
      .ok (t, ⟨rest, stop⟩)) ∧
    (∃ e, parseExpression t.keyed = .ok e ∧ ∀ host fuel scope s,
      ∃ ref u, (Machine.of host (fuel + 2)).eval e scope s = .ok (.hash ref) u ∧
        u.heap.hash ref = [(t, .bool true)]) := by
  refine ⟨tokenize_quoted t, ⟨_, parseExpression_quoted t, ?_⟩,
    fun loc rest stop => Grammar.hashKey_quoted t loc stop rest, ⟨_, parseExpression_keyed t, ?_⟩⟩
  · intro host fuel scope s
    exact Eval.evalExpr_text t _ scope s .origin
  · intro host fuel scope s
    exact Eval.evalExpr_entry t _ scope s .origin rfl

/-- A dollar in front of a brace, a line end and half of a character. -/
example : Text.quoted [0x24, 0x7B, 0x0A, 0xD800] =
    [0x22, 0x5C, 0x24, 0x7B, 0x5C, 0x6E, 0xD800, 0x22] := rfl

end

end Loom
