import Loom.Proofs.Interpolation.Braces
import Loom.Proofs.Layout.Statement
import Loom.Proofs.Progress.Descent

/-!
Code in a string. An expression on one line that is put between the braces of a literal is
the code of that literal just when it is flat, and it is then read as it is on its own, only
further to the right.
-/

namespace Loom

/-- A text as one expression, read up to its end. -/
def parseExpression (source : Text) : Except Diagnostic Expr :=
  Grammar.interpolation (Grammar.rules (source.length + 1)) source .origin

/-- A literal with some code between braces, and nothing else. -/
def literalOf (code : Text) : Text := 0x22 :: 0x24 :: 0x7B :: (code ++ [0x7D, 0x22])

/-! Code is read alike further to the right. -/

/-- Places, and the places some units to the left. -/
def Views.shifted (units : Nat) : Views where
  left := fun loc => loc.right units
  right := fun loc => loc
  along := by
    rintro l _ n rfl
    simp [Nat.add_comm]

theorem interpolation_shifted {fuel fuel' : Nat} {code : Text} {loc : Location} {e : Expr}
    (units : Nat) (line : 0x0A ∉ code) (room : code.length < fuel) (room' : code.length < fuel')
    (is : Grammar.interpolation (Grammar.rules fuel) code loc = .ok e) :
    Grammar.interpolation (Grammar.rules fuel') code (loc.right units) =
      .ok (e.relocated fun place => place.right units) := by
  have agree := Grammar.rules_agree (.shifted units) (Nat.succ_le_of_lt room)
    (Nat.succ_le_of_lt room')
  have both := Grammar.both_interpolation agree (Nat.lt_succ_self code.length)
    (show (Views.shifted units).left loc = (Views.shifted units).right (loc.right units) from rfl)
    fun among => absurd among line
  rw [is] at both
  cases read : Grammar.interpolation (Grammar.rules fuel') code (loc.right units) with
  | error d =>
      rw [read] at both
      exact both.elim
  | ok e' =>
      rw [read] at both
      have same : e.relocated (fun place => place.right units) = e'.relocated fun place => place :=
        both
      rw [same, Expr.relocated_id]

/-! An expression is more than blanks. -/

theorem Text.trim_filled {t : Text} {u : UInt16} (among : u ∈ t) (solid : Text.isSpace u = false) :
    (Text.trim t).isEmpty = false := by
  have left : u ∈ t.dropWhile Text.isSpace := by
    rw [← List.takeWhile_append_dropWhile (p := Text.isSpace) (l := t)] at among
    rcases List.mem_append.mp among with space | left
    · exact absurd (List.mem_takeWhile_imp space) (by simp [solid])
    · exact left
  have right : (t.dropWhile Text.isSpace).reverse.dropWhile Text.isSpace ≠ [] := by
    intro none
    have space := List.dropWhile_eq_nil_iff.mp none u (List.mem_reverse.mpr left)
    exact absurd space (by simp [solid])
  simp only [Text.trim, Text.trimLeft, Text.trimRight, List.isEmpty_reverse]
  exact List.isEmpty_eq_false_iff.mpr right

/-- Where no token is left no expression is. -/
theorem fails_expression (fuel : Nat) (stop : Location) (r : Expr × Grammar.Cursor) :
    (Grammar.rules fuel).expression ⟨[], stop⟩ ≠ .ok r := by
  intro is
  have takes := (Grammar.rules_take fuel).expression ⟨[], stop⟩
  rw [is] at takes
  exact absurd takes.fewer (Nat.not_lt_zero _)

theorem isSpace_of_visible {u : UInt16} (low : 0x21 ≤ u) (high : u ≤ 0x7E) :
    Text.isSpace u = false := by
  simp only [Text.isSpace, Bool.or_eq_false_iff, Bool.and_eq_false_iff, decide_eq_false_iff_not,
    beq_eq_false_iff_ne, ne_eq, UInt16.le_iff_toNat_le, ← UInt16.toNat_inj,
    UInt16.reduceToNat] at low high ⊢
  omega

theorem isSpace_of_isIdentStart {u : UInt16} (start : Lexer.isIdentStart u = true) :
    Text.isSpace u = false := by
  have visible : 0x21 ≤ u ∧ u ≤ 0x7E := by
    simp only [Lexer.isIdentStart, Bool.or_eq_true, Bool.and_eq_true, decide_eq_true_eq,
      beq_iff_eq, UInt16.le_iff_toNat_le, ← UInt16.toNat_inj, UInt16.reduceToNat] at start ⊢
    omega
  exact isSpace_of_visible visible.1 visible.2

theorem isSpace_of_isDigit {u : UInt16} (digit : Decimal.isDigit u = true) :
    Text.isSpace u = false := by
  have visible : 0x21 ≤ u ∧ u ≤ 0x7E := by
    simp only [Decimal.isDigit, Bool.and_eq_true, decide_eq_true_eq, UInt16.le_iff_toNat_le,
      UInt16.reduceToNat] at digit ⊢
    omega
  exact isSpace_of_visible visible.1 visible.2

/-- A token has a unit that is no space. -/
theorem exists_solid {lexeme : Lexeme} {rest : Text} (fits : lexeme.Fits rest)
    (line : lexeme ≠ .newline) : ∃ u ∈ lexeme.text, Text.isSpace u = false := by
  have word {t : Text} (word : Lexer.IsWord t) : ∃ u ∈ t, Text.isSpace u = false := by
    obtain ⟨u, tail, rfl, start, -⟩ := word
    exact ⟨u, .head _, isSpace_of_isIdentStart start⟩
  cases lexeme with
  | number digits =>
      obtain ⟨⟨whole, filled, isDigit, split⟩, -⟩ := fits
      obtain ⟨u, tail, rfl⟩ := List.exists_cons_of_ne_nil filled
      refine ⟨u, ?_, isSpace_of_isDigit (isDigit u (.head _))⟩
      rcases split with rfl | ⟨fraction, -, -, rfl⟩ <;> exact .head _
  | ident name => exact word fits.1
  | keyword w => exact word fits.1
  | symbol s =>
      cases s <;> exact ⟨_, .head _, by decide⟩
  | string written parts =>
      obtain ⟨⟨inside, rfl⟩, -⟩ := fits
      exact ⟨0x22, .head _, rfl⟩
  | newline => exact absurd rfl line
  | eof => exact fits.elim

theorem filled_of_expression {fuel : Nat} {source : Text} {loc : Location} {e : Expr}
    (line : 0x0A ∉ source)
    (is : Grammar.interpolation (Grammar.rules fuel) source loc = .ok e) :
    (Text.trim source).isEmpty = false := by
  rw [Grammar.interpolation_eq] at is
  obtain ⟨tokens, cut, is⟩ := ok_of_bind is
  obtain ⟨pieces, rfl, laid, rfl⟩ := Lexer.pieces_of_tokenize cut
  cases some : Lexer.tokensOf pieces with
  | nil =>
      obtain ⟨r, read, -⟩ := ok_of_bind is
      obtain ⟨r', read, -⟩ := ok_of_bind read
      rw [some, Grammar.Cursor.ofTokens_append] at read
      exact absurd read (fails_expression _ _ _)
  | cons t others =>
      have among : t ∈ Lexer.tokensOf pieces := some ▸ .head _
      obtain ⟨_, fits, _, inside⟩ := Lexer.piece_of_token laid among
      have other : t.lexeme ≠ .newline := by
        intro newline
        exact line (inside (by rw [newline]; exact .head _))
      obtain ⟨u, there, solid⟩ := exists_solid fits other
      exact Text.trim_filled (inside there) solid

/-! The tokens of a literal. -/

theorem stringLexeme_literal {code : Text} (flat : Lexer.Flat code)
    (filled : (Text.trim code).isEmpty = false) (loc : Location) :
    Lexer.stringLexeme (literalOf code) loc =
      .ok (.string (literalOf code) [.code code (loc.right 3)], (literalOf code).length) := by
  have found := (Lexer.code?_iff code [0x22]).mpr ⟨flat, filled⟩
  have parts := Lexer.stringParts_braces loc (loc.right 1) found
  have closing : ∀ place, Lexer.stringParts loc 0 [0x22] place = .ok ([], 1) := fun _ => rfl
  rw [closing] at parts
  have size : (literalOf code).length = 1 + (code.length + 3) + 1 := by
    simp [literalOf]
    omega
  rw [Lexer.stringLexeme]
  show (Lexer.stringParts loc 0 (0x24 :: 0x7B :: (code ++ 0x7D :: [0x22])) (loc.right 1) >>= _) = _
  rw [parts]
  show Except.ok (Lexeme.string ((literalOf code).take _) _, _) = _
  rw [List.take_of_length_le size.le, size]
  rfl

theorem tokenize_literal {code : Text} (flat : Lexer.Flat code)
    (filled : (Text.trim code).isEmpty = false) (loc : Location) :
    tokenize (literalOf code) loc =
      .ok [⟨.string (literalOf code) [.code code (loc.right 3)], loc⟩,
        ⟨.eof, loc.right (literalOf code).length⟩] := by
  have piece : Lexer.piece 0x22 (literalOf code) loc =
      .ok (some (.string (literalOf code) [.code code (loc.right 3)]),
        (literalOf code).length) := by
    show (Lexer.stringLexeme (literalOf code) loc >>= fun r => pure (some r.1, r.2)) = _
    rw [stringLexeme_literal flat filled]
    rfl
  show Lexer.scan 0 (literalOf code) loc = _
  rw [literalOf] at piece ⊢
  rw [Lexer.scan_lexeme piece (List.append_nil _).symm]
  rfl

/-- A literal that is one token with its code as one part has flat code. -/
theorem flat_of_literal {code written : Text} {loc place start stop : Location}
    (cut : tokenize (literalOf code) start =
      .ok [⟨.string written [.code code place], loc⟩, ⟨.eof, stop⟩]) : Lexer.Flat code := by
  change Lexer.scan 0 (0x22 :: 0x24 :: 0x7B :: (code ++ [0x7D, 0x22])) start = _ at cut
  rw [Lexer.scan] at cut
  obtain ⟨⟨lexeme?, n⟩, piece, cut⟩ := ok_of_bind cut
  obtain ⟨tokens, -, first⟩ := ok_of_bind cut
  change (Lexer.stringLexeme (literalOf code) start >>= fun r => pure (some r.1, r.2)) = _ at piece
  obtain ⟨⟨lexeme, n⟩, read, is⟩ := ok_of_bind piece
  cases is
  cases first
  obtain ⟨⟨parts, n⟩, inside, is⟩ := ok_of_bind read
  have single : parts = [.code code place] := by
    have same := (Lexeme.string.inj (Prod.mk.inj (Except.ok.inj is)).1).2
    split at same
    · cases same
    · exact same
  change Lexer.stringParts loc 0 (0x24 :: 0x7B :: (code ++ 0x7D :: [0x22])) (loc.right 1) = _
    at inside
  rw [Lexer.stringParts_opening] at inside
  cases found : Lexer.code? (code ++ 0x7D :: [0x22]) with
  | error fault =>
      rw [found] at inside
      cases inside
  | ok code' =>
      rw [found] at inside
      obtain ⟨r, -, same⟩ := ok_of_map inside
      have front := (List.cons.inj ((Prod.mk.inj same).1.trans single)).1
      obtain ⟨rfl, -⟩ := StringPart.code.inj front
      exact ((Lexer.code?_iff code' [0x22]).mp found).1

/-! A literal as an expression. -/

theorem primary_literal {rules : Grammar.Rules} {code written : Text} {loc place stop : Location}
    {e : Expr} (is : Grammar.interpolation rules code place = .ok e) :
    Grammar.primary rules ⟨[⟨.string written [.code code place], loc⟩], stop⟩ =
      .ok (.string [.code e] loc, ⟨[], stop⟩) := by
  have parts : Grammar.segments rules [.code code place] = .ok [.code e] := by
    rw [Grammar.segments, is]
    rfl
  show (do
      let list ← (Grammar.segments rules [.code code place] : Except Diagnostic (List Segment))
      pure (Expr.string list loc) : Grammar.Parse Expr) ⟨[], stop⟩ = _
  rw [parts]
  rfl

theorem closes_eof : Grammar.Closes .eof := by
  intro level
  match level with
  | 0 | 1 | 2 | 3 | 4 | 5 | 6 | 7 | 8 => rfl
  | level + 9 => simp [Grammar.joins, Grammar.opAt?]

/-- A text is the expression that its tokens are as a whole, if they are one that stands by
itself. -/
theorem parseExpression_of_primary {source : Text} (init : List Token) {stop : Location} {e : Expr}
    (cut : tokenize source .origin = .ok (init ++ [⟨.eof, stop⟩]))
    (begins : (Grammar.Cursor.mk init stop).head.lexeme.begins 9 = true)
    (run : Grammar.primary (Grammar.rules source.length) ⟨init, stop⟩ = .ok (e, ⟨[], stop⟩)) :
    parseExpression source = .ok e := by
  let rules := Grammar.rules (source.length + 1)
  have stops (level : Nat) : Grammar.joins level (Grammar.Cursor.mk [] stop).head.lexeme = false :=
    closes_eof level
  have single : Grammar.Reached (Grammar.rules source.length) 9 ⟨init, stop⟩ e ⟨[], stop⟩ :=
    Grammar.reached_of_run run rfl
  have reached := single.down (Nat.zero_le 9) (Nat.le_refl 9) (fun level _ => stops level) begins
  have read : rules.expression ⟨init, stop⟩ = .ok (e, ⟨[], stop⟩) := reached.run (stops 0)
  have whole : Grammar.wholeExpression rules ⟨init, stop⟩ = .ok (e, ⟨[], stop⟩) := by
    rw [Grammar.wholeExpression, Grammar.run_bind read]
    rfl
  have inside : (Grammar.wholeExpression rules (.ofTokens (init ++ [⟨.eof, stop⟩])) >>=
      fun r => pure r.1) = .ok e := by
    rw [Grammar.Cursor.ofTokens_append, whole]
    rfl
  have steps : parseExpression source = (tokenize source .origin >>= fun tokens =>
      Grammar.wholeExpression rules (.ofTokens tokens) >>= fun r => pure r.1) := rfl
  rw [steps, cut]
  exact inside

/-- Flat code that is an expression is the only segment of the literal made of it. -/
theorem parseExpression_literal {code : Text} {e : Expr} (line : 0x0A ∉ code)
    (flat : Lexer.Flat code) (is : parseExpression code = .ok e) :
    parseExpression (literalOf code) =
      .ok (.string [.code (e.relocated fun place => place.right 3)] .origin) := by
  have size : code.length < (literalOf code).length := by
    simp only [literalOf, List.length_cons, List.length_append]
    omega
  have inside := interpolation_shifted 3 line (Nat.lt_succ_self _) size is
  have cut := tokenize_literal flat (filled_of_expression line is) .origin
  exact parseExpression_of_primary [_] cut rfl (primary_literal inside)

/-- An expression on one line, put between the braces of a literal, is all of its code just
when it is flat. The literal is then one token and, as an expression, has what is written as
its only segment, read three units further to the right. Flat it is where each of its own
literals is flat or has no quotes in its code. -/
theorem expression_is_code_iff_flat {code : Text} {e : Expr} (line : 0x0A ∉ code)
    (hash : 0x23 ∉ code) (is : parseExpression code = .ok e) :
    (Lexer.Flat code ↔ ∃ written place loc stop, tokenize (literalOf code) .origin =
      .ok [⟨.string written [.code code place], loc⟩, ⟨.eof, stop⟩]) ∧
    (Lexer.Flat code →
      tokenize (literalOf code) .origin =
        .ok [⟨.string (literalOf code) [.code code ⟨1, 3⟩], ⟨1, 0⟩⟩,
          ⟨.eof, ⟨1, code.length + 5⟩⟩] ∧
      parseExpression (literalOf code) =
        .ok (.string [.code (e.relocated fun place => place.right 3)] ⟨1, 0⟩)) ∧
    ((∀ tokens, tokenize code .origin = .ok tokens → ∀ t ∈ tokens, ∀ written parts,
        t.lexeme = .string written parts →
          Lexer.Flat written ∨ ∀ inner place, .code inner place ∈ parts → 0x22 ∉ inner) →
      Lexer.Flat code) := by
  have filled := filled_of_expression line is
  have whole (flat : Lexer.Flat code) : tokenize (literalOf code) .origin =
      .ok [⟨.string (literalOf code) [.code code ⟨1, 3⟩], ⟨1, 0⟩⟩,
        ⟨.eof, ⟨1, code.length + 5⟩⟩] := by
    have size : Location.origin.right (literalOf code).length = ⟨1, code.length + 5⟩ := by
      simp [Location.right, Location.origin, literalOf]
    rw [tokenize_literal flat filled, size]
    rfl
  refine ⟨⟨fun flat => ⟨_, _, _, _, whole flat⟩, ?_⟩, ?_, ?_⟩
  · rintro ⟨written, place, loc, stop, cut⟩
    exact flat_of_literal cut
  · exact fun flat => ⟨whole flat, parseExpression_literal line flat is⟩
  · intro literals
    obtain ⟨tokens, cut, -⟩ := ok_of_bind is
    exact flat_of_expression line hash is cut (literals tokens cut)

/-- A hash with a brace in one of its texts, and one of its fields. -/
theorem field_of_hash_is_code :
    let code := Text.ofString "\x7ba: \"\x7d\"\x7d.a"
    Lexer.Flat code ∧
      tokenize (literalOf code) .origin =
        .ok [⟨.string (literalOf code) [.code code ⟨1, 3⟩], ⟨1, 0⟩⟩, ⟨.eof, ⟨1, 15⟩⟩] ∧
      ∃ e, parseExpression code = .ok e ∧ parseExpression (literalOf code) =
        .ok (.string [.code (e.relocated fun place => place.right 3)] ⟨1, 0⟩) := by
  intro code
  have some : (parseExpression code).toOption.isSome := by decide +kernel
  obtain ⟨e, given⟩ := Option.isSome_iff_exists.mp some
  have read : parseExpression code = .ok e := ok_of_toOption given
  have cut : tokenize code .origin =
      .ok [⟨.symbol .openBrace, ⟨1, 0⟩⟩, ⟨.ident (Text.ofString "a"), ⟨1, 1⟩⟩,
        ⟨.symbol .colon, ⟨1, 2⟩⟩,
        ⟨.string (Text.ofString "\"\x7d\"") [.text (Text.ofString "\x7d")], ⟨1, 4⟩⟩,
        ⟨.symbol .closeBrace, ⟨1, 7⟩⟩, ⟨.symbol .dot, ⟨1, 8⟩⟩,
        ⟨.ident (Text.ofString "a"), ⟨1, 9⟩⟩, ⟨.eof, ⟨1, 10⟩⟩] := rfl
  obtain ⟨-, holds, flat⟩ := expression_is_code_iff_flat (by decide) (by decide) read
  have flat : Lexer.Flat code := by
    apply flat
    intro tokens cut'
    obtain rfl := Except.ok.inj (cut.symm.trans cut')
    simp
  obtain ⟨whole, alike⟩ := holds flat
  exact ⟨flat, whole, e, read, alike⟩

/-- A literal in which a literal with a brace is code is an expression, but not the code of
the literal made of it: the quotes are taken for those of other literals, and the code ends
at that brace. -/
theorem nested_brace_ends_code :
    let code := Text.ofString "\"$\x7b\"\x7d\"\x7d\""
    0x0A ∉ code ∧ 0x23 ∉ code ∧ (parseExpression code).toOption.isSome ∧
      tokenize (literalOf code) .origin =
        .ok [⟨.string (Text.ofString "\"$\x7b\"$\x7b\"\x7d\"")
            [.code (Text.ofString "\"$\x7b\"") ⟨1, 3⟩], ⟨1, 0⟩⟩,
          ⟨.symbol .closeBrace, ⟨1, 9⟩⟩,
          ⟨.string (Text.ofString "\"\x7d\"") [.text (Text.ofString "\x7d")], ⟨1, 10⟩⟩,
          ⟨.eof, ⟨1, 13⟩⟩] ∧
      (parseExpression (literalOf code)).toOption.isNone ∧
      ¬ ∃ written place loc stop, tokenize (literalOf code) .origin =
        .ok [⟨.string written [.code code place], loc⟩, ⟨.eof, stop⟩] := by
  intro code
  have cut : tokenize (literalOf code) .origin =
      .ok [⟨.string (Text.ofString "\"$\x7b\"$\x7b\"\x7d\"")
          [.code (Text.ofString "\"$\x7b\"") ⟨1, 3⟩], ⟨1, 0⟩⟩,
        ⟨.symbol .closeBrace, ⟨1, 9⟩⟩,
        ⟨.string (Text.ofString "\"\x7d\"") [.text (Text.ofString "\x7d")], ⟨1, 10⟩⟩,
        ⟨.eof, ⟨1, 13⟩⟩] := ok_of_toOption (by decide +kernel)
  refine ⟨by decide, by decide, by decide +kernel, cut, by decide +kernel, ?_⟩
  rintro ⟨written, place, loc, stop, single⟩
  have sizes : 4 = 2 := congrArg List.length (Except.ok.inj (cut.symm.trans single))
  cases sizes

end Loom
