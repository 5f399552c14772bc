import Loom.Proofs.Layout.Statement

/-!
Layout does not matter beyond line ends. Blanks and comments are no tokens, so what is left
of them is where the tokens stand; and of line ends it only counts whether there are some
between two other tokens. Texts that are the same but for that are the same program.
-/

namespace Loom

open Grammar

/-- A token in front of others. A line end in front of another one, or of the end of the
text, is left out. -/
def settle (t : Token) : List Token → List Token
  | [] => [t]
  | u :: rest =>
      if isNewline t ∧ (isNewline u ∨ u.lexeme = .eof) then u :: rest else t :: u :: rest

/-- The kind and the text of a token. -/
def Token.key (t : Token) : TokenKind × Text := (t.lexeme.kind, t.lexeme.text)

/-- The kinds and texts of tokens, with one line end for each row of them and none in front
or at the end. -/
def outline (tokens : List Token) : List (TokenKind × Text) :=
  ((tokens.foldr settle []).dropWhile isNewline).map Token.key

namespace Lexeme

theorem kind_newline_iff {lexeme : Lexeme} : lexeme.kind = .newline ↔ lexeme = .newline := by
  cases lexeme with
  | symbol s => cases s <;> decide
  | _ => simp [kind]

theorem kind_eof_iff {lexeme : Lexeme} : lexeme.kind = .eof ↔ lexeme = .eof := by
  cases lexeme with
  | symbol s => cases s <;> decide
  | _ => simp [kind]

end Lexeme

/-- Tokens in front of a last one, and what is left of them. -/
inductive Outlined (last : Token) : List Token → List Token → Prop where
  | ended {tokens} (lines : ∀ t ∈ tokens, isNewline t = true) : Outlined last tokens [last]
  | token {t rest left} (solid : isNewline t = false) (more : t.lexeme ≠ .eof)
      (behind : Outlined last rest left) : Outlined last (t :: rest) (t :: left)
  | lines {t t' rest left} (line : isNewline t = true) (line' : isNewline t' = true)
      (behind : Outlined last (rest.dropWhile isNewline) left) :
      Outlined last (t :: rest) (t' :: left)

section

variable {last last' : Token} {tokens tokens' left left' : List Token}

theorem settle_line {t u : Token} (line : isNewline t = true) (gap : IsGap u.lexeme)
    (rest : List Token) : settle t (u :: rest) = u :: rest := by
  rw [settle, if_pos ⟨line, gap.imp_left isNewline_iff.mpr⟩]

theorem settle_solid {t u : Token} (solid : isNewline t = true → ¬ IsGap u.lexeme)
    (rest : List Token) : settle t (u :: rest) = t :: u :: rest := by
  rw [settle, if_neg]
  rintro ⟨line, gap⟩
  exact solid line (gap.imp_left isNewline_iff.mp)

theorem outlined_settled (done : last.lexeme = .eof) (more : ∀ t ∈ tokens, t.lexeme ≠ .eof) :
    Outlined last tokens (tokens.foldr settle [last]) := by
  induction tokens with
  | nil => exact .ended nofun
  | cons t rest ih =>
      rw [List.forall_mem_cons] at more
      have behind := ih more.2
      rw [List.foldr_cons]
      cases line : isNewline t with
      | false =>
          have front : settle t (rest.foldr settle [last]) = t :: rest.foldr settle [last] := by
            cases rest.foldr settle [last] with
            | nil => rfl
            | cons u others => exact settle_solid (by simp [line]) others
          rw [front]
          exact .token line more.1 behind
      | true =>
          generalize rest.foldr settle [last] = left at behind
          cases behind with
          | ended lines =>
              rw [settle_line line (.inr done)]
              exact .ended (List.forall_mem_cons.mpr ⟨line, lines⟩)
          | @token u others left solid other behind =>
              have away : ¬ IsGap u.lexeme := by
                rintro (is | is)
                · exact Bool.eq_false_iff.mp solid (isNewline_iff.mpr is)
                · exact other is
              rw [settle_solid fun _ => away]
              refine .lines line line ?_
              rw [List.dropWhile_cons_of_neg (by simp [solid])]
              exact .token solid other behind
          | lines first first' behind =>
              rw [settle_line line (.inl (isNewline_iff.mp first'))]
              refine .lines line first' ?_
              rwa [List.dropWhile_cons_of_pos first]

theorem Outlined.skip (done : last.lexeme = .eof) (outlined : Outlined last tokens left) :
    Outlined last (tokens.dropWhile isNewline) (left.dropWhile isNewline) := by
  induction outlined with
  | ended lines =>
      have other : ¬ isNewline last = true := by
        rw [isNewline_iff, done]
        exact nofun
      rw [List.dropWhile_eq_nil_iff.mpr lines, List.dropWhile_cons_of_neg other]
      exact .ended nofun
  | token solid more behind =>
      have other := Bool.eq_false_iff.mp solid
      rw [List.dropWhile_cons_of_neg other, List.dropWhile_cons_of_neg other]
      exact .token solid more behind
  | @lines t t' rest left line line' _ ih =>
      have again : (rest.dropWhile isNewline).dropWhile isNewline = rest.dropWhile isNewline :=
        List.dropWhile_eq_self_iff.mpr (List.dropWhile_get_zero_not isNewline rest)
      rw [List.dropWhile_cons_of_pos line, List.dropWhile_cons_of_pos line']
      rwa [again] at ih

/-- Tokens of which the same is left stand side by side. -/
theorem Outlined.paired {v : Views} {source source' : Text} (blind : v.Blind)
    (done : last.lexeme = .eof) (done' : last'.lexeme = .eof)
    (outlined : Outlined last tokens left) (outlined' : Outlined last' tokens' left')
    (held : ∀ t ∈ tokens, Lexer.Holds source t) (held' : ∀ t ∈ tokens', Lexer.Holds source' t)
    (same : left.map Token.key = left'.map Token.key) : Paired v True tokens tokens' := by
  have eof {t : Token} : t.lexeme.kind = .eof ↔ t.lexeme = .eof := Lexeme.kind_eof_iff
  have newline {t : Token} : t.lexeme.kind = .newline ↔ isNewline t = true :=
    Lexeme.kind_newline_iff.trans isNewline_iff.symm
  -- the first kind that is left says how the tokens of both texts begin
  induction outlined generalizing tokens' left' with
  | ended lines =>
      cases outlined' with
      | ended lines' => exact .ended lines lines' (.inl trivial) (.inr blind)
      | token _ more =>
          have kind := (Prod.mk.inj (List.cons.inj same).1).1
          exact absurd (eof.mp (kind.symm.trans (eof.mpr done))) more
      | lines _ line' =>
          have kind := (Prod.mk.inj (List.cons.inj same).1).1
          cases (eof.mpr done).symm.trans (kind.trans (newline.mpr line'))
  | @token t rest left solid more _ ih =>
      cases outlined' with
      | ended =>
          have kind := (Prod.mk.inj (List.cons.inj same).1).1
          exact absurd (eof.mp (kind.trans (eof.mpr done'))) more
      | @token t' rest' left' solid' more' behind' =>
          obtain ⟨first, others⟩ := List.cons.inj same
          obtain ⟨kind, text⟩ := Prod.mk.inj first
          rw [List.forall_mem_cons] at held held'
          have token := Lexer.same_of_held held.1 held'.1 (blind t.loc t'.loc) kind text
          exact .token token (Lexer.tame_of_held held.1 fun _ => blind) solid more
            (ih behind' held.2 held'.2 others)
      | lines _ line' =>
          have kind := (Prod.mk.inj (List.cons.inj same).1).1
          exact absurd (newline.mp (kind.trans (newline.mpr line'))) (Bool.eq_false_iff.mp solid)
  | @lines t left_first rest left line line' _ ih =>
      cases outlined' with
      | ended =>
          have kind := (Prod.mk.inj (List.cons.inj same).1).1
          cases (newline.mpr line').symm.trans (kind.trans (eof.mpr done'))
      | token solid' =>
          have kind := (Prod.mk.inj (List.cons.inj same).1).1
          exact absurd (newline.mp (kind.symm.trans (newline.mpr line')))
            (Bool.eq_false_iff.mp solid')
      | lines first _ behind' =>
          have behind := ih behind'
            (fun u among => held u (.tail _ ((List.dropWhile_sublist _).subset among)))
            (fun u among => held' u (.tail _ ((List.dropWhile_sublist _).subset among)))
            (List.cons.inj same).2
          exact .lines line first blind behind

end

/-- A program is read alike from tokens that stand side by side. -/
theorem inStep_program {v : Views} {weight n fuel fuel' : Nat} {c c' : Cursor} (blind : v.Blind)
    (near : NearLine v True weight n c c') (room : weight ≤ fuel) (room' : weight ≤ fuel') :
    InStep (fun p p' _ _ => p.relocated v.left = p'.relocated v.right)
      (program (rules fuel) c) (program (rules fuel') c') := by
  unfold program
  apply inStep_bind
    (inStep_block (rules_agree v room room') .program .input (Nat.le_refl _) blind near)
  rintro ⟨list, loc⟩ ⟨list', loc'⟩ d d' ⟨same, _⟩
  exact inStep_pure (congrArg (fun b : Block => Program.mk b.statements b.loc) same)

theorem toOption_map_of_both {α β : Type} {f : α → β} {x x' : Except Diagnostic α}
    (both : Both (fun a a' => f a = f a') x x') : x.toOption.map f = x'.toOption.map f := by
  cases x with
  | ok a =>
      cases x' with
      | ok a' => exact congrArg some both
      | error d' => exact both.elim
  | error d =>
      cases x' with
      | ok a' => exact both.elim
      | error d' => rfl

/-- Texts with the same outline are both a program or both none, and the same program up to
its places. -/
theorem same_outline_same_program {source source' : Text} {tokens tokens' : List Token}
    (cut : tokenize source .origin = .ok tokens) (cut' : tokenize source' .origin = .ok tokens')
    (same : outline tokens = outline tokens') :
    (parse source).toOption.map Program.unplaced =
      (parse source').toOption.map Program.unplaced := by
  -- seen so, all places are the same
  let blindly : Views := ⟨fun _ => .origin, fun _ => .origin, fun _ _ => rfl⟩
  obtain ⟨init, stop, rfl, held⟩ := tokenize_eq cut
  obtain ⟨init', stop', rfl, held'⟩ := tokenize_eq cut'
  have left : Outlined ⟨.eof, stop⟩ init (init.foldr settle [⟨.eof, stop⟩]) :=
    outlined_settled rfl fun t among => Lexer.held_ne_eof (held t among)
  have left' : Outlined ⟨.eof, stop'⟩ init' (init'.foldr settle [⟨.eof, stop'⟩]) :=
    outlined_settled rfl fun t among => Lexer.held_ne_eof (held' t among)
  simp only [outline, List.foldr_append] at same
  have paired : Paired blindly True (init.dropWhile isNewline) (init'.dropWhile isNewline) :=
    (left.skip rfl).paired (fun _ _ => rfl) rfl rfl (left'.skip rfl)
      (fun t among => held t ((List.dropWhile_sublist _).subset among))
      (fun t among => held' t ((List.dropWhile_sublist _).subset among)) same
  have near : NearLine blindly True (weightOf init) (countOf init)
      (.ofTokens (init ++ [⟨.eof, stop⟩])) (.ofTokens (init' ++ [⟨.eof, stop'⟩])) := by
    rw [Cursor.ofTokens_append, Cursor.ofTokens_append]
    exact ⟨paired, (weightOf_dropWhile init).le, (countOf_dropWhile init).le⟩
  have weight : weightOf init' = weightOf init := by
    have level := paired.weight
    rwa [weightOf_dropWhile, weightOf_dropWhile] at level
  have room : weightOf init ≤ source.length + 1 := Nat.le_succ_of_le (weightOf_of_tokenize cut)
  have room' : weightOf init ≤ source'.length + 1 := by
    rw [← weight]
    exact Nat.le_succ_of_le (weightOf_of_tokenize cut')
  apply toOption_map_of_both
  rw [parse, parse, cut, cut']
  show Both _ (program _ _ >>= fun r => pure r.1) (program _ _ >>= fun r => pure r.1)
  exact both_bind (inStep_program (fun _ _ => rfl) near room room') fun _ _ same => same

/-- A block with blanks, comments, blank lines and a final line end, and without. -/
theorem loose_block_as_tight :
    (parse (Text.ofString "\n# greet\nif ready\n\n  emit  x\nend\n\n")).toOption.isSome ∧
      (parse (Text.ofString "\n# greet\nif ready\n\n  emit  x\nend\n\n")).toOption.map
          Program.unplaced =
        (parse (Text.ofString "if ready # now\nemit x\nend")).toOption.map Program.unplaced := by
  have cut : tokenize (Text.ofString "\n# greet\nif ready\n\n  emit  x\nend\n\n") .origin =
      .ok [⟨.newline, ⟨1, 0⟩⟩, ⟨.newline, ⟨2, 7⟩⟩, ⟨.keyword .ifKw, ⟨3, 0⟩⟩,
        ⟨.ident (Text.ofString "ready"), ⟨3, 3⟩⟩, ⟨.newline, ⟨3, 8⟩⟩, ⟨.newline, ⟨4, 0⟩⟩,
        ⟨.keyword .emitKw, ⟨5, 2⟩⟩, ⟨.ident (Text.ofString "x"), ⟨5, 8⟩⟩, ⟨.newline, ⟨5, 9⟩⟩,
        ⟨.keyword .endKw, ⟨6, 0⟩⟩, ⟨.newline, ⟨6, 3⟩⟩, ⟨.newline, ⟨7, 0⟩⟩, ⟨.eof, ⟨8, 0⟩⟩] := rfl
  have cut' : tokenize (Text.ofString "if ready # now\nemit x\nend") .origin =
      .ok [⟨.keyword .ifKw, ⟨1, 0⟩⟩, ⟨.ident (Text.ofString "ready"), ⟨1, 3⟩⟩, ⟨.newline, ⟨1, 14⟩⟩,
        ⟨.keyword .emitKw, ⟨2, 0⟩⟩, ⟨.ident (Text.ofString "x"), ⟨2, 5⟩⟩, ⟨.newline, ⟨2, 6⟩⟩,
        ⟨.keyword .endKw, ⟨3, 0⟩⟩, ⟨.eof, ⟨3, 3⟩⟩] := rfl
  exact ⟨by decide +kernel, same_outline_same_program cut cut' (by decide)⟩

end Loom
