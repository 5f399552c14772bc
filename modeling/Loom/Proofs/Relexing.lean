import Loom.Proofs.Layout

/-!
Tokens written apart. The texts of the tokens of a source, with single spaces between them,
are cut into the same tokens again: what a token is was decided by its own units, and by those
behind it only so far as none of them goes on with it, which a space never does.
-/

namespace Loom

/-- The texts of tokens with single spaces between them. The end has none. -/
def spaced (tokens : List Token) : Text :=
  Text.join [0x20] ((tokens.filter fun t => t.lexeme != .eof).map fun t => t.lexeme.text)

/-- What a token is, without the places of its code. -/
def Token.bare (t : Token) : Lexeme := t.lexeme.relocated fun _ => .origin

/-- Every place looks like every other one. -/
def Views.blind : Views where
  left := fun _ => .origin
  right := fun _ => .origin
  along := fun _ _ => rfl

namespace Lexer

/-- A text that begins with a space, or the end of the text. -/
def Apart (rest : Text) : Prop := rest = [] ∨ ∃ tail, rest = 0x20 :: tail

variable {rest : Text}

theorem Apart.not_opens (apart : Apart rest) {kind : UInt16 → Bool} (other : kind 0x20 = false) :
    ¬ rest.Opens kind := by
  rintro ⟨u, tail, rfl, opens⟩
  rcases apart with none | ⟨_, space⟩
  · cases none
  · cases space
    rw [other] at opens
    cases opens

theorem takeWhile_front {kind : UInt16 → Bool} {t : Text} (all : ∀ u ∈ t, kind u = true)
    (stop : ¬ rest.Opens kind) : (t ++ rest).takeWhile kind = t := by
  rw [List.takeWhile_append_of_pos all]
  cases rest with
  | nil => simp
  | cons u tail =>
      have other : ¬ kind u = true := fun holds => stop ⟨u, tail, rfl, holds⟩
      simp [other]

theorem spanDigits_append {t : Text} (digits : ∀ u ∈ t, Decimal.isDigit u = true)
    (stop : ¬ rest.Opens Decimal.isDigit) : Decimal.spanDigits (t ++ rest) = (t, rest) := by
  have front := takeWhile_front digits stop
  have whole := List.takeWhile_append_dropWhile (p := Decimal.isDigit) (l := t ++ rest)
  rw [front] at whole
  rw [Decimal.spanDigits, front, List.append_cancel_left whole]

theorem numberText_apart {t : Text} (number : IsNumber t) (apart : Apart rest) :
    numberText (t ++ rest) = t := by
  have stop : ¬ rest.Opens Decimal.isDigit := apart.not_opens rfl
  obtain ⟨whole, -, digits, rfl | ⟨fraction, filled, more, rfl⟩⟩ := number
  · rw [numberText, spanDigits_append digits stop]
    rcases apart with rfl | ⟨_ | ⟨u, tail⟩, rfl⟩
    · rfl
    · rfl
    · exact if_neg fun point => absurd point.1 (by decide)
  · obtain ⟨d, tail, rfl⟩ := List.exists_cons_of_ne_nil filled
    have point : ¬ Text.Opens Decimal.isDigit (0x2E :: (d :: tail ++ rest)) := by
      rintro ⟨u, behind, same, digit⟩
      obtain ⟨rfl, -⟩ := List.cons.inj same
      cases digit
    rw [List.append_assoc, List.cons_append, numberText, spanDigits_append digits point]
    show (if _ then whole ++ 0x2E :: (d :: tail ++ rest).takeWhile Decimal.isDigit else whole) = _
    rw [if_pos ⟨rfl, more d (.head _)⟩, takeWhile_front more stop]

theorem wordText_apart {t : Text} (word : IsWord t) (apart : Apart rest) :
    wordText (t ++ rest) = t := by
  obtain ⟨u, tail, rfl, start, parts⟩ := word
  refine takeWhile_front ?_ (apart.not_opens rfl)
  exact List.forall_mem_cons.mpr ⟨by simp [isIdentPart, start], parts⟩

theorem inFront?_apart (s : Symbol) (apart : Apart rest) :
    Symbol.inFront? (s.text ++ rest) = some s := by
  rcases apart with rfl | ⟨tail, rfl⟩
  · rw [List.append_nil, inFront?_text]
  · cases s <;> rfl

theorem token_split {u : UInt16} {t : Text} {loc : Location} {lexeme : Lexeme} {n : Nat}
    (found : piece u (u :: t) loc = .ok (some lexeme, n)) :
    ∃ tail behind, lexeme.text = u :: tail ∧ t = tail ++ behind ∧ lexeme.text.length = n ∧
      lexeme.Fits behind := by
  obtain ⟨p, behind, split, size, filled, fits, token, -, -⟩ := piece_split found
  obtain rfl := Piece.eq_token token
  obtain ⟨v, tail, text⟩ := List.exists_cons_of_ne_nil filled
  rw [text] at split
  obtain ⟨rfl, rest⟩ := List.cons.inj split
  exact ⟨tail, behind, text, rest, size, fits⟩

/-- A piece in front of a space is read again as it was read in its text. -/
theorem piece_apart {u : UInt16} {t : Text} {loc : Location} {lexeme : Lexeme} {n : Nat}
    (found : piece u (u :: t) loc = .ok (some lexeme, n)) (apart : Apart rest) (place : Location) :
    ∃ again, piece u (lexeme.text ++ rest) place = .ok (some again, n) ∧
      Token.bare ⟨again, place⟩ = Token.bare ⟨lexeme, loc⟩ := by
  obtain ⟨tail, behind, text, split, size, fits⟩ := token_split found
  -- the first unit is the same, and so is the branch
  unfold piece at found ⊢
  split at found
  · cases found
  rename_i solid
  rw [if_neg solid]
  split at found
  · rename_i line
    cases found
    rw [if_pos line]
    exact ⟨_, rfl, rfl⟩
  rename_i line
  rw [if_neg line]
  split at found
  · cases found
  rename_i comment
  rw [if_neg comment]
  split at found
  · rename_i digit
    cases found
    rw [if_pos digit]
    have same : numberText ((Lexeme.number (numberText (u :: t))).text ++ rest) =
        numberText (u :: t) := numberText_apart fits.1 apart
    rw [same]
    exact ⟨_, rfl, rfl⟩
  rename_i digit
  rw [if_neg digit]
  split at found
  · rename_i start
    cases found
    have same := wordText_apart (isWord_wordText (t := t) start) apart
    rw [if_pos start, text_wordLexeme, same]
    exact ⟨_, rfl, rfl⟩
  rename_i start
  rw [if_neg start]
  split at found
  · rename_i quote
    obtain rfl := eq_of_isQuote quote
    obtain ⟨⟨lexeme', n'⟩, read, is⟩ := ok_of_bind found
    cases is
    -- a literal ends with its own quote and is the same whatever stands behind it
    have front : (0x22 :: (tail ++ rest)).take n = (0x22 :: t).take n := by
      rw [split, ← size, text]
      simp
    have again := stringLexeme_front_eq read front
    have same : Views.blind.left loc = Views.blind.right place := rfl
    have both := both_stringLexeme (0x22 :: (tail ++ rest)) same
    rw [again] at both
    rw [if_pos quote, text, List.cons_append]
    cases there : stringLexeme (0x22 :: (tail ++ rest)) place with
    | error d =>
        rw [there] at both
        exact both.elim
    | ok r =>
        rw [there] at both
        obtain ⟨alike, same⟩ := both
        obtain rfl : r.2 = n := same
        exact ⟨r.1, rfl, alike.symm⟩
  · rename_i quote
    split at found
    · rename_i s _
      cases found
      have same := inFront?_apart s apart
      rw [if_neg quote, Lexeme.text, same]
      exact ⟨_, rfl, rfl⟩
    · cases found

theorem scan_space (t : Text) (loc : Location) :
    scan 0 (0x20 :: t) loc = scan 0 t (loc.right 1) := by
  show (scan 0 t (loc.right 1) >>= fun tokens => pure tokens) = _
  exact bind_pure _

/-- What stands behind the first of some texts that are joined by spaces. -/
theorem join_cons (t : Text) (rest : List Text) :
    ∃ behind, Text.join [0x20] (t :: rest) = t ++ behind ∧ Apart behind ∧
      ∀ loc, ∃ place, scan 0 behind loc = scan 0 (Text.join [0x20] rest) place := by
  cases rest with
  | nil => exact ⟨[], (List.append_nil t).symm, .inl rfl, fun loc => ⟨loc, rfl⟩⟩
  | cons t' rest =>
      refine ⟨0x20 :: Text.join [0x20] (t' :: rest), ?_, .inr ⟨_, rfl⟩, ?_⟩
      · rw [Text.join, List.append_assoc]
        · rfl
        · exact nofun
      · exact fun loc => ⟨loc.right 1, scan_space _ loc⟩

/-- Lexemes that are joined by spaces are read again one after the other. -/
theorem scan_join {source : Text} {init : List Token} (held : ∀ t ∈ init, Holds source t)
    (loc : Location) :
    ∃ tokens, scan 0 (Text.join [0x20] (init.map (·.lexeme.text))) loc = .ok tokens ∧
      tokens.map Token.bare = init.map Token.bare ++ [.eof] := by
  induction init generalizing loc with
  | nil => exact ⟨[⟨.eof, loc⟩], rfl, rfl⟩
  | cons t rest ih =>
      obtain ⟨here, later⟩ := List.forall_mem_cons.mp held
      obtain ⟨u, after, n, -, found⟩ := here
      obtain ⟨tail, -, text, -, -, -⟩ := token_split found
      obtain ⟨behind, split, apart, further⟩ := join_cons t.lexeme.text (rest.map (·.lexeme.text))
      obtain ⟨again, read, alike⟩ := piece_apart found apart loc
      have same : t.lexeme.text = again.text := by
        rw [← Lexeme.text_relocated (f := fun _ => .origin) again, ← Lexeme.text_relocated t.lexeme]
        exact congrArg Lexeme.text alike.symm
      obtain ⟨place, goes⟩ := further (Piece.past loc (.token ⟨again, loc⟩))
      obtain ⟨others, cut, rest⟩ := ih later place
      refine ⟨⟨again, loc⟩ :: others, ?_, ?_⟩
      · have front : u :: (tail ++ behind) = again.text ++ behind := by
          rw [← same, text]
          rfl
        rw [text, List.cons_append] at split read
        rw [List.map_cons, text, split, scan_lexeme read front, goes, cut]
        rfl
      · rw [List.map_cons, List.map_cons, rest, alike]
        rfl

end Lexer

theorem Lexeme.kind_relocated {f : Location → Location} (lexeme : Lexeme) :
    (lexeme.relocated f).kind = lexeme.kind := by
  cases lexeme <;> rfl

theorem Token.key_eq (t : Token) : t.key = (t.bare.kind, t.bare.text) := by
  rw [Token.bare, Lexeme.kind_relocated, Lexeme.text_relocated]
  rfl

/-- The tokens of a text, written with single spaces between them, are cut into the same
tokens again: as many, of the same kinds, with the same texts and, up to their places, the
same parts. -/
theorem tokenize_spaced {source : Text} {start : Location} {tokens : List Token}
    (cut : tokenize source start = .ok tokens) (start' : Location) :
    ∃ tokens', tokenize (spaced tokens) start' = .ok tokens' ∧
      tokens'.map Token.key = tokens.map Token.key ∧
      tokens'.map Token.bare = tokens.map Token.bare := by
  obtain ⟨init, stop, rfl, held⟩ := Lexer.scan_eq 0 source start tokens cut
  have texts : spaced (init ++ [⟨.eof, stop⟩]) = Text.join [0x20] (init.map (·.lexeme.text)) := by
    have solid : init.filter (fun t => t.lexeme != .eof) = init :=
      List.filter_eq_self.mpr fun t among => by simpa using Lexer.held_ne_eof (held t among)
    rw [spaced, List.filter_append, solid]
    simp
  obtain ⟨tokens', again, same⟩ := Lexer.scan_join held start'
  have alike : tokens'.map Token.bare = (init ++ [Token.mk .eof stop]).map Token.bare := by
    rw [same, List.map_append]
    rfl
  refine ⟨tokens', by rw [texts]; exact again, ?_, alike⟩
  have keys (tokens : List Token) : tokens.map Token.key =
      (tokens.map Token.bare).map fun lexeme => (lexeme.kind, lexeme.text) := by
    rw [List.map_map]
    exact List.map_congr_left fun t _ => t.key_eq
  rw [keys, keys, alike]

/-- A minus right in front of a number, and a string with a string in its code. -/
theorem tokenize_spaced_nested :
    let source := Text.ofString "a-1\"$\x7b\"c\"\x7d\""
    ∃ tokens, tokenize source .origin = .ok tokens ∧
      spaced tokens = Text.ofString "a - 1 \"$\x7b\"c\"\x7d\"" ∧
      ∃ tokens', tokenize (spaced tokens) .origin = .ok tokens' ∧
        tokens'.map Token.key = tokens.map Token.key ∧
        tokens'.map Token.bare = tokens.map Token.bare := by
  intro source
  have cut : tokenize source .origin =
      .ok [⟨.ident (Text.ofString "a"), ⟨1, 0⟩⟩, ⟨.symbol .minus, ⟨1, 1⟩⟩,
        ⟨.number (Text.ofString "1"), ⟨1, 2⟩⟩,
        ⟨.string (Text.ofString "\"$\x7b\"c\"\x7d\"") [.code (Text.ofString "\"c\"") ⟨1, 6⟩],
          ⟨1, 3⟩⟩,
        ⟨.eof, ⟨1, 11⟩⟩] := ok_of_toOption (by decide +kernel)
  exact ⟨_, cut, by decide +kernel, tokenize_spaced cut .origin⟩

end Loom
