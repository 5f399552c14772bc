import Mathlib.Data.List.TakeWhile
import Loom.Proofs.Literal

/-!
What a text is made of. The lexer cuts a text into pieces of which none is left
out: tokens, and the blanks and comments between them. Each piece fits what stands
behind it, which is to say that it could not have been longer.
-/

namespace Loom

/-- A text that goes on with a unit of some kind. -/
def Text.Opens (kind : UInt16 → Bool) (t : Text) : Prop := ∃ u tail, t = u :: tail ∧ kind u = true

theorem Text.not_opens_dropWhile (kind : UInt16 → Bool) (t : Text) :
    ¬ Text.Opens kind (t.dropWhile kind) := by
  rintro ⟨u, tail, same, holds⟩
  have stop := List.head?_dropWhile_not kind t
  simp [same, holds] at stop

/-- Digits, and behind a point perhaps more of them. -/
def Lexer.IsNumber (t : Text) : Prop :=
  ∃ whole, whole ≠ [] ∧ (∀ u ∈ whole, Decimal.isDigit u = true) ∧
    (t = whole ∨ ∃ fraction, fraction ≠ [] ∧ (∀ u ∈ fraction, Decimal.isDigit u = true) ∧
      t = whole ++ 0x2E :: fraction)

theorem Lexer.IsNumber.ne_nil {t : Text} (number : Lexer.IsNumber t) : t ≠ [] := by
  obtain ⟨whole, filled, _, rfl | ⟨fraction, _, _, rfl⟩⟩ := number <;> simp [filled]

theorem Lexer.IsNumber.line_not_mem {t : Text} (number : Lexer.IsNumber t) : 0x0A ∉ t := by
  have other : Decimal.isDigit 0x0A ≠ true := by decide
  obtain ⟨whole, _, digits, rfl | ⟨fraction, _, more, rfl⟩⟩ := number
  · exact fun line => other (digits _ line)
  · intro line
    rcases List.mem_append.mp line with line | line
    · exact other (digits _ line)
    · rcases List.mem_cons.mp line with same | line
      · cases same
      · exact other (more _ line)

/-- A letter or an underscore, and behind it letters, underscores and digits. -/
def Lexer.IsWord (t : Text) : Prop :=
  ∃ u tail, t = u :: tail ∧ Lexer.isIdentStart u = true ∧
    ∀ v ∈ tail, Lexer.isIdentPart v = true

theorem Lexer.IsWord.ne_nil {t : Text} (word : Lexer.IsWord t) : t ≠ [] := by
  obtain ⟨u, tail, rfl, _⟩ := word
  simp

theorem Lexer.IsWord.line_not_mem {t : Text} (word : Lexer.IsWord t) : 0x0A ∉ t := by
  obtain ⟨u, tail, rfl, start, parts⟩ := word
  intro line
  rcases List.mem_cons.mp line with rfl | line
  · exact absurd start (by decide)
  · exact absurd (parts _ line) (by decide)

/-- Units from a quote to a quote, among which a line end stands only behind a
backslash. -/
def Lexer.IsQuoted (t : Text) : Prop :=
  (∃ inside, t = 0x22 :: inside ++ [0x22]) ∧ t.LinesEscaped

/-- A lexeme as it is written, and why it ends where the rest of the text begins. -/
def Lexeme.Fits (rest : Text) : Lexeme → Prop
  | .number digits =>
      Lexer.IsNumber digits ∧ ¬ rest.Opens Decimal.isDigit ∧
        (0x2E ∈ digits ∨ ¬ ∃ u tail, rest = 0x2E :: u :: tail ∧ Decimal.isDigit u = true)
  | .ident name =>
      Lexer.IsWord name ∧ ¬ rest.Opens Lexer.isIdentPart ∧ name ∉ Keyword.all.map Keyword.text
  | .keyword word =>
      Lexer.IsWord word.text ∧ ¬ rest.Opens Lexer.isIdentPart ∧
        word.text ∈ Keyword.all.map Keyword.text
  | .symbol s =>
      s.text.length = 1 → ∀ pair : Symbol, pair.text.length = 2 → ¬ pair.text <+: s.text ++ rest
  | .string written _ => Lexer.IsQuoted written
  | .newline => True
  | .eof => False

namespace Lexer

/-- A piece of a text. -/
inductive Piece where
  | blank (u : UInt16)
  | comment (written : Text)
  | token (t : Token)
  deriving DecidableEq, Repr

namespace Piece

def text : Piece → Text
  | blank u => [u]
  | comment written => written
  | token t => t.lexeme.text

def token? : Piece → Option Token
  | token t => some t
  | _ => none

theorem eq_token {p : Piece} {t : Token} (is : p.token? = some t) : p = token t := by
  cases p with
  | token _ => exact congrArg token (Option.some.inj is)
  | blank | comment => cases is

/-- A piece as it is written, and why it ends where the rest of the text begins. -/
def Fits (rest : Text) : Piece → Prop
  | blank u => u = 0x20 ∨ u = 0x09 ∨ u = 0x0D
  | comment written =>
      written.head? = some 0x23 ∧ 0x0A ∉ written ∧ (rest = [] ∨ rest.head? = some 0x0A)
  | token t => t.lexeme.Fits rest

/-- The place behind a piece. Only a line end is taken to begin a line. -/
def past (loc : Location) : Piece → Location
  | token ⟨.newline, _⟩ => loc.nextLine
  | p => loc.right p.text.length

theorem past_of_ne (loc : Location) {t : Token} (other : t.lexeme ≠ .newline) :
    past loc (token t) = loc.right t.lexeme.text.length := by
  obtain ⟨lexeme, place⟩ := t
  cases lexeme <;> first | rfl | exact absurd rfl other

end Piece

/-- The text that pieces make up. -/
def written (pieces : List Piece) : Text := pieces.flatMap Piece.text

def tokensOf (pieces : List Piece) : List Token := pieces.filterMap Piece.token?

/-- How much text there is in tokens. -/
def lengthOf : List Token → Nat
  | [] => 0
  | t :: rest => t.lexeme.text.length + lengthOf rest

/-- The place that is reached behind some pieces. -/
def reach (loc : Location) (pieces : List Piece) : Location := pieces.foldl Piece.past loc

/-- A string token is spelled by segments that begin behind its opening quote. -/
def Spells (t : Token) : Prop :=
  ∀ text parts, t.lexeme = .string text parts →
    ∃ segments behind, text = 0x22 :: spelled segments ++ [0x22] ∧
      parts = (if (partsOf segments).isEmpty then [.text []] else partsOf segments) ∧
      Spelled (0x22 :: behind) (t.loc.right 1) segments

/-- Pieces that begin at a place, each fitting what follows and each token at the
place that is reached in front of it. -/
def Laid (rest : Text) : Location → List Piece → Prop
  | _, [] => True
  | loc, p :: pieces =>
      p.Fits (written pieces ++ rest) ∧ (∀ t, p.token? = some t → t.loc = loc ∧ Spells t) ∧
        Laid rest (p.past loc) pieces

@[simp] theorem written_nil : written [] = [] := rfl

@[simp] theorem written_cons (p : Piece) (pieces : List Piece) :
    written (p :: pieces) = p.text ++ written pieces := rfl

@[simp] theorem written_append (before after : List Piece) :
    written (before ++ after) = written before ++ written after := by
  simp [written]

theorem lengthOf_append (before after : List Token) :
    lengthOf (before ++ after) = lengthOf before + lengthOf after := by
  induction before with
  | nil => exact (Nat.zero_add _).symm
  | cons t before ih => rw [List.cons_append, lengthOf, lengthOf, ih, Nat.add_assoc]

theorem length_le_lengthOf {tokens : List Token} {t : Token} (among : t ∈ tokens) :
    t.lexeme.text.length ≤ lengthOf tokens := by
  obtain ⟨before, after, rfl⟩ := List.append_of_mem among
  rw [lengthOf_append, lengthOf]
  omega

theorem lengthOf_tokensOf (pieces : List Piece) :
    lengthOf (tokensOf pieces) ≤ (written pieces).length := by
  induction pieces with
  | nil => exact Nat.le_refl 0
  | cons p pieces ih =>
      rw [written_cons, List.length_append]
      cases p with
      | blank | comment => exact ih.trans (Nat.le_add_left _ _)
      | token t => exact Nat.add_le_add_left ih _

/-- The segments that a token with code in it is spelled by. -/
theorem Spells.segments {t : Token} {text : Text} {parts : List StringPart}
    {code : Text} {loc : Location} (spells : Spells t) (is : t.lexeme = .string text parts)
    (part : .code code loc ∈ parts) :
    ∃ segments behind, text = 0x22 :: spelled segments ++ [0x22] ∧ parts = partsOf segments ∧
      Spelled (0x22 :: behind) (t.loc.right 1) segments := by
  obtain ⟨segments, behind, text_eq, parts_eq, row⟩ := spells text parts is
  refine ⟨segments, behind, text_eq, ?_, row⟩
  split at parts_eq
  · subst parts_eq
    cases List.mem_singleton.mp part
  · exact parts_eq

/-- Code in a literal stands further on in the line of its first unit. -/
theorem Spells.code_right {t : Token} {text : Text} {parts : List StringPart} {code : Text}
    {loc : Location} (spells : Spells t) (is : t.lexeme = .string text parts)
    (part : .code code loc ∈ parts) : ∃ units, loc = t.loc.right units := by
  obtain ⟨segments, behind, -, rfl, row⟩ := spells.segments is part
  obtain ⟨before, after, rfl⟩ := List.append_of_mem (code_mem_of_partsOf part)
  have begins : loc = _ := row.at_segment.2
  rw [Location.right_right, Location.right_right] at begins
  exact ⟨_, begins⟩

/-- One piece among others: it fits what is behind it, at the place reached in front. -/
theorem Laid.at_piece {rest : Text} {loc : Location} {before after : List Piece} {p : Piece}
    (laid : Laid rest loc (before ++ p :: after)) :
    p.Fits (written after ++ rest) ∧
      ∀ t, p.token? = some t → t.loc = reach loc before ∧ Spells t := by
  induction before generalizing loc with
  | nil => exact ⟨laid.1, laid.2.1⟩
  | cons first before ih => exact ih laid.2.2

/-- A token of a text stands in it as it is written. -/
theorem piece_of_token {rest : Text} {loc : Location} {pieces : List Piece} {t : Token}
    (laid : Laid rest loc pieces) (among : t ∈ tokensOf pieces) :
    ∃ after, t.lexeme.Fits after ∧ Spells t ∧ t.lexeme.text ⊆ written pieces := by
  obtain ⟨p, there, token⟩ := List.mem_filterMap.mp among
  obtain rfl := Piece.eq_token token
  obtain ⟨before, after, rfl⟩ := List.append_of_mem there
  obtain ⟨fits, places⟩ := laid.at_piece
  exact ⟨_, fits, (places t rfl).2, fun u inside => by simp [Piece.text, inside]⟩

/-! What stands in front of a text, one kind of piece after the other. -/

theorem numberText_split (t : Text) :
    ∃ rest, t = numberText t ++ rest ∧ ¬ rest.Opens Decimal.isDigit ∧
      (0x2E ∈ numberText t ∨
        ¬ ∃ u tail, rest = 0x2E :: u :: tail ∧ Decimal.isDigit u = true) := by
  have whole := List.takeWhile_append_dropWhile (p := Decimal.isDigit) (l := t)
  have stop := Text.not_opens_dropWhile Decimal.isDigit t
  unfold numberText Decimal.spanDigits
  simp only
  split
  · rename_i point d tail behind
    rw [behind] at whole stop
    split
    · rename_i fraction
      refine ⟨(d :: tail).dropWhile Decimal.isDigit, ?_, ?_, ?_⟩
      · rw [List.append_assoc, List.cons_append, List.takeWhile_append_dropWhile, whole]
      · exact Text.not_opens_dropWhile Decimal.isDigit (d :: tail)
      · exact .inl (by simp [fraction.1])
    · rename_i whole_only
      refine ⟨point :: d :: tail, whole.symm, stop, .inr ?_⟩
      rintro ⟨u, tail', same, digit⟩
      cases same
      exact whole_only ⟨rfl, digit⟩
  · rename_i short
    refine ⟨t.dropWhile Decimal.isDigit, whole.symm, stop, .inr ?_⟩
    rintro ⟨u, tail, same, _⟩
    exact short _ _ _ same

theorem isNumber_numberText {u : UInt16} {t : Text} (digit : Decimal.isDigit u = true) :
    IsNumber (numberText (u :: t)) := by
  refine ⟨(u :: t).takeWhile Decimal.isDigit, by simp [digit], ?_, ?_⟩
  · exact fun v h => List.mem_takeWhile_imp h
  · unfold numberText Decimal.spanDigits
    simp only
    split
    · rename_i point d tail _
      split
      · rename_i fraction
        refine .inr ⟨(d :: tail).takeWhile Decimal.isDigit, by simp [fraction.2],
          fun v h => List.mem_takeWhile_imp h, by rw [fraction.1]⟩
      · exact .inl rfl
    · exact .inl rfl

theorem isWord_wordText {u : UInt16} {t : Text} (start : isIdentStart u = true) :
    IsWord (wordText (u :: t)) := by
  have part : isIdentPart u = true := by simp [isIdentPart, start]
  exact ⟨u, t.takeWhile isIdentPart, by simp [wordText, part], start,
    fun v h => List.mem_takeWhile_imp h⟩

theorem wordText_split (t : Text) :
    ∃ rest, t = wordText t ++ rest ∧ ¬ rest.Opens isIdentPart :=
  ⟨t.dropWhile isIdentPart, (List.takeWhile_append_dropWhile).symm,
    Text.not_opens_dropWhile isIdentPart t⟩

theorem fits_wordLexeme {u : UInt16} {t rest : Text} (start : isIdentStart u = true)
    (stop : ¬ rest.Opens isIdentPart) : (wordLexeme (wordText (u :: t))).Fits rest := by
  have word := isWord_wordText (t := t) start
  rcases wordLexeme_cases (wordText (u :: t)) with ⟨keyword, is, known⟩ | ⟨is, unknown⟩
  · rw [is]
    have same : keyword.text = wordText (u :: t) := by
      simpa using List.find?_some known
    rw [← same] at word
    exact ⟨word, stop, List.mem_map_of_mem (List.mem_of_find?_eq_some (same ▸ known))⟩
  · rw [is]
    refine ⟨word, stop, ?_⟩
    intro known
    obtain ⟨keyword, there, same⟩ := List.mem_map.mp known
    have other := List.find?_eq_none.mp unknown keyword there
    simp [same] at other

theorem text_wordLexeme (word : Text) : (wordLexeme word).text = word := by
  rcases wordLexeme_cases word with ⟨keyword, is, known⟩ | ⟨is, unknown⟩
  · have same : keyword.text = word := by simpa using List.find?_some known
    rw [is]
    exact same
  · rw [is]
    rfl

theorem mem_pairs {s : Symbol} (two : s.text.length = 2) : s ∈ Symbol.pairs := by
  revert two
  cases s <;> decide

theorem length_of_mem_pairs {s : Symbol} (pair : s ∈ Symbol.pairs) : s.text.length = 2 := by
  revert pair
  cases s <;> decide

/-- The symbol in front of a text is the longest one. -/
theorem inFront?_split {t : Text} {s : Symbol} (found : Symbol.inFront? t = some s) :
    ∃ rest, t = s.text ++ rest ∧ s.text ≠ [] ∧ (Lexeme.symbol s).Fits rest := by
  unfold Symbol.inFront? at found
  have nonempty : s.text ≠ [] := by cases s <;> decide
  split at found
  · rename_i pair double
    cases found
    have text : s.text = t.take 2 := by simpa using List.find?_some double
    have two := length_of_mem_pairs (List.mem_of_find?_eq_some double)
    refine ⟨t.drop 2, by rw [text, List.take_append_drop], nonempty, ?_⟩
    intro one
    omega
  · rename_i single
    have text : s.text = t.take 1 := by simpa using List.find?_some found
    refine ⟨t.drop 1, by rw [text, List.take_append_drop], nonempty, ?_⟩
    intro one pair two ahead
    have other := List.find?_eq_none.mp single pair (mem_pairs two)
    rw [text, List.take_append_drop] at ahead
    have same := List.prefix_iff_eq_take.mp ahead
    rw [two] at same
    simp [same] at other

theorem commentText_split (t : Text) :
    ∃ rest, t = commentText t ++ rest ∧ 0x0A ∉ commentText t ∧
      (rest = [] ∨ rest.head? = some 0x0A) := by
  refine ⟨t.dropWhile (fun u => !isLineEnd u), (List.takeWhile_append_dropWhile).symm, ?_, ?_⟩
  · intro line
    have other := List.mem_takeWhile_imp line
    simp [isLineEnd] at other
  · have stop := List.head?_dropWhile_not (fun u => !isLineEnd u) t
    cases behind : t.dropWhile (fun u => !isLineEnd u) with
    | nil => exact .inl rfl
    | cons u rest =>
        rw [behind] at stop
        exact .inr (by simpa [isLineEnd] using stop)

/-- A literal is its segments between two quotes, and its parts are what they stand for. -/
theorem stringLexeme_split {t : Text} {loc : Location} {lexeme : Lexeme} {n : Nat}
    (found : stringLexeme (0x22 :: t) loc = .ok (lexeme, n)) :
    ∃ rest, 0x22 :: t = lexeme.text ++ rest ∧ lexeme.text.length = n ∧ lexeme.Fits rest ∧
      lexeme.text ≠ [] ∧ Spells ⟨lexeme, loc⟩ := by
  obtain ⟨r, read, found⟩ := ok_of_bind found
  cases found
  rw [List.drop_one, List.tail_cons] at read
  obtain ⟨segments, rest, rfl, row, ends⟩ := stringParts_spelled loc (loc.right 1) t
  rw [read] at ends
  obtain ⟨quote, rfl⟩ := ends
  obtain ⟨behind, rfl⟩ := List.head?_eq_some_iff.mp quote
  have text : (0x22 :: (spelled segments ++ 0x22 :: behind)).take
      ((spelled segments).length + 1 + 1) = 0x22 :: spelled segments ++ [0x22] := by
    simp [List.take_append, List.take_of_length_le]
  refine ⟨behind, ?_, ?_, ?_, ?_, ?_⟩
  · simp [Lexeme.text, text]
  · simp [Lexeme.text, text]
  · have inside := escaped_spelled row
    refine ⟨⟨spelled segments, text⟩, ?_⟩
    rw [text]
    exact (inside.append (Text.LinesEscaped.nil.cons (by decide))).cons (by decide)
  · simp [Lexeme.text]
  · intro written parts same
    cases same
    exact ⟨segments, behind, text, rfl, row⟩

/-- The piece that a unit begins fits what stands behind it. -/
theorem piece_split {u : UInt16} {t : Text} {loc : Location} {lexeme? : Option Lexeme} {n : Nat}
    (found : piece u (u :: t) loc = .ok (lexeme?, n)) :
    ∃ p rest, u :: t = Piece.text p ++ rest ∧ p.text.length = n ∧ p.text ≠ [] ∧ p.Fits rest ∧
      p.token? = lexeme?.map (⟨·, loc⟩) ∧ (∀ t, p.token? = some t → Spells t) ∧
      p.past loc = if isLineEnd u then loc.nextLine else loc.right n := by
  -- the branches of `piece`, in its order
  unfold piece at found
  split at found
  · rename_i blank
    cases found
    have kind : u = 0x20 ∨ u = 0x09 ∨ u = 0x0D := by simpa [isBlank, or_assoc] using blank
    refine ⟨.blank u, t, rfl, rfl, by simp [Piece.text], kind, rfl, by simp [Piece.token?], ?_⟩
    rcases kind with rfl | rfl | rfl <;> rfl
  split at found
  · rename_i line
    cases found
    have same : u = 0x0A := by simpa [isLineEnd] using line
    subst same
    exact ⟨.token ⟨.newline, loc⟩, t, rfl, rfl, by simp [Piece.text, Lexeme.text], trivial, rfl,
      by rintro _ ⟨⟩ _ _ ⟨⟩, rfl⟩
  rename_i line
  rw [if_neg line]
  split at found
  · rename_i comment
    cases found
    subst comment
    obtain ⟨rest, split, inside, stop⟩ := commentText_split (0x23 :: t)
    have first : (commentText (0x23 :: t)).head? = some 0x23 := rfl
    refine ⟨.comment (commentText (0x23 :: t)), rest, split, rfl, ?_, ⟨first, inside, stop⟩, rfl,
      by simp [Piece.token?], rfl⟩
    show commentText (0x23 :: t) ≠ []
    intro empty
    rw [empty] at first
    cases first
  split at found
  · rename_i digit
    cases found
    obtain ⟨rest, split, stop, full⟩ := numberText_split (u :: t)
    have number := isNumber_numberText (t := t) digit
    exact ⟨.token ⟨.number (numberText (u :: t)), loc⟩, rest, split, rfl, number.ne_nil,
      ⟨number, stop, full⟩, rfl, by rintro _ ⟨⟩ _ _ ⟨⟩, rfl⟩
  split at found
  · rename_i start
    cases found
    obtain ⟨rest, split, stop⟩ := wordText_split (u :: t)
    have text := text_wordLexeme (wordText (u :: t))
    refine ⟨.token ⟨wordLexeme (wordText (u :: t)), loc⟩, rest, by rw [Piece.text, text, ← split],
      by rw [Piece.text, text], ?_, fits_wordLexeme start stop, rfl, ?_, ?_⟩
    · rw [Piece.text, text]
      exact (isWord_wordText start).ne_nil
    · rintro _ ⟨⟩ written parts is
      rcases wordLexeme_cases (wordText (u :: t)) with ⟨k, h, _⟩ | ⟨h, _⟩ <;> simp [h] at is
    · rw [Piece.past_of_ne, text]
      rcases wordLexeme_cases (wordText (u :: t)) with ⟨k, h, _⟩ | ⟨h, _⟩ <;> simp [h]
  split at found
  · rename_i quote
    obtain rfl := eq_of_isQuote quote
    obtain ⟨r, text, found⟩ := ok_of_bind found
    cases found
    obtain ⟨rest, split, length, fits, filled, spells⟩ := stringLexeme_split text
    obtain ⟨parts, _, _, is⟩ := stringLexeme_eq text
    refine ⟨.token ⟨r.1, loc⟩, rest, split, length, filled, fits, rfl, ?_, ?_⟩
    · rintro _ ⟨⟩
      exact spells
    · rw [Piece.past_of_ne _ (by simp [is]), ← length]
  · split at found
    · rename_i s first
      cases found
      obtain ⟨rest, split, filled, fits⟩ := inFront?_split first
      exact ⟨.token ⟨.symbol s, loc⟩, rest, split, rfl, filled, fits, rfl,
        by rintro _ ⟨⟩ _ _ ⟨⟩, rfl⟩
    · cases found

/-! The lexer goes from piece to piece. -/

theorem scan_skip (front rest : Text) (loc : Location) :
    scan front.length (front ++ rest) loc = scan 0 rest (loc.right front.length) := by
  induction front generalizing loc with
  | nil => rfl
  | cons u front ih =>
      rw [List.length_cons, List.cons_append, scan, ih, Location.right_right, Nat.add_comm 1]

/-- Behind a piece the lexer goes on with the rest of the text. -/
theorem scan_front {u : UInt16} {t rest : Text} {loc : Location} {lexeme? : Option Lexeme}
    {p : Piece} (found : piece u (u :: t) loc = .ok (lexeme?, p.text.length))
    (split : u :: t = p.text ++ rest) (filled : p.text ≠ [])
    (token : p.token? = lexeme?.map (⟨·, loc⟩))
    (past : p.past loc = if isLineEnd u then loc.nextLine else loc.right p.text.length) :
    scan 0 (u :: t) loc = (p.token?.toList ++ ·) <$> scan 0 rest (p.past loc) := by
  obtain ⟨v, tail, text⟩ := List.exists_cons_of_ne_nil filled
  rw [text] at split past
  cases split
  have further : p.past loc =
      (if isLineEnd u then loc.nextLine else loc.right 1).right tail.length := by
    rw [past]
    by_cases line : isLineEnd u = true
    · obtain rfl : u = 0x0A := by simpa [isLineEnd] using line
      have one : p.text.length = 1 := (congrArg Prod.snd (Except.ok.inj found)).symm
      have short : tail.length = 0 := by simpa [text] using one
      rw [if_pos line, if_pos line, short, Location.right_zero]
    · rw [if_neg line, if_neg line, Location.right_right, List.length_cons, Nat.add_comm 1]
  rw [scan, found, token, further, ← scan_skip tail rest, text]
  show (scan tail.length _ _ >>= _) = _
  cases scan tail.length (tail ++ rest) (if isLineEnd u then loc.nextLine else loc.right 1) with
  | error d => rfl
  | ok tokens => cases lexeme? <;> rfl

theorem scan_piece {u : UInt16} {t : Text} {loc : Location} {lexeme? : Option Lexeme} {n : Nat}
    (found : piece u (u :: t) loc = .ok (lexeme?, n)) :
    ∃ p rest, u :: t = Piece.text p ++ rest ∧ p.text ≠ [] ∧ p.Fits rest ∧
      (∀ t, p.token? = some t → t.loc = loc ∧ Spells t) ∧
      scan 0 (u :: t) loc = (p.token?.toList ++ ·) <$> scan 0 rest (p.past loc) := by
  obtain ⟨p, rest, split, rfl, filled, fits, token, spells, past⟩ := piece_split found
  refine ⟨p, rest, split, filled, fits, ?_, scan_front found split filled token past⟩
  intro t is
  refine ⟨?_, spells t is⟩
  rw [token] at is
  obtain ⟨lexeme, _, rfl⟩ := Option.map_eq_some_iff.mp is
  rfl

/-- A token that stands in front of a text is cut off it. -/
theorem scan_lexeme {u : UInt16} {t rest : Text} {loc : Location} {lexeme : Lexeme} {n : Nat}
    (found : piece u (u :: t) loc = .ok (some lexeme, n)) (split : u :: t = lexeme.text ++ rest) :
    scan 0 (u :: t) loc =
      (⟨lexeme, loc⟩ :: ·) <$> scan 0 rest (Piece.past loc (.token ⟨lexeme, loc⟩)) := by
  obtain ⟨p, rest', split', rfl, filled, _, token, _, past⟩ := piece_split found
  obtain rfl := Piece.eq_token token
  obtain rfl : rest' = rest := List.append_cancel_left (split'.symm.trans split)
  exact scan_front found split' filled token past

/-- How the lexer leaves a text: cut into pieces, or with a piece at fault behind some. -/
def Cut (loc : Location) (source : Text) : Except Diagnostic (List Token) → Prop
  | .ok tokens =>
      ∃ pieces, source = written pieces ∧ Laid [] loc pieces ∧
        tokens = tokensOf pieces ++ [⟨.eof, reach loc pieces⟩]
  | .error d =>
      ∃ pieces u t, source = written pieces ++ u :: t ∧ Laid (u :: t) loc pieces ∧
        piece u (u :: t) (reach loc pieces) = .error d

theorem scan_cut (source : Text) (loc : Location) : Cut loc source (scan 0 source loc) := by
  induction length : source.length using Nat.strongRecOn generalizing source loc with
  | ind _ ih =>
      subst length
      cases source with
      | nil => exact ⟨[], rfl, trivial, rfl⟩
      | cons u t =>
          cases found : piece u (u :: t) loc with
          | error d =>
              rw [scan, found]
              exact ⟨[], u, t, rfl, trivial, found⟩
          | ok r =>
              obtain ⟨p, rest, split, filled, fits, token, step⟩ := scan_piece found
              have shorter : rest.length < (u :: t).length := by
                have := List.length_pos_iff.mpr filled
                rw [split, List.length_append]
                omega
              have later := ih rest.length shorter rest (p.past loc) rfl
              rw [step, split]
              cases behind : scan 0 rest (p.past loc) with
              | ok tokens =>
                  rw [behind] at later
                  obtain ⟨pieces, rfl, laid, rfl⟩ := later
                  refine ⟨p :: pieces, rfl, ⟨by simpa using fits, token, laid⟩, ?_⟩
                  cases p <;> rfl
              | error d =>
                  rw [behind] at later
                  obtain ⟨pieces, v, more, rfl, laid, failed⟩ := later
                  exact ⟨p :: pieces, v, more, by simp, ⟨fits, token, laid⟩, failed⟩

section

variable {source : Text} {start : Location}

/-- A text that is cut into tokens consists of pieces, and the tokens are theirs. -/
theorem pieces_of_tokenize {tokens : List Token} (cut : tokenize source start = .ok tokens) :
    ∃ pieces, source = written pieces ∧ Laid [] start pieces ∧
      tokens = tokensOf pieces ++ [⟨.eof, reach start pieces⟩] := by
  have whole := scan_cut source start
  rw [show scan 0 source start = _ from cut] at whole
  exact whole

/-- A text that is not has a piece at fault behind some others. -/
theorem pieces_of_fault {d : Diagnostic} (failed : tokenize source start = .error d) :
    ∃ pieces u t, source = written pieces ++ u :: t ∧ Laid (u :: t) start pieces ∧
      piece u (u :: t) (reach start pieces) = .error d := by
  have whole := scan_cut source start
  rw [show scan 0 source start = _ from failed] at whole
  exact whole

/-- There is no less text in a source than in its tokens. -/
theorem lengthOf_of_tokenize {init : List Token} {stop : Location}
    (cut : tokenize source start = .ok (init ++ [⟨.eof, stop⟩])) :
    lengthOf init ≤ source.length := by
  obtain ⟨pieces, rfl, -, same⟩ := pieces_of_tokenize cut
  obtain ⟨rfl, -⟩ := List.append_inj' same rfl
  exact lengthOf_tokensOf pieces

end

end Lexer

open Lexer

theorem Lexeme.Fits.ne_eof {rest : Text} {lexeme : Lexeme} (fits : lexeme.Fits rest) :
    lexeme ≠ .eof := by
  rintro rfl
  exact fits

/-- A line end is a token of its own, or it stands in a string literal. -/
theorem Lexer.Piece.line_mem_iff {rest : Text} {p : Piece} (fits : p.Fits rest) :
    0x0A ∈ p.text ↔ (∃ place, p = .token ⟨.newline, place⟩) ∨
      ∃ text parts place, p = .token ⟨.string text parts, place⟩ ∧ 0x0A ∈ text := by
  cases p with
  | blank u =>
      have other : (0x0A : UInt16) ≠ u := by rcases fits with rfl | rfl | rfl <;> decide
      simp [text, other]
  | comment written => simp [text, fits.2.1]
  | token t =>
      obtain ⟨lexeme, place⟩ := t
      cases lexeme with
      | number digits => simp [text, Lexeme.text, fits.1.line_not_mem]
      | ident name => simp [text, Lexeme.text, fits.1.line_not_mem]
      | keyword word => simp [text, Lexeme.text, fits.1.line_not_mem]
      | symbol s =>
          have other : 0x0A ∉ s.text := by cases s <;> decide
          simp [text, Lexeme.text, other]
      | string written parts => simp [text, Lexeme.text]
      | newline => simp [text, Lexeme.text]
      | eof => simp [text, Lexeme.text]

/-- Nothing of a text is lost. A text that is cut into tokens consists of the tokens, in
their order, and of blanks and comments between them, and each piece ends where it has to:
a comment in front of a line end or of the end of the text, a number, a word or an operator
where it could not go on. Line ends are tokens of their own outside of string literals, and
the end of the text is the last token and no other. -/
theorem tokens_tile_text {source : Text} {start : Location} {tokens : List Token}
    (cut : tokenize source start = .ok tokens) :
    ∃ pieces last, source = written pieces ∧ tokens = tokensOf pieces ++ [last] ∧
      last.lexeme = .eof ∧ last.lexeme.text = [] ∧ (∀ t ∈ tokensOf pieces, t.lexeme ≠ .eof) ∧
      (∀ before p after, pieces = before ++ p :: after → p.Fits (written after)) ∧
      ∀ p ∈ pieces, 0x0A ∈ p.text ↔ (∃ place, p = .token ⟨.newline, place⟩) ∨
        ∃ text parts place, p = .token ⟨.string text parts, place⟩ ∧ 0x0A ∈ text := by
  have whole := scan_cut source start
  rw [show scan 0 source start = .ok tokens from cut] at whole
  obtain ⟨pieces, rfl, laid, rfl⟩ := whole
  have fits : ∀ before p after, pieces = before ++ p :: after → p.Fits (written after) := by
    rintro before p after rfl
    simpa using laid.at_piece.1
  have member : ∀ p ∈ pieces, ∃ rest, p.Fits rest := by
    intro p there
    obtain ⟨before, after, split⟩ := List.append_of_mem there
    exact ⟨written after, fits before p after split⟩
  refine ⟨pieces, ⟨.eof, reach start pieces⟩, rfl, rfl, rfl, rfl, ?_, fits, ?_⟩
  · intro t there
    obtain ⟨p, inside, is⟩ := List.mem_filterMap.mp there
    obtain ⟨rest, held⟩ := member p inside
    cases p <;> cases is
    exact Lexeme.Fits.ne_eof held
  · intro p there
    obtain ⟨rest, held⟩ := member p there
    exact Piece.line_mem_iff held

theorem comparison_tiled :
    ∃ pieces, Text.ofString "x<=1.5#\n" = written pieces ∧
      (tokensOf pieces).map Token.lexeme =
        [.ident (Text.ofString "x"), .symbol .lessEqual, .number (Text.ofString "1.5"),
          .newline] ∧
      ∀ before p after, pieces = before ++ p :: after → p.Fits (written after) := by
  have cut : tokenize (Text.ofString "x<=1.5#\n") .origin =
      .ok ([⟨.ident (Text.ofString "x"), ⟨1, 0⟩⟩, ⟨.symbol .lessEqual, ⟨1, 1⟩⟩,
        ⟨.number (Text.ofString "1.5"), ⟨1, 3⟩⟩, ⟨.newline, ⟨1, 7⟩⟩] ++ [⟨.eof, ⟨2, 0⟩⟩]) := rfl
  obtain ⟨pieces, last, text, tokens, _, _, _, fits, _⟩ := tokens_tile_text cut
  obtain ⟨tokens, _⟩ := List.append_inj' tokens rfl
  exact ⟨pieces, text, by rw [← tokens]; rfl, fits⟩

end Loom
