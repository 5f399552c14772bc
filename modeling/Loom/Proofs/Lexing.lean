import Loom.Token.Lexer

/-!
Where tokens come from. Every token but the last is a piece that begins at some
unit of the text, so what a token is can be told from that unit and what follows
it; the code in a string consists of units of the text.
-/

namespace Loom

theorem ok_of_bind {ε α β : Type} {x : Except ε α} {f : α → Except ε β} {b : β}
    (h : x >>= f = .ok b) : ∃ a, x = .ok a ∧ f a = .ok b := by
  cases x with
  | ok a => exact ⟨a, rfl, h⟩
  | error e => cases h

theorem error_of_bind {ε α β : Type} {x : Except ε α} {f : α → Except ε β} {e : ε}
    (h : x >>= f = .error e) : x = .error e ∨ ∃ a, x = .ok a ∧ f a = .error e := by
  cases x with
  | ok a => exact .inr ⟨a, rfl, h⟩
  | error e' =>
      cases h
      exact .inl rfl

theorem ok_of_map {ε α β : Type} {x : Except ε α} {f : α → β} {b : β}
    (h : f <$> x = .ok b) : ∃ a, x = .ok a ∧ f a = b := by
  cases x with
  | ok a =>
      cases h
      exact ⟨a, rfl, rfl⟩
  | error e => cases h

theorem ok_of_toOption {ε α : Type} {x : Except ε α} {a : α} (h : x.toOption = some a) :
    x = .ok a := by
  cases x with
  | ok b => exact congrArg Except.ok (Option.some.inj h)
  | error e => cases h

theorem error_of_map {ε α β : Type} {x : Except ε α} {f : α → β} {e : ε}
    (h : f <$> x = .error e) : x = .error e := by
  cases x with
  | ok a => cases h
  | error e' =>
      cases h
      rfl

/-- The faults of cutting a text into tokens. -/
def SyntaxFault.IsLexical : SyntaxFault → Prop
  | unexpectedCharacter _ | unterminatedString | unknownEscape _ => True
  | unterminatedInterpolation | emptyInterpolation => True
  | _ => False

namespace Lexer

/-- A token that a text holds: a piece of it begins at the token's place. -/
def Holds (source : Text) (t : Token) : Prop :=
  ∃ u rest n, u :: rest <:+ source ∧ piece u (u :: rest) t.loc = .ok (some t.lexeme, n)

theorem Holds.of_suffix {source longer : Text} {t : Token} (held : Holds source t)
    (within : source <:+ longer) : Holds longer t := by
  obtain ⟨u, rest, n, behind, found⟩ := held
  exact ⟨u, rest, n, behind.trans within, found⟩

/-- The tokens of a text are those it holds, and the end. -/
theorem scan_eq (skip : Nat) (source : Text) (loc : Location) (tokens : List Token)
    (cut : scan skip source loc = .ok tokens) :
    ∃ init stop, tokens = init ++ [⟨.eof, stop⟩] ∧ ∀ t ∈ init, Holds source t := by
  fun_induction scan skip source loc generalizing tokens with
  | case1 =>
      cases cut
      exact ⟨[], _, rfl, by simp⟩
  | case2 skip u rest loc ih =>
      obtain ⟨init, stop, split, held⟩ := ih tokens cut
      exact ⟨init, stop, split, fun t h => (held t h).of_suffix (List.suffix_cons u rest)⟩
  | case3 u rest loc ih =>
      obtain ⟨⟨lexeme?, length⟩, first, cut⟩ := ok_of_bind cut
      obtain ⟨others, behind, cut⟩ := ok_of_bind cut
      obtain ⟨init, stop, split, held⟩ := ih length others behind
      have later : ∀ t ∈ init, Holds (u :: rest) t :=
        fun t h => (held t h).of_suffix (List.suffix_cons u rest)
      cases lexeme? with
      | none =>
          cases cut
          exact ⟨init, stop, split, later⟩
      | some lexeme =>
          cases cut
          refine ⟨⟨lexeme, loc⟩ :: init, stop, by rw [split]; rfl, ?_⟩
          exact List.forall_mem_cons.mpr
            ⟨⟨u, rest, length, List.suffix_refl _, first⟩, later⟩

/-- What kind of piece a unit begins, for those pieces that are lexemes. -/
theorem piece_cases {u : UInt16} {source : Text} {loc : Location} {lexeme : Lexeme} {n : Nat}
    (found : piece u source loc = .ok (some lexeme, n)) :
    (isLineEnd u = true ∧ lexeme = .newline) ∨
      (Decimal.isDigit u = true ∧ lexeme = .number (numberText source)) ∨
      (isIdentStart u = true ∧ lexeme = wordLexeme (wordText source)) ∨
      (isQuote u = true ∧ stringLexeme source loc = .ok (lexeme, n)) ∨
      ∃ s, lexeme = .symbol s := by
  unfold piece at found
  split at found
  · cases found
  · split at found
    · rename_i _ line
      cases found
      exact .inl ⟨line, rfl⟩
    · split at found
      · cases found
      · split at found
        · rename_i digit
          cases found
          exact .inr (.inl ⟨digit, rfl⟩)
        · split at found
          · rename_i start
            cases found
            exact .inr (.inr (.inl ⟨start, rfl⟩))
          · split at found
            · rename_i quote
              obtain ⟨r, text, found⟩ := ok_of_bind found
              cases found
              exact .inr (.inr (.inr (.inl ⟨quote, text⟩)))
            · split at found
              · rename_i s _
                cases found
                exact .inr (.inr (.inr (.inr ⟨s, rfl⟩)))
              · cases found

theorem wordLexeme_cases (word : Text) :
    (∃ keyword, wordLexeme word = .keyword keyword ∧ Keyword.ofText? word = some keyword) ∨
      wordLexeme word = .ident word ∧ Keyword.ofText? word = none := by
  unfold wordLexeme
  cases Keyword.ofText? word with
  | some keyword => exact .inl ⟨keyword, rfl, rfl⟩
  | none => exact .inr ⟨rfl, rfl⟩

theorem stringLexeme_eq {source : Text} {loc : Location} {lexeme : Lexeme} {n : Nat}
    (found : stringLexeme source loc = .ok (lexeme, n)) :
    ∃ parts length, stringParts loc 0 (source.drop 1) (loc.right 1) = .ok (parts, length) ∧
      lexeme = .string (source.take n) (if parts.isEmpty then [.text []] else parts) := by
  obtain ⟨r, read, found⟩ := ok_of_bind found
  cases found
  exact ⟨r.1, r.2, read, rfl⟩

theorem eq_of_isQuote {u : UInt16} (quote : isQuote u = true) : u = 0x22 := by
  simpa [isQuote] using quote

/-- A token of a text is one for a line end of the text, a number, a word, a symbol or a
string literal that begins in the text. -/
theorem held_cases {source : Text} {t : Token} (held : Holds source t) :
    (t.lexeme = .newline ∧ 0x0A ∈ source) ∨
      (∃ digits, t.lexeme = .number digits) ∨
      (∃ word, t.lexeme = wordLexeme word) ∨
      (∃ s, t.lexeme = .symbol s) ∨
      ∃ rest n written parts, 0x22 :: rest <:+ source ∧ t.lexeme = .string written parts ∧
        stringLexeme (0x22 :: rest) t.loc = .ok (.string written parts, n) := by
  obtain ⟨u, rest, n, behind, found⟩ := held
  have here : u ∈ source := behind.subset (by simp)
  rcases piece_cases found with ⟨line, is⟩ | ⟨_, is⟩ | ⟨_, is⟩ | ⟨quote, text⟩ | ⟨s, is⟩
  · have : u = 0x0A := by simpa [isLineEnd] using line
    exact .inl ⟨is, this ▸ here⟩
  · exact .inr (.inl ⟨_, is⟩)
  · exact .inr (.inr (.inl ⟨_, is⟩))
  · obtain rfl := eq_of_isQuote quote
    obtain ⟨parts, length, _, is⟩ := stringLexeme_eq text
    exact .inr (.inr (.inr (.inr ⟨rest, n, _, _, behind, is, is ▸ text⟩)))
  · exact .inr (.inr (.inr (.inl ⟨s, is⟩)))

theorem held_ne_eof {source : Text} {t : Token} (held : Holds source t) : t.lexeme ≠ .eof := by
  rcases held_cases held with ⟨is, _⟩ | ⟨_, is⟩ | ⟨word, is⟩ | ⟨_, is⟩ | ⟨_, _, _, _, _, is, _⟩
  · simp [is]
  · simp [is]
  · rcases wordLexeme_cases word with ⟨_, word, _⟩ | ⟨word, _⟩ <;> simp [is, word]
  · simp [is]
  · simp [is]

/-- A line end stands in a text that holds a token for one. -/
theorem mem_of_newline {source : Text} {t : Token} (held : Holds source t)
    (line : t.lexeme = .newline) : 0x0A ∈ source := by
  rcases held_cases held with ⟨_, here⟩ | ⟨_, is⟩ | ⟨word, is⟩ | ⟨_, is⟩ | ⟨_, _, _, _, _, is, _⟩
  · exact here
  · simp [is] at line
  · rcases wordLexeme_cases word with ⟨_, word, _⟩ | ⟨word, _⟩ <;> simp [is, word] at line
  · simp [is] at line
  · simp [is] at line

/-- A token for a string literal stands where the text holds the literal. -/
theorem string_of_held {source written : Text} {parts : List StringPart} {t : Token}
    (held : Holds source t) (text : t.lexeme = .string written parts) :
    ∃ rest n, 0x22 :: rest <:+ source ∧
      stringLexeme (0x22 :: rest) t.loc = .ok (.string written parts, n) := by
  rcases held_cases held with ⟨is, _⟩ | ⟨_, is⟩ | ⟨word, is⟩ | ⟨_, is⟩
    | ⟨rest, n, _, _, behind, is, found⟩
  · simp [is] at text
  · simp [is] at text
  · rcases wordLexeme_cases word with ⟨_, word, _⟩ | ⟨word, _⟩ <;> simp [is, word] at text
  · simp [is] at text
  · cases is.symm.trans text
    exact ⟨rest, n, behind, found⟩

/-! Code in strings. -/

theorem code_subset {t code : Text} (found : code? t = .ok code) : code ⊆ t := by
  obtain ⟨length, _, found⟩ := ok_of_bind found
  simp only at found
  split at found
  · cases found
  · cases found
    exact List.take_subset length t

theorem code_mem_consUnit {u : UInt16} {parts : List StringPart} {code : Text} {loc : Location}
    (h : StringPart.code code loc ∈ consUnit u parts) : StringPart.code code loc ∈ parts := by
  cases parts with
  | nil => simp [consUnit] at h
  | cons part rest =>
      cases part with
      | text value => simpa [consUnit] using h
      | code source place => simpa [consUnit] using h

/-- The code in a string consists of units of the string. -/
theorem stringParts_code (start : Location) (skip : Nat) (t : Text) (loc : Location)
    (parts : List StringPart) (n : Nat) (read : stringParts start skip t loc = .ok (parts, n)) :
    ∀ code place, StringPart.code code place ∈ parts → code ⊆ t := by
  fun_induction stringParts start skip t loc generalizing parts n with
  | case1 | case3 | case5 | case7 => cases read
  | case4 =>
      cases read
      simp
  | case2 skip u rest loc ih =>
      obtain ⟨r, behind, read⟩ := ok_of_bind read
      cases read
      intro code place h
      exact List.Subset.trans (ih _ _ behind code place h) (List.subset_cons_self u rest)
  | case6 u rest loc _ _ _ v _ ih =>
      obtain ⟨r, behind, read⟩ := ok_of_bind read
      cases read
      intro code place h
      have later := ih _ _ behind code place (code_mem_consUnit h)
      exact List.Subset.trans later (List.subset_cons_self u rest)
  | case8 u rest loc _ _ _ _ found text ih =>
      obtain ⟨r, behind, read⟩ := ok_of_bind read
      cases read
      intro code place h
      rcases List.mem_cons.mp h with first | later
      · cases first
        have inside := List.Subset.trans (code_subset text) (List.drop_subset 1 rest)
        exact List.Subset.trans inside (List.subset_cons_self u rest)
      · exact List.Subset.trans (ih _ _ behind code place later) (List.subset_cons_self u rest)
  | case9 u rest loc _ _ _ _ ih =>
      obtain ⟨r, behind, read⟩ := ok_of_bind read
      cases read
      intro code place h
      have later := ih _ _ behind code place (code_mem_consUnit h)
      exact List.Subset.trans later (List.subset_cons_self u rest)

theorem code_of_held {source written code : Text} {parts : List StringPart} {t : Token}
    {loc : Location} (held : Holds source t) (is : t.lexeme = .string written parts)
    (inside : StringPart.code code loc ∈ parts) : code ⊆ source := by
  obtain ⟨rest, n, behind, found⟩ := string_of_held held is
  obtain ⟨list, length, read, same⟩ := stringLexeme_eq found
  cases same
  have there : StringPart.code code loc ∈ list := by
    split at inside
    · simp at inside
    · exact inside
  have short := stringParts_code _ _ _ _ _ _ read code loc there
  exact List.Subset.trans (List.Subset.trans short (List.drop_subset 1 _)) behind.subset

/-! Where no tokens come from, the fault is one of the text's units. -/

theorem codeLength_error (quoted : Bool) (braces : Nat) (t : Text) (fault : SyntaxFault)
    (failed : codeLength quoted braces t = .error fault) :
    fault = .unterminatedString ∨ fault = .unterminatedInterpolation := by
  fun_induction codeLength quoted braces t with
  | case1 | case2 | case4 | case5 | case8 =>
      cases failed
      simp
  | case11 => cases failed
  | case3 _ _ _ _ ih | case6 _ _ _ _ _ _ _ ih | case7 _ _ _ _ _ _ ih | case9 _ _ _ _ _ ih
  | case10 _ _ _ _ ih | case12 _ _ _ _ _ ih | case13 _ _ _ _ _ _ _ ih =>
      exact ih (error_of_map failed)

theorem code?_error {t : Text} {fault : SyntaxFault} (failed : code? t = .error fault) :
    fault = .unterminatedString ∨ fault = .unterminatedInterpolation ∨
      fault = .emptyInterpolation := by
  rcases error_of_bind failed with failed | ⟨length, _, failed⟩
  · rcases codeLength_error _ _ _ _ failed with rfl | rfl
    · exact .inl rfl
    · exact .inr (.inl rfl)
  · simp only at failed
    split at failed
    · cases failed
      exact .inr (.inr rfl)
    · cases failed

/-- A diagnostic for a lexical fault. -/
def Faulty (d : Diagnostic) : Prop := ∃ fault, fault.IsLexical ∧ d.fault = .malformed fault

theorem faulty_stringParts (start : Location) (skip : Nat) (t : Text) (loc : Location)
    (d : Diagnostic) (failed : stringParts start skip t loc = .error d) : Faulty d := by
  fun_induction stringParts start skip t loc with
  | case1 | case3 | case5 =>
      cases failed
      exact ⟨_, by trivial, rfl⟩
  | case4 => cases failed
  | case7 _ _ _ _ _ _ _ fault text =>
      cases failed
      rcases code?_error text with rfl | rfl | rfl <;> exact ⟨_, by trivial, rfl⟩
  | case2 _ _ _ _ ih | case6 _ _ _ _ _ _ _ _ ih | case8 _ _ _ _ _ _ _ _ _ ih
  | case9 _ _ _ _ _ _ _ ih =>
      rcases error_of_bind failed with failed | ⟨r, _, failed⟩
      · exact ih failed
      · cases failed

/-- Where a piece is at fault, it is a string literal that is, or its unit begins none. -/
theorem piece_failed {u : UInt16} {source : Text} {loc : Location} {d : Diagnostic}
    (failed : piece u source loc = .error d) :
    (isQuote u = true ∧ stringParts loc 0 (source.drop 1) (loc.right 1) = .error d) ∨
      d = (SyntaxFault.unexpectedCharacter u).located loc := by
  unfold piece at failed
  split at failed
  · cases failed
  split at failed
  · cases failed
  split at failed
  · cases failed
  split at failed
  · cases failed
  split at failed
  · cases failed
  split at failed
  · rename_i quote
    refine .inl ⟨quote, ?_⟩
    rcases error_of_bind failed with failed | ⟨r, _, failed⟩
    · rcases error_of_bind failed with failed | ⟨r, _, failed⟩
      · exact failed
      · cases failed
    · cases failed
  · split at failed
    · cases failed
    · cases failed
      exact .inr rfl

theorem faulty_piece (u : UInt16) (source : Text) (loc : Location) (d : Diagnostic)
    (failed : piece u source loc = .error d) : Faulty d := by
  rcases piece_failed failed with ⟨_, failed⟩ | rfl
  · exact faulty_stringParts _ _ _ _ _ failed
  · exact ⟨_, by trivial, rfl⟩

theorem faulty_scan (skip : Nat) (t : Text) (loc : Location) (d : Diagnostic)
    (failed : scan skip t loc = .error d) : Faulty d := by
  fun_induction scan skip t loc with
  | case1 => cases failed
  | case2 skip u rest loc ih => exact ih failed
  | case3 u rest loc ih =>
      rcases error_of_bind failed with failed | ⟨r, _, failed⟩
      · exact faulty_piece _ _ _ _ failed
      · rcases error_of_bind failed with failed | ⟨tokens, _, failed⟩
        · exact ih _ failed
        · split at failed <;> cases failed

end Lexer

/-- The tokens of a text are those it holds, none of which is the end, and the end. -/
theorem tokenize_eq {source : Text} {start : Location} {tokens : List Token}
    (cut : tokenize source start = .ok tokens) :
    ∃ init stop, tokens = init ++ [⟨.eof, stop⟩] ∧ ∀ t ∈ init, Lexer.Holds source t :=
  Lexer.scan_eq 0 source start tokens cut

theorem faulty_tokenize {source : Text} {start : Location} {d : Diagnostic}
    (failed : tokenize source start = .error d) : Lexer.Faulty d :=
  Lexer.faulty_scan 0 source start d failed

end Loom
