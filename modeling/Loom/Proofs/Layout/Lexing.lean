import Mathlib.Data.List.Forall2
import Loom.Proofs.Layout.Cursor
import Loom.Proofs.Shifting

/-!
The same text at another place is cut into the same tokens at other places, and what a
string token is can be told from the way it is written.
-/

namespace Loom

open Grammar

namespace Lexer

variable {v : Views} {loc loc' : Location}

/-! The same text at two places. -/

/-- Lexemes that are the same up to places, and of the same length. -/
def SameLexeme (v : Views) (r r' : Lexeme × Nat) : Prop :=
  r.1.relocated v.left = r'.1.relocated v.right ∧ r'.2 = r.2

/-- What a unit begins is the same up to places. -/
def SamePiece (v : Views) (r r' : Option Lexeme × Nat) : Prop :=
  r.1.map (Lexeme.relocated v.left) = r'.1.map (Lexeme.relocated v.right) ∧ r'.2 = r.2

/-- The place as far along the line of `loc` from there as `l` is along its own. -/
def further (loc l : Location) : Location := loc.right l.column

theorem further_right (loc l : Location) (n : Nat) :
    further loc (l.right n) = (further loc l).right n := by
  simp [further, Location.right, Nat.add_assoc]

/-- A lexeme moved along two lines is the same up to places that look the same. -/
theorem relocated_further (same : v.left loc = v.right loc') (lexeme : Lexeme) :
    (lexeme.relocated (further loc)).relocated v.left =
      (lexeme.relocated (further loc')).relocated v.right := by
  cases lexeme with
  | string written parts =>
      simp only [Lexeme.relocated, List.map_map, Lexeme.string.injEq, true_and]
      refine List.map_congr_left fun part _ => ?_
      cases part with
      | text value => rfl
      | code source place => exact congrArg (StringPart.code source) (v.along place.column same)
  | _ => rfl

theorem both_stringLexeme (t : Text) (same : v.left loc = v.right loc') :
    Both (SameLexeme v) (stringLexeme t loc) (stringLexeme t loc') := by
  have here := stringLexeme_relocated (further_right loc) t .origin
  have there := stringLexeme_relocated (further_right loc') t .origin
  change stringLexeme t loc = _ at here
  change stringLexeme t loc' = _ at there
  rw [here, there]
  cases stringLexeme t .origin with
  | error d => trivial
  | ok r => exact ⟨relocated_further same r.1, rfl⟩

theorem both_piece (u : UInt16) (t : Text) (same : v.left loc = v.right loc') :
    Both (SamePiece v) (piece u t loc) (piece u t loc') := by
  have here := piece_relocated (further_right loc) u t .origin
  have there := piece_relocated (further_right loc') u t .origin
  change piece u t loc = _ at here
  change piece u t loc' = _ at there
  rw [here, there]
  cases piece u t .origin with
  | error d => trivial
  | ok r =>
      refine ⟨?_, rfl⟩
      simp only [Option.map_map]
      exact Option.map_congr fun lexeme _ => relocated_further same lexeme

theorem both_scan (skip : Nat) (t : Text) (same : v.left loc = v.right loc')
    (lines : 0x0A ∈ t → v.Blind) :
    Both (List.Forall₂ v.Same) (scan skip t loc) (scan skip t loc') := by
  induction t generalizing skip loc loc' with
  | nil =>
      have ended : v.Same ⟨.eof, loc⟩ ⟨.eof, loc'⟩ := by
        rw [Views.Same, Token.relocated, Token.relocated, same]
        rfl
      cases skip <;> exact .cons ended .nil
  | cons u rest ih =>
      have later : 0x0A ∈ rest → v.Blind := fun line => lines (.tail _ line)
      cases skip with
      | succ skip => exact ih skip (v.along 1 same) later
      | zero =>
          have next : v.left (if isLineEnd u then loc.nextLine else loc.right 1) =
              v.right (if isLineEnd u then loc'.nextLine else loc'.right 1) := by
            split
            · rename_i line
              exact lines (by rw [show u = 0x0A by simpa [isLineEnd] using line]; exact .head _) _ _
            · exact v.along 1 same
          simp only [scan]
          refine both_bind (both_piece u (u :: rest) same) ?_
          rintro ⟨lexeme?, _⟩ ⟨lexeme?', length⟩ ⟨alike, rfl⟩
          refine both_bind (ih (length - 1) next later) ?_
          intro tokens tokens' others
          cases lexeme? with
          | none =>
              cases lexeme?' with
              | none => exact others
              | some lexeme' => cases alike
          | some lexeme =>
              cases lexeme?' with
              | none => cases alike
              | some lexeme' =>
                  refine .cons ?_ others
                  have is := Option.some.inj alike
                  rw [Views.Same, Token.relocated, Token.relocated, is, same]

/-! Code, unit by unit. -/

section

variable {u : UInt16} (braces : Nat) (rest : Text)

theorem codeLength_quoted_unit (quote : u ≠ 0x22) (line : u ≠ 0x0A) (backslash : u ≠ 0x5C) :
    codeLength true braces (u :: rest) = (· + 1) <$> codeLength true braces rest := by
  rw [codeLength.eq_def]
  simp only [isQuote, isLineEnd, isBackslash, beq_iff_eq, quote, line, backslash, if_false]

theorem codeLength_escape (w : UInt16) :
    codeLength true braces (0x5C :: w :: rest) = (· + 2) <$> codeLength true braces rest := rfl

theorem codeLength_quoted_quote :
    codeLength true braces (0x22 :: rest) = (· + 1) <$> codeLength false braces rest := by
  cases rest <;> rfl

theorem codeLength_quote :
    codeLength false braces (0x22 :: rest) = (· + 1) <$> codeLength true braces rest := by
  cases braces <;> rfl

theorem codeLength_open :
    codeLength false braces (0x7B :: rest) = (· + 1) <$> codeLength false (braces + 1) rest := by
  cases braces <;> rfl

theorem codeLength_close :
    codeLength false (braces + 1) (0x7D :: rest) = (· + 1) <$> codeLength false braces rest := rfl

theorem codeLength_unit (line : u ≠ 0x0A) (quote : u ≠ 0x22) (opening : u ≠ 0x7B)
    (closing : u ≠ 0x7D) :
    codeLength false braces (u :: rest) = (· + 1) <$> codeLength false braces rest := by
  rw [codeLength.eq_def]
  simp only [isQuote, isLineEnd, beq_iff_eq, quote, line, opening, closing, if_false]

end

/-! A literal is read no further than it is written. -/

/-- A text with the same front begins with the same unit. -/
theorem exists_cons_of_take {n : Nat} {u : UInt16} {rest t : Text}
    (same : t.take (n + 1) = (u :: rest).take (n + 1)) :
    ∃ tail, t = u :: tail ∧ tail.take n = rest.take n := by
  cases t with
  | nil => cases same
  | cons w tail =>
      rw [List.take_succ_cons, List.take_succ_cons, List.cons.injEq] at same
      exact ⟨tail, by rw [same.1], same.2⟩

theorem head?_of_take {n : Nat} {s t : Text} (pos : 0 < n) (same : s.take n = t.take n) :
    s.head? = t.head? := by
  obtain ⟨m, rfl⟩ := Nat.exists_eq_succ_of_ne_zero (Nat.ne_of_gt pos)
  cases t with
  | nil => rw [List.take_eq_nil_iff.mp same |>.resolve_left (Nat.succ_ne_zero m)]
  | cons u rest =>
      obtain ⟨tail, rfl, _⟩ := exists_cons_of_take same
      rfl

/-- Within a front that is the same, everything is. -/
theorem take_drop_of_take {j k n : Nat} {s t : Text} (within : j + k ≤ n)
    (same : s.take n = t.take n) : (s.drop j).take k = (t.drop j).take k := by
  have shorter := congrArg (List.take (j + k)) same
  rw [List.take_take, List.take_take, Nat.min_eq_left within] at shorter
  rw [List.take_drop, List.take_drop, shorter]

theorem codeLength_front (quoted : Bool) (braces : Nat) (t : Text) (n : Nat)
    (found : codeLength quoted braces t = .ok n) (t' : Text)
    (same : t'.take (n + 1) = t.take (n + 1)) : codeLength quoted braces t' = .ok n := by
  -- the unit behind the code is the brace that ends it
  fun_induction codeLength quoted braces t generalizing n t' with
  | case1 | case2 | case4 | case5 | case8 => cases found
  | case11 rest =>
      cases found
      obtain ⟨tail, rfl, _⟩ := exists_cons_of_take same
      rfl
  | case3 braces u rest quote ih =>
      obtain rfl := eq_of_isQuote quote
      obtain ⟨m, inner, rfl⟩ := ok_of_map found
      obtain ⟨tail, rfl, behind⟩ := exists_cons_of_take same
      rw [codeLength_quoted_quote, ih m inner tail behind]
      rfl
  | case6 braces u quote line backslash w rest ih =>
      obtain rfl := eq_of_isBackslash backslash
      obtain ⟨m, inner, rfl⟩ := ok_of_map found
      obtain ⟨_, rfl, after⟩ := exists_cons_of_take same
      obtain ⟨tail, rfl, behind⟩ := exists_cons_of_take after
      rw [codeLength_escape, ih m inner tail behind]
      rfl
  | case7 braces u rest quote line backslash ih =>
      obtain ⟨m, inner, rfl⟩ := ok_of_map found
      obtain ⟨tail, rfl, behind⟩ := exists_cons_of_take same
      rw [codeLength_quoted_unit _ _ (by simpa [isQuote] using quote)
        (by simpa [isLineEnd] using line) (by simpa [isBackslash] using backslash),
        ih m inner tail behind]
      rfl
  | case9 braces u rest line quote ih =>
      obtain rfl := eq_of_isQuote quote
      obtain ⟨m, inner, rfl⟩ := ok_of_map found
      obtain ⟨tail, rfl, behind⟩ := exists_cons_of_take same
      rw [codeLength_quote, ih m inner tail behind]
      rfl
  | case10 braces rest line quote ih =>
      obtain ⟨m, inner, rfl⟩ := ok_of_map found
      obtain ⟨tail, rfl, behind⟩ := exists_cons_of_take same
      rw [codeLength_open, ih m inner tail behind]
      rfl
  | case12 rest outer line quote other ih =>
      obtain ⟨m, inner, rfl⟩ := ok_of_map found
      obtain ⟨tail, rfl, behind⟩ := exists_cons_of_take same
      rw [codeLength_close, ih m inner tail behind]
      rfl
  | case13 braces u rest line quote opening closing ih =>
      obtain ⟨m, inner, rfl⟩ := ok_of_map found
      obtain ⟨tail, rfl, behind⟩ := exists_cons_of_take same
      rw [codeLength_unit _ _ (by simpa [isLineEnd] using line) (by simpa [isQuote] using quote)
        opening closing, ih m inner tail behind]
      rfl

theorem codeLength_lt (quoted : Bool) (braces : Nat) (t : Text) (n : Nat)
    (found : codeLength quoted braces t = .ok n) : n < t.length := by
  obtain ⟨code, tail, rfl, rfl, _⟩ := codeLength_ok _ _ _ _ found
  rw [List.length_append, List.length_cons]
  omega

theorem code?_front {t t' code : Text} (found : code? t = .ok code)
    (same : t'.take (code.length + 1) = t.take (code.length + 1)) : code? t' = .ok code := by
  obtain ⟨length, measured, found⟩ := ok_of_bind found
  simp only at found
  split at found
  · cases found
  · rename_i filled
    cases found
    have size : (t.take length).length = length :=
      List.length_take_of_le (codeLength_lt _ _ _ _ measured).le
    rw [size] at same
    have front : t'.take length = t.take length := take_drop_of_take (j := 0) (by omega) same
    rw [code?, codeLength_front false 0 t length measured t' same]
    show (if (Text.trim (t'.take length)).isEmpty then _ else _) = _
    rw [front, if_neg filled]

theorem lt_of_stringParts (start : Location) (skip : Nat) (t : Text) (loc : Location)
    (parts : List StringPart) (n : Nat) (read : stringParts start skip t loc = .ok (parts, n)) :
    skip < n := by
  fun_induction stringParts start skip t loc generalizing parts n with
  | case1 | case3 | case5 | case7 => cases read
  | case4 =>
      cases read
      exact Nat.one_pos
  | case2 skip u rest loc ih =>
      obtain ⟨r, behind, read⟩ := ok_of_bind read
      cases read
      have := ih _ _ behind
      omega
  | case6 | case8 | case9 =>
      obtain ⟨r, _, read⟩ := ok_of_bind read
      cases read
      exact Nat.succ_pos _

/-- What a literal consists of is decided by the text up to its closing quote. -/
theorem stringParts_front_eq (start start' : Location) (skip : Nat) (t : Text) (loc : Location)
    (parts : List StringPart) (n : Nat) (read : stringParts start skip t loc = .ok (parts, n))
    (t' : Text) (same : t'.take n = t.take n) :
    stringParts start' skip t' loc = .ok (parts, n) := by
  fun_induction stringParts start skip t loc generalizing parts n t' with
  | case1 | case3 | case5 | case7 => cases read
  | case4 u rest loc line quote =>
      cases read
      obtain ⟨tail, rfl, _⟩ := exists_cons_of_take same
      rw [stringParts, if_neg line, if_pos quote]
  | case2 skip u rest loc ih =>
      obtain ⟨r, behind, read⟩ := ok_of_bind read
      cases read
      obtain ⟨tail, rfl, after⟩ := exists_cons_of_take same
      rw [stringParts, ih _ _ behind tail after]
      rfl
  | case6 u rest loc line quote backslash value known ih =>
      obtain ⟨r, behind, read⟩ := ok_of_bind read
      cases read
      obtain ⟨tail, rfl, after⟩ := exists_cons_of_take same
      have pos := lt_of_stringParts _ _ _ _ _ _ behind
      rw [stringParts, if_neg line, if_neg quote, if_pos backslash,
        head?_of_take (Nat.zero_lt_of_lt pos) after, known, ih _ _ behind tail after]
      rfl
  | case8 u rest loc line quote backslash opening code text ih =>
      obtain ⟨r, behind, read⟩ := ok_of_bind read
      cases read
      obtain ⟨tail, rfl, after⟩ := exists_cons_of_take same
      have room := lt_of_stringParts _ _ _ _ _ _ behind
      have inside : code? (tail.drop 1) = .ok code :=
        code?_front text (take_drop_of_take (by omega) after)
      rw [stringParts, if_neg line, if_neg quote, if_neg backslash,
        head?_of_take (Nat.zero_lt_of_lt room) after, if_pos opening, inside]
      simp only [ih _ _ behind tail after]
      rfl
  | case9 u rest loc line quote backslash other ih =>
      obtain ⟨r, behind, read⟩ := ok_of_bind read
      cases read
      obtain ⟨tail, rfl, after⟩ := exists_cons_of_take same
      have pos := lt_of_stringParts _ _ _ _ _ _ behind
      rw [stringParts, if_neg line, if_neg quote, if_neg backslash, head?_of_take pos after,
        if_neg other, ih _ _ behind tail after]
      rfl

/-! What a token is, by its kind and its text. -/

/-- A literal is decided by the text up to its closing quote. -/
theorem stringLexeme_front_eq {t t' : Text} {lexeme : Lexeme} {n : Nat}
    (found : stringLexeme (0x22 :: t) loc = .ok (lexeme, n))
    (front : (0x22 :: t').take n = (0x22 :: t).take n) :
    stringLexeme (0x22 :: t') loc = .ok (lexeme, n) := by
  rw [← found]
  obtain ⟨⟨list, length⟩, read, is⟩ := ok_of_bind found
  obtain rfl : length + 1 = n := congrArg Prod.snd (Except.ok.inj is)
  have behind : t'.take length = t.take length := by simpa using front
  have first := stringParts_front_eq loc loc 0 t (loc.right 1) list length read t' behind
  simp only [stringLexeme, List.drop_one, List.tail_cons]
  rw [first, show stringParts loc 0 t (loc.right 1) = _ from read]
  show Except.ok (Lexeme.string _ _, _) = Except.ok (Lexeme.string _ _, _)
  rw [front]

theorem stringLexeme_same {t t' written : Text} {parts parts' : List StringPart} {n n' : Nat}
    (found : stringLexeme (0x22 :: t) loc = .ok (.string written parts, n))
    (found' : stringLexeme (0x22 :: t') loc' = .ok (.string written parts', n'))
    (same : v.left loc = v.right loc') :
    parts.map (StringPart.relocated v.left) = parts'.map (StringPart.relocated v.right) := by
  obtain ⟨rest, split, rfl, _⟩ := stringLexeme_split found
  obtain ⟨rest', split', rfl, _⟩ := stringLexeme_split found'
  -- the second text is read as the first one was, at the first place
  have front : (0x22 :: t').take written.length = (0x22 :: t).take written.length := by
    rw [split, split']
    simp [Lexeme.text]
  have again := stringLexeme_front_eq found front
  have both := both_stringLexeme (0x22 :: t') same
  rw [again, found'] at both
  exact (Lexeme.string.inj both.1).2

theorem inFront?_text (s : Symbol) : Symbol.inFront? s.text = some s := by
  cases s <;> rfl

theorem ofText?_text (word : Keyword) : Keyword.ofText? word.text = some word := by
  cases word <;> rfl

/-- Kind and text tell all lexemes from each other but strings with the same text. -/
theorem lexeme_cases {l l' : Lexeme} (kind : l.kind = l'.kind) (text : l.text = l'.text) :
    (∀ f g : Location → Location, l.relocated f = l'.relocated g) ∨
      ∃ written parts parts', l = .string written parts ∧ l' = .string written parts' := by
  cases l with
  | string written parts =>
      cases l' with
      | string written' parts' =>
          obtain rfl : written = written' := text
          exact .inr ⟨written, parts, parts', rfl, rfl⟩
      | symbol s => cases s <;> cases kind
      | _ => cases kind
  | symbol s =>
      cases l' with
      | symbol s' =>
          have same : s.text = s'.text := text
          obtain rfl : s' = s := Option.some.inj (by rw [← inFront?_text, ← same, inFront?_text])
          exact .inl fun _ _ => rfl
      | _ => cases s <;> cases kind
  | keyword word =>
      cases l' with
      | keyword word' =>
          have same : word.text = word'.text := text
          obtain rfl : word' = word :=
            Option.some.inj (by rw [← ofText?_text, ← same, ofText?_text])
          exact .inl fun _ _ => rfl
      | symbol s => cases s <;> cases kind
      | _ => cases kind
  | number digits =>
      cases l' with
      | number digits' => exact .inl fun _ _ => congrArg Lexeme.number text
      | symbol s => cases s <;> cases kind
      | _ => cases kind
  | ident name =>
      cases l' with
      | ident name' => exact .inl fun _ _ => congrArg Lexeme.ident text
      | symbol s => cases s <;> cases kind
      | _ => cases kind
  | newline | eof =>
      cases l' with
      | newline | eof => first | exact .inl fun _ _ => rfl | cases kind
      | symbol s => cases s <;> cases kind
      | _ => cases kind

/-- Tokens of the same kind and text at places that look the same are the same. -/
theorem same_of_held {source source' : Text} {t t' : Token} (held : Holds source t)
    (held' : Holds source' t') (place : v.left t.loc = v.right t'.loc)
    (kind : t.lexeme.kind = t'.lexeme.kind) (text : t.lexeme.text = t'.lexeme.text) :
    v.Same t t' := by
  have lexeme : t.lexeme.relocated v.left = t'.lexeme.relocated v.right := by
    rcases lexeme_cases kind text with same | ⟨written, parts, parts', is, is'⟩
    · exact same _ _
    · obtain ⟨_, _, _, found⟩ := string_of_held held is
      obtain ⟨_, _, _, found'⟩ := string_of_held held' is'
      rw [is, is', Lexeme.relocated, Lexeme.relocated, stringLexeme_same found found' place]
  rw [Views.Same, Token.relocated, Token.relocated, lexeme, place]

theorem length_lt_spelled {segments : List Segment} {code : Text} {place : Location}
    (among : .code code place ∈ segments) : code.length < (spelled segments).length := by
  obtain ⟨before, after, rfl⟩ := List.append_of_mem among
  simp only [spelled_append, spelled_cons, Segment.text, List.length_append, List.length_cons]
  omega

/-- The code in a token of a text is shorter than the token. -/
theorem tame_of_held {source : Text} {t : Token} (held : Holds source t)
    (lines : 0x0A ∈ source → v.Blind) : v.Tame t := by
  constructor
  · obtain ⟨u, rest, n, _, found⟩ := held
    obtain ⟨p, _, _, _, filled, _, token, _⟩ := piece_split found
    cases p <;> cases token
    exact filled
  · intro written parts code place is among
    refine ⟨?_, fun line => lines (code_of_held held is among line)⟩
    obtain ⟨rest, n, _, found⟩ := string_of_held held is
    obtain ⟨_, _, _, _, _, spells⟩ := stringLexeme_split found
    obtain ⟨segments, _, rfl, rfl, _⟩ := spells written parts rfl
    have inside : .code code place ∈ partsOf segments := by
      split at among
      · cases List.mem_singleton.mp among
      · exact among
    have shorter := length_lt_spelled (code_mem_of_partsOf inside)
    simp only [List.length_cons, List.length_append, List.length_nil]
    omega

/-! What is left of a text in front of cursors. -/

theorem weightOf_le_lengthOf (tokens : List Token) : weightOf tokens ≤ lengthOf tokens := by
  induction tokens with
  | nil => exact Nat.le_refl 0
  | cons t rest ih =>
      refine Nat.add_le_add ?_ ih
      split
      · exact Nat.zero_le _
      · exact Nat.le_refl _

theorem paired_of_same {tokens tokens' : List Token} (same : List.Forall₂ v.Same tokens tokens')
    (tame : ∀ t ∈ tokens, v.Tame t) (more : ∀ t ∈ tokens, t.lexeme ≠ .eof)
    (blind : ∀ t ∈ tokens, t.lexeme = .newline → v.Blind) : Paired v False tokens tokens' := by
  induction same with
  | nil => exact .ended nofun nofun (.inr Iff.rfl) (.inl ⟨rfl, rfl⟩)
  | @cons t t' rest rest' first others ih =>
      rw [List.forall_mem_cons] at tame more blind
      have behind := ih tame.2 more.2 blind.2
      cases line : isNewline t with
      | true =>
          exact behind.line line (first.isNewline.trans line) (blind.1 (isNewline_iff.mp line))
      | false => exact .token first tame.1 line more.1 behind

end Lexer

/-- A text that is cut into tokens is no lighter than they are. -/
theorem weightOf_of_tokenize {source : Text} {start stop : Location} {init : List Token}
    (cut : tokenize source start = .ok (init ++ [⟨.eof, stop⟩])) :
    Grammar.weightOf init ≤ source.length :=
  (Lexer.weightOf_le_lengthOf init).trans (Lexer.lengthOf_of_tokenize cut)

@[simp] theorem Grammar.Cursor.ofTokens_append (init : List Token) (last : Token) :
    Grammar.Cursor.ofTokens (init ++ [last]) = ⟨init, last.loc⟩ := by
  simp [Grammar.Cursor.ofTokens]

/-- Code is cut alike at places that look the same. -/
theorem both_tokenize {v : Views} {source : Text} {loc loc' : Location}
    (same : v.left loc = v.right loc') (lines : 0x0A ∈ source → v.Blind) :
    Grammar.Both (fun tokens tokens' => ∃ n,
        Grammar.Near v False source.length n (.ofTokens tokens) (.ofTokens tokens'))
      (tokenize source loc) (tokenize source loc') := by
  have both := Lexer.both_scan 0 source same lines
  change Grammar.Both _ (tokenize source loc) (tokenize source loc') at both
  cases cut : tokenize source loc with
  | error d =>
      cases cut' : tokenize source loc' with
      | error d' => trivial
      | ok tokens' =>
          rw [cut, cut'] at both
          exact both.elim
  | ok tokens =>
      cases cut' : tokenize source loc' with
      | error d' =>
          rw [cut, cut'] at both
          exact both.elim
      | ok tokens' =>
          rw [cut, cut'] at both
          obtain ⟨init, stop, rfl, held⟩ := tokenize_eq cut
          obtain ⟨init', stop', rfl, _⟩ := tokenize_eq cut'
          have sizes : init'.length = init.length := by
            simpa using (List.Forall₂.length_eq both).symm
          have front : List.Forall₂ v.Same init init' := by
            have taken := List.forall₂_take init.length both
            rwa [List.take_left, ← sizes, List.take_left] at taken
          show ∃ n, Grammar.Near v False source.length n _ _
          rw [Grammar.Cursor.ofTokens_append, Grammar.Cursor.ofTokens_append]
          refine ⟨Grammar.countOf init, ?_, weightOf_of_tokenize cut, Nat.le_refl _⟩
          exact Lexer.paired_of_same front (fun t h => Lexer.tame_of_held (held t h) lines)
            (fun t h => Lexer.held_ne_eof (held t h))
            (fun t h line => lines (Lexer.mem_of_newline (held t h) line))

end Loom
