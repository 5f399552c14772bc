import Loom.Proofs.Position
import Loom.Proofs.Shifting

/-!
Where the code in a literal stands. A literal is made of segments, and code of pieces, in one
way only, so each token of the code stands a certain number of units behind the first unit of
the literal; and where the literal is on one line, that is also how far the token is said to
be from it.
-/

namespace Loom

namespace Lexer

/-! A literal is made of segments in one way. -/

/-- Segments each of which is as it is written in front of the rest. -/
def Fitting (rest : Text) (segments : List Segment) : Prop :=
  ∀ before s after, segments = before ++ s :: after → s.Fits (spelled after ++ rest)

theorem Fitting.cons {rest : Text} {s : Segment} {segments : List Segment}
    (fitting : Fitting rest (s :: segments)) :
    s.Fits (spelled segments ++ rest) ∧ Fitting rest segments :=
  ⟨fitting [] s segments rfl,
    fun before s' after split => fitting (s :: before) s' after (congrArg (s :: ·) split)⟩

/-- Only the first unit behind a segment counts. -/
theorem Segment.Fits.of_head? {s : Segment} {rest rest' : Text} (fits : s.Fits rest)
    (same : rest'.head? = rest.head?) : s.Fits rest' := by
  cases s with
  | unit u => exact ⟨fits.1, fits.2.1, fits.2.2.1, same ▸ fits.2.2.2⟩
  | escape | code => exact fits

theorem Spelled.fitting {behind : Text} {loc : Location} {segments : List Segment}
    (row : Spelled (0x22 :: behind) loc segments) : Fitting [0x22] segments := by
  rintro before s after rfl
  refine row.at_segment.1.of_head? ?_
  cases spelled after <;> rfl

/-- The code among parts, with its places. -/
def codeOf (parts : List StringPart) : List (Text × Location) :=
  parts.filterMap fun
    | .text _ => none
    | .code source loc => some (source, loc)

theorem codeOf_consUnit (u : UInt16) (parts : List StringPart) :
    codeOf (consUnit u parts) = codeOf parts := by
  cases parts with
  | nil => rfl
  | cons part rest => cases part <;> rfl

/-- The first segment of a text, where it is known which code there is. -/
theorem segment_unique {s s' : Segment} {rest behind behind' : Text}
    {parts parts' : List StringPart} (fits : s.Fits (behind ++ rest))
    (fits' : s'.Fits (behind' ++ rest)) (same : s.text ++ behind = s'.text ++ behind')
    (code : codeOf (s.onto parts) = codeOf (s'.onto parts')) : s = s' := by
  have other {u source tail tail'} (fits : (Segment.unit u).Fits (tail ++ rest))
      (same : u :: tail = (0x24 : UInt16) :: 0x7B :: source ++ tail') : False := by
    obtain ⟨rfl, rfl⟩ := List.cons.inj same
    exact fits.2.2.2 ⟨rfl, rfl⟩
  cases s with
  | unit u =>
      cases s' with
      | unit u' => exact congrArg Segment.unit (List.cons.inj same).1
      | escape letter value => exact absurd (List.cons.inj same).1 fits.2.2.1
      | code source loc => exact (other fits same).elim
  | escape letter value =>
      cases s' with
      | unit u' => exact absurd (List.cons.inj same).1.symm fits'.2.2.1
      | escape letter' value' =>
          obtain ⟨-, same⟩ := List.cons.inj same
          obtain ⟨rfl, -⟩ := List.cons.inj same
          obtain rfl : value = value' := Option.some.inj (fits.symm.trans fits')
          rfl
      | code source loc => exact absurd (List.cons.inj same).1 (by decide)
  | code source loc =>
      cases s' with
      | unit u' => exact (other fits' same.symm).elim
      | escape letter value => exact absurd (List.cons.inj same).1 (by decide)
      | code source' loc' =>
          obtain ⟨rfl, rfl⟩ := Prod.mk.inj (List.cons.inj code).1
          rfl

theorem spelled_unique {rest : Text} {segments segments' : List Segment}
    (fitting : Fitting rest segments) (fitting' : Fitting rest segments')
    (same : spelled segments = spelled segments')
    (code : codeOf (partsOf segments) = codeOf (partsOf segments')) : segments = segments' := by
  have filled (s : Segment) (segments : List Segment) : spelled (s :: segments) ≠ [] := by
    intro none
    have empty := congrArg List.length none
    have := s.text_pos
    rw [spelled_cons, List.length_append, List.length_nil] at empty
    omega
  induction segments generalizing segments' with
  | nil =>
      cases segments' with
      | nil => rfl
      | cons s' segments' => exact absurd same.symm (filled s' segments')
  | cons s segments ih =>
      cases segments' with
      | nil => exact absurd same (filled s segments)
      | cons s' segments' =>
          obtain ⟨fits, fitting⟩ := fitting.cons
          obtain ⟨fits', behind⟩ := fitting'.cons
          obtain rfl := segment_unique fits fits' same code
          have later : codeOf (partsOf segments) = codeOf (partsOf segments') := by
            cases s with
            | unit u | escape letter u =>
                exact (codeOf_consUnit u _).symm.trans (code.trans (codeOf_consUnit u _))
            | code source loc => exact (List.cons.inj code).2
          exact congrArg (s :: ·) (ih fitting behind (List.append_cancel_left same) later)

/-! A text is made of pieces in one way. -/

/-- Pieces each of which fits what stands behind it. -/
def Tight (pieces : List Piece) : Prop :=
  ∀ before p after, pieces = before ++ p :: after → p.Fits (written after)

theorem Tight.cons {p : Piece} {pieces : List Piece} (tight : Tight (p :: pieces)) :
    p.Fits (written pieces) ∧ Tight pieces :=
  ⟨tight [] p pieces rfl,
    fun before p' after split => tight (p :: before) p' after (congrArg (p :: ·) split)⟩

theorem Laid.tight {loc : Location} {pieces : List Piece} (laid : Laid [] loc pieces) :
    Tight pieces := by
  rintro before p after rfl
  simpa using laid.at_piece.1

/-- The kind of piece that a unit begins: a blank, a comment or a token. -/
def sort (u : UInt16) : Nat := if isBlank u then 0 else if u = 0x23 then 1 else 2

theorem sort_of_solid {u : UInt16} (solid : isIdentStart u = true ∨ Decimal.isDigit u = true) :
    sort u = 2 := by
  have other : ¬ isBlank u = true ∧ u ≠ 0x23 := by
    simp only [isIdentStart, Decimal.isDigit, isBlank, Bool.and_eq_true, Bool.or_eq_true,
      decide_eq_true_eq, beq_iff_eq, ne_eq, UInt16.le_iff_toNat_le, ← UInt16.toNat_inj,
      UInt16.reduceToNat] at solid ⊢
    omega
  rw [sort, if_neg other.1, if_neg other.2]

theorem sort_of_fits {p : Piece} {rest : Text} (fits : p.Fits rest) :
    ∃ u tail, p.text = u :: tail ∧ sort u = match p with
      | .blank _ => 0
      | .comment _ => 1
      | .token _ => 2 := by
  cases p with
  | blank u =>
      refine ⟨u, [], rfl, ?_⟩
      rcases fits with rfl | rfl | rfl <;> rfl
  | comment text =>
      obtain ⟨tail, rfl⟩ := List.head?_eq_some_iff.mp fits.1
      exact ⟨0x23, tail, rfl, rfl⟩
  | token t =>
      obtain ⟨lexeme, place⟩ := t
      have word {t : Text} (word : IsWord t) : ∃ u tail, t = u :: tail ∧ sort u = 2 := by
        obtain ⟨u, tail, rfl, start, -⟩ := word
        exact ⟨u, tail, rfl, sort_of_solid (.inl start)⟩
      cases lexeme with
      | number digits =>
          obtain ⟨⟨whole, filled, isDigit, split⟩, -⟩ := fits
          obtain ⟨u, tail, rfl⟩ := List.exists_cons_of_ne_nil filled
          have solid := sort_of_solid (.inr (isDigit u (.head _)))
          rcases split with rfl | ⟨fraction, -, -, rfl⟩ <;> exact ⟨u, _, rfl, solid⟩
      | ident name => exact word fits.1
      | keyword w => exact word fits.1
      | symbol s => cases s <;> exact ⟨_, _, rfl, rfl⟩
      | string text parts =>
          obtain ⟨⟨inside, rfl⟩, -⟩ := fits
          exact ⟨0x22, _, rfl, rfl⟩
      | newline => exact ⟨0x0A, [], rfl, rfl⟩
      | eof => exact fits.elim

/-- A comment goes up to the end of its line. -/
theorem comment_unique {text text' rest rest' : Text} (fits : (Piece.comment text).Fits rest)
    (fits' : (Piece.comment text').Fits rest') (same : text ++ rest = text' ++ rest') :
    text = text' := by
  have front {text rest : Text} (fits : (Piece.comment text).Fits rest) :
      (text ++ rest).takeWhile (· != 0x0A) = text := by
    have solid : ∀ u ∈ text, (u != 0x0A) = true := by
      intro u among
      have other : u ≠ 0x0A := fun is => fits.2.1 (is ▸ among)
      simpa using other
    rw [List.takeWhile_append_of_pos solid]
    rcases fits.2.2 with rfl | line
    · simp
    · obtain ⟨tail, rfl⟩ := List.head?_eq_some_iff.mp line
      simp
  rw [← front fits, same, front fits']

/-- The first piece of a text, where it is known which tokens there are. -/
theorem piece_unique {p p' : Piece} {pieces pieces' : List Piece} (fits : p.Fits (written pieces))
    (fits' : p'.Fits (written pieces')) (same : written (p :: pieces) = written (p' :: pieces'))
    (tokens : tokensOf (p :: pieces) = tokensOf (p' :: pieces')) : p = p' := by
  obtain ⟨u, tail, text, kind⟩ := sort_of_fits fits
  obtain ⟨u', tail', text', kind'⟩ := sort_of_fits fits'
  obtain rfl : u = u' := by
    rw [written_cons, written_cons, text, text'] at same
    exact (List.cons.inj same).1
  rw [kind] at kind'
  cases p with
  | blank v =>
      cases p' with
      | blank v' => exact congrArg Piece.blank (List.cons.inj same).1
      | comment | token => cases kind'
  | comment written =>
      cases p' with
      | comment written' => exact congrArg Piece.comment (comment_unique fits fits' same)
      | blank | token => cases kind'
  | token t =>
      cases p' with
      | token t' => exact congrArg Piece.token (List.cons.inj tokens).1
      | blank | comment => cases kind'

theorem written_unique {pieces pieces' : List Piece} (tight : Tight pieces) (tight' : Tight pieces')
    (same : written pieces = written pieces') (tokens : tokensOf pieces = tokensOf pieces') :
    pieces = pieces' := by
  have filled {p : Piece} {pieces : List Piece} (tight : Tight (p :: pieces)) :
      written (p :: pieces) ≠ [] := by
    obtain ⟨u, tail, text, -⟩ := sort_of_fits tight.cons.1
    rw [written_cons, text]
    exact List.cons_ne_nil _ _
  induction pieces generalizing pieces' with
  | nil =>
      cases pieces' with
      | nil => rfl
      | cons p' pieces' => exact absurd same.symm (filled tight')
  | cons p pieces ih =>
      cases pieces' with
      | nil => exact absurd same (filled tight)
      | cons p' pieces' =>
          obtain ⟨fits, tight⟩ := tight.cons
          obtain ⟨fits', behind⟩ := tight'.cons
          obtain rfl := piece_unique fits fits' same tokens
          have later : tokensOf pieces = tokensOf pieces' := by
            cases p with
            | token t => exact (List.cons.inj tokens).2
            | blank | comment => exact tokens
          exact congrArg (p :: ·) (ih tight behind (List.append_cancel_left same) later)

end Lexer

open Lexer

/-! Code in a literal, and tokens in code. -/

/-- Code that stands so many units behind the first unit of a literal. -/
def CodeAt (t : Token) (units : Nat) (code : Text) (loc : Location) : Prop :=
  ∃ before after,
    t.lexeme = .string (0x22 :: spelled (before ++ .code code loc :: after) ++ [0x22])
      (partsOf (before ++ .code code loc :: after)) ∧
    Fitting [0x22] (before ++ .code code loc :: after) ∧ units = (spelled before).length + 3

/-- A token of some code that stands so many units behind its first one. The end stands
behind all of them. -/
def StandsAt (code : Text) (tokens : List Token) (units : Nat) (u : Token) : Prop :=
  ∃ before after stop, code = written (before ++ after) ∧ Tight (before ++ after) ∧
    tokens = tokensOf (before ++ after) ++ [⟨.eof, stop⟩] ∧ units = (written before).length ∧
    ((∃ behind, after = .token u :: behind) ∨ after = [] ∧ u = ⟨.eof, stop⟩)

/-- A token within a literal: one of its code, or within a literal of its code. -/
inductive Within : Token → Token → Prop where
  | code {t u : Token} {text code : Text} {parts : List StringPart} {loc : Location}
      {tokens : List Token} (is : t.lexeme = .string text parts) (part : .code code loc ∈ parts)
      (cut : tokenize code loc = .ok tokens) (among : u ∈ tokens) : Within t u
  | deeper {t s u : Token} (outer : Within t s) (inner : Within s u) : Within t u

/-- A token within a literal that stands so many units behind the literal's first one. -/
inductive WithinAt : Token → Nat → Token → Prop where
  | code {t u : Token} {units more : Nat} {code : Text} {loc : Location} {tokens : List Token}
      (there : CodeAt t units code loc) (cut : tokenize code loc = .ok tokens)
      (stands : StandsAt code tokens more u) : WithinAt t (units + more) u
  | deeper {t s u : Token} {units more : Nat} (outer : WithinAt t units s)
      (inner : WithinAt s more u) : WithinAt t (units + more) u

theorem exists_codeAt {t : Token} {text : Text} {parts : List StringPart} {code : Text}
    {loc : Location} (spells : Spells t) (is : t.lexeme = .string text parts)
    (part : .code code loc ∈ parts) : ∃ units, CodeAt t units code loc := by
  obtain ⟨segments, behind, rfl, rfl, row⟩ := spells.segments is part
  obtain ⟨before, after, rfl⟩ := List.append_of_mem (code_mem_of_partsOf part)
  exact ⟨_, before, after, is, row.fitting, rfl⟩

theorem CodeAt.loc {t : Token} {units : Nat} {code : Text} {loc : Location}
    (there : CodeAt t units code loc) (spells : Spells t) : loc = t.loc.right units := by
  obtain ⟨before, after, is, fitting, rfl⟩ := there
  have part : .code code loc ∈ partsOf (before ++ .code code loc :: after) :=
    code_mem_partsOf (List.mem_append_right before List.mem_cons_self)
  obtain ⟨segments, behind, text, parts, row⟩ := spells.segments is part
  have same : spelled (before ++ .code code loc :: after) = spelled segments :=
    (List.cons.inj (List.append_cancel_right text)).2
  obtain rfl := spelled_unique fitting row.fitting same (congrArg codeOf parts)
  have begins : loc = _ := row.at_segment.2
  rw [begins, Location.right_right, Location.right_right]
  congr 1
  omega

theorem CodeAt.text {t : Token} {units : Nat} {code : Text} {loc : Location}
    (there : CodeAt t units code loc) :
    ∃ front back, t.lexeme.text = front ++ code ++ back ∧ front.length = units := by
  obtain ⟨before, after, is, -, rfl⟩ := there
  refine ⟨0x22 :: spelled before ++ [0x24, 0x7B], 0x7D :: spelled after ++ [0x22], ?_, ?_⟩
  · rw [is]
    simp [Lexeme.text, Lexer.Segment.text]
  · simp

theorem reach_right {rest : Text} {loc : Location} {pieces : List Piece}
    (laid : Laid rest loc pieces) (line : 0x0A ∉ written pieces) :
    reach loc pieces = loc.right (written pieces).length := by
  induction pieces generalizing loc with
  | nil => rfl
  | cons p pieces ih =>
      obtain ⟨fits, -, laid⟩ := laid
      rw [written_cons, List.mem_append, not_or] at line
      have past : p.past loc = loc.right p.text.length := by
        rcases Piece.lines fits with ⟨place, rfl⟩ | ⟨-, past⟩
        · exact absurd (.head _) line.1
        · exact past loc
      rw [written_cons, List.length_append, ← Location.right_right, ← past]
      exact ih laid line.2

section

variable {code : Text} {place : Location} {tokens : List Token}

theorem exists_standsAt (cut : tokenize code place = .ok tokens) {u : Token} (among : u ∈ tokens) :
    ∃ units, StandsAt code tokens units u := by
  obtain ⟨pieces, rfl, laid, rfl⟩ := pieces_of_tokenize cut
  rcases List.mem_append.mp among with token | stop
  · obtain ⟨p, there, is⟩ := List.mem_filterMap.mp token
    obtain rfl := Piece.eq_token is
    obtain ⟨before, after, rfl⟩ := List.append_of_mem there
    exact ⟨_, before, .token u :: after, _, rfl, laid.tight, rfl, rfl, .inl ⟨after, rfl⟩⟩
  · refine ⟨_, pieces, [], _, by rw [List.append_nil], ?_, by rw [List.append_nil], rfl,
      .inr ⟨rfl, List.mem_singleton.mp stop⟩⟩
    rw [List.append_nil]
    exact laid.tight

theorem StandsAt.loc {units : Nat} {u : Token} (stands : StandsAt code tokens units u)
    (cut : tokenize code place = .ok tokens) (line : 0x0A ∉ code) :
    u.loc = place.right units ∧ Spells u := by
  obtain ⟨before, after, stop, rfl, tight, split, rfl, last⟩ := stands
  obtain ⟨pieces, same, laid, tokens_eq⟩ := pieces_of_tokenize cut
  obtain ⟨tokens_same, stop_same⟩ := List.append_inj' (split.symm.trans tokens_eq) rfl
  obtain rfl := written_unique tight laid.tight same tokens_same
  rw [written_append, List.mem_append, not_or] at line
  have reached := reach_right laid.front line.1
  rcases last with ⟨behind, rfl⟩ | ⟨rfl, rfl⟩
  · obtain ⟨stands, spells⟩ := laid.at_piece.2 u rfl
    exact ⟨stands.trans reached, spells⟩
  · rw [List.append_nil] at stop_same
    obtain ⟨-, rfl⟩ := Token.mk.inj (List.cons.inj stop_same).1
    exact ⟨reached, nofun⟩

theorem StandsAt.text {units : Nat} {u : Token} (stands : StandsAt code tokens units u) :
    ∃ front back, code = front ++ u.lexeme.text ++ back ∧ front.length = units := by
  obtain ⟨before, after, stop, rfl, -, -, rfl, last⟩ := stands
  rcases last with ⟨behind, rfl⟩ | ⟨rfl, rfl⟩
  · exact ⟨written before, written behind, by simp [Piece.text], rfl⟩
  · exact ⟨written before, [], by simp [Lexeme.text], rfl⟩

end

section

variable {t u : Token}

/-- What stands within a literal on one line is said to stand there. -/
theorem WithinAt.stands {units : Nat} (within : WithinAt t units u) (spells : Spells t)
    (line : 0x0A ∉ t.lexeme.text) :
    u.loc = t.loc.right units ∧ Spells u ∧
      ∃ front back, t.lexeme.text = front ++ u.lexeme.text ++ back ∧ front.length = units := by
  induction within with
  | code there cut stands =>
      obtain ⟨front, back, text, rfl⟩ := there.text
      obtain ⟨front', back', rfl, rfl⟩ := stands.text
      rw [text] at line
      obtain ⟨place, inner⟩ := stands.loc cut fun among =>
        line (List.mem_append_left _ (List.mem_append_right _ among))
      rw [there.loc spells, Location.right_right] at place
      exact ⟨place, inner, front ++ front', back' ++ back, by rw [text]; simp, by simp⟩
  | deeper outer inner ih ih' =>
      obtain ⟨place, spelled, front, back, text, rfl⟩ := ih spells line
      rw [text] at line
      obtain ⟨place', spelled', front', back', text', rfl⟩ :=
        ih' spelled fun among => line (List.mem_append_left _ (List.mem_append_right _ among))
      rw [place, Location.right_right] at place'
      exact ⟨place', spelled', front ++ front', back' ++ back, by rw [text, text']; simp, by simp⟩

theorem exists_withinAt (within : Within t u) (spells : Spells t) (line : 0x0A ∉ t.lexeme.text) :
    ∃ units, WithinAt t units u := by
  induction within with
  | code is part cut among =>
      obtain ⟨units, there⟩ := exists_codeAt spells is part
      obtain ⟨more, stands⟩ := exists_standsAt cut among
      exact ⟨_, .code there cut stands⟩
  | deeper outer inner ih ih' =>
      obtain ⟨units, there⟩ := ih spells line
      obtain ⟨-, spelled, front, back, text, -⟩ := there.stands spells line
      rw [text] at line
      obtain ⟨more, stands⟩ := ih' spelled fun among =>
        line (List.mem_append_left _ (List.mem_append_right _ among))
      exact ⟨_, .deeper there stands⟩

end

/-- A text that begins at `start` is cut as it is when it begins at the first line, or is at
fault as it is then, and all places are moved as the start is: those of tokens, of code in
literals and of the fault. Every token of the code of a literal on one line, however deep it
is in there, is therefore said to be on the line of the literal and as far behind it as it
stands behind the first unit of the literal's text. -/
theorem tokens_move_with_start (source : Text) (start : Location) :
    ((∃ tokens, tokenize source .origin = .ok tokens ∧
        tokenize source start = .ok (tokens.map (Token.relocated start.moved))) ∨
      ∃ (fault : SyntaxFault) (loc : Location),
        tokenize source .origin = .error (fault.located loc) ∧
        tokenize source start = .error (fault.located (start.moved loc))) ∧
    ∀ tokens, tokenize source start = .ok tokens → ∀ t ∈ tokens, 0x0A ∉ t.lexeme.text →
      (∀ u, Within t u → ∃ units, WithinAt t units u) ∧
      ∀ u units, WithinAt t units u →
        u.loc = ⟨t.loc.line, t.loc.column + units⟩ ∧
        ∃ front back, t.lexeme.text = front ++ u.lexeme.text ++ back ∧ front.length = units := by
  constructor
  · have moved := tokenize_moved source start
    cases cut : tokenize source .origin with
    | ok tokens =>
        rw [cut] at moved
        exact .inl ⟨tokens, rfl, moved⟩
    | error d =>
        rw [cut] at moved
        obtain ⟨pieces, u, t, rfl, laid, failed⟩ := pieces_of_fault cut
        obtain ⟨fault, begun, rest, -, -, rfl, -⟩ := piece_error failed
        exact .inr ⟨fault, _, rfl, moved⟩
  · intro tokens cut t among line
    obtain ⟨pieces, rfl, laid, rfl⟩ := pieces_of_tokenize cut
    have spells : Spells t := by
      rcases List.mem_append.mp among with token | stop
      · obtain ⟨_, _, spells, _⟩ := piece_of_token laid token
        exact spells
      · obtain rfl := List.mem_singleton.mp stop
        exact nofun
    refine ⟨fun u within => exists_withinAt within spells line, ?_⟩
    intro u units within
    obtain ⟨place, -, split⟩ := within.stands spells line
    exact ⟨place, split⟩

/-- A name in a literal in a literal, in the third line of a file. -/
theorem nested_name_moves :
    let source := Text.ofString "x \"p$\x7b\"q$\x7br\x7d\"\x7d\""
    let name : Token := ⟨.ident (Text.ofString "r"), ⟨3, 14⟩⟩
    ∃ tokens, tokenize source ⟨3, 4⟩ = .ok tokens ∧
      ∃ t ∈ tokens, 0x0A ∉ t.lexeme.text ∧ t.loc = ⟨3, 6⟩ ∧ WithinAt t 8 name ∧
        ∃ front back, t.lexeme.text = front ++ name.lexeme.text ++ back ∧ front.length = 8 := by
  intro source name
  let inner := Text.ofString "\"q$\x7br\x7d\""
  let deep : Token := ⟨.string inner [.text (Text.ofString "q"), .code (Text.ofString "r") ⟨3, 14⟩],
    ⟨3, 10⟩⟩
  let outer : Token := ⟨.string (Text.ofString "\"p$\x7b\"q$\x7br\x7d\"\x7d\"")
    [.text (Text.ofString "p"), .code inner ⟨3, 10⟩], ⟨3, 6⟩⟩
  have cut : tokenize source ⟨3, 4⟩ =
      .ok [⟨.ident (Text.ofString "x"), ⟨3, 4⟩⟩, outer, ⟨.eof, ⟨3, 19⟩⟩] :=
    ok_of_toOption (by decide +kernel)
  have cut_inner : tokenize inner ⟨3, 10⟩ = .ok [deep, ⟨.eof, ⟨3, 17⟩⟩] :=
    ok_of_toOption (by decide +kernel)
  have cut_deep : tokenize (Text.ofString "r") ⟨3, 14⟩ = .ok [name, ⟨.eof, ⟨3, 15⟩⟩] :=
    ok_of_toOption (by decide +kernel)
  have within : Within outer name :=
    .deeper (.code rfl (.tail _ (.head _)) cut_inner (.head _))
      (.code rfl (.tail _ (.head _)) cut_deep (.head _))
  have line : 0x0A ∉ outer.lexeme.text := by decide +kernel
  have among : outer ∈ [⟨.ident (Text.ofString "x"), ⟨3, 4⟩⟩, outer, ⟨.eof, ⟨3, 19⟩⟩] :=
    .tail _ (.head _)
  obtain ⟨stands, places⟩ := (tokens_move_with_start source ⟨3, 4⟩).2 _ cut _ among line
  obtain ⟨units, there⟩ := stands name within
  obtain ⟨place, split⟩ := places name units there
  obtain rfl : units = 8 := Nat.add_left_cancel (congrArg Location.column place).symm
  exact ⟨_, cut, outer, among, line, rfl, there, split⟩

end Loom
