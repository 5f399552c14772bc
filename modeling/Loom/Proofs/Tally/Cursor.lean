import Loom.Proofs.Tally

/-!
Counting along a cursor. A tally fixes what a text leaves open as a whole; a rule
stands at a cursor when what was opened before it and what is opened behind it add
up to that. Where in a line it stands is told in three ways: in the middle of one,
where the line has to go on, and in front of a statement.
-/

namespace Loom

/-- Code of a string that has no line end in it. -/
def StringPart.OnLine : StringPart → Prop
  | .text _ => True
  | .code source _ => 0x0A ∉ source

def Lexeme.OnLine : Lexeme → Prop
  | .string _ parts => ∀ part ∈ parts, part.OnLine
  | _ => True

instance (part : StringPart) : Decidable part.OnLine :=
  match part with
  | .text _ => isTrue trivial
  | .code source _ => inferInstanceAs (Decidable (0x0A ∉ source))

instance (lexeme : Lexeme) : Decidable lexeme.OnLine :=
  match lexeme with
  | .string _ parts => inferInstanceAs (Decidable (∀ part ∈ parts, part.OnLine))
  | .number _ | .ident _ | .keyword _ | .symbol _ | .newline | .eof => isTrue trivial

namespace Grammar

open Repl

/-- What a text leaves open, whether it has more than one line, and whether code in
one of its strings goes over a line end. -/
structure Tally where
  blocks : Int
  brackets : Int
  lines : Prop
  folded : Prop

namespace Tally

/-- Reading stands at a cursor with `b` blocks and `k` brackets open. -/
structure At (T : Tally) (b k : Int) (p : Place) (c : Cursor) : Prop where
  blocks : b + blocksIn p c.all = T.blocks
  brackets : k + bracketsIn c.all = T.brackets
  more : ∀ t ∈ c.tokens, t.lexeme ≠ .eof
  lines : ∀ t ∈ c.tokens, t.lexeme = .newline → T.lines
  folded : ∀ t ∈ c.tokens, ¬ t.lexeme.OnLine → T.folded

/-- Reading stands somewhere in a line. -/
def Here (T : Tally) (b k : Int) (c : Cursor) : Prop := ∃ p, T.At b k p c

/-- Reading stands in a line, behind something that asks for no more. -/
def Inline (T : Tally) (b k : Int) (c : Cursor) : Prop := T.At b k ⟨false, false⟩ c

/-- Reading stands where something has to follow. -/
def Going (T : Tally) (b k : Int) (c : Cursor) : Prop := ∃ p, p.goesOn = true ∧ T.At b k p c

/-- Reading stands in front of a statement, or at the end of the text. -/
def Fresh (T : Tally) (b k : Int) (c : Cursor) : Prop :=
  ∃ p, p.goesOn = false ∧ (p.atStart = true ∨ c.tokens = []) ∧ T.At b k p c

/-- Reading stands where an expression may: at the front of a statement no `if` is one. -/
def Apt (T : Tally) (b k : Int) (c : Cursor) : Prop :=
  ∃ p, (c.head.lexeme = .keyword .ifKw → p.atStart = true → p.goesOn = true) ∧ T.At b k p c

/-- A fault that is not for a missing `end` where more than `b` blocks and no less
than `k` brackets are open. -/
def Lacks (T : Tally) (b k : Int) (d : Diagnostic) : Prop :=
  ∀ fault, d.fault = .malformed fault → fault.LacksEnd →
    T.folded ∨ (T.lines ∧ b < T.blocks ∧ k ≤ T.brackets)

variable {T : Tally} {b k : Int} {p : Place} {c : Cursor}

theorem tolerates_lacks : Tolerates (T.Lacks b k) := by
  intro fault loc other fault' is lacking
  cases is
  exact absurd lacking other

theorem Lacks.of_le {b' k' : Int} {d : Diagnostic} (lacks : T.Lacks b' k' d)
    (blocks : b ≤ b') (brackets : k ≤ k') : T.Lacks b k d := by
  intro fault is lacking
  rcases lacks fault is lacking with folded | ⟨lines, more, inside⟩
  · exact .inl folded
  · exact .inr ⟨lines, by omega, by omega⟩

/-! Where reading stands. -/

/-- Reading starts with nothing open. -/
theorem at_front {source : Text} {loc : Location} {tokens : List Token}
    (cut : tokenize source loc = .ok tokens) (blocks : T.blocks = blocksIn p tokens)
    (brackets : T.brackets = bracketsIn tokens) (lines : 0x0A ∈ source → T.lines)
    (folded : ∀ t ∈ tokens, ¬ t.lexeme.OnLine → T.folded) :
    T.At 0 0 p (.ofTokens tokens) := by
  obtain ⟨init, stop, rfl, held⟩ := tokenize_eq cut
  have cursor : Cursor.ofTokens (init ++ [⟨.eof, stop⟩]) = ⟨init, stop⟩ := by
    simp [Cursor.ofTokens]
  rw [cursor]
  exact
    { blocks := by rw [Int.zero_add]; exact blocks.symm
      brackets := by rw [Int.zero_add]; exact brackets.symm
      more := fun t h => Lexer.held_ne_eof (held t h)
      lines := fun t h line => lines (Lexer.mem_of_newline (held t h) line)
      folded := fun t h => folded t (List.mem_append_left _ h) }

/-- In a text of one line no string's code goes over a line end. -/
theorem onLine_of_tokenize {source : Text} {loc : Location} {tokens : List Token}
    (cut : tokenize source loc = .ok tokens) (one : 0x0A ∉ source) :
    ∀ t ∈ tokens, t.lexeme.OnLine := by
  obtain ⟨init, stop, rfl, held⟩ := tokenize_eq cut
  intro t h
  rcases List.mem_append.mp h with inside | last
  · cases is : t.lexeme with
    | string written parts =>
        intro part among
        cases part with
        | text value => trivial
        | code code place =>
            intro folded
            exact one (Lexer.code_of_held (held t inside) is among folded)
    | number _ | ident _ | keyword _ | symbol _ | newline | eof => trivial
  · obtain rfl := List.mem_singleton.mp last
    trivial

theorem Inline.here (at_c : T.Inline b k c) : T.Here b k c := ⟨_, at_c⟩

theorem Going.here (at_c : T.Going b k c) : T.Here b k c :=
  let ⟨p, _, here⟩ := at_c
  ⟨p, here⟩

theorem Fresh.here (at_c : T.Fresh b k c) : T.Here b k c :=
  let ⟨p, _, _, here⟩ := at_c
  ⟨p, here⟩

theorem Apt.here (at_c : T.Apt b k c) : T.Here b k c :=
  let ⟨p, _, here⟩ := at_c
  ⟨p, here⟩

theorem Inline.apt (at_c : T.Inline b k c) : T.Apt b k c :=
  ⟨_, fun _ start => by simp at start, at_c⟩

theorem Going.apt (at_c : T.Going b k c) : T.Apt b k c :=
  let ⟨p, on, here⟩ := at_c
  ⟨p, fun _ _ => on, here⟩

theorem Here.apt (at_c : T.Here b k c) (other : c.head.lexeme ≠ .keyword .ifKw) :
    T.Apt b k c :=
  let ⟨p, here⟩ := at_c
  ⟨p, fun is => absurd is other, here⟩

theorem At.tokens_eq_nil (here : T.At b k p c) (done : c.head.lexeme = .eof) :
    c.tokens = [] := by
  cases left : c.tokens with
  | nil => rfl
  | cons t rest =>
      have is : t.lexeme = .eof := by simpa [Cursor.head, left] using done
      exact absurd is (here.more t (by simp [left]))

/-- At the end of a text nothing more is counted. -/
theorem Here.total (at_c : T.Here b k c) (done : c.head.lexeme = .eof) :
    T.blocks = b ∧ T.brackets = k := by
  obtain ⟨p, here⟩ := at_c
  have none := here.tokens_eq_nil done
  have blocks := here.blocks
  have brackets := here.brackets
  simp [Cursor.all, none, blocksIn, bracketsIn, blocksAt, opened, misread, nesting]
    at blocks brackets
  exact ⟨blocks.symm, brackets.symm⟩

/-- At the end of a text its last block has no end. -/
theorem Here.lacks_end {loc : Location} (at_c : T.Here (b + 1) k c) (lines : T.lines) :
    T.Lacks b k ((SyntaxFault.expected .endKeyword c.head.lexeme).located loc) := by
  intro fault is lacking
  cases is
  rcases lacking with other | found
  · cases other
  · have done : c.head.lexeme = .eof := by simpa using found
    obtain ⟨blocks, brackets⟩ := at_c.total done
    exact .inr ⟨lines, by omega, by omega⟩

theorem Inline.fresh (at_c : T.Inline b k c) (done : c.head.lexeme = .eof) : T.Fresh b k c :=
  ⟨_, rfl, .inr (At.tokens_eq_nil at_c done), at_c⟩

/-! Taking a token. -/

/-- Behind a token its share is counted as open. -/
theorem At.tail (here : T.At b k p c) (more : c.head.lexeme ≠ .eof) :
    T.At (b + blocksAt p c.head c.tail.all) (k + nesting c.head.lexeme)
      (p.behind c.head.lexeme) c.tail := by
  have left : c.tokens ≠ [] := Cursor.tokens_ne_nil more
  have tokens := Cursor.tokens_eq_cons left
  have blocks := here.blocks
  have brackets := here.brackets
  rw [Cursor.all_eq_cons left] at blocks brackets
  simp only [blocksIn, bracketsIn] at blocks brackets
  have among : ∀ t ∈ c.tail.tokens, t ∈ c.tokens := by
    intro t h
    rw [tokens]
    exact List.mem_cons_of_mem _ h
  exact
    { blocks := by omega
      brackets := by omega
      more := fun t h => here.more t (among t h)
      lines := fun t h => here.lines t (among t h)
      folded := fun t h => here.folded t (among t h) }

theorem At.head_lines (here : T.At b k p c) (line : c.head.lexeme = .newline) : T.lines := by
  have left : c.tokens ≠ [] := Cursor.tokens_ne_nil (by simp [line])
  exact here.lines c.head (by rw [Cursor.tokens_eq_cons left]; simp) line

theorem At.head_folded (here : T.At b k p c) (folded : ¬ c.head.lexeme.OnLine) : T.folded := by
  have left : c.tokens ≠ [] := by
    intro none
    exact folded (by simp [Cursor.head, none, Lexeme.OnLine])
  exact here.folded c.head (by rw [Cursor.tokens_eq_cons left]; simp) folded

/-- Behind a token that neither opens nor closes a block the token tells the place. -/
theorem Here.behind {lexeme : Lexeme} (at_c : T.Here b k c) (is : c.head.lexeme = lexeme)
    (solid : lexeme ≠ .eof ∧ lexeme ≠ .newline)
    (flat : ∀ (p : Place) (t : Token) (rest : List Token),
      t.lexeme = lexeme → blocksAt p t rest = 0) :
    T.At b (k + nesting lexeme) ⟨false, asksMore lexeme⟩ c.tail := by
  obtain ⟨p, here⟩ := at_c
  subst is
  have behind := here.tail solid.1
  rw [flat p c.head c.tail.all rfl, Int.add_zero, Place.behind, if_neg solid.2] at behind
  exact behind

theorem Here.plain {lexeme : Lexeme} (at_c : T.Here b k c) (is : c.head.lexeme = lexeme)
    (plain : isPlain lexeme = true) : T.Inline b k c.tail := by
  have solid : lexeme ≠ .eof ∧ lexeme ≠ .newline := by
    constructor <;> rintro rfl <;> simp [isPlain] at plain
  have behind := at_c.behind is solid fun _ _ _ same => blocksAt_of_plain (same ▸ plain)
  rw [nesting_of_plain plain, Int.add_zero, asksMore_of_plain plain] at behind
  exact behind

theorem Here.goOn {lexeme : Lexeme} (at_c : T.Here b k c) (is : c.head.lexeme = lexeme)
    (on : asksMore lexeme = true) (flat : nesting lexeme = 0) : T.Going b k c.tail := by
  have solid : lexeme ≠ .eof ∧ lexeme ≠ .newline := by
    constructor <;> rintro rfl <;> simp [asksMore] at on
  have behind := at_c.behind is solid fun _ _ _ same => blocksAt_of_asksMore (same ▸ on)
  rw [flat, Int.add_zero] at behind
  exact ⟨_, on, behind⟩

theorem Here.into {lexeme : Lexeme} (at_c : T.Here b k c) (is : c.head.lexeme = lexeme)
    (opens : nesting lexeme = 1) : T.Going b (k + 1) c.tail := by
  have solid : lexeme ≠ .eof ∧ lexeme ≠ .newline := by
    constructor <;> rintro rfl <;> simp [nesting] at opens
  have on := asksMore_of_opening opens
  have behind := at_c.behind is solid fun _ _ _ same => blocksAt_of_asksMore (same ▸ on)
  rw [opens] at behind
  exact ⟨_, on, behind⟩

theorem Here.out {lexeme : Lexeme} (at_c : T.Here b (k + 1) c) (is : c.head.lexeme = lexeme)
    (closes : nesting lexeme = -1) : T.Inline b k c.tail := by
  have solid : lexeme ≠ .eof ∧ lexeme ≠ .newline := by
    constructor <;> rintro rfl <;> simp [nesting] at closes
  have behind := at_c.behind is solid fun _ _ _ same => blocksAt_of_closing (same ▸ closes)
  rw [closes, Int.add_neg_cancel_right, asksMore_of_closing closes] at behind
  exact behind

theorem At.newline (here : T.At b k p c) (line : c.head.lexeme = .newline) :
    T.At b k ⟨true, p.goesOn⟩ c.tail := by
  have behind := here.tail (by simp [line])
  simpa [line, blocksAt, opened, misread, nesting, Place.behind] using behind

theorem Inline.newline (at_c : T.Inline b k c) (line : c.head.lexeme = .newline) :
    T.Fresh b k c.tail := ⟨_, rfl, .inl rfl, At.newline at_c line⟩

/-! Passing over line ends. -/

theorem At.skip (here : T.At b k p c) :
    ∃ q, q.goesOn = p.goesOn ∧ (q = p ∧ c.skip = c ∨ q.atStart = true) ∧ T.At b k q c.skip := by
  rcases c with ⟨tokens, stop⟩
  induction tokens generalizing p with
  | nil => exact ⟨p, rfl, .inl ⟨rfl, rfl⟩, here⟩
  | cons t rest ih =>
      by_cases line : t.lexeme = .newline
      · have isLine : isNewline t = true := by simpa [isNewline] using line
        have passed : Cursor.skip ⟨t :: rest, stop⟩ = Cursor.skip ⟨rest, stop⟩ := by
          simp [Cursor.skip, List.dropWhile_cons_of_pos isLine]
        obtain ⟨q, on, at_start, there⟩ := ih (here.newline line)
        rw [passed]
        refine ⟨q, on, .inr ?_, there⟩
        rcases at_start with ⟨rfl, _⟩ | start
        · rfl
        · exact start
      · have isLine : ¬ isNewline t = true := by simpa [isNewline] using line
        have stays : Cursor.skip ⟨t :: rest, stop⟩ = ⟨t :: rest, stop⟩ := by
          simp [Cursor.skip, List.dropWhile_cons_of_neg isLine]
        rw [stays]
        exact ⟨p, rfl, .inl ⟨rfl, rfl⟩, here⟩

theorem Here.skip (at_c : T.Here b k c) : T.Here b k c.skip :=
  let ⟨_, here⟩ := at_c
  let ⟨q, _, _, there⟩ := here.skip
  ⟨q, there⟩

theorem Going.skip (at_c : T.Going b k c) : T.Going b k c.skip :=
  let ⟨_, on, here⟩ := at_c
  let ⟨q, same, _, there⟩ := here.skip
  ⟨q, same.trans on, there⟩

theorem Fresh.skip (at_c : T.Fresh b k c) : T.Fresh b k c.skip := by
  obtain ⟨p, on, place, here⟩ := at_c
  obtain ⟨q, same, moved, there⟩ := here.skip
  refine ⟨q, same.trans on, ?_, there⟩
  rcases moved with ⟨rfl, stays⟩ | start
  · rw [stays]
    exact place
  · exact .inl start

/-- In front of a statement that there is, a line begins. -/
theorem Fresh.at_start (at_c : T.Fresh b k c) (more : c.head.lexeme ≠ .eof) :
    T.At b k ⟨true, false⟩ c := by
  obtain ⟨⟨start, on⟩, rfl, place, here⟩ := at_c
  rcases place with rfl | none
  · exact here
  · exact absurd (by simp [Cursor.head, none]) more

/-! The words that open and close blocks. -/

theorem At.statement_word (here : T.At b k ⟨true, false⟩ c)
    (is : c.head.lexeme = .keyword .ifKw ∨ c.head.lexeme = .keyword .forKw) :
    T.Inline (b + 1) k c.tail := by
  rcases is with word | word
  · have behind := here.tail (by simp [word])
    simpa [Inline, word, blocksAt, opened, misread, nesting, Place.behind, asksMore] using behind
  · have behind := here.tail (by simp [word])
    simpa [Inline, word, blocksAt, opened, misread, nesting, Place.behind, asksMore] using behind

theorem Fresh.end_word (at_c : T.Fresh (b + 1) k c) (is : c.head.lexeme = .keyword .endKw) :
    T.Inline b k c.tail := by
  have behind := (at_c.at_start (by simp [is])).tail (by simp [is])
  simpa [Inline, is, blocksAt, opened, misread, nesting, Place.behind, asksMore,
    Int.add_neg_cancel_right] using behind

theorem Apt.if_word (at_c : T.Apt b k c) (is : c.head.lexeme = .keyword .ifKw) :
    T.Inline b k c.tail := by
  obtain ⟨⟨start, on⟩, apt, here⟩ := at_c
  have behind := here.tail (by simp [is])
  have expression := apt is
  cases start with
  | false =>
      simpa [Inline, is, blocksAt, opened, misread, nesting, Place.behind, asksMore] using behind
  | true =>
      obtain rfl : on = true := expression rfl
      simpa [Inline, is, blocksAt, opened, misread, nesting, Place.behind, asksMore] using behind

/-- Whether a function whose word stands in front of a cursor opens a block. -/
def funcBlocks (c : Cursor) : Int :=
  if opensBlock c.all && c.head.lexeme != .symbol .colon then 1 else 0

theorem head_all (c : Cursor) : c.all.head?.map Token.lexeme = some c.head.lexeme := by
  rcases c with ⟨_ | ⟨t, rest⟩, stop⟩ <;> rfl

theorem Here.func_word (at_c : T.Here b k c) (is : c.head.lexeme = .keyword .funcKw) :
    T.Inline (b + funcBlocks c.tail) k c.tail := by
  obtain ⟨p, here⟩ := at_c
  have behind := here.tail (by simp [is])
  have opens : blocksAt p c.head c.tail.all = funcBlocks c.tail := by
    simp only [blocksAt, opened, misread, is, head_all, funcBlocks]
    cases opensBlock c.tail.all with
    | false => simp
    | true => by_cases colon : c.tail.head.lexeme = .symbol .colon <;> simp [colon]
  rw [opens] at behind
  simpa [is, nesting, Place.behind, asksMore, Inline] using behind

/-- The word of a hash key opens nothing once its colon follows. -/
theorem Going.key_word {word : Keyword} (at_c : T.Going b k c)
    (is : c.head.lexeme = .keyword word) (colon : c.tail.head.lexeme = .symbol .colon) :
    T.Here b k c.tail := by
  obtain ⟨⟨start, on⟩, rfl, here⟩ := at_c
  have behind := here.tail (by simp [is])
  have none : blocksAt ⟨start, true⟩ c.head c.tail.all = 0 := by
    simp only [blocksAt, opened, misread, is, head_all, colon]
    cases word <;> simp
  rw [none] at behind
  exact ⟨_, by simpa [is, nesting] using behind⟩

end Tally

end Grammar

end Loom
