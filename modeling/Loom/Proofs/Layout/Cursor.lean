import Mathlib.Data.List.TakeWhile
import Loom.Proofs.Reading.Run
import Loom.Proofs.Relocation

/-!
Two texts read side by side. Their tokens are the same, one after the other, up to the
places they have, save that line ends may be repeated in the one text and not in the other.
Cursors in the two texts keep side by side while the rules on tokens are carried out, and
what is left behind them gets less.
-/

namespace Loom

open Grammar

/-- Two ways to look at places. Places that look the same keep looking the same as one goes
on along their lines. -/
structure Views where
  left : Location → Location
  right : Location → Location
  along : ∀ {l l' : Location} (n : Nat), left l = right l' →
    left (l.right n) = right (l'.right n)

namespace Views

/-- All places look the same. -/
def Blind (v : Views) : Prop := ∀ l l', v.left l = v.right l'

/-- Tokens that are the same but for where they stand. -/
def Same (v : Views) (t t' : Token) : Prop := t.relocated v.left = t'.relocated v.right

/-- A token whose code, if it has some, is shorter than it, and on one line if the places of
lines are told from each other. -/
def Tame (v : Views) (t : Token) : Prop :=
  t.lexeme.text ≠ [] ∧ ∀ written parts code loc, t.lexeme = .string written parts →
    StringPart.code code loc ∈ parts → code.length < written.length ∧ (0x0A ∈ code → v.Blind)

variable {v : Views} {t t' : Token}

theorem Same.loc (same : v.Same t t') : v.left t.loc = v.right t'.loc := congrArg Token.loc same

theorem Same.lexeme (same : v.Same t t') :
    t.lexeme.relocated v.left = t'.lexeme.relocated v.right := congrArg Token.lexeme same

theorem Same.text (same : v.Same t t') : t'.lexeme.text = t.lexeme.text := by
  rw [← Lexeme.text_relocated (f := v.right), ← same.lexeme, Lexeme.text_relocated]

theorem Same.isNewline (same : v.Same t t') : isNewline t' = isNewline t := by
  rcases Lexeme.relocated_cases same.lexeme with ⟨is, _⟩ | ⟨written, parts, parts', is, is', _⟩
  · rw [Grammar.isNewline, Grammar.isNewline, is]
  · rw [Grammar.isNewline, Grammar.isNewline, is, is']
    rfl

end Views

namespace Grammar

theorem isNewline_iff {t : Token} : isNewline t = true ↔ t.lexeme = .newline := beq_iff_eq

/-- The end of a line, or of the text. -/
def IsGap (lexeme : Lexeme) : Prop := lexeme = .newline ∨ lexeme = .eof

theorem gap_iff {v : Views} {t t' : Token} (same : v.Same t t') :
    IsGap t.lexeme ↔ IsGap t'.lexeme := by
  rcases Lexeme.relocated_cases same.lexeme with ⟨is, _⟩ | ⟨_, _, _, is, is', _⟩
  · rw [is]
  · rw [is, is']
    simp [IsGap]

/-- How much text is in tokens other than line ends. -/
def weightOf : List Token → Nat
  | [] => 0
  | t :: rest => (if isNewline t then 0 else t.lexeme.text.length) + weightOf rest

/-- How many tokens there are other than line ends. -/
def countOf (tokens : List Token) : Nat := tokens.countP fun t => !isNewline t

/-- Tokens side by side. Where it is `loose`, also line ends at the very end may be in one
text and not in the other. -/
inductive Paired (v : Views) (loose : Prop) : List Token → List Token → Prop where
  | ended {rest rest'} (lines : ∀ t ∈ rest, isNewline t = true)
      (lines' : ∀ t ∈ rest', isNewline t = true) (level : loose ∨ (rest = [] ↔ rest' = []))
      (blind : rest = [] ∧ rest' = [] ∨ v.Blind) : Paired v loose rest rest'
  | token {t t' rest rest'} (same : v.Same t t') (tame : v.Tame t)
      (solid : isNewline t = false) (more : t.lexeme ≠ .eof) (behind : Paired v loose rest rest') :
      Paired v loose (t :: rest) (t' :: rest')
  | lines {t t' rest rest'} (line : isNewline t = true) (line' : isNewline t' = true)
      (blind : v.Blind)
      (behind : Paired v loose (rest.dropWhile isNewline) (rest'.dropWhile isNewline)) :
      Paired v loose (t :: rest) (t' :: rest')

section

variable {v : Views} {loose : Prop} {tokens tokens' : List Token}

/-- What line ends in front add nothing to is the same behind them. -/
theorem measure_dropWhile {measure : List Token → Nat}
    (line : ∀ t rest, isNewline t = true → measure (t :: rest) = measure rest)
    (tokens : List Token) : measure (tokens.dropWhile isNewline) = measure tokens := by
  induction tokens with
  | nil => rfl
  | cons t rest ih =>
      cases is : isNewline t with
      | true => rw [List.dropWhile_cons_of_pos is, ih, line t rest is]
      | false => rw [List.dropWhile_cons_of_neg (by simp [is])]

theorem weightOf_dropWhile (tokens : List Token) :
    weightOf (tokens.dropWhile isNewline) = weightOf tokens :=
  measure_dropWhile (fun _ _ line => by simp [weightOf, line]) tokens

theorem countOf_dropWhile (tokens : List Token) :
    countOf (tokens.dropWhile isNewline) = countOf tokens :=
  measure_dropWhile (fun _ _ line => by simp [countOf, line]) tokens

theorem countOf_le (tokens : List Token) : countOf tokens ≤ tokens.length :=
  List.countP_le_length

theorem weightOf_lines (lines : ∀ t ∈ tokens, isNewline t = true) : weightOf tokens = 0 := by
  rw [← weightOf_dropWhile, List.dropWhile_eq_nil_iff.mpr lines]
  rfl

theorem countOf_lines (lines : ∀ t ∈ tokens, isNewline t = true) : countOf tokens = 0 := by
  rw [← countOf_dropWhile, List.dropWhile_eq_nil_iff.mpr lines]
  rfl

theorem Paired.weight (paired : Paired v loose tokens tokens') :
    weightOf tokens' = weightOf tokens := by
  induction paired with
  | ended lines lines' => rw [weightOf_lines lines, weightOf_lines lines']
  | token same _ solid _ _ ih =>
      have solid' := same.isNewline.trans solid
      simpa [weightOf, solid, solid', same.text] using ih
  | lines line line' _ _ ih =>
      rw [weightOf_dropWhile, weightOf_dropWhile] at ih
      simpa [weightOf, line, line'] using ih

theorem Paired.count (paired : Paired v loose tokens tokens') :
    countOf tokens' = countOf tokens := by
  induction paired with
  | ended lines lines' => rw [countOf_lines lines, countOf_lines lines']
  | token same _ solid _ _ ih =>
      have solid' := same.isNewline.trans solid
      simpa [countOf, solid, solid'] using ih
  | lines line line' _ _ ih =>
      rw [countOf_dropWhile, countOf_dropWhile] at ih
      simpa [countOf, line, line'] using ih

theorem Paired.skip (paired : Paired v loose tokens tokens') :
    Paired v loose (tokens.dropWhile isNewline) (tokens'.dropWhile isNewline) := by
  cases paired with
  | ended lines lines' =>
      rw [List.dropWhile_eq_nil_iff.mpr lines, List.dropWhile_eq_nil_iff.mpr lines']
      exact .ended (by simp) (by simp) (.inr Iff.rfl) (.inl ⟨rfl, rfl⟩)
  | token same tame solid more behind =>
      rw [List.dropWhile_cons_of_neg (by simp [solid]),
        List.dropWhile_cons_of_neg (by simp [same.isNewline, solid])]
      exact .token same tame solid more behind
  | lines line line' blind behind =>
      rwa [List.dropWhile_cons_of_pos line, List.dropWhile_cons_of_pos line']

/-- Line ends in front of both. -/
theorem Paired.line {t t' : Token} (paired : Paired v loose tokens tokens')
    (line : isNewline t = true) (line' : isNewline t' = true) (blind : v.Blind) :
    Paired v loose (t :: tokens) (t' :: tokens') := .lines line line' blind paired.skip

end

/-- Cursors side by side, with no more than some weight and some count left behind them. -/
structure Near (v : Views) (loose : Prop) (weight count : Nat) (c c' : Cursor) : Prop where
  paired : Paired v loose c.tokens c'.tokens
  weight : weightOf c.tokens ≤ weight
  count : countOf c.tokens ≤ count

/-- Cursors side by side with less behind them. -/
def Nearer (v : Views) (loose : Prop) (weight count : Nat) (c c' : Cursor) : Prop :=
  ∃ w n, w < weight ∧ n < count ∧ Near v loose w n c c'

/-- Cursors side by side once line ends are passed over. -/
def NearLine (v : Views) (loose : Prop) (weight count : Nat) (c c' : Cursor) : Prop :=
  Near v loose weight count c.skip c'.skip

section

variable {v : Views} {loose : Prop} {w n w₁ n₁ : Nat} {c c' : Cursor}

theorem Near.mono (near : Near v loose w n c c') (le : w ≤ w₁) (le' : n ≤ n₁) :
    Near v loose w₁ n₁ c c' := ⟨near.paired, near.weight.trans le, near.count.trans le'⟩

theorem Nearer.near (nearer : Nearer v loose w n c c') : Near v loose w n c c' := by
  obtain ⟨w₁, n₁, less, less', near⟩ := nearer
  exact near.mono less.le less'.le

/-- With as many tokens left as there are. -/
theorem Near.exact (near : Near v loose w n c c') : Near v loose w (countOf c.tokens) c c' :=
  ⟨near.paired, near.weight, le_refl _⟩

theorem Near.skip (near : Near v loose w n c c') : Near v loose w n c.skip c'.skip :=
  ⟨near.paired.skip, (weightOf_dropWhile _).trans_le near.weight,
    (countOf_dropWhile _).trans_le near.count⟩

/-- What two cursors side by side show: the same token, or the end of a line or the text. -/
theorem Near.cases (near : Near v loose w n c c') :
    (∃ w₁ n₁, w₁ + c.head.lexeme.text.length ≤ w ∧ w₁ < w ∧ n₁ < n ∧ v.Same c.head c'.head ∧
        v.Tame c.head ∧ ¬ IsGap c.head.lexeme ∧ Near v loose w₁ n₁ c.tail c'.tail) ∨
      (IsGap c.head.lexeme ∧ IsGap c'.head.lexeme) := by
  obtain ⟨tokens, stop⟩ := c
  obtain ⟨tokens', stop'⟩ := c'
  obtain ⟨paired, weight, count⟩ := near
  cases paired with
  | ended lines lines' =>
      have gap : ∀ (rest : List Token) (stop : Location), (∀ t ∈ rest, isNewline t = true) →
          IsGap (Cursor.head ⟨rest, stop⟩).lexeme := by
        intro rest stop lines
        cases rest with
        | nil => exact .inr rfl
        | cons t rest => exact .inl (isNewline_iff.mp (lines t (.head _)))
      exact .inr ⟨gap _ _ lines, gap _ _ lines'⟩
  | @token t t' rest rest' same tame solid more behind =>
      have heavy : 0 < t.lexeme.text.length := List.length_pos_iff.mpr tame.1
      simp only [weightOf, solid, Bool.false_eq_true, if_false] at weight
      simp only [countOf, List.countP_cons, solid, Bool.not_false, if_true] at count
      refine .inl ⟨weightOf rest, countOf rest, ?_, ?_, ?_, same, tame, ?_, behind, le_refl _,
        le_refl _⟩
      · rw [Nat.add_comm]
        exact weight
      · omega
      · exact count
      · rintro (is | is)
        · exact Bool.eq_false_iff.mp solid (isNewline_iff.mpr is)
        · exact more is
  | lines line line' =>
      exact .inr ⟨.inl (isNewline_iff.mp line), .inl (isNewline_iff.mp line')⟩

/-- The end of a line is seen in both texts, or no more than such ends is left in both. -/
theorem Near.lines (near : Near v loose w n c c') (gap : IsGap c.head.lexeme) :
    (c.head.lexeme = .newline ↔ c'.head.lexeme = .newline) ∨
      loose ∧ (∀ t ∈ c.tokens, isNewline t = true) ∧ ∀ t ∈ c'.tokens, isNewline t = true := by
  obtain ⟨tokens, stop⟩ := c
  obtain ⟨tokens', stop'⟩ := c'
  cases near.paired with
  | ended lines lines' level =>
      rcases level with free | level
      · exact .inr ⟨free, lines, lines'⟩
      · left
        cases tokens with
        | nil =>
            obtain rfl := level.mp rfl
            exact ⟨nofun, nofun⟩
        | cons t rest =>
            cases tokens' with
            | nil => cases level.mpr rfl
            | cons t' rest' =>
                exact iff_of_true (isNewline_iff.mp (lines t (.head _)))
                  (isNewline_iff.mp (lines' t' (.head _)))
  | token _ _ solid more =>
      rcases gap with is | is
      · exact absurd (isNewline_iff.mpr is) (Bool.eq_false_iff.mp solid)
      · exact absurd is more
  | lines line line' =>
      exact .inl (iff_of_true (isNewline_iff.mp line) (isNewline_iff.mp line'))

/-- Code ends in both texts or in neither. -/
theorem Near.eof_iff (near : Near v False w n c c') :
    c.head.lexeme = .eof ↔ c'.head.lexeme = .eof := by
  rcases near.cases with ⟨_, _, _, _, _, same, _, other, _⟩ | ⟨gap, gap'⟩
  · exact iff_of_false (fun is => other (.inr is)) fun is => (gap_iff same).not.mp other (.inr is)
  · rcases near.lines gap with level | ⟨free, _⟩
    · rcases gap with is | is <;> rcases gap' with is' | is' <;> simp [is, is'] at level ⊢
    · exact free.elim

/-- Places are not told from each other where lines are ended. -/
theorem Near.blind (near : Near v loose w n c c') (line : c.head.lexeme = .newline) :
    v.Blind := by
  obtain ⟨tokens, stop⟩ := c
  obtain ⟨tokens', stop'⟩ := c'
  cases near.paired with
  | ended _ _ _ blind =>
      rcases blind with ⟨rfl, _⟩ | blind
      · cases line
      · exact blind
  | token _ _ solid => exact absurd (isNewline_iff.mpr line) (Bool.eq_false_iff.mp solid)
  | lines _ _ blind => exact blind

end

end Grammar

/-- A keyword or a symbol. -/
def Lexeme.IsMark (lexeme : Lexeme) : Prop :=
  (∃ word, lexeme = .keyword word) ∨ ∃ s, lexeme = .symbol s

theorem Lexeme.isMark_keyword (word : Keyword) : (Lexeme.keyword word).IsMark := .inl ⟨word, rfl⟩

theorem Lexeme.isMark_symbol (s : Symbol) : (Lexeme.symbol s).IsMark := .inr ⟨s, rfl⟩

theorem Lexeme.string_ne_mark {lexeme : Lexeme} (mark : lexeme.IsMark) {written : Text}
    {parts : List StringPart} : Lexeme.string written parts ≠ lexeme := by
  rcases mark with ⟨_, rfl⟩ | ⟨_, rfl⟩ <;> exact nofun

namespace Grammar

theorem gap_ne_mark {lexeme mark : Lexeme} (gap : IsGap lexeme) (is : mark.IsMark) :
    lexeme ≠ mark := by
  rcases gap with rfl | rfl <;> rcases is with ⟨_, rfl⟩ | ⟨_, rfl⟩ <;> exact nofun

/-! Reading side by side. -/

/-- Two outcomes: of something that is alike, or of a fault each. -/
def Both {α : Type} (good : α → α → Prop) : Except Diagnostic α → Except Diagnostic α → Prop
  | .ok a, .ok a' => good a a'
  | .error _, .error _ => True
  | _, _ => False

/-- Two rules end alike: with what they give and leave, or with a fault each. -/
def InStep {α : Type} (ok : α → α → Cursor → Cursor → Prop) :
    Except Diagnostic (α × Cursor) → Except Diagnostic (α × Cursor) → Prop :=
  Both fun r r' => ok r.1 r'.1 r.2 r'.2

section

variable {α β : Type} {v : Views} {loose : Prop} {w n : Nat} {c c' : Cursor}

theorem both_bind {x x' : Except Diagnostic α} {f f' : α → Except Diagnostic β}
    {good : α → α → Prop} {better : β → β → Prop} (first : Both good x x')
    (rest : ∀ a a', good a a' → Both better (f a) (f' a')) : Both better (x >>= f) (x' >>= f') := by
  cases x with
  | ok a =>
      cases x' with
      | ok a' => exact rest a a' first
      | error d' => exact first.elim
  | error d =>
      cases x' with
      | ok a' => exact first.elim
      | error d' => trivial

theorem both_of_imp {x x' : Except Diagnostic α} {good better : α → α → Prop}
    (first : Both good x x') (fine : ∀ a a', good a a' → better a a') : Both better x x' := by
  cases x <;> cases x' <;> first | exact first.elim | trivial | exact fine _ _ first

variable {ok : β → β → Cursor → Cursor → Prop}

theorem inStep_bind {p p' : Parse α} {f f' : α → Parse β} {good : α → α → Cursor → Cursor → Prop}
    (first : InStep good (p c) (p' c'))
    (rest : ∀ a a' d d', good a a' d d' → InStep ok (f a d) (f' a' d')) :
    InStep ok ((p >>= f) c) ((p' >>= f') c') :=
  both_bind first fun r r' fine => rest r.1 r'.1 r.2 r'.2 fine

/-- Rules followed by others end alike as these do from where the rules end. -/
theorem inStep_then {p p' : Parse α} {f f' : α → Parse β}
    (first : InStep (fun a a' d d' => InStep ok (f a d) (f' a' d')) (p c) (p' c')) :
    InStep ok ((p >>= f) c) ((p' >>= f') c') :=
  inStep_bind first fun _ _ _ _ rest => rest

theorem inStep_pure {b b' : β} (fine : ok b b' c c') :
    InStep ok ((pure b : Parse β) c) ((pure b' : Parse β) c') := fine

/-- What begins with a rule that fails fails. -/
theorem fails_bind {p : Parse α} {f : α → Parse β} (fails : ∃ d, p c = .error d) :
    ∃ d, (p >>= f) c = .error d := by
  obtain ⟨d, fails⟩ := fails
  refine ⟨d, ?_⟩
  show (p c >>= _) = _
  rw [fails]
  rfl

theorem inStep_fails {x x' : Except Diagnostic (β × Cursor)} (fails : ∃ d, x = .error d)
    (fails' : ∃ d, x' = .error d) : InStep ok x x' := by
  obtain ⟨d, rfl⟩ := fails
  obtain ⟨d', rfl⟩ := fails'
  trivial

theorem run_lift (x : Except Diagnostic α) (f : α → Parse β) (c : Cursor) :
    ((liftM x : Parse α) >>= f) c = x >>= fun a => f a c := by
  cases x <;> rfl

theorem inStep_lift {x x' : Except Diagnostic α} {f f' : α → Parse β} {good : α → α → Prop}
    (first : Both good x x') (rest : ∀ a a', good a a' → InStep ok (f a c) (f' a' c')) :
    InStep ok (((liftM x : Parse α) >>= f) c) (((liftM x' : Parse α) >>= f') c') := by
  rw [run_lift, run_lift]
  exact both_bind first rest

/-! The rules on tokens, in front of what follows them. -/

theorem inStep_peek {f f' : Token → Parse β} (rest : InStep ok (f c.head c) (f' c'.head c')) :
    InStep ok ((peek >>= f) c) ((peek >>= f') c') := by
  apply inStep_then
  rw [peek_eq, peek_eq]
  exact rest

theorem inStep_peekSecond {f f' : Token → Parse β} (more : c.tokens ≠ []) (more' : c'.tokens ≠ [])
    (rest : InStep ok (f c.tail.head c) (f' c'.tail.head c')) :
    InStep ok ((peekSecond >>= f) c) ((peekSecond >>= f') c') := by
  apply inStep_then
  rw [peekSecond_eq more, peekSecond_eq more']
  exact rest

theorem inStep_advance {f f' : Token → Parse β}
    (rest : InStep ok (f c.head c.tail) (f' c'.head c'.tail)) :
    InStep ok ((advance >>= f) c) ((advance >>= f') c') := by
  apply inStep_then
  rw [advance_eq, advance_eq]
  exact rest

/-- The tokens left in either text are no fewer than those that count. -/
theorem inStep_remaining (near : Near v loose w n c c') {f f' : Nat → Parse β}
    (rest : ∀ m m', countOf c.tokens ≤ m → countOf c.tokens ≤ m' → InStep ok (f m c) (f' m' c')) :
    InStep ok ((remaining >>= f) c) ((remaining >>= f') c') :=
  rest _ _ (countOf_le c.tokens) (near.paired.count.symm.trans_le (countOf_le c'.tokens))

theorem inStep_skipNewlines {f f' : Unit → Parse β}
    (rest : InStep ok (f () c.skip) (f' () c'.skip)) :
    InStep ok ((skipNewlines >>= f) c) ((skipNewlines >>= f') c') := rest

/-- A keyword or symbol is in front of both cursors or of neither. -/
theorem Near.head_iff (near : Near v loose w n c c') {lexeme : Lexeme} (mark : lexeme.IsMark) :
    c.head.lexeme = lexeme ↔ c'.head.lexeme = lexeme := by
  rcases near.cases with ⟨_, _, _, _, _, same, _⟩ | ⟨gap, gap'⟩
  · rcases Lexeme.relocated_cases same.lexeme with ⟨is, _⟩ | ⟨_, _, _, is, is', _⟩
    · rw [is]
    · rw [is, is']
      exact iff_of_false (Lexeme.string_ne_mark mark) (Lexeme.string_ne_mark mark)
  · exact iff_of_false (gap_ne_mark gap mark) (gap_ne_mark gap' mark)

/-- Where a keyword or symbol is in front, it can be taken. -/
theorem Near.take (near : Near v loose w n c c') {lexeme : Lexeme} (mark : lexeme.IsMark)
    (is : c.head.lexeme = lexeme) :
    v.Same c.head c'.head ∧ Nearer v loose w n c.tail c'.tail := by
  rcases near.cases with ⟨w₁, n₁, _, less, less', same, _, _, behind⟩ | ⟨gap, _⟩
  · exact ⟨same, w₁, n₁, less, less', behind⟩
  · exact absurd is (gap_ne_mark gap mark)

/-- A keyword or symbol tells both rules alike how to go on. -/
theorem inStep_choose (near : Near v loose w n c c') {lexeme : Lexeme} (mark : lexeme.IsMark)
    {f f' g g' : Token → Parse β}
    (yes : c.head.lexeme = lexeme → v.Same c.head c'.head → Nearer v loose w n c.tail c'.tail →
      InStep ok (f c.head c) (f' c'.head c'))
    (no : c.head.lexeme ≠ lexeme → InStep ok (g c.head c) (g' c'.head c')) :
    InStep ok ((peek >>= fun t => if t.lexeme == lexeme then f t else g t) c)
      ((peek >>= fun t => if t.lexeme == lexeme then f' t else g' t) c') := by
  apply inStep_peek
  by_cases is : c.head.lexeme = lexeme
  · rw [if_pos (beq_iff_eq.mpr is), if_pos (beq_iff_eq.mpr ((near.head_iff mark).mp is))]
    obtain ⟨token, nearer⟩ := near.take mark is
    exact yes is token nearer
  · rw [if_neg (by simpa using is), if_neg (by simpa using mt (near.head_iff mark).mpr is)]
    exact no is

theorem inStep_next (near : Near v loose w n c c') {lexeme : Lexeme} (mark : lexeme.IsMark)
    {f f' : Bool → Parse β} (yes : c.head.lexeme = lexeme → InStep ok (f true c) (f' true c'))
    (no : c.head.lexeme ≠ lexeme → InStep ok (f false c) (f' false c')) :
    InStep ok ((next lexeme >>= f) c) ((next lexeme >>= f') c') := by
  apply inStep_then
  apply inStep_peek
  by_cases is : c.head.lexeme = lexeme
  · rw [beq_iff_eq.mpr is, beq_iff_eq.mpr ((near.head_iff mark).mp is)]
    exact yes is
  · rw [beq_eq_false_iff_ne.mpr is, beq_eq_false_iff_ne.mpr (mt (near.head_iff mark).mpr is)]
    exact no is

theorem inStep_accept (near : Near v loose w n c c') {lexeme : Lexeme} (mark : lexeme.IsMark)
    {f f' : Bool → Parse β}
    (yes : Nearer v loose w n c.tail c'.tail → InStep ok (f true c.tail) (f' true c'.tail))
    (no : c.head.lexeme ≠ lexeme → InStep ok (f false c) (f' false c')) :
    InStep ok ((accept lexeme >>= f) c) ((accept lexeme >>= f') c') := by
  apply inStep_then
  apply inStep_next near mark
  · intro is
    exact inStep_advance (yes (near.take mark is).2)
  · exact no

theorem inStep_expect (near : Near v loose w n c c') {lexeme : Lexeme} (mark : lexeme.IsMark)
    {what : Expected} {f f' : Token → Parse β}
    (rest : v.Same c.head c'.head → Nearer v loose w n c.tail c'.tail →
      InStep ok (f c.head c.tail) (f' c'.head c'.tail)) :
    InStep ok ((expect lexeme what >>= f) c) ((expect lexeme what >>= f') c') := by
  apply inStep_then
  apply inStep_choose near mark
  · intro _ same nearer
    rw [advance_eq, advance_eq]
    exact rest same nearer
  · intro _
    trivial

theorem inStep_expectName (near : Near v loose w n c c') {what : Expected}
    {f f' : Text × Token → Parse β}
    (rest : ∀ name, v.Same c.head c'.head → Nearer v loose w n c.tail c'.tail →
      InStep ok (f (name, c.head) c.tail) (f' (name, c'.head) c'.tail)) :
    InStep ok ((expectName what >>= f) c) ((expectName what >>= f') c') := by
  apply inStep_then
  apply inStep_peek
  rcases near.cases with ⟨w₁, n₁, _, less, less', same, _, _, behind⟩ | ⟨gap, gap'⟩
  · have nearer : Nearer v loose w n c.tail c'.tail := ⟨w₁, n₁, less, less', behind⟩
    rcases Lexeme.relocated_cases same.lexeme with ⟨is, _⟩ | ⟨_, _, _, is, is', _⟩
    · rw [is]
      cases c.head.lexeme with
      | ident name => exact inStep_advance (rest name same nearer)
      | _ => trivial
    · rw [is, is']
      trivial
  · rcases gap with is | is <;> rcases gap' with is' | is' <;> rw [is, is'] <;> trivial

theorem skip_head (c : Cursor) : c.skip.head.lexeme ≠ .newline := by
  obtain ⟨tokens, stop⟩ := c
  intro is
  cases rest : tokens.dropWhile isNewline with
  | nil => simp [Cursor.skip, Cursor.head, rest] at is
  | cons t others =>
      have other := List.head?_dropWhile_not isNewline tokens
      have line : isNewline t = true := by
        rw [isNewline_iff]
        simpa [Cursor.skip, Cursor.head, rest] using is
      simp [rest, line] at other

/-- Behind a line end there are the same line ends to be passed over. -/
theorem skip_tail {c : Cursor} (line : c.head.lexeme = .newline) : c.tail.skip = c.skip := by
  obtain ⟨_ | ⟨t, rest⟩, stop⟩ := c
  · cases line
  · have is : isNewline t = true := isNewline_iff.mpr line
    simp [Cursor.skip, Cursor.tail, is]

theorem endStatement_gap {c : Cursor} (gap : IsGap c.head.lexeme) :
    ∃ d, d.skip = c.skip ∧ endStatement c = .ok ((), d) := by
  rcases gap with line | done
  · have more : (c.head.lexeme == .eof) = false := by rw [line]; rfl
    refine ⟨c.tail, skip_tail line, ?_⟩
    rw [endStatement, run_bind (run_next c), more, if_neg Bool.false_ne_true, expectNewline, expect]
    apply run_bind (a := c.head) (d := c.tail)
    rw [run_bind (peek_eq c), if_pos (beq_iff_eq.mpr line), advance_eq]
  · refine ⟨c, rfl, ?_⟩
    rw [endStatement, run_bind (run_next c), if_pos (beq_iff_eq.mpr done)]
    rfl

theorem expect_other {c : Cursor} {lexeme : Lexeme} (what : Expected)
    (other : c.head.lexeme ≠ lexeme) : ∃ e, expect lexeme what c = .error e := by
  refine ⟨(SyntaxFault.expected what c.head.lexeme).located c.head.loc, ?_⟩
  rw [expect, run_bind (peek_eq c), if_neg (by simpa using other)]
  rfl

theorem endStatement_other {c : Cursor} (other : ¬ IsGap c.head.lexeme) :
    ∃ e, endStatement c = .error e := by
  have more : (c.head.lexeme == .eof) = false := beq_eq_false_iff_ne.mpr fun is => other (.inr is)
  rw [endStatement, run_bind (run_next c), more, if_neg Bool.false_ne_true]
  exact fails_bind (expect_other .endOfLine fun is => other (.inl is))

/-- A statement ends in both texts or in neither. -/
theorem inStep_endStatement (near : Near v loose w n c c') {f f' : Unit → Parse β}
    (rest : ∀ d d', NearLine v loose w n d d' → InStep ok (f () d) (f' () d')) :
    InStep ok ((endStatement >>= f) c) ((endStatement >>= f') c') := by
  apply inStep_then
  rcases near.cases with ⟨_, _, _, _, _, same, _, other, _⟩ | ⟨gap, gap'⟩
  · exact inStep_fails (endStatement_other other) (endStatement_other ((gap_iff same).not.mp other))
  · obtain ⟨d, skip, run⟩ := endStatement_gap gap
    obtain ⟨d', skip', run'⟩ := endStatement_gap gap'
    rw [run, run']
    refine rest d d' ?_
    rw [NearLine, skip, skip']
    exact near.skip

/-- A line ends in both texts, or what follows fails as nothing is left. -/
theorem inStep_expectNewline (near : Near v loose w n c c') {what : Expected}
    {f f' : Token → Parse β}
    (rest : v.Blind → NearLine v loose w n c.tail c'.tail →
      InStep ok (f c.head c.tail) (f' c'.head c'.tail))
    (dead : ∀ t (d : Cursor), (∀ u ∈ d.tokens, isNewline u = true) →
      (∃ e, f t d = .error e) ∧ ∃ e, f' t d = .error e) :
    InStep ok ((expectNewline what >>= f) c) ((expectNewline what >>= f') c') := by
  have behind {c : Cursor} (lines : ∀ t ∈ c.tokens, isNewline t = true) :
      ∀ t ∈ c.tail.tokens, isNewline t = true :=
    fun t member => lines t (List.mem_of_mem_tail member)
  have absent {c : Cursor} (other : c.head.lexeme ≠ .newline) (f : Token → Parse β) :
      ∃ e, (expectNewline what >>= f) c = .error e := fails_bind (expect_other what other)
  have there {c : Cursor} (line : c.head.lexeme = .newline) (f : Token → Parse β) :
      (expectNewline what >>= f) c = f c.head c.tail := by
    apply run_bind
    rw [expectNewline, expect, run_bind (peek_eq c), if_pos (beq_iff_eq.mpr line), advance_eq]
  by_cases line : c.head.lexeme = .newline
  · rw [there line]
    by_cases line' : c'.head.lexeme = .newline
    · rw [there line']
      refine rest (near.blind line) ?_
      rw [NearLine, skip_tail line, skip_tail line']
      exact near.skip
    · rcases near.lines (.inl line) with same | ⟨_, lines, _⟩
      · exact absurd (same.mp line) line'
      · exact inStep_fails (dead _ _ (behind lines)).1 (absent line' f')
  · by_cases line' : c'.head.lexeme = .newline
    · rw [there line']
      have gap : IsGap c.head.lexeme := by
        rcases near.cases with ⟨_, _, _, _, _, same, _, other, _⟩ | ⟨gap, _⟩
        · exact absurd (.inl line') ((gap_iff same).not.mp other)
        · exact gap
      rcases near.lines gap with same | ⟨_, _, lines⟩
      · exact absurd (same.mpr line') line
      · exact inStep_fails (absent line f) (dead _ _ (behind lines)).2
    · exact inStep_fails (absent line f) (absent line' f')

end

end Grammar

end Loom
