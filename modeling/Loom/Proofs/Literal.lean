import Loom.Proofs.Lexing

/-!
String literals. A literal is a row of segments between two quotes: units that
stand for themselves, escapes, and code in braces. The reader finds these
segments, and where it fails, the segments in front of the failure.
-/

namespace Loom

@[simp] theorem Location.right_right (loc : Location) (m n : Nat) :
    (loc.right m).right n = loc.right (m + n) := by
  simp [Location.right, Nat.add_assoc]

@[simp] theorem Location.right_zero (loc : Location) : loc.right 0 = loc := rfl

/-- Line ends stand only behind backslashes. -/
def Text.LinesEscaped (t : Text) : Prop :=
  ∀ front back, t = front ++ 0x0A :: back → front.getLast? = some 0x5C

namespace Text.LinesEscaped

theorem nil : LinesEscaped [] := by
  intro front back same
  simp at same

theorem cons {u : UInt16} {t : Text} (plain : u ≠ 0x0A) (escaped : LinesEscaped t) :
    LinesEscaped (u :: t) := by
  intro front back same
  cases front with
  | nil =>
      cases same
      exact absurd rfl plain
  | cons v front =>
      cases same
      have before := escaped front back rfl
      cases front with
      | nil => cases before
      | cons w front => simpa using before

/-- What stands behind a backslash may be a line end. -/
theorem escape (v : UInt16) {t : Text} (escaped : LinesEscaped t) :
    LinesEscaped (0x5C :: v :: t) := by
  intro front back same
  match front with
  | [] => cases same
  | [w] =>
      cases same
      rfl
  | w :: x :: front =>
      cases same
      have before := escaped front back rfl
      cases front with
      | nil => cases before
      | cons y front => simpa using before

theorem append {s t : Text} (first : LinesEscaped s) (last : LinesEscaped t) :
    LinesEscaped (s ++ t) := by
  intro front back same
  rcases List.append_eq_append_iff.mp same with ⟨between, rfl, behind⟩ | ⟨between, rfl, behind⟩
  · have before := last between back behind
    rw [List.getLast?_append, before]
    rfl
  · cases between with
    | nil => exact absurd (last [] back (by simpa using behind.symm)) (by simp)
    | cons u between =>
        cases behind
        exact first front between rfl

theorem infix_of_mem {t : Text} (escaped : LinesEscaped t) (line : 0x0A ∈ t) :
    [0x5C, 0x0A] <:+: t := by
  obtain ⟨front, back, rfl⟩ := List.append_of_mem line
  obtain ⟨init, rfl⟩ := List.getLast?_eq_some_iff.mp (escaped front back rfl)
  exact ⟨init, back, by simp⟩

end Text.LinesEscaped

/-- What stands at the place that a lexical fault is put down to. -/
def SyntaxFault.PointsAt (rest : Text) : SyntaxFault → Prop
  | unexpectedCharacter u => rest.head? = some u
  | unterminatedString => rest.head? = some 0x22 ∨ [0x24, 0x7B] <+: rest
  | unknownEscape letter => ∃ tail, rest = 0x5C :: tail ∧ letter = tail.take 1
  | unterminatedInterpolation | emptyInterpolation => [0x24, 0x7B] <+: rest
  | _ => False

namespace Lexer

theorem ne_of_not_lineEnd {u : UInt16} (other : ¬ isLineEnd u = true) : u ≠ 0x0A := by
  rintro rfl
  exact other rfl

theorem eq_of_isBackslash {u : UInt16} (backslash : isBackslash u = true) : u = 0x5C := by
  simpa [isBackslash] using backslash

/-! Code, from behind its opening brace to its closing one. -/

theorem codeLength_ok (quoted : Bool) (braces : Nat) (t : Text) (n : Nat)
    (found : codeLength quoted braces t = .ok n) :
    ∃ code tail, t = code ++ 0x7D :: tail ∧ code.length = n ∧ Text.LinesEscaped code := by
  fun_induction codeLength quoted braces t generalizing n with
  | case1 | case2 | case4 | case5 | case8 => cases found
  | case11 rest =>
      cases found
      exact ⟨[], rest, rfl, rfl, Text.LinesEscaped.nil⟩
  | case3 braces u rest quote ih =>
      obtain ⟨m, inner, rfl⟩ := ok_of_map found
      obtain ⟨code, behind, rfl, rfl, escaped⟩ := ih m inner
      rw [eq_of_isQuote quote]
      exact ⟨0x22 :: code, behind, rfl, rfl, escaped.cons (by decide)⟩
  | case6 braces u _ _ backslash v tail ih =>
      obtain ⟨m, inner, rfl⟩ := ok_of_map found
      obtain ⟨code, behind, rfl, rfl, escaped⟩ := ih m inner
      rw [eq_of_isBackslash backslash]
      exact ⟨0x5C :: v :: code, behind, rfl, rfl, escaped.escape v⟩
  | case7 braces u rest _ line _ ih | case9 braces u rest line _ ih
  | case13 braces u rest line _ _ _ ih =>
      obtain ⟨m, inner, rfl⟩ := ok_of_map found
      obtain ⟨code, behind, rfl, rfl, escaped⟩ := ih m inner
      exact ⟨u :: code, behind, rfl, rfl, escaped.cons (ne_of_not_lineEnd line)⟩
  | case10 braces rest _ _ ih | case12 rest _ _ _ outer ih =>
      obtain ⟨m, inner, rfl⟩ := ok_of_map found
      obtain ⟨code, behind, rfl, rfl, escaped⟩ := ih m inner
      exact ⟨_ :: code, behind, rfl, rfl, escaped.cons (by decide)⟩

/-- Code ends at its closing brace and is not blank. -/
theorem code?_ok {t code : Text} (found : code? t = .ok code) :
    ∃ tail, t = code ++ 0x7D :: tail ∧ code.LinesEscaped ∧ (Text.trim code).isEmpty = false := by
  obtain ⟨length, measured, found⟩ := ok_of_bind found
  obtain ⟨inner, tail, rfl, rfl, escaped⟩ := codeLength_ok _ _ _ _ measured
  simp only [List.take_left] at found
  split at found
  · cases found
  · rename_i filled
    cases found
    exact ⟨tail, rfl, escaped, by simpa using filled⟩

/-- Code at fault is put down to the dollar in front of its opening brace. -/
theorem pointsAt_code? {t : Text} {fault : SyntaxFault} (failed : code? t = .error fault) :
    fault.PointsAt (0x24 :: 0x7B :: t) := by
  have opening : [0x24, 0x7B] <+: 0x24 :: 0x7B :: t := ⟨t, rfl⟩
  rcases code?_error failed with rfl | rfl | rfl
  · exact .inr opening
  · exact opening
  · exact opening

/-! Segments. -/

/-- A segment of a literal: a unit that stands for itself, a backslash with the letter
behind it, or code with its place. -/
inductive Segment where
  | unit (u : UInt16)
  | escape (letter value : UInt16)
  | code (source : Text) (loc : Location)
  deriving DecidableEq, Repr

namespace Segment

def text : Segment → Text
  | unit u => [u]
  | escape letter _ => [0x5C, letter]
  | code source _ => 0x24 :: 0x7B :: source ++ [0x7D]

theorem text_pos (s : Segment) : 0 < s.text.length := by
  cases s <;> simp [text]

/-- Puts what a segment stands for in front of the parts of those behind it. -/
def onto (parts : List StringPart) : Segment → List StringPart
  | unit u => consUnit u parts
  | escape _ value => consUnit value parts
  | code source loc => .code source loc :: parts

/-- A segment as it is written in front of the rest of a text. -/
def Fits (rest : Text) : Segment → Prop
  | unit u =>
      u ≠ 0x0A ∧ u ≠ 0x22 ∧ u ≠ 0x5C ∧ ¬ (u = 0x24 ∧ rest.head? = some 0x7B)
  | escape letter value => escape? letter = some value
  | code source _ => source.LinesEscaped ∧ (Text.trim source).isEmpty = false

/-- Code begins two units behind the place of its segment. -/
def Begins (loc : Location) : Segment → Prop
  | code _ place => place = loc.right 2
  | _ => True

end Segment

/-- The text that segments make up. -/
def spelled (segments : List Segment) : Text := segments.flatMap Segment.text

/-- The parts that segments stand for. -/
def partsOf (segments : List Segment) : List StringPart :=
  segments.foldr (fun s parts => s.onto parts) []

/-- Segments that begin at a place. -/
def Spelled (rest : Text) : Location → List Segment → Prop
  | _, [] => True
  | loc, s :: segments =>
      s.Fits (spelled segments ++ rest) ∧ s.Begins loc ∧
        Spelled rest (loc.right s.text.length) segments

@[simp] theorem spelled_nil : spelled [] = [] := rfl

@[simp] theorem spelled_cons (s : Segment) (segments : List Segment) :
    spelled (s :: segments) = s.text ++ spelled segments := rfl

@[simp] theorem spelled_append (before after : List Segment) :
    spelled (before ++ after) = spelled before ++ spelled after := by
  simp [spelled]

/-- One segment among others. -/
theorem Spelled.at_segment {rest : Text} {loc : Location} {before after : List Segment}
    {s : Segment} (row : Spelled rest loc (before ++ s :: after)) :
    s.Fits (spelled after ++ rest) ∧ s.Begins (loc.right (spelled before).length) := by
  induction before generalizing loc with
  | nil => exact ⟨row.1, row.2.1⟩
  | cons first before ih =>
      have later := ih row.2.2
      simpa using later

theorem escaped_spelled {rest : Text} {loc : Location} {segments : List Segment}
    (row : Spelled rest loc segments) : (spelled segments).LinesEscaped := by
  induction segments generalizing loc with
  | nil => exact Text.LinesEscaped.nil
  | cons s segments ih =>
      obtain ⟨fits, _, row⟩ := row
      have later := ih row
      cases s with
      | unit u => exact later.cons fits.1
      | escape letter value => exact later.escape letter
      | code source place =>
          have brace : Text.LinesEscaped (0x7D :: spelled segments) := later.cons (by decide)
          have whole := ((fits.1.append brace).cons (by decide : (0x7B : UInt16) ≠ 0x0A)).cons
            (by decide : (0x24 : UInt16) ≠ 0x0A)
          simpa [Segment.text] using whole

theorem code_mem_of_partsOf {segments : List Segment} {code : Text} {place : Location}
    (among : .code code place ∈ partsOf segments) : .code code place ∈ segments := by
  induction segments with
  | nil => cases among
  | cons s segments ih =>
      cases s with
      | unit u => exact .tail _ (ih (code_mem_consUnit among))
      | escape letter value => exact .tail _ (ih (code_mem_consUnit among))
      | code source loc =>
          rcases List.mem_cons.mp among with same | later
          · cases same
            exact .head _
          · exact .tail _ (ih later)

theorem code_mem_partsOf {segments : List Segment} {code : Text} {place : Location}
    (among : .code code place ∈ segments) : .code code place ∈ partsOf segments := by
  have further {u : UInt16} {parts : List StringPart} (among : .code code place ∈ parts) :
      .code code place ∈ consUnit u parts := by
    match parts with
    | .text value :: rest => simpa [consUnit] using among
    | .code source loc :: rest => exact .tail _ among
    | [] => cases among
  induction segments with
  | nil => cases among
  | cons s segments ih =>
      cases s with
      | unit u => exact further (ih (by simpa using among))
      | escape letter value => exact further (ih (by simpa using among))
      | code source loc =>
          rcases List.mem_cons.mp among with same | later
          · cases same
            exact .head _
          · exact .tail _ (ih later)

/-! The reader of literals goes from segment to segment. -/

theorem stringParts_skip (start : Location) (front rest : Text) (loc : Location) :
    stringParts start front.length (front ++ rest) loc =
      (fun r => (r.1, r.2 + front.length)) <$>
        stringParts start 0 rest (loc.right front.length) := by
  induction front generalizing loc with
  | nil => simp
  | cons u front ih =>
      simp only [List.length_cons, List.cons_append, stringParts, ih, Location.right_right]
      rw [Nat.add_comm 1]
      cases stringParts start 0 rest (loc.right (front.length + 1)) with
      | error d => rfl
      | ok r => rfl

section Front

variable (start : Location) (loc : Location)

theorem stringParts_unit {u : UInt16} {rest : Text} (fits : (Segment.unit u).Fits rest) :
    stringParts start 0 (u :: rest) loc =
      (fun r => (consUnit u r.1, r.2 + 1)) <$> stringParts start 0 rest (loc.right 1) := by
  obtain ⟨line, quote, backslash, opening⟩ := fits
  simp only [stringParts, isLineEnd, isQuote, isBackslash, beq_iff_eq, line, quote, backslash,
    opening, if_false]
  cases stringParts start 0 rest (loc.right 1) <;> rfl

theorem stringParts_escape {letter value : UInt16} (rest : Text)
    (known : escape? letter = some value) :
    stringParts start 0 (0x5C :: letter :: rest) loc =
      (fun r => (consUnit value r.1, r.2 + 2)) <$> stringParts start 0 rest (loc.right 2) := by
  have skipped := stringParts_skip start [letter] rest (loc.right 1)
  simp only [List.length_singleton, List.singleton_append, Location.right_right] at skipped
  simp only [stringParts.eq_3, List.head?_cons, Option.bind_some, known, skipped]
  cases stringParts start 0 rest (loc.right (1 + 1)) <;> rfl

theorem stringParts_opening (inside : Text) :
    stringParts start 0 (0x24 :: 0x7B :: inside) loc =
      match code? inside with
      | .error fault => .error (fault.located loc)
      | .ok code =>
          (fun r => (.code code (loc.right 2) :: r.1, r.2 + 1)) <$>
            stringParts start (code.length + 2) (0x7B :: inside) (loc.right 1) := by
  rw [stringParts.eq_3]
  cases found : code? inside with
  | error fault => simp [isLineEnd, isQuote, isBackslash, found]
  | ok code =>
      simp only [isLineEnd, isQuote, isBackslash, List.head?_cons, List.drop_succ_cons,
        List.drop_zero, found]
      cases stringParts start (code.length + 2) (0x7B :: inside) (loc.right 1) <;> rfl

theorem stringParts_braces {code tail : Text} (found : code? (code ++ 0x7D :: tail) = .ok code) :
    stringParts start 0 (0x24 :: 0x7B :: (code ++ 0x7D :: tail)) loc =
      (fun r => (.code code (loc.right 2) :: r.1, r.2 + (code.length + 3))) <$>
        stringParts start 0 tail (loc.right (code.length + 3)) := by
  have skipped := stringParts_skip start (0x7B :: code ++ [0x7D]) tail (loc.right 1)
  have units : (0x7B :: code ++ [0x7D]).length = code.length + 2 := by simp
  have place : (loc.right 1).right (code.length + 2) = loc.right (code.length + 3) := by
    rw [Location.right_right]
    congr 1
    omega
  rw [units, place] at skipped
  have text : (0x7B :: code ++ [0x7D]) ++ tail = 0x7B :: (code ++ 0x7D :: tail) := by simp
  rw [text] at skipped
  rw [stringParts_opening, found]
  simp only [skipped]
  cases stringParts start 0 tail (loc.right (code.length + 3)) <;> rfl

/-- What stands in front of a text within a literal: nothing that could go on, the
closing quote, a segment, or something at fault. -/
theorem stringParts_front (t : Text) :
    ((t = [] ∨ t.head? = some 0x0A) ∧
        stringParts start 0 t loc = .error (SyntaxFault.unterminatedString.located start)) ∨
      (t.head? = some 0x22 ∧ stringParts start 0 t loc = .ok ([], 1)) ∨
      (∃ (s : Segment) (rest : Text), t = s.text ++ rest ∧ s.Fits rest ∧ s.Begins loc ∧
        stringParts start 0 t loc =
          (fun r => (s.onto r.1, r.2 + s.text.length)) <$>
            stringParts start 0 rest (loc.right s.text.length)) ∨
      ∃ fault : SyntaxFault, fault.PointsAt t ∧
        stringParts start 0 t loc = .error (fault.located loc) := by
  cases t with
  | nil => exact .inl ⟨.inl rfl, rfl⟩
  | cons u rest =>
      by_cases line : u = 0x0A
      · subst line
        exact .inl ⟨.inr rfl, rfl⟩
      by_cases quote : u = 0x22
      · subst quote
        exact .inr (.inl ⟨rfl, rfl⟩)
      refine .inr (.inr ?_)
      by_cases backslash : u = 0x5C
      · subst backslash
        cases known : rest.head?.bind escape? with
        | none =>
            refine .inr ⟨.unknownEscape (rest.take 1), ⟨rest, rfl, rfl⟩, ?_⟩
            simp only [stringParts.eq_3, known]
            rfl
        | some value =>
            obtain ⟨letter, found, known⟩ := Option.bind_eq_some_iff.mp known
            obtain ⟨tail, rfl⟩ := List.head?_eq_some_iff.mp found
            exact .inl ⟨.escape letter value, tail, rfl, known, trivial,
              stringParts_escape start loc tail known⟩
      by_cases opening : u = 0x24 ∧ rest.head? = some 0x7B
      · obtain ⟨rfl, brace⟩ := opening
        obtain ⟨inside, rfl⟩ := List.head?_eq_some_iff.mp brace
        cases found : code? inside with
        | error fault =>
            refine .inr ⟨fault, ?_, ?_⟩
            · exact pointsAt_code? found
            · rw [stringParts_opening, found]
        | ok code =>
            obtain ⟨tail, rfl, escaped, filled⟩ := code?_ok found
            refine .inl ⟨.code code (loc.right 2), tail, ?_, ⟨escaped, filled⟩, rfl, ?_⟩
            · simp [Segment.text]
            · have step := stringParts_braces start loc found
              simpa [Segment.text, Segment.onto] using step
      · have fits : (Segment.unit u).Fits rest := ⟨line, quote, backslash, opening⟩
        exact .inl ⟨.unit u, rest, rfl, fits, trivial, stringParts_unit start loc fits⟩

/-- How the reading of a literal ends behind its segments. -/
def Ends (segments : List Segment) (rest : Text) :
    Except Diagnostic (List StringPart × Nat) → Prop
  | .ok r => rest.head? = some 0x22 ∧ r = (partsOf segments, (spelled segments).length + 1)
  | .error d =>
      ((rest = [] ∨ rest.head? = some 0x0A) ∧
        d = SyntaxFault.unterminatedString.located start) ∨
      ∃ fault : SyntaxFault, fault.PointsAt rest ∧
        d = fault.located (loc.right (spelled segments).length)

/-- A literal is read segment by segment, up to its end or to what is at fault. -/
theorem stringParts_spelled (t : Text) :
    ∃ segments rest, t = spelled segments ++ rest ∧ Spelled rest loc segments ∧
      Ends start loc segments rest (stringParts start 0 t loc) := by
  induction length : t.length using Nat.strongRecOn generalizing t loc with
  | ind _ ih =>
      subst length
      rcases stringParts_front start loc t with
        ⟨stop, read⟩ | ⟨stop, read⟩ | ⟨s, rest, rfl, fits, begins, read⟩ | ⟨fault, points, read⟩
      · rw [read]
        exact ⟨[], t, rfl, trivial, .inl ⟨stop, rfl⟩⟩
      · rw [read]
        exact ⟨[], t, rfl, trivial, stop, rfl⟩
      · have shorter : rest.length < (s.text ++ rest).length := by
          have := s.text_pos
          rw [List.length_append]
          omega
        obtain ⟨segments, behind, rfl, row, ends⟩ :=
          ih rest.length shorter (loc.right s.text.length) rest rfl
        refine ⟨s :: segments, behind, by simp, ⟨fits, begins, row⟩, ?_⟩
        rw [read]
        cases later : stringParts start 0 (spelled segments ++ behind)
            (loc.right s.text.length) with
        | ok r =>
            rw [later] at ends
            obtain ⟨quote, rfl⟩ := ends
            refine ⟨quote, Prod.ext rfl ?_⟩
            simp only [spelled_cons, List.length_append]
            omega
        | error d =>
            rw [later] at ends
            rcases ends with stop | ⟨fault, points, place⟩
            · exact .inl stop
            · exact .inr ⟨fault, points, by simpa using place⟩
      · rw [read]
        exact ⟨[], t, rfl, trivial, .inr ⟨fault, points, rfl⟩⟩

end Front

end Lexer
end Loom
