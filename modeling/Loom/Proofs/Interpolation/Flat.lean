import Loom.Proofs.Layout.Lexing

/-!
How far code goes in a string. The brace that closes it is found without reading the code:
from a quote on, everything up to the next quote is passed over, whether the two belong to
one literal or not, and the braces outside of such stretches are counted. What is passed
over as a whole is called flat.
-/

namespace Loom

namespace Lexer

/-- Units up to a quote, in which a backslash takes the unit behind it along. -/
inductive Stretch : Text → Prop where
  | nil : Stretch []
  | unit {u : UInt16} {t : Text} (quote : u ≠ 0x22) (line : u ≠ 0x0A) (backslash : u ≠ 0x5C)
      (behind : Stretch t) : Stretch (u :: t)
  | pair {t : Text} (w : UInt16) (behind : Stretch t) : Stretch (0x5C :: w :: t)

/-- Units, stretches between two quotes, and such text between two braces. -/
inductive Flat : Text → Prop where
  | nil : Flat []
  | unit {u : UInt16} {t : Text} (line : u ≠ 0x0A) (quote : u ≠ 0x22) (opening : u ≠ 0x7B)
      (closing : u ≠ 0x7D) (behind : Flat t) : Flat (u :: t)
  | quoted {s t : Text} (inside : Stretch s) (behind : Flat t) : Flat (0x22 :: (s ++ 0x22 :: t))
  | braces {s t : Text} (inside : Flat s) (behind : Flat t) : Flat (0x7B :: (s ++ 0x7D :: t))

theorem map_add_map_add (m n : Nat) (x : Except SyntaxFault Nat) :
    (· + m) <$> ((· + n) <$> x) = (· + (n + m)) <$> x := by
  cases x with
  | error fault => rfl
  | ok k => exact congrArg Except.ok (Nat.add_assoc k n m)

/-! What is flat is passed over. -/

theorem Stretch.codeLength {s : Text} (stretch : Stretch s) (braces : Nat) (rest : Text) :
    codeLength true braces (s ++ 0x22 :: rest) =
      (· + (s.length + 1)) <$> Lexer.codeLength false braces rest := by
  induction stretch with
  | nil => exact codeLength_quoted_quote braces rest
  | unit quote line backslash _ ih =>
      rw [List.cons_append, codeLength_quoted_unit braces _ quote line backslash, ih,
        map_add_map_add, List.length_cons, Nat.add_right_comm]
  | pair w _ ih =>
      rw [List.cons_append, List.cons_append, codeLength_escape, ih, map_add_map_add]
      rfl

theorem Flat.codeLength {t : Text} (flat : Flat t) (braces : Nat) (rest : Text) :
    codeLength false braces (t ++ rest) =
      (· + t.length) <$> Lexer.codeLength false braces rest := by
  induction flat generalizing braces rest with
  | nil =>
      rw [List.nil_append]
      cases Lexer.codeLength false braces rest <;> rfl
  | unit line quote opening closing _ ih =>
      rw [List.cons_append, codeLength_unit braces _ line quote opening closing, ih,
        map_add_map_add]
      rfl
  | @quoted s t inside _ ih =>
      have text : 0x22 :: (s ++ 0x22 :: t) ++ rest = 0x22 :: (s ++ 0x22 :: (t ++ rest)) := by simp
      have size : t.length + (s.length + 1 + 1) = (0x22 :: (s ++ 0x22 :: t)).length := by
        simp only [List.length_cons, List.length_append]
        omega
      rw [text, codeLength_quote, inside.codeLength, ih, map_add_map_add, map_add_map_add, size]
  | @braces s t _ _ ih ih' =>
      have text : 0x7B :: (s ++ 0x7D :: t) ++ rest = 0x7B :: (s ++ 0x7D :: (t ++ rest)) := by simp
      have size : t.length + (1 + (s.length + 1)) = (0x7B :: (s ++ 0x7D :: t)).length := by
        simp only [List.length_cons, List.length_append]
        omega
      rw [text, codeLength_open, ih, codeLength_close, ih', map_add_map_add, map_add_map_add,
        map_add_map_add, size]

/-! What is passed over is flat. -/

theorem exists_stretch (quoted : Bool) (braces : Nat) (t : Text) (n : Nat) (within : quoted = true)
    (found : codeLength quoted braces t = .ok n) :
    ∃ s rest m, t = s ++ 0x22 :: rest ∧ Stretch s ∧ codeLength false braces rest = .ok m ∧
      n = m + s.length + 1 := by
  fun_induction codeLength quoted braces t generalizing n with
  | case1 | case4 | case5 => cases found
  | case2 | case8 | case9 | case10 | case11 | case12 | case13 => cases within
  | case3 braces u rest quote ih =>
      obtain ⟨m, inner, rfl⟩ := ok_of_map found
      rw [eq_of_isQuote quote]
      exact ⟨[], rest, m, rfl, .nil, inner, rfl⟩
  | case6 braces u quote line backslash w tail ih =>
      obtain ⟨m, inner, rfl⟩ := ok_of_map found
      obtain ⟨s, rest, k, rfl, stretch, behind, rfl⟩ := ih m rfl inner
      rw [eq_of_isBackslash backslash]
      exact ⟨0x5C :: w :: s, rest, k, rfl, .pair w stretch, behind, rfl⟩
  | case7 braces u tail quote line backslash ih =>
      obtain ⟨m, inner, rfl⟩ := ok_of_map found
      obtain ⟨s, rest, k, rfl, stretch, behind, rfl⟩ := ih m rfl inner
      refine ⟨u :: s, rest, k, rfl, .unit ?_ ?_ ?_ stretch, behind, rfl⟩
      · simpa [isQuote] using quote
      · simpa [isLineEnd] using line
      · simpa [isBackslash] using backslash

/-- What is left to pass over at a brace that closes some text: nothing where no brace was
open, and else the code on from there. -/
def Remains (braces : Nat) (s rest : Text) (n : Nat) : Prop :=
  match braces with
  | 0 => n = s.length
  | outer + 1 => ∃ m, codeLength false outer rest = .ok m ∧ n = m + s.length + 1

theorem Remains.longer {braces n n' : Nat} {s s' rest : Text} (remains : Remains braces s rest n)
    (more : n' + s.length = n + s'.length) : Remains braces s' rest n' := by
  cases braces with
  | zero =>
      have all : n = s.length := remains
      show n' = s'.length
      omega
  | succ outer =>
      obtain ⟨m, inner, rfl⟩ := remains
      exact ⟨m, inner, by omega⟩

/-- Text up to a brace that closes more than was opened is flat. -/
theorem exists_flat (braces : Nat) (t : Text) (n : Nat)
    (found : codeLength false braces t = .ok n) :
    ∃ s rest, t = s ++ 0x7D :: rest ∧ Flat s ∧ Remains braces s rest n := by
  -- on the length, since the scan goes on behind whole strings and whole pairs of braces
  induction size : t.length using Nat.strongRecOn generalizing braces t n with
  | ind _ ih =>
      subst size
      cases t with
      | nil => cases found
      | cons u tail =>
          by_cases quote : u = 0x22
          · subst quote
            rw [codeLength_quote] at found
            obtain ⟨m, inner, rfl⟩ := ok_of_map found
            obtain ⟨s, rest, k, rfl, stretch, behind, rfl⟩ :=
              exists_stretch true braces tail m rfl inner
            have shorter : rest.length < (0x22 :: (s ++ 0x22 :: rest)).length := by
              simp only [List.length_cons, List.length_append]
              omega
            obtain ⟨s', rest', rfl, flat, remains⟩ := ih _ shorter braces rest k behind rfl
            refine ⟨0x22 :: (s ++ 0x22 :: s'), rest', by simp, .quoted stretch flat,
              remains.longer ?_⟩
            simp only [List.length_cons, List.length_append]
            omega
          by_cases opening : u = 0x7B
          · subst opening
            rw [codeLength_open] at found
            obtain ⟨m, inner, rfl⟩ := ok_of_map found
            obtain ⟨s, rest, rfl, flat, k, behind, rfl⟩ :=
              ih tail.length (Nat.lt_succ_self _) (braces + 1) tail m inner rfl
            have shorter : rest.length < (0x7B :: (s ++ 0x7D :: rest)).length := by
              simp only [List.length_cons, List.length_append]
              omega
            obtain ⟨s', rest', rfl, flat', remains⟩ := ih _ shorter braces rest k behind rfl
            refine ⟨0x7B :: (s ++ 0x7D :: s'), rest', by simp, .braces flat flat',
              remains.longer ?_⟩
            simp only [List.length_cons, List.length_append]
            omega
          by_cases closing : u = 0x7D
          · subst closing
            refine ⟨[], tail, rfl, .nil, ?_⟩
            cases braces with
            | zero =>
                cases found
                rfl
            | succ outer =>
                rw [codeLength_close] at found
                obtain ⟨m, inner, rfl⟩ := ok_of_map found
                exact ⟨m, inner, rfl⟩
          · have line : u ≠ 0x0A := by
              rintro rfl
              cases found
            rw [codeLength_unit braces _ line quote opening closing] at found
            obtain ⟨m, inner, rfl⟩ := ok_of_map found
            obtain ⟨s, rest, rfl, flat, remains⟩ :=
              ih tail.length (Nat.lt_succ_self _) braces tail m inner rfl
            refine ⟨u :: s, rest, rfl, .unit line quote opening closing flat, remains.longer ?_⟩
            rw [List.length_cons]
            omega

/-- Code ends at the brace behind it just when it is flat. -/
theorem codeLength_iff (code rest : Text) :
    codeLength false 0 (code ++ 0x7D :: rest) = .ok code.length ↔ Flat code := by
  constructor
  · intro found
    obtain ⟨s, rest', same, flat, size⟩ := exists_flat _ _ _ found
    obtain ⟨rfl, _⟩ := List.append_inj same size
    exact flat
  · intro flat
    rw [flat.codeLength]
    exact congrArg Except.ok (Nat.zero_add _)

theorem code?_iff (code rest : Text) :
    code? (code ++ 0x7D :: rest) = .ok code ↔ Flat code ∧ (Text.trim code).isEmpty = false := by
  constructor
  · intro found
    obtain ⟨length, measured, found⟩ := ok_of_bind found
    obtain ⟨inner, tail, same, flat, rfl⟩ := exists_flat _ _ _ measured
    simp only [same, List.take_left] at found
    split at found
    · cases found
    · rename_i filled
      cases found
      exact ⟨flat, by simpa using filled⟩
  · rintro ⟨flat, filled⟩
    have measured := (codeLength_iff code rest).mpr flat
    rw [code?, measured]
    show (if (Text.trim ((code ++ 0x7D :: rest).take code.length)).isEmpty then _ else _) = _
    rw [List.take_left, filled]
    rfl

/-! Tokens that are flat. -/

/-- Units that are no quotes, braces or line ends. -/
theorem flat_of_plain {t : Text} (line : 0x0A ∉ t) (quote : 0x22 ∉ t) (opening : 0x7B ∉ t)
    (closing : 0x7D ∉ t) : Flat t := by
  induction t with
  | nil => exact .nil
  | cons u rest ih =>
      rw [List.mem_cons, not_or] at line quote opening closing
      exact .unit (Ne.symm line.1) (Ne.symm quote.1) (Ne.symm opening.1) (Ne.symm closing.1)
        (ih line.2 quote.2 opening.2 closing.2)

/-- Text without a quote is no end of a stretch, also where its last unit is a backslash. -/
theorem stretch_of_no_quote {s t : Text} (quote : 0x22 ∉ s) (line : 0x0A ∉ s)
    (stretch : Stretch t) : Stretch (s ++ 0x7D :: t) := by
  induction size : s.length using Nat.strongRecOn generalizing s with
  | ind _ ih =>
      subst size
      match s with
      | [] => exact .unit (by decide) (by decide) (by decide) stretch
      | u :: tail =>
          rw [List.mem_cons, not_or] at quote line
          by_cases backslash : u = 0x5C
          · subst backslash
            match tail with
            | [] => exact .pair 0x7D stretch
            | w :: tail =>
                rw [List.mem_cons, not_or] at quote line
                have shorter : tail.length < (0x5C :: w :: tail).length := by
                  simp only [List.length_cons]
                  omega
                exact .pair w (ih tail.length shorter quote.2.2 line.2.2 rfl)
          · exact .unit (Ne.symm quote.1) (Ne.symm line.1) backslash
              (ih tail.length (Nat.lt_succ_self _) quote.2 line.2 rfl)

/-- A literal without quotes in its code is one stretch between its own two. -/
theorem stretch_spelled {rest : Text} {loc : Location} {segments : List Segment}
    (row : Spelled rest loc segments) (line : 0x0A ∉ spelled segments)
    (quoteless : ∀ code place, .code code place ∈ segments → 0x22 ∉ code) :
    Stretch (spelled segments) := by
  induction segments generalizing loc with
  | nil => exact .nil
  | cons s segments ih =>
      obtain ⟨fits, _, row⟩ := row
      rw [spelled_cons, List.mem_append, not_or] at line
      have behind := ih row line.2 fun code place among => quoteless code place (.tail _ among)
      rw [spelled_cons]
      cases s with
      | unit u => exact .unit fits.2.1 fits.1 fits.2.2.1 behind
      | escape letter value => exact .pair letter behind
      | code source place =>
          have quote : 0x22 ∉ source := quoteless source place (.head _)
          have inside : 0x0A ∉ source := fun among => line.1 (by simp [Segment.text, among])
          have text : Segment.text (.code source place) ++ spelled segments =
              0x24 :: 0x7B :: (source ++ 0x7D :: spelled segments) := by simp [Segment.text]
          rw [text]
          exact .unit (by decide) (by decide) (by decide)
            (.unit (by decide) (by decide) (by decide) (stretch_of_no_quote quote inside behind))

end Lexer

end Loom
