import Loom.Proofs.Relocation
import Loom.Proofs.Tiling

/-!
Text at other places. The lexer only ever goes on from a place, along a line or to the next
one. So wherever a text is said to begin, it is cut into the same tokens or is at fault in the
same way, with all places moved alike.
-/

namespace Loom

/-- A diagnostic with what is put for its place. -/
def Diagnostic.relocated (f : Location → Location) (d : Diagnostic) : Diagnostic :=
  { d with loc := d.loc.map f }

/-- An outcome with what is put for its places. -/
def relocatedOutcome {α : Type} (f : Location → Location) (move : α → α) :
    Except Diagnostic α → Except Diagnostic α
  | .ok a => .ok (move a)
  | .error d => .error (d.relocated f)

theorem relocatedOutcome_bind {α β : Type} {f : Location → Location} {move : α → α}
    {move' : β → β} {x : Except Diagnostic α} {g g' : α → Except Diagnostic β}
    (rest : ∀ a, g' (move a) = relocatedOutcome f move' (g a)) :
    relocatedOutcome f move x >>= g' = relocatedOutcome f move' (x >>= g) := by
  cases x with
  | ok a => exact rest a
  | error d => rfl

namespace Lexer

theorem consUnit_relocated (f : Location → Location) (u : UInt16) (parts : List StringPart) :
    (consUnit u parts).map (StringPart.relocated f) =
      consUnit u (parts.map (StringPart.relocated f)) := by
  cases parts with
  | nil => rfl
  | cons part rest => cases part <;> rfl

section

variable {f : Location → Location} (along : ∀ loc n, f (loc.right n) = (f loc).right n)
include along

theorem stringParts_relocated (start : Location) (skip : Nat) (t : Text) (loc : Location) :
    stringParts (f start) skip t (f loc) =
      relocatedOutcome f (fun r => (r.1.map (StringPart.relocated f), r.2))
        (stringParts start skip t loc) := by
  have further (u : UInt16) (r : List StringPart × Nat) :
      (.ok (consUnit u (r.1.map (StringPart.relocated f)), r.2 + 1) :
        Except Diagnostic (List StringPart × Nat)) =
      .ok ((consUnit u r.1).map (StringPart.relocated f), r.2 + 1) := by
    rw [consUnit_relocated]
  fun_induction stringParts start skip t loc with
  | case1 => rw [stringParts]; rfl
  | case2 skip u rest loc ih =>
      rw [stringParts, ← along, ih]
      exact relocatedOutcome_bind fun r => rfl
  | case3 u rest loc line =>
      rw [stringParts, if_pos line]
      rfl
  | case4 u rest loc line quote =>
      rw [stringParts, if_neg line, if_pos quote]
      rfl
  | case5 u rest loc line quote backslash known =>
      rw [stringParts, if_neg line, if_neg quote, if_pos backslash, known]
      rfl
  | case6 u rest loc line quote backslash value known ih =>
      rw [stringParts, if_neg line, if_neg quote, if_pos backslash, known, ← along]
      simp only [ih]
      exact relocatedOutcome_bind fun r => further _ r
  | case7 u rest loc line quote backslash opening fault text =>
      rw [stringParts, if_neg line, if_neg quote, if_neg backslash, if_pos opening, text]
      rfl
  | case8 u rest loc line quote backslash opening code text ih =>
      rw [stringParts, if_neg line, if_neg quote, if_neg backslash, if_pos opening, text,
        ← along, ← along]
      simp only [ih]
      exact relocatedOutcome_bind fun r => rfl
  | case9 u rest loc line quote backslash other ih =>
      rw [stringParts, if_neg line, if_neg quote, if_neg backslash, if_neg other, ← along, ih]
      exact relocatedOutcome_bind fun r => further _ r

theorem stringLexeme_relocated (t : Text) (loc : Location) :
    stringLexeme t (f loc) =
      relocatedOutcome f (fun r => (r.1.relocated f, r.2)) (stringLexeme t loc) := by
  rw [stringLexeme, ← along, stringParts_relocated along]
  refine relocatedOutcome_bind fun r => ?_
  obtain ⟨_ | ⟨part, parts⟩, n⟩ := r <;> rfl

theorem piece_relocated (u : UInt16) (t : Text) (loc : Location) :
    piece u t (f loc) =
      relocatedOutcome f (fun r => (r.1.map (Lexeme.relocated f), r.2)) (piece u t loc) := by
  have word : (wordLexeme (wordText t)).relocated f = wordLexeme (wordText t) := by
    rcases wordLexeme_cases (wordText t) with ⟨k, is, _⟩ | ⟨is, _⟩ <;> rw [is] <;> rfl
  unfold piece
  split
  · rfl
  split
  · rfl
  split
  · rfl
  split
  · rfl
  split
  · exact congrArg (fun l => Except.ok (some l, (wordText t).length)) word.symm
  split
  · rw [stringLexeme_relocated along]
    exact relocatedOutcome_bind fun r => rfl
  · split <;> rfl

/-- A text that begins at another place is cut alike, if lines go on alike from there. -/
theorem scan_relocated (down : ∀ loc, 1 ≤ loc.line → f loc.nextLine = (f loc).nextLine)
    (skip : Nat) (t : Text) (loc : Location) (counted : 1 ≤ loc.line) :
    scan skip t (f loc) =
      relocatedOutcome f (List.map (Token.relocated f)) (scan skip t loc) := by
  fun_induction scan skip t loc with
  | case1 =>
      rw [scan]
      rfl
  | case2 skip u rest loc ih =>
      rw [scan, ← along, ih counted]
  | case3 u rest loc ih =>
      have next : (if isLineEnd u then (f loc).nextLine else (f loc).right 1) =
          f (if isLineEnd u then loc.nextLine else loc.right 1) := by
        split
        · exact (down loc counted).symm
        · exact (along loc 1).symm
      have later : 1 ≤ (if isLineEnd u then loc.nextLine else loc.right 1).line := by
        split
        · exact Nat.le_add_left 1 loc.line
        · exact counted
      rw [scan, piece_relocated along]
      refine relocatedOutcome_bind fun r => ?_
      rw [next]
      simp only [ih r.2 later]
      refine relocatedOutcome_bind fun tokens => ?_
      obtain ⟨_ | lexeme, n⟩ := r <;> rfl

end

end Lexer

/-- A place in a text that begins at `start`, by what the place is in the text that begins at
the first line: the first line is further to the right, and all are further down. -/
def Location.moved (start loc : Location) : Location :=
  ⟨loc.line + start.line - 1, if loc.line = 1 then loc.column + start.column else loc.column⟩

namespace Location

theorem moved_origin (start : Location) : start.moved .origin = start := by
  simp [moved, origin]

theorem moved_right (start loc : Location) (n : Nat) :
    start.moved (loc.right n) = (start.moved loc).right n := by
  by_cases first : loc.line = 1
  · simp [moved, right, first, Nat.add_right_comm]
  · simp [moved, right, first]

theorem moved_nextLine (start loc : Location) (counted : 1 ≤ loc.line) :
    start.moved loc.nextLine = (start.moved loc).nextLine := by
  have further : loc.line + 1 ≠ 1 := by omega
  simp only [moved, nextLine, further, if_false, Location.mk.injEq, and_true]
  omega

end Location

theorem tokenize_moved (source : Text) (start : Location) :
    tokenize source start =
      relocatedOutcome start.moved (List.map (Token.relocated start.moved))
        (tokenize source .origin) := by
  have along := Lexer.scan_relocated start.moved_right start.moved_nextLine 0 source .origin
    (Nat.le_refl 1)
  rwa [start.moved_origin] at along

end Loom
