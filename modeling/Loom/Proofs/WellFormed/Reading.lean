import Loom.Proofs.Reading.Statement
import Loom.Proofs.Tiling
import Loom.Proofs.WellFormed
import Loom.Proofs.Whole

/-!
Programs that are read are well formed, if their text is short enough that doubles can count its
lines and units. A text that begins where there is room for it has no token without room, and all
its names are spelled as names.
-/

namespace Loom

namespace Location.HasRoom

variable {loc : Location} {units : Nat}

theorem right {n : Nat} (room : loc.HasRoom (units + n)) : (loc.right n).HasRoom units := by
  obtain ⟨first, enough⟩ := room
  refine ⟨first, ?_⟩
  simp only [Location.right]
  omega

theorem nextLine (room : loc.HasRoom (units + 1)) : loc.nextLine.HasRoom units := by
  obtain ⟨first, enough⟩ := room
  refine ⟨Nat.le_succ_of_le first, ?_⟩
  simp only [Location.nextLine]
  omega

end Location.HasRoom

/-- Code in a string has room where it begins. -/
def StringPart.WellFormed : StringPart → Prop
  | .text _ => True
  | .code source loc => loc.HasRoom source.length

def Lexeme.WellFormed : Lexeme → Prop
  | .ident name => Check.isIdentifier name = true
  | .string _ parts => ∀ part ∈ parts, part.WellFormed
  | _ => True

structure Token.WellFormed (t : Token) : Prop where
  place : t.loc.HasRoom 0
  lexeme : t.lexeme.WellFormed

namespace Lexer

/-- Words are what names have to be. -/
theorem isIdentifier_of_isWord {t : Text} (word : IsWord t) : Check.isIdentifier t = true := by
  obtain ⟨u, tail, rfl, start, parts⟩ := word
  simp only [Check.isIdentifier, Bool.and_eq_true, List.all_eq_true]
  exact ⟨start, parts⟩

theorem code?_length {t code : Text} (found : code? t = .ok code) : code.length ≤ t.length := by
  obtain ⟨length, _, found⟩ := ok_of_bind found
  simp only at found
  split at found
  · cases found
  · cases found
    exact List.length_take_le' length t

theorem wellFormed_consUnit {u : UInt16} {parts : List StringPart}
    (formed : ∀ part ∈ parts, part.WellFormed) : ∀ part ∈ consUnit u parts, part.WellFormed := by
  intro part among
  cases part with
  | text value => trivial
  | code source place => exact formed _ (code_mem_consUnit among)

theorem wellFormed_stringParts (start : Location) (skip : Nat) (t : Text) (loc : Location)
    (parts : List StringPart) (n : Nat) (read : stringParts start skip t loc = .ok (parts, n))
    (room : loc.HasRoom t.length) : ∀ part ∈ parts, part.WellFormed := by
  fun_induction stringParts start skip t loc generalizing parts n with
  | case1 | case3 | case5 | case7 => cases read
  | case4 =>
      cases read
      exact List.forall_mem_nil _
  | case2 skip u rest loc ih =>
      obtain ⟨r, behind, read⟩ := ok_of_bind read
      cases read
      exact ih _ _ behind room.right
  | case6 u rest loc _ _ _ v _ ih =>
      obtain ⟨r, behind, read⟩ := ok_of_bind read
      cases read
      exact wellFormed_consUnit (ih _ _ behind room.right)
  | case8 u rest loc _ _ _ opens code text ih =>
      obtain ⟨r, behind, read⟩ := ok_of_bind read
      cases read
      refine List.forall_mem_cons.mpr ⟨?_, ih _ _ behind room.right⟩
      -- the sign and the opening brace stand in front of the code
      have shorter := code?_length text
      have brace : rest ≠ [] := by
        rintro rfl
        simp at opens
      have filled := List.length_pos_iff.mpr brace
      rw [List.length_drop] at shorter
      exact (room.less (by simp only [List.length_cons]; omega)).right
  | case9 u rest loc _ _ _ _ ih =>
      obtain ⟨r, behind, read⟩ := ok_of_bind read
      cases read
      exact wellFormed_consUnit (ih _ _ behind room.right)

theorem wellFormed_piece {u : UInt16} {rest : Text} {loc : Location} {lexeme : Lexeme} {n : Nat}
    (found : piece u (u :: rest) loc = .ok (some lexeme, n))
    (room : loc.HasRoom (u :: rest).length) : lexeme.WellFormed := by
  rcases piece_cases found with ⟨_, rfl⟩ | ⟨_, rfl⟩ | ⟨start, rfl⟩ | ⟨_, quoted⟩ | ⟨s, rfl⟩
  · trivial
  · trivial
  · rcases wordLexeme_cases (wordText (u :: rest)) with ⟨keyword, is, _⟩ | ⟨is, _⟩
    · rw [is]
      trivial
    · rw [is]
      exact isIdentifier_of_isWord (isWord_wordText start)
  · obtain ⟨parts, length, read, rfl⟩ := stringLexeme_eq quoted
    have formed := wellFormed_stringParts _ _ _ _ _ _ read room.right
    intro part among
    split at among
    · rw [List.mem_singleton.mp among]
      trivial
    · exact formed part among
  · trivial

theorem wellFormed_scan (skip : Nat) (source : Text) (loc : Location) (tokens : List Token)
    (cut : scan skip source loc = .ok tokens) (room : loc.HasRoom source.length) :
    ∀ t ∈ tokens, t.WellFormed := by
  fun_induction scan skip source loc generalizing tokens with
  | case1 skip loc =>
      cases cut
      exact List.forall_mem_singleton.mpr ⟨room, trivial⟩
  | case2 skip u rest loc ih => exact ih tokens cut room.right
  | case3 u rest loc ih =>
      obtain ⟨⟨lexeme?, length⟩, first, cut⟩ := ok_of_bind cut
      obtain ⟨others, behind, cut⟩ := ok_of_bind cut
      have there : (if isLineEnd u then loc.nextLine else loc.right 1).HasRoom rest.length := by
        split
        · exact room.nextLine
        · exact room.right
      have later := ih length others behind there
      cases lexeme? with
      | none =>
          cases cut
          exact later
      | some lexeme =>
          cases cut
          exact List.forall_mem_cons.mpr
            ⟨⟨room.less (Nat.zero_le _), wellFormed_piece first room⟩, later⟩

end Lexer

namespace Grammar

theorem Cursor.ahead_ofTokens {source : Text} {loc : Location} {tokens : List Token}
    (cut : tokenize source loc = .ok tokens) (room : loc.HasRoom source.length) :
    (Cursor.ofTokens tokens).Ahead Token.WellFormed := by
  have formed := Lexer.wellFormed_scan 0 source loc tokens cut room
  obtain ⟨init, stop, rfl, _⟩ := tokenize_eq cut
  have cursor : Cursor.ofTokens (init ++ [⟨.eof, stop⟩]) = ⟨init, stop⟩ := by
    simp [Cursor.ofTokens]
  rw [cursor]
  exact formed

theorem Stands.hasRoom {loc : Location} (stands : Stands Token.WellFormed loc) :
    loc.HasRoom 0 := by
  obtain ⟨t, formed, rfl⟩ := stands
  exact formed.place

theorem Spells.isIdentifier {name : Text} (spells : Spells Token.WellFormed name) :
    Check.isIdentifier name = true := by
  obtain ⟨t, formed, is⟩ := spells
  simpa only [is, Lexeme.WellFormed] using formed.lexeme

theorem LoopCount.isLoopDepth {depth : Nat} (counts : LoopCount depth) : IsLoopDepth depth := by
  cases counts with
  | one => exact ⟨Nat.le_refl 1, Double.wholeOf?_ofNat (by decide)⟩
  | literal whole => exact ⟨Nat.le_add_left 1 _, wholeOf?_ofNat_of_known whole⟩

/-- From well-formed tokens well-formed trees are read. Any fault is allowed. -/
def Standard.wellFormed : Standard where
  token := Token.WellFormed
  fault _ := True
  expr := Expr.WellFormed
  procedure := Procedure.WellFormed
  block _ := Block.WellFormed
  stmt _ := Stmt.WellFormed
  located _ _ := trivial
  cut := by
    intro t written parts source loc tokens formed is among cut
    have room : ∀ part ∈ parts, part.WellFormed := by
      simpa only [is, Lexeme.WellFormed] using formed.lexeme
    exact Cursor.ahead_ofTokens cut (room _ among)
  uncut _ := trivial
  number place := ⟨place.hasRoom, isNaN_literalValue _⟩
  opposite fine place := ⟨place.hasRoom, (Double.isNaN_neg _).trans fine.2⟩
  bool place := place.hasRoom
  null place := place.hasRoom
  string place fine := ⟨place.hasRoom, (Segment.allWellFormed_iff _).mpr fine⟩
  ident place spelled := ⟨place.hasRoom, spelled.isIdentifier⟩
  array place fine := ⟨place.hasRoom, (Expr.allWellFormed_iff _).mpr fine⟩
  hash place fine := ⟨place.hasRoom, (Entry.allWellFormed_iff _).mpr fine⟩
  new place there fine :=
    ⟨place.hasRoom, there.hasRoom, (Entry.allWellFormed_iff _).mpr fine⟩
  ref place spelled outer :=
    ⟨place.hasRoom, spelled.isIdentifier, fun name is => (outer name is).isIdentifier⟩
  lambda place fine := ⟨place.hasRoom, fine⟩
  call place callee args := ⟨place.hasRoom, callee, (Expr.allWellFormed_iff _).mpr args⟩
  field place object spelled := ⟨place.hasRoom, object, spelled.isIdentifier⟩
  index place object position := ⟨place.hasRoom, object, position⟩
  choice place condition consequent alternate :=
    ⟨place.hasRoom, condition, consequent, alternate⟩
  unary place operand := ⟨place.hasRoom, operand⟩
  binary place left right := ⟨place.hasRoom, left, right⟩
  body params uses body :=
    ⟨rfl, fun name among => (params name among).isIdentifier,
      fun name among => (uses name among).isIdentifier, body⟩
  statements place fine := ⟨place.hasRoom, (Stmt.allWellFormed_iff _).mpr fine⟩
  define place spelled fine := ⟨place.hasRoom, spelled.isIdentifier, fine⟩
  cond := by
    intro ctx first others alternate loc place branches fine
    have formed := (Branch.allWellFormed_iff (first :: others)).mpr branches
    cases alternate with
    | none => exact ⟨place.hasRoom, List.cons_ne_nil _ _, formed⟩
    | some b => exact ⟨place.hasRoom, List.cons_ne_nil _ _, formed, fine b rfl⟩
  forEach place spelled subject body :=
    ⟨place.hasRoom, spelled.isIdentifier, subject, body⟩
  whileLoop place condition body := ⟨place.hasRoom, condition, body⟩
  assign := by
    intro ctx e target op value loc place fine found fine'
    -- the target is made of parts of the expression that was read for it
    have formed : target.WellFormed := by
      cases e with
      | ident name loc =>
          cases found
          exact fine
      | field object name loc =>
          cases found
          exact fine
      | index object position loc =>
          cases found
          exact fine
      | _ => cases found
    exact ⟨place.hasRoom, formed, fine'⟩
  use place _ spelled :=
    ⟨place.hasRoom, List.cons_ne_nil _ _, fun name among => (spelled name among).isIdentifier⟩
  giveBack := by
    intro ctx value loc place _ fine
    cases value with
    | none => exact place.hasRoom
    | some e => exact ⟨place.hasRoom, fine e rfl⟩
  emit place fine key :=
    ⟨place.hasRoom, fine, fun name is => (key name is).isIdentifier⟩
  imports place _ spelled :=
    ⟨place.hasRoom, List.cons_ne_nil _ _, fun name among => (spelled name among).isIdentifier⟩
  leave place counts _ := ⟨place.hasRoom, counts.isLoopDepth⟩
  next place counts _ := ⟨place.hasRoom, counts.isLoopDepth⟩
  perform place fine := ⟨place.hasRoom, fine⟩

end Grammar

/-- A program that is read from a text which is not too long for its places is well formed. -/
theorem wellFormed_of_parse {source : Text} {program : Program}
    (parsed : parse source = .ok program) (short : source.length < 2 ^ 53) :
    program.WellFormed := by
  have room : Location.origin.HasRoom source.length :=
    ⟨Nat.le_refl 1, by simp only [Location.origin]; omega⟩
  have outcome : Grammar.Standard.wellFormed.Gives _ (parse source) :=
    Grammar.gives_parse fun _ cut => Grammar.Cursor.ahead_ofTokens cut room
  rw [parsed] at outcome
  exact outcome

end Loom
