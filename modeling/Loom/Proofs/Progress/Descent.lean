import Loom.Proofs.Progress.Statement

/-!
Coming back to the rules. Where a rule may come back to them there is less text left than
where it began, in the tokens ahead or in the code of one. So no chain of rules that come
back to each other goes on for ever, and rules that are tied together often enough for the
length of a text are tied together often enough for good.
-/

namespace Loom

namespace Grammar

variable {c d : Cursor}

/-- A token with some text, and with less text in its code than it has itself. -/
def Sized (t : Token) : Prop :=
  t.lexeme.text ≠ [] ∧ ∀ written parts code loc, t.lexeme = .string written parts →
    .code code loc ∈ parts → code.length < written.length

theorem sized_of_held {source : Text} {t : Token} (held : Lexer.Holds source t) : Sized t := by
  let blindly : Views := ⟨fun _ => .origin, fun _ => .origin, fun _ _ => rfl⟩
  have tame := Lexer.tame_of_held (v := blindly) held fun _ _ _ => rfl
  exact ⟨tame.1, fun written parts code loc is part =>
    (tame.2 written parts code loc is part).1⟩

def Cursor.Sized (c : Cursor) : Prop := ∀ t ∈ c.tokens, Grammar.Sized t

/-- The tokens of a text have their size, and no more text than it. -/
theorem sized_ofTokens {source : Text} {start : Location} {tokens : List Token}
    (cut : tokenize source start = .ok tokens) :
    (Cursor.ofTokens tokens).Sized ∧
      Lexer.lengthOf (Cursor.ofTokens tokens).tokens ≤ source.length := by
  obtain ⟨init, stop, rfl, held⟩ := tokenize_eq cut
  rw [Cursor.ofTokens_append]
  exact ⟨fun t among => sized_of_held (held t among), Lexer.lengthOf_of_tokenize cut⟩

namespace Cursor.Sized

variable (sized : c.Sized)
include sized

theorem beneath (beneath : c.Beneath d) : d.Sized := by
  rcases beneath with before | ⟨t, among, code⟩
  · exact fun t among => sized t (before.left.subset among)
  · cases code with
    | intro is part cut => exact (sized_ofTokens cut).1

theorem size_lt (beneath : c.Beneath d) : Lexer.lengthOf d.tokens < Lexer.lengthOf c.tokens := by
  rcases beneath with before | ⟨t, among, code⟩
  · obtain ⟨taken, split⟩ := before.left
    have fewer := before.fewer
    cases taken with
    | nil => exact absurd (congrArg List.length split) (Nat.ne_of_lt fewer)
    | cons t taken =>
        have filled := List.length_pos_iff.mpr (sized t (split ▸ .head _)).1
        rw [← split, List.cons_append, Lexer.lengthOf, Lexer.lengthOf_append]
        omega
  · cases code with
    | @intro written code parts loc tokens is part cut =>
        have shorter := (sized t among).2 written parts code loc is part
        have here := Lexer.length_le_lengthOf among
        rw [is] at here
        exact ((sized_ofTokens cut).2.trans_lt shorter).trans_le here

theorem done (last : c.head.lexeme = .eof) : c.tokens = [] := by
  by_contra more
  exact (sized _ (Cursor.head_mem more)).1 (by rw [last]; rfl)

theorem acc : Acc (fun e d => Cursor.Beneath d e) c := by
  induction size : Lexer.lengthOf c.tokens using Nat.strongRecOn generalizing c with
  | ind _ ih =>
      subst size
      exact .intro c fun d beneath => ih _ (sized.size_lt beneath) (sized.beneath beneath) rfl

end Cursor.Sized

theorem Cursor.Placed.beneath {w : Faults} (placed : c.Placed w) (beneath : c.Beneath d) :
    d.Placed w := by
  rcases beneath with before | ⟨t, among, code⟩
  · exact placed.upto before.toUpto
  · cases code with
    | intro is part cut => exact placed_ofTokens cut ((placed.tokens t among).2 _ _ _ _ is part)

/-! The rules tied together. -/

def Rules.over (rules : Rules) : Rules where
  expression := Grammar.expression rules
  negation := Grammar.negation rules
  unary := Grammar.unary rules
  block := Grammar.block rules

/-- Rules that take tokens, a block perhaps none and the others one at the least. -/
structure Rules.Take (rules : Rules) : Prop where
  expression : ∀ c, Ends (fun _ => True) (fun _ d => c.Before d) (rules.expression c)
  negation : ∀ c, Ends (fun _ => True) (fun _ d => c.Before d) (rules.negation c)
  unary : ∀ c, Ends (fun _ => True) (fun _ d => c.Before d) (rules.unary c)
  block : ∀ ctx ending c, Ends (fun _ => True) (fun _ d => c.Upto d) (rules.block ctx ending c)

structure Rules.SameAt (rules rules' : Rules) (c : Cursor) : Prop where
  expression : rules'.expression c = rules.expression c
  negation : rules'.negation c = rules.negation c
  unary : rules'.unary c = rules.unary c
  block : ∀ ctx ending, rules'.block ctx ending c = rules.block ctx ending c

section

variable {w : Faults} {P Q : Cursor → Prop} {rules rules' : Rules}

/-- Rules made of rules that are alike are alike where they come back to those only. -/
theorem alike_over (alike : rules.AlikeAt w P rules') (opened : ∀ c, Q c → c.Open w P) :
    rules.over.AlikeAt w Q rules'.over where
  expression c at_c := alike_expression alike (opened c at_c)
  negation c at_c := alike_negation alike (opened c at_c)
  unary c at_c := alike_unary alike (opened c at_c)
  block ctx ending c at_c :=
    (alike_block alike ctx ending (opened c at_c)).imp fun _ _ on => on.1

theorem alike_never (never : ∀ c, ¬ P c) : rules.AlikeAt w P rules' where
  expression c at_c := absurd at_c (never c)
  negation c at_c := absurd at_c (never c)
  unary c at_c := absurd at_c (never c)
  block _ _ c at_c := absurd at_c (never c)

theorem Cursor.placed_any (c : Cursor) : c.Placed .any :=
  ⟨fun _ _ => ⟨trivial, fun _ _ _ _ _ _ => trivial⟩, trivial⟩

theorem Rules.Take.alike (take : rules.Take) (same : ∀ d, P d → rules.SameAt rules' d) :
    rules.AlikeAt .any P rules' where
  expression d at_d := ⟨(same d at_d).expression, take.expression d⟩
  negation d at_d := ⟨(same d at_d).negation, take.negation d⟩
  unary d at_d := ⟨(same d at_d).unary, take.unary d⟩
  block ctx ending d at_d := ⟨(same d at_d).block ctx ending, take.block ctx ending d⟩

/-- What rules do at a cursor, the rules that they come back to decide beneath it. -/
theorem Rules.Take.over_same (take : rules.Take)
    (same : ∀ d, c.Beneath d → rules.SameAt rules' d) : rules.over.SameAt rules'.over c := by
  have alike : rules.over.AlikeAt .any (· = c) rules'.over := by
    refine alike_over (take.alike same) ?_
    rintro e rfl
    exact ⟨e.placed_any, fun d beneath => beneath⟩
  exact ⟨(alike.expression c rfl).1, (alike.negation c rfl).1, (alike.unary c rfl).1,
    fun ctx ending => (alike.block ctx ending c rfl).1⟩

/-- Rules that take tokens, wherever they are come back to. -/
theorem Rules.Take.always (take : rules.Take) : rules.AlikeAt .any (fun _ => True) rules :=
  take.alike fun _ _ => ⟨rfl, rfl, rfl, fun _ _ => rfl⟩

theorem Cursor.open_any (c : Cursor) : c.Open .any fun _ => True :=
  ⟨c.placed_any, fun _ _ => trivial⟩

theorem Rules.Take.over (take : rules.Take) : rules.over.Take := by
  have alike : rules.over.AlikeAt .any (fun _ => True) rules.over :=
    alike_over take.always fun c _ => c.open_any
  exact ⟨fun c => (alike.expression c trivial).2, fun c => (alike.negation c trivial).2,
    fun c => (alike.unary c trivial).2, fun ctx ending c => (alike.block ctx ending c trivial).2⟩

end

/-- Rules take tokens however often they are tied together. -/
theorem rules_take (fuel : Nat) : (rules fuel).Take := by
  induction fuel with
  | zero =>
      exact
        { expression := fun _ => ends_peek trivial
          negation := fun _ => ends_peek trivial
          unary := fun _ => ends_peek trivial
          block := fun _ _ _ => ends_peek trivial }
  | succ fuel ih => exact ih.over

/-- Fewer units of text are left than there are ways to come back to the rules. -/
structure Cursor.Room (fuel : Nat) (c : Cursor) : Prop where
  placed : c.Placed .counted
  sized : c.Sized
  less : Lexer.lengthOf c.tokens < fuel

theorem Cursor.Room.beneath {fuel : Nat} (room : c.Room (fuel + 1)) (beneath : c.Beneath d) :
    d.Room fuel :=
  ⟨room.placed.beneath beneath, room.sized.beneath beneath,
    Nat.lt_of_lt_of_le (room.sized.size_lt beneath) (Nat.le_of_lt_succ room.less)⟩

theorem Cursor.Room.succ {fuel : Nat} (room : c.Room fuel) : c.Room (fuel + 1) :=
  ⟨room.placed, room.sized, Nat.lt_succ_of_lt room.less⟩

theorem room_ofTokens {source : Text} {start : Location} {tokens : List Token} {fuel : Nat}
    (cut : tokenize source start = .ok tokens) (counted : 1 ≤ start.line)
    (room : source.length < fuel) : (Cursor.ofTokens tokens).Room fuel :=
  ⟨placed_ofTokens cut counted, (sized_ofTokens cut).1,
    Nat.lt_of_le_of_lt (sized_ofTokens cut).2 room⟩

/-- However often the rules are tied together, with room left they are the same, and they
end with a fault of the grammar or behind what they take. -/
theorem rules_alike (fuel fuel' : Nat) :
    (rules fuel).AlikeAt .counted (fun c => c.Room fuel ∧ c.Room fuel') (rules fuel') := by
  induction fuel generalizing fuel' with
  | zero => exact alike_never fun c room => Nat.not_lt_zero _ room.1.less
  | succ fuel ih =>
      cases fuel' with
      | zero => exact alike_never fun c room => Nat.not_lt_zero _ room.2.less
      | succ fuel' =>
          refine alike_over (ih fuel') fun c room => ⟨room.1.placed, fun d beneath => ?_⟩
          exact ⟨room.1.beneath beneath, room.2.beneath beneath⟩

end Grammar

end Loom
