import Loom.Proofs.Layout.Lexing
import Loom.Proofs.Position

/-!
Going on through the tokens. A rule takes tokens off the front of a cursor and never the end
of the text. Two ways to tie the rules together are compared where a rule comes back to them:
behind a token that it has taken, or in the code of a literal among its tokens.
-/

namespace Loom

namespace Grammar

variable {α β : Type}

namespace Cursor

/-- From `c` on to `d` some tokens have been taken, or none. The end stays where it is. -/
structure Upto (c d : Cursor) : Prop where
  left : d.tokens <:+ c.tokens
  stop : d.stop = c.stop

/-- From `c` on to `d` a token has been taken, and perhaps more. -/
structure Before (c d : Cursor) : Prop extends Upto c d where
  fewer : d.tokens.length < c.tokens.length

/-- The cursor at the front of the code of a token. -/
inductive CodeOf (t : Token) : Cursor → Prop where
  | intro {written code : Text} {parts : List StringPart} {loc : Location} {tokens : List Token}
      (is : t.lexeme = .string written parts) (part : .code code loc ∈ parts)
      (cut : tokenize code loc = .ok tokens) : CodeOf t (.ofTokens tokens)

/-- Where a rule at `c` may come back to the rules: behind a token, or in the code of one. -/
def Beneath (c d : Cursor) : Prop := c.Before d ∨ ∃ t ∈ c.tokens, CodeOf t d

variable {c d e : Cursor}

theorem Upto.refl (c : Cursor) : c.Upto c := ⟨List.suffix_refl _, rfl⟩

theorem Upto.trans (on : c.Upto d) (more : d.Upto e) : c.Upto e :=
  ⟨more.left.trans on.left, more.stop.trans on.stop⟩

theorem Upto.length_le (on : c.Upto d) : d.tokens.length ≤ c.tokens.length := on.left.length_le

theorem Upto.before (on : c.Upto d) (more : d.Before e) : c.Before e :=
  ⟨on.trans more.toUpto, Nat.lt_of_lt_of_le more.fewer on.length_le⟩

theorem Before.upto (on : c.Before d) (more : d.Upto e) : c.Before e :=
  ⟨on.toUpto.trans more, Nat.lt_of_le_of_lt more.length_le on.fewer⟩

theorem Before.trans (on : c.Before d) (more : d.Before e) : c.Before e := on.upto more.toUpto

theorem upto_tail (c : Cursor) : c.Upto c.tail := ⟨List.tail_suffix _, rfl⟩

theorem upto_skip (c : Cursor) : c.Upto c.skip := ⟨List.dropWhile_suffix _, rfl⟩

/-- A token other than the end is there to be taken. -/
theorem before_tail (more : c.head.lexeme ≠ .eof) : c.Before c.tail := by
  refine ⟨upto_tail c, ?_⟩
  rw [Cursor.tokens_eq_cons (Cursor.tokens_ne_nil more)]
  exact Nat.lt_succ_self _

theorem head_mem (more : c.tokens ≠ []) : c.head ∈ c.tokens := by
  rw [Cursor.tokens_eq_cons more]
  exact .head _

theorem Beneath.of_upto (on : c.Upto d) (beneath : d.Beneath e) : c.Beneath e := by
  rcases beneath with before | ⟨t, among, code⟩
  · exact .inl (on.before before)
  · exact .inr ⟨t, on.left.subset among, code⟩

end Cursor

/-! What the rules on tokens take. -/

section

variable {bad : Diagnostic → Prop} {c : Cursor}

theorem ends_accept_token {lexeme : Lexeme} (solid : lexeme ≠ .eof) :
    Ends bad (fun found d => found = true ∧ d = c.tail ∧ c.Before c.tail ∨ found = false ∧ d = c)
      (accept lexeme c) := by
  apply ends_next
  · intro is
    exact ends_advance (ends_pure (.inl ⟨rfl, rfl, Cursor.before_tail (is ▸ solid)⟩))
  · intro _
    exact ends_pure (.inr ⟨rfl, rfl⟩)

theorem ends_expect_token {lexeme : Lexeme} {what : Expected} (solid : lexeme ≠ .eof)
    (other : ∀ found, bad ((SyntaxFault.expected what found).located c.head.loc)) :
    Ends bad (fun t d => t = c.head ∧ d = c.tail ∧ c.Before c.tail) (expect lexeme what c) := by
  apply ends_peek
  by_cases is : c.head.lexeme = lexeme
  · rw [if_pos (beq_iff_eq.mpr is), advance_eq]
    exact ⟨rfl, rfl, Cursor.before_tail (is ▸ solid)⟩
  · rw [if_neg (by simpa using is)]
    exact other _

theorem ends_expectName_token {what : Expected}
    (other : ∀ found, bad ((SyntaxFault.expected what found).located c.head.loc)) :
    Ends bad (fun r d => r.2 = c.head ∧ d = c.tail ∧ c.Before c.tail) (expectName what c) := by
  apply ends_peek
  cases is : c.head.lexeme with
  | ident name =>
      exact ends_advance (ends_pure ⟨rfl, rfl, Cursor.before_tail (by rw [is]; nofun)⟩)
  | number _ | string _ _ | keyword _ | symbol _ | newline | eof => exact other _

end

/-! Faults, and the places that they may have. -/

/-- The faults that a rule may end with, and the places of tokens. The grammar has a fault at
the place of a token only, and that the rules are nested too deeply is none of its own. -/
structure Faults where
  bad : Diagnostic → Prop
  place : Location → Prop
  right : ∀ {loc : Location} (n : Nat), place loc → place (loc.right n)
  nextLine : ∀ {loc : Location}, place loc → place loc.nextLine
  located : ∀ {fault : SyntaxFault} {loc : Location}, fault ≠ .nesting → place loc →
    bad (fault.located loc)

/-- Any fault at any place. -/
def Faults.any : Faults where
  bad := fun _ => True
  place := fun _ => True
  right := fun _ _ => trivial
  nextLine := fun _ => trivial
  located := fun _ _ => trivial

/-- Faults of the grammar itself, at places in lines that are counted from one. -/
def Faults.counted : Faults where
  bad := fun d => ∃ (fault : SyntaxFault) (loc : Location),
    d = fault.located loc ∧ fault ≠ .nesting ∧ 1 ≤ loc.line
  place := fun loc => 1 ≤ loc.line
  right := fun _ counted => counted
  nextLine := fun _ => Nat.le_add_left 1 _
  located := fun other counted => ⟨_, _, rfl, other, counted⟩

variable {w : Faults}

/-- A token at a fine place, and its code too. -/
def Placed (w : Faults) (t : Token) : Prop :=
  w.place t.loc ∧ ∀ written parts code loc, t.lexeme = .string written parts →
    .code code loc ∈ parts → w.place loc

/-- Tokens and an end at fine places. -/
structure Cursor.Placed (w : Faults) (c : Cursor) : Prop where
  tokens : ∀ t ∈ c.tokens, Grammar.Placed w t
  stop : w.place c.stop

theorem Cursor.Placed.upto {c d : Cursor} (placed : c.Placed w) (on : c.Upto d) : d.Placed w :=
  ⟨fun t among => placed.tokens t (on.left.subset among), on.stop ▸ placed.stop⟩

theorem Cursor.Placed.head {c : Cursor} (placed : c.Placed w) : w.place c.head.loc := by
  obtain ⟨_ | ⟨t, rest⟩, stop⟩ := c
  · exact placed.stop
  · exact (placed.tokens t (.head _)).1

open Lexer in
theorem place_reach {rest : Text} {loc : Location} {pieces : List Piece}
    (laid : Laid rest loc pieces) (fine : w.place loc) : w.place (reach loc pieces) := by
  induction pieces generalizing loc with
  | nil => exact fine
  | cons p pieces ih =>
      refine ih laid.2.2 ?_
      rcases Piece.lines laid.1 with ⟨place, rfl⟩ | ⟨-, past⟩
      · exact w.nextLine fine
      · rw [past]
        exact w.right _ fine

/-- The tokens of a text that begins at a fine place are at fine places. -/
theorem placed_ofTokens {source : Text} {start : Location} {tokens : List Token}
    (cut : tokenize source start = .ok tokens) (fine : w.place start) :
    (Cursor.ofTokens tokens).Placed w := by
  obtain ⟨pieces, rfl, laid, rfl⟩ := Lexer.pieces_of_tokenize cut
  rw [Cursor.ofTokens_append]
  refine ⟨?_, place_reach laid fine⟩
  intro t among
  obtain ⟨p, there, is⟩ := List.mem_filterMap.mp among
  obtain rfl := Lexer.Piece.eq_token is
  obtain ⟨before, after, rfl⟩ := List.append_of_mem there
  obtain ⟨place, spells⟩ := laid.at_piece.2 t rfl
  have there : w.place t.loc := place ▸ place_reach laid.front fine
  refine ⟨there, ?_⟩
  intro written parts code loc is part
  obtain ⟨units, rfl⟩ := spells.code_right is part
  exact w.right units there

/-- Where a text that begins at a fine place is at fault is a fine place. -/
theorem bad_of_tokenize {source : Text} {start : Location} {d : Diagnostic}
    (failed : tokenize source start = .error d) (fine : w.place start) : w.bad d := by
  obtain ⟨pieces, u, t, rfl, laid, failed⟩ := Lexer.pieces_of_fault failed
  obtain ⟨fault, begun, rest, -, points, rfl, -⟩ := Lexer.piece_error failed
  have other : fault ≠ .nesting := by
    rintro rfl
    exact points
  exact w.located other (w.right _ (place_reach laid fine))

/-! Two ways to tie the rules together. -/

/-- A cursor from which on the rules that are come back to are told by `P` to be alike. -/
structure Cursor.Open (w : Faults) (P : Cursor → Prop) (c : Cursor) : Prop where
  placed : c.Placed w
  within : ∀ d, c.Beneath d → P d

section

variable {P : Cursor → Prop} {c d : Cursor}

theorem Cursor.Open.upto (o : c.Open w P) (on : c.Upto d) : d.Open w P :=
  ⟨o.placed.upto on, fun e beneath => o.within e (beneath.of_upto on)⟩

theorem Cursor.Open.before (o : c.Open w P) (on : c.Before d) : d.Open w P := o.upto on.toUpto

theorem Cursor.Open.call (o : c.Open w P) (on : c.Before d) : P d := o.within d (.inl on)

end

/-- The same outcome, which is an `ok` one or one of the faults. -/
def Alike (w : Faults) (ok : α → Cursor → Prop) (x x' : Except Diagnostic (α × Cursor)) : Prop :=
  x' = x ∧ Ends w.bad ok x

section

variable {ok : β → Cursor → Prop} {c : Cursor}

theorem Alike.imp {good : β → Cursor → Prop} {x x' : Except Diagnostic (β × Cursor)}
    (alike : Alike w good x x') (fine : ∀ b d, good b d → ok b d) : Alike w ok x x' := by
  refine ⟨alike.1, ?_⟩
  have ends := alike.2
  cases x with
  | ok r => exact fine r.1 r.2 ends
  | error d => exact ends

theorem alike_bind {p p' : Parse α} {f f' : α → Parse β} {good : α → Cursor → Prop}
    (first : Alike w good (p c) (p' c))
    (rest : ∀ a d, good a d → Alike w ok (f a d) (f' a d)) :
    Alike w ok ((p >>= f) c) ((p' >>= f') c) := by
  obtain ⟨same, ends⟩ := first
  show Alike w ok (p c >>= fun r => f r.1 r.2) (p' c >>= fun r => f' r.1 r.2)
  rw [same]
  cases outcome : p c with
  | ok r =>
      rw [outcome] at ends
      exact rest r.1 r.2 ends
  | error d =>
      rw [outcome] at ends
      exact ⟨rfl, ends⟩

/-- A rule without others in it is the same however they are tied together. -/
theorem alike_after {p : Parse α} {f f' : α → Parse β} {good : α → Cursor → Prop}
    (first : Ends w.bad good (p c)) (rest : ∀ a d, good a d → Alike w ok (f a d) (f' a d)) :
    Alike w ok ((p >>= f) c) ((p >>= f') c) := alike_bind ⟨rfl, first⟩ rest

theorem alike_pure {b : β} (fine : ok b c) :
    Alike w ok ((pure b : Parse β) c) ((pure b : Parse β) c) := ⟨rfl, fine⟩

theorem alike_failAt {loc : Location} {fault : SyntaxFault} (other : fault ≠ .nesting)
    (fine : w.place loc) :
    Alike w ok ((failAt loc fault : Parse β) c) ((failAt loc fault : Parse β) c) :=
  ⟨rfl, w.located other fine⟩

theorem alike_of_eq {p : Parse α} {f f' : α → Parse β} {a : α} {d : Cursor}
    (run : p c = .ok (a, d)) (rest : Alike w ok (f a d) (f' a d)) :
    Alike w ok ((p >>= f) c) ((p >>= f') c) := by
  rw [run_bind run, run_bind run]
  exact rest

theorem alike_peek {f f' : Token → Parse β} (rest : Alike w ok (f c.head c) (f' c.head c)) :
    Alike w ok ((peek >>= f) c) ((peek >>= f') c) := alike_of_eq (peek_eq c) rest

theorem alike_advance {f f' : Token → Parse β}
    (rest : Alike w ok (f c.head c.tail) (f' c.head c.tail)) :
    Alike w ok ((advance >>= f) c) ((advance >>= f') c) := alike_of_eq (advance_eq c) rest

theorem alike_remaining {f f' : Nat → Parse β}
    (rest : Alike w ok (f c.tokens.length c) (f' c.tokens.length c)) :
    Alike w ok ((remaining >>= f) c) ((remaining >>= f') c) := rest

theorem alike_skipNewlines {f f' : Unit → Parse β}
    (rest : Alike w ok (f () c.skip) (f' () c.skip)) :
    Alike w ok ((skipNewlines >>= f) c) ((skipNewlines >>= f') c) := rest

theorem alike_next {lexeme : Lexeme} {f f' : Bool → Parse β}
    (yes : c.head.lexeme = lexeme → Alike w ok (f true c) (f' true c))
    (no : c.head.lexeme ≠ lexeme → Alike w ok (f false c) (f' false c)) :
    Alike w ok ((next lexeme >>= f) c) ((next lexeme >>= f') c) := by
  refine alike_of_eq (run_next c) ?_
  by_cases is : c.head.lexeme = lexeme
  · rw [beq_iff_eq.mpr is]
    exact yes is
  · rw [beq_eq_false_iff_ne.mpr is]
    exact no is

theorem alike_accept {lexeme : Lexeme} (solid : lexeme ≠ .eof) {f f' : Bool → Parse β}
    (yes : c.Before c.tail → Alike w ok (f true c.tail) (f' true c.tail))
    (no : Alike w ok (f false c) (f' false c)) :
    Alike w ok ((accept lexeme >>= f) c) ((accept lexeme >>= f') c) := by
  refine alike_after (ends_accept_token solid) ?_
  rintro _ _ (⟨rfl, rfl, on⟩ | ⟨rfl, rfl⟩)
  · exact yes on
  · exact no

/-- A token that is asked for is taken, or it is another one that is at fault. -/
theorem alike_expect {lexeme : Lexeme} {what : Expected} (solid : lexeme ≠ .eof)
    (fine : w.place c.head.loc) {f f' : Token → Parse β}
    (there : c.Before c.tail → Alike w ok (f c.head c.tail) (f' c.head c.tail)) :
    Alike w ok ((expect lexeme what >>= f) c) ((expect lexeme what >>= f') c) := by
  refine alike_after (ends_expect_token solid fun _ => w.located nofun fine) ?_
  rintro _ _ ⟨rfl, rfl, on⟩
  exact there on

theorem alike_acceptSymbol {s : Symbol} {f f' : Bool → Parse β}
    (yes : c.Before c.tail → Alike w ok (f true c.tail) (f' true c.tail))
    (no : Alike w ok (f false c) (f' false c)) :
    Alike w ok ((acceptSymbol s >>= f) c) ((acceptSymbol s >>= f') c) :=
  alike_accept (by nofun) yes no

theorem alike_acceptKeyword {k : Keyword} {f f' : Bool → Parse β}
    (yes : c.Before c.tail → Alike w ok (f true c.tail) (f' true c.tail))
    (no : Alike w ok (f false c) (f' false c)) :
    Alike w ok ((acceptKeyword k >>= f) c) ((acceptKeyword k >>= f') c) :=
  alike_accept (by nofun) yes no

section

variable {what : Expected} (fine : w.place c.head.loc) {f f' : Token → Parse β}
  (there : c.Before c.tail → Alike w ok (f c.head c.tail) (f' c.head c.tail))
include fine there

theorem alike_expectSymbol {s : Symbol} :
    Alike w ok ((expectSymbol s what >>= f) c) ((expectSymbol s what >>= f') c) :=
  alike_expect (by nofun) fine there

theorem alike_expectKeyword {k : Keyword} :
    Alike w ok ((expectKeyword k what >>= f) c) ((expectKeyword k what >>= f') c) :=
  alike_expect (by nofun) fine there

theorem alike_expectNewline :
    Alike w ok ((expectNewline what >>= f) c) ((expectNewline what >>= f') c) :=
  alike_expect (by nofun) fine there

end

theorem alike_expectName {what : Expected} (fine : w.place c.head.loc)
    {f f' : Text × Token → Parse β}
    (there : ∀ name, c.Before c.tail →
      Alike w ok (f (name, c.head) c.tail) (f' (name, c.head) c.tail)) :
    Alike w ok ((expectName what >>= f) c) ((expectName what >>= f') c) := by
  refine alike_after (ends_expectName_token fun _ => w.located nofun fine) ?_
  rintro ⟨name, _⟩ _ ⟨rfl, rfl, on⟩
  exact there name on

end

section

variable {c : Cursor}

theorem alike_endStatement (placed : c.Placed w) :
    Alike w (fun _ d => c.Upto d) (endStatement c) (endStatement c) := by
  apply alike_next
  · intro _
    exact alike_pure (.refl c)
  · intro _
    refine alike_expectNewline placed.head fun on => ?_
    exact alike_pure on.toUpto

theorem alike_moreNames (n : Nat) (placed : c.Placed w) :
    Alike w (fun _ d => c.Upto d) (moreNames n c) (moreNames n c) := by
  induction n generalizing c with
  | zero => exact alike_pure (.refl c)
  | succ n ih =>
      apply alike_acceptSymbol
      · intro on
        refine alike_expectName (placed.upto on.toUpto).head fun name on' => ?_
        have further := on.trans on'
        refine alike_bind (ih (placed.upto further.toUpto)) fun rest d more => ?_
        exact alike_pure (further.toUpto.trans more)
      · exact alike_pure (.refl c)

theorem alike_nameList (placed : c.Placed w) :
    Alike w (fun _ d => c.Before d) (nameList c) (nameList c) := by
  refine alike_expectName placed.head fun name on => ?_
  apply alike_remaining
  refine alike_bind (alike_moreNames _ (placed.upto on.toUpto)) fun rest d more => ?_
  exact alike_pure (on.upto more)

variable {item item' : Parse α}

theorem alike_items {close : Symbol}
    (each : ∀ d, c.Upto d → Alike w (fun _ e => d.Upto e) (item d) (item' d)) (n : Nat)
    {d : Cursor} (on : c.Upto d) :
    Alike w (fun _ e => c.Upto e) (items close item n d) (items close item' n d) := by
  induction n generalizing d with
  | zero => exact alike_pure on
  | succ n ih =>
      apply alike_next
      · intro _
        exact alike_pure on
      · intro _
        refine alike_bind (each d on) fun first e more => ?_
        have there := (on.trans more).trans (Cursor.upto_skip e)
        apply alike_skipNewlines
        apply alike_acceptSymbol
        · intro comma
          have behind := (there.trans comma.toUpto).trans (Cursor.upto_skip _)
          apply alike_skipNewlines
          exact alike_bind (ih behind) fun rest _ further => alike_pure further
        · exact alike_pure there

/-- A bracket takes the symbol that closes it. -/
theorem alike_delimited (placed : c.Placed w) {close : Symbol} {what : Expected}
    (each : ∀ d, c.Upto d → Alike w (fun _ e => d.Upto e) (item d) (item' d)) :
    Alike w (fun _ e => c.Before e) (delimited close what item c)
      (delimited close what item' c) := by
  apply alike_skipNewlines
  apply alike_remaining
  refine alike_bind (alike_items each _ (Cursor.upto_skip c)) fun list d on => ?_
  refine alike_expectSymbol (placed.upto on).head fun closed => ?_
  exact alike_pure (on.before closed)

end

end Grammar

end Loom
