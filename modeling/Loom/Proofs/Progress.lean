import Loom.Proofs.Progress.Loop

/-!
Reading a program comes to an end. The rules take tokens and never the end of the text; a
rule that comes back to the rules has taken a token, or is in the code of a literal, which is
shorter than the text around it. So there is always room for the rules to come back to each
other, and what is given is a program, with all of the text read, or a fault at a place.
-/

namespace Loom

namespace Grammar

def levels (rules : Rules) : List ((Lexeme → Option BinaryOp) × Parse Expr) :=
  [(concatOp?, disjunction rules), (orOp?, conjunction rules), (andOp?, negation rules),
    (compareOp?, sum rules), (sumOp?, product rules), (productOp?, unary rules)]

/-- The loops of the grammar take a token on each pass before the next one. Those that are
given as many passes as there are tokens need no more, and the others one more. -/
structure LoopsAdvance (rules : Rules) : Prop where
  operators : ∀ level ∈ levels rules,
    Advances 0 (chainPass level.1 level.2) (chainFrom level.1 level.2)
  suffixes : Advances 0 (suffixesPass rules) (suffixes rules)
  elements : ∀ close, Advances 1 (fun more (_ : Unit) => itemsPass close rules.expression (more ()))
    fun n _ => items close rules.expression n
  entries : ∀ close, Advances 1 (fun more (_ : Unit) => itemsPass close (hashEntry rules) (more ()))
    fun n _ => items close (hashEntry rules) n
  parameters : Advances 1 parametersPass fun n taken => parameters taken n
  names : Advances 0 (fun more (_ : Unit) => namesPass (more ())) fun n _ => moreNames n
  branches : ∀ ctx, Advances 0 (fun more (_ : Unit) => branchesPass rules ctx (more ()))
    fun n _ => moreBranches rules ctx n
  statements : ∀ ctx ending,
    Advances 1 (fun more (_ : Unit) => statementsPass rules ctx ending (more ()))
      fun n _ => statements rules ctx ending n

section

variable {rules : Rules} (take : rules.Take)
include take

theorem advances_level {level : (Lexeme → Option BinaryOp) × Parse Expr}
    (among : level ∈ levels rules) :
    Advances 0 (chainPass level.1 level.2) (chainFrom level.1 level.2) := by
  have alike := take.always
  simp only [levels, List.mem_cons, List.not_mem_nil, or_false] at among
  rcases among with rfl | rfl | rfl | rfl | rfl | rfl
  · exact advances_chainFrom rfl fun c => (alike_disjunction alike c.open_any).2
  · exact advances_chainFrom rfl fun c => (alike_conjunction alike c.open_any).2
  · exact advances_chainFrom rfl fun c => (alike_negation alike c.open_any).2
  · exact advances_chainFrom rfl fun c => (alike_sum alike c.open_any).2
  · exact advances_chainFrom rfl fun c => (alike_product alike c.open_any).2
  · exact advances_chainFrom rfl fun c => (alike_unary alike c.open_any).2

theorem loops_advance : LoopsAdvance rules where
  operators _ among := advances_level take among
  suffixes := advances_suffixes take
  elements _ := advances_items fun c =>
    ends_of_imp (take.expression c) (fun _ _ on => on.toUpto) fun _ _ => trivial
  entries _ := advances_items fun c =>
    ends_of_imp (alike_hashEntry take.always c.open_any).2 (fun _ _ on => on.toUpto)
      fun _ _ => trivial
  parameters := advances_parameters
  names := advances_moreNames
  branches := advances_moreBranches take
  statements := advances_statements take

end

/-- Code in a token of a text is shorter than the text. -/
theorem code_shorter {source : Text} {start : Location} {tokens : List Token} {t : Token}
    {written code : Text} {parts : List StringPart} {loc : Location}
    (cut : tokenize source start = .ok tokens) (among : t ∈ tokens)
    (is : t.lexeme = .string written parts) (part : .code code loc ∈ parts) :
    code.length < source.length := by
  obtain ⟨sized, room⟩ := sized_ofTokens cut
  obtain ⟨init, stop, rfl, -⟩ := tokenize_eq cut
  rw [Cursor.ofTokens_append] at sized room
  have inside : t ∈ init := by
    rcases List.mem_append.mp among with inside | last
    · exact inside
    · cases List.mem_singleton.mp last
      cases is
  have shorter := (sized t inside).2 written parts code loc is part
  have here := Lexer.length_le_lengthOf inside
  rw [is] at here
  exact (shorter.trans_le here).trans_le room

/-- A program is read up to the end of the text, however often the rules are tied together. -/
theorem alike_program {c : Cursor} {fuel fuel' : Nat} (room : c.Room fuel)
    (room' : c.Room fuel') :
    Alike .counted (fun _ d => d = ⟨[], c.stop⟩) (program (rules fuel) c)
      (program (rules fuel') c) := by
  have opened : c.Open .counted fun d => d.Room fuel ∧ d.Room fuel' :=
    ⟨room.placed, fun d beneath => ⟨room.succ.beneath beneath, room'.succ.beneath beneath⟩⟩
  refine alike_bind (alike_block (rules_alike fuel fuel') .program .input opened) ?_
  rintro b d ⟨on, last⟩
  have sized : d.Sized := fun t among => room.sized t (on.left.subset among)
  refine alike_pure ?_
  rw [← on.stop, ← sized.done (last rfl)]

end Grammar

open Grammar

def parseWith (rules : Rules) (source : Text) : Except Diagnostic Program := do
  let tokens ← tokenize source .origin
  let (program, _) ← program rules (.ofTokens tokens)
  pure program

/-- With as many ways to come back to the rules as there is text a text is read alike. -/
theorem alike_parseWith {source : Text} {fuel fuel' : Nat} (room : source.length < fuel)
    (room' : source.length < fuel') :
    AlikeOutcome .counted (parseWith (rules fuel) source) (parseWith (rules fuel') source) := by
  have counted : 1 ≤ Location.origin.line := Nat.le_refl 1
  refine alikeOutcome_bind ⟨rfl, fun d failed => bad_of_tokenize failed counted⟩ ?_
  intro tokens cut
  have whole := alike_program (room_ofTokens cut counted room) (room_ofTokens cut counted room')
  exact alikeOutcome_bind whole.outcome fun r _ => alikeOutcome_ok r.1

/-- Reading a source text as a program comes to an end, with a program or with a fault of the
grammar at a place, whose line is counted from one. A program is read from all the tokens up
to the end of the text, which is never taken. There is no need for the rules to be tied
together more often than the text is long: code in a token is shorter than the text that the
token is from, and rules that come back to each other from the tokens of a text do so only
so often, since they have taken a token before or are in the code of one. Rules tied together
in this way take tokens if the rules do that they are made of, and each of their loops takes
a token on a pass before there is another pass. -/
theorem parse_ends (source : Text) :
    (∀ d, parse source = .error d → ∃ (fault : SyntaxFault) (loc : Location),
      d = fault.located loc ∧ fault ≠ .nesting ∧ 1 ≤ loc.line ∧ 0 ≤ loc.column) ∧
    (∀ p, parse source = .ok p → ∃ init stop,
      tokenize source .origin = .ok (init ++ [⟨.eof, stop⟩]) ∧
        program (rules (source.length + 1)) (.ofTokens (init ++ [⟨.eof, stop⟩])) =
          .ok (p, ⟨[], stop⟩)) ∧
    (∀ fuel, source.length < fuel → parseWith (rules fuel) source = parse source) ∧
    (∀ start tokens, tokenize source start = .ok tokens →
      Acc (fun d c => Cursor.Beneath c d) (.ofTokens tokens) ∧
        ∀ t ∈ tokens, ∀ written parts code loc, t.lexeme = .string written parts →
          .code code loc ∈ parts → code.length < source.length) ∧
    (∀ fuel, (rules fuel).Take) ∧
    ∀ rules : Rules, rules.Take → rules.over.Take ∧ LoopsAdvance rules ∧
      ∀ rules' c, (∀ d, c.Beneath d → rules.SameAt rules' d) →
        rules.over.SameAt rules'.over c := by
  have enough := Nat.lt_succ_self source.length
  refine ⟨?_, ?_, ?_, ?_, rules_take, ?_⟩
  · intro d failed
    obtain ⟨fault, loc, is, other, line⟩ := (alike_parseWith enough enough).2 d failed
    exact ⟨fault, loc, is, other, line, Nat.zero_le _⟩
  · intro p is
    obtain ⟨tokens, cut, is⟩ := ok_of_bind is
    obtain ⟨⟨_, d⟩, whole, is⟩ := ok_of_bind is
    cases is
    have room := room_ofTokens cut (Nat.le_refl 1) enough
    have last := (alike_program room room).2
    rw [whole] at last
    obtain rfl : d = _ := last
    obtain ⟨init, stop, rfl, -⟩ := tokenize_eq cut
    refine ⟨init, stop, cut, ?_⟩
    rwa [Cursor.ofTokens_append] at whole ⊢
  · exact fun fuel room => (alike_parseWith enough room).1
  · intro start tokens cut
    exact ⟨(sized_ofTokens cut).1.acc, fun t among written parts code loc is part =>
      code_shorter cut among is part⟩
  · exact fun rules take => ⟨take.over, loops_advance take, fun rules' c => take.over_same⟩

/-- A text with code in a literal, read up to its end, and one that ends too early. -/
theorem literal_read_whole :
    (∃ p init stop, parse (Text.ofString "emit \"$\x7bx\x7d\"") = .ok p ∧
      tokenize (Text.ofString "emit \"$\x7bx\x7d\"") .origin = .ok (init ++ [⟨.eof, stop⟩]) ∧
        program (rules 12) (.ofTokens (init ++ [⟨.eof, stop⟩])) = .ok (p, ⟨[], stop⟩)) ∧
      ∃ (fault : SyntaxFault) (loc : Location),
        parse (Text.ofString "emit (") = .error (fault.located loc) ∧ 1 ≤ loc.line := by
  have reads : (parse (Text.ofString "emit \"$\x7bx\x7d\"")).toBool = true := by decide +kernel
  have fails : (parse (Text.ofString "emit (")).toBool = false := by decide +kernel
  have units : (Text.ofString "emit \"$\x7bx\x7d\"").length = 11 := by decide
  generalize Text.ofString "emit \"$\x7bx\x7d\"" = whole at reads units
  generalize Text.ofString "emit (" = early at fails
  constructor
  · cases is : parse whole with
    | error d => simp [is, Except.toBool] at reads
    | ok p =>
        obtain ⟨init, stop, cut, run⟩ := (parse_ends whole).2.1 p is
        rw [units] at run
        exact ⟨p, init, stop, rfl, cut, run⟩
  · cases is : parse early with
    | ok p => simp [is, Except.toBool] at fails
    | error d =>
        obtain ⟨fault, loc, rfl, -, line, -⟩ := (parse_ends early).1 d is
        exact ⟨fault, loc, rfl, line⟩

end Loom
