import Loom.Proofs.Reading.Outcome

/-!
What the grammar keeps. A standard says what is asked of the tokens of a text, of the faults
that are found with it, and of each node of the tree that it is read as. Its laws are about single
tokens and single nodes. That whatever any rule reads is up to the standard is shown once for all
standards; the rules on tokens come first.
-/

namespace Loom

namespace Grammar

/-- The place of a token of the asked sort. -/
def Stands (token : Token → Prop) (loc : Location) : Prop := ∃ t, token t ∧ t.loc = loc

theorem Stands.of_token {token : Token → Prop} {t : Token} (asked : token t) :
    Stands token t.loc := ⟨t, asked, rfl⟩

/-- What a token of the asked sort spells as a name. -/
def Spells (token : Token → Prop) (name : Text) : Prop := ∃ t, token t ∧ t.lexeme = .ident name

/-- A number of loops that a statement may name. -/
inductive LoopCount : Nat → Prop
  | one : LoopCount 1
  | literal {digits : Text} {n : Nat}
      (whole : wholeOf? (Decimal.literalValue digits) = some (.ofNat (n + 1))) : LoopCount (n + 1)

theorem LoopCount.pos {depth : Nat} (counts : LoopCount depth) : 1 ≤ depth := by
  cases counts with
  | one => exact Nat.le_refl 1
  | literal _ => exact Nat.le_add_left 1 _

/-- A cursor in front of tokens of the asked sort. -/
def Cursor.Ahead (token : Token → Prop) (c : Cursor) : Prop := ∀ t ∈ c.all, token t

structure Standard where
  token : Token → Prop
  fault : Diagnostic → Prop
  expr : Expr → Prop
  procedure : Procedure → Prop
  block : Context → Block → Prop
  stmt : Context → Stmt → Prop
  located : ∀ (f : SyntaxFault) (loc : Location), fault (f.located loc)
  /-- Code in a string is cut into tokens like the text around it. -/
  cut : ∀ {t written parts source loc tokens}, token t → t.lexeme = .string written parts →
    .code source loc ∈ parts → tokenize source loc = .ok tokens →
    (Cursor.ofTokens tokens).Ahead token
  uncut : ∀ {source loc d}, tokenize source loc = .error d → fault d
  -- expressions
  number : ∀ {digits loc}, Stands token loc → expr (.number (Decimal.literalValue digits) loc)
  opposite : ∀ {value loc loc'}, expr (.number value loc) → Stands token loc' →
    expr (.number (-value) loc')
  bool : ∀ {b loc}, Stands token loc → expr (.bool b loc)
  null : ∀ {loc}, Stands token loc → expr (.null loc)
  string : ∀ {segments loc}, Stands token loc → (∀ e, .code e ∈ segments → expr e) →
    expr (.string segments loc)
  ident : ∀ {name loc}, Stands token loc → Spells token name → expr (.ident name loc)
  array : ∀ {elements loc}, Stands token loc → (∀ e ∈ elements, expr e) →
    expr (.array elements loc)
  hash : ∀ {entries loc}, Stands token loc → (∀ entry ∈ entries, expr entry.value) →
    expr (.hash entries loc)
  new : ∀ {entries hashLoc loc}, Stands token loc → Stands token hashLoc →
    (∀ entry ∈ entries, expr entry.value) → expr (.new entries hashLoc loc)
  ref : ∀ {container name loc}, Stands token loc → Spells token name →
    (∀ outer ∈ container, Spells token outer) → expr (.ref container name loc)
  lambda : ∀ {p loc}, Stands token loc → procedure p → expr (.lambda p loc)
  call : ∀ {callee args loc}, Stands token loc → expr callee → (∀ e ∈ args, expr e) →
    expr (.call callee args loc)
  field : ∀ {object name loc}, Stands token loc → expr object → Spells token name →
    expr (.field object name loc)
  index : ∀ {object position loc}, Stands token loc → expr object → expr position →
    expr (.index object position loc)
  choice : ∀ {condition consequent alternate loc}, Stands token loc → expr condition →
    expr consequent → expr alternate → expr (.choice condition consequent alternate loc)
  unary : ∀ {op operand loc}, Stands token loc → expr operand → expr (.unary op operand loc)
  binary : ∀ {op left right loc}, Stands token loc → expr left → expr right →
    expr (.binary op left right loc)
  -- bodies
  body : ∀ {params uses body}, (∀ name ∈ params, Spells token name) →
    (∀ name ∈ uses, Spells token name) → block .function body →
    procedure ⟨params, uses, body, .unset⟩
  statements : ∀ {ctx list loc}, Stands token loc → (∀ s ∈ list, stmt ctx s) →
    block ctx ⟨list, loc⟩
  -- statements
  define : ∀ {ctx name p loc}, Stands token loc → Spells token name → procedure p →
    stmt ctx (.define name p loc)
  cond : ∀ {ctx : Context} {first others alternate loc}, Stands token loc →
    (∀ b ∈ first :: others, expr b.condition ∧ block ctx.branch b.body) →
    (∀ b ∈ alternate, block ctx.branch b) → stmt ctx (.cond (first :: others) alternate loc)
  forEach : ∀ {ctx : Context} {item subject body loc}, Stands token loc → Spells token item →
    expr subject → block ctx.loop body → stmt ctx (.forEach item subject body loc)
  whileLoop : ∀ {ctx : Context} {condition body loc}, Stands token loc → expr condition →
    block ctx.loop body → stmt ctx (.whileLoop condition body loc)
  assign : ∀ {ctx e target op value loc}, Stands token loc → expr e →
    e.target? = some target → expr value → stmt ctx (.assign target op value loc)
  use : ∀ {ctx : Context} {first others loc}, Stands token loc → ctx.scopeRoot = true →
    (∀ name ∈ first :: others, Spells token name) → stmt ctx (.use (first :: others) loc)
  giveBack : ∀ {ctx : Context} {value loc}, Stands token loc → ctx.inFunction = true →
    (∀ e ∈ value, expr e) → stmt ctx (.giveBack value loc)
  emit : ∀ {ctx value key loc}, Stands token loc → expr value →
    (∀ name ∈ key, Spells token name) → stmt ctx (.emit value key loc)
  imports : ∀ {ctx : Context} {native first others loc}, Stands token loc →
    ctx.topLevel = true → (∀ name ∈ first :: others, Spells token name) →
    stmt ctx (.imports native (first :: others) loc)
  leave : ∀ {ctx : Context} {depth loc}, Stands token loc → LoopCount depth →
    depth ≤ ctx.loopDepth → stmt ctx (.leave depth loc)
  next : ∀ {ctx : Context} {depth loc}, Stands token loc → LoopCount depth →
    depth ≤ ctx.loopDepth → stmt ctx (.next depth loc)
  perform : ∀ {ctx callee args callLoc loc}, Stands token loc →
    expr (.call callee args callLoc) → stmt ctx (.call callee args callLoc loc)

namespace Cursor.Ahead

variable {token : Token → Prop} {c : Cursor} (ahead : c.Ahead token)
include ahead

theorem head : token c.head := by
  rcases c with ⟨_ | ⟨t, rest⟩, stop⟩
  · exact ahead _ (List.mem_singleton_self _)
  · exact ahead t List.mem_cons_self

theorem tail : c.tail.Ahead token := by
  rcases c with ⟨_ | ⟨t, rest⟩, stop⟩
  · exact ahead
  · exact fun t there => ahead t (List.mem_cons_of_mem _ there)

theorem skip : c.skip.Ahead token := by
  intro t there
  refine ahead t ?_
  rcases List.mem_append.mp there with inside | last
  · exact List.mem_append_left _ ((List.dropWhile_suffix _).subset inside)
  · exact List.mem_append_right _ last

end Cursor.Ahead

variable {α β : Type} {std : Standard}

/-- In front of tokens that are up to the standard a rule gives something good and stops in
front of such tokens, or it finds a fault that is. -/
def Standard.Reads (std : Standard) (p : Parse α) (good : α → Prop) : Prop :=
  ∀ c, c.Ahead std.token → Ends std.fault (fun a c' => good a ∧ c'.Ahead std.token) (p c)

section

variable {good : α → Prop} {better : β → Prop}

theorem reads_pure {a : α} (fine : good a) : std.Reads (pure a) good :=
  fun _ ahead => ends_pure ⟨fine, ahead⟩

theorem reads_bind {p : Parse α} {f : α → Parse β} (first : std.Reads p good)
    (rest : ∀ a, good a → std.Reads (f a) better) : std.Reads (p >>= f) better :=
  fun c ahead => ends_bind (first c ahead) fun a c' behind => rest a behind.1 c' behind.2

/-- After a rule of which it does not matter what it gives. -/
theorem reads_after {p : Parse α} {f : α → Parse β} (first : std.Reads p good)
    (rest : ∀ a, std.Reads (f a) better) : std.Reads (p >>= f) better :=
  reads_bind first fun a _ => rest a

theorem reads_of_imp {p : Parse α} {best : α → Prop} (first : std.Reads p good)
    (step : ∀ a, good a → best a) : std.Reads p best :=
  fun c ahead => ends_of_imp (first c ahead) (fun a _ behind => ⟨step a behind.1, behind.2⟩)
    fun _ fault => fault

theorem reads_failAt (loc : Location) (f : SyntaxFault) : std.Reads (failAt loc f) good :=
  fun _ _ => ends_failAt (std.located f loc)

theorem reads_fail (f : SyntaxFault) : std.Reads (fail f) good :=
  fun _ _ => ends_peek (std.located f _)

end

/-! What is read from tokens of its own, or from none. -/

/-- An outcome of reading: something good, or a fault that is up to the standard. -/
def Standard.Gives (std : Standard) (good : α → Prop) : Except Diagnostic α → Prop
  | .ok a => good a
  | .error d => std.fault d

theorem gives_bind {x : Except Diagnostic α} {f : α → Except Diagnostic β} {good : α → Prop}
    {better : β → Prop} (first : std.Gives good x)
    (rest : ∀ a, x = .ok a → good a → std.Gives better (f a)) : std.Gives better (x >>= f) := by
  cases x with
  | ok a => exact rest a rfl first
  | error d => exact first

theorem Standard.Reads.gives {p : Parse α} {good : α → Prop} (reads : std.Reads p good) {c : Cursor}
    (ahead : c.Ahead std.token) : std.Gives (fun r => good r.1) (p c) := by
  have ends := reads c ahead
  cases ran : p c with
  | ok r =>
      rw [ran] at ends
      exact ends.1
  | error d =>
      rw [ran] at ends
      exact ends

theorem gives_tokenize (source : Text) (loc : Location) :
    std.Gives (fun _ => True) (tokenize source loc) := by
  cases tokens : tokenize source loc with
  | ok list => trivial
  | error d => exact std.uncut tokens

theorem reads_lift {x : Except Diagnostic α} {good : α → Prop} (gives : std.Gives good x) :
    std.Reads (liftM x : Parse α) good := by
  intro c ahead
  cases x with
  | ok a => exact ⟨gives, ahead⟩
  | error d => exact gives

/-! The rules on tokens. -/

theorem reads_peek : std.Reads peek std.token := by
  intro c ahead
  rw [peek_eq]
  exact ⟨ahead.head, ahead⟩

theorem reads_peekSecond : std.Reads peekSecond std.token := by
  intro c ahead
  rcases c with ⟨_ | ⟨t, _ | ⟨t', rest⟩⟩, stop⟩
  · exact ⟨ahead.head, ahead⟩
  · exact ⟨ahead.tail.head, ahead⟩
  · exact ⟨ahead.tail.head, ahead⟩

theorem reads_advance : std.Reads advance std.token := by
  intro c ahead
  rw [advance_eq]
  exact ⟨ahead.head, ahead.tail⟩

theorem reads_remaining : std.Reads remaining fun _ => True := fun _ ahead => ⟨trivial, ahead⟩

theorem reads_skipNewlines : std.Reads skipNewlines fun _ => True :=
  fun _ ahead => ⟨trivial, ahead.skip⟩

theorem reads_next (lexeme : Lexeme) : std.Reads (next lexeme) fun _ => True :=
  reads_after reads_peek fun _ => reads_pure trivial

theorem reads_accept (lexeme : Lexeme) : std.Reads (accept lexeme) fun _ => True := by
  apply reads_after (reads_next lexeme)
  intro found
  cases found with
  | true => exact reads_after reads_advance fun _ => reads_pure trivial
  | false => exact reads_pure trivial

theorem reads_expect (lexeme : Lexeme) (what : Expected) :
    std.Reads (expect lexeme what) std.token := by
  apply reads_after reads_peek
  intro t
  split
  · exact reads_advance
  · exact reads_failAt _ _

theorem reads_expectName (what : Expected) :
    std.Reads (expectName what) fun r => Spells std.token r.1 := by
  apply reads_bind reads_peek
  intro t token
  split
  · rename_i name is
    exact reads_after reads_advance fun _ => reads_pure ⟨t, token, is⟩
  · exact reads_failAt _ _

theorem reads_endStatement : std.Reads endStatement fun _ => True := by
  apply reads_after (reads_next .eof)
  intro found
  cases found with
  | true => exact reads_pure trivial
  | false => exact reads_after (reads_expect _ _) fun _ => reads_pure trivial

theorem reads_moreNames (n : Nat) :
    std.Reads (moreNames n) fun names => ∀ name ∈ names, Spells std.token name := by
  induction n with
  | zero => exact reads_pure (List.forall_mem_nil _)
  | succ n ih =>
      apply reads_after (reads_accept _)
      intro found
      cases found with
      | true =>
          apply reads_bind (reads_expectName _)
          intro r spelled
          apply reads_bind ih
          intro rest others
          exact reads_pure (List.forall_mem_cons.mpr ⟨spelled, others⟩)
      | false => exact reads_pure (List.forall_mem_nil _)

theorem reads_nameList :
    std.Reads nameList fun names =>
      ∃ first others, names = first :: others ∧ ∀ name ∈ names, Spells std.token name := by
  apply reads_bind (reads_expectName _)
  intro r spelled
  apply reads_after reads_remaining
  intro n
  apply reads_bind (reads_moreNames n)
  intro rest others
  exact reads_pure ⟨r.1, rest, rfl, List.forall_mem_cons.mpr ⟨spelled, others⟩⟩

theorem reads_items {close : Symbol} {item : Parse α} {good : α → Prop}
    (each : std.Reads item good) (n : Nat) :
    std.Reads (items close item n) fun list => ∀ a ∈ list, good a := by
  induction n with
  | zero => exact reads_pure (List.forall_mem_nil _)
  | succ n ih =>
      apply reads_after (reads_next _)
      intro closed
      cases closed with
      | true => exact reads_pure (List.forall_mem_nil _)
      | false =>
          apply reads_bind each
          intro first fine
          apply reads_after reads_skipNewlines
          intro _
          apply reads_after (reads_accept _)
          intro more
          cases more with
          | true =>
              apply reads_after reads_skipNewlines
              intro _
              apply reads_bind ih
              intro rest others
              exact reads_pure (List.forall_mem_cons.mpr ⟨fine, others⟩)
          | false => exact reads_pure (List.forall_mem_singleton.mpr fine)

theorem reads_delimited {close : Symbol} {what : Expected} {item : Parse α} {good : α → Prop}
    (each : std.Reads item good) :
    std.Reads (delimited close what item) fun list => ∀ a ∈ list, good a := by
  apply reads_after reads_skipNewlines
  intro _
  apply reads_after reads_remaining
  intro n
  apply reads_bind (reads_items each (n + 1))
  intro list fine
  exact reads_after (reads_expect _ _) fun _ => reads_pure fine

end Grammar

end Loom
