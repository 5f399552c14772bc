import Loom.Proofs.Placement
import Loom.Proofs.Reading.Statement

/-!
Programs that are read are placed, and a text that is not read is at fault in one of its places.
Nothing is asked of tokens for that.
-/

namespace Loom

/-- A diagnostic that finds fault with the text. -/
def Diagnostic.IsSyntax (d : Diagnostic) : Prop := ∃ cause, d.fault = .malformed cause

/-- A diagnostic that finds fault with a place in the text. -/
def Diagnostic.IsFound (d : Diagnostic) : Prop :=
  ∃ (fault : SyntaxFault) (loc : Location), d = fault.located loc

theorem Diagnostic.IsFound.malformed {d : Diagnostic} (found : d.IsFound) : d.IsSyntax := by
  obtain ⟨fault, loc, rfl⟩ := found
  exact ⟨fault, rfl⟩

namespace Grammar

variable {α β : Type}

theorem is_found_located (fault : SyntaxFault) (loc : Location) :
    (fault.located loc).IsFound := ⟨fault, loc, rfl⟩

/-! Tokens. What cannot be cut into tokens is at fault too. -/

/-- An outcome that finds no fault but with a place in the text. -/
def Honest : Except Diagnostic α → Prop
  | .ok _ => True
  | .error d => d.IsFound

theorem honest_bind {x : Except Diagnostic α} {f : α → Except Diagnostic β} (first : Honest x)
    (rest : ∀ a, Honest (f a)) : Honest (x >>= f) := by
  cases x with
  | ok a => exact rest a
  | error d => exact first

theorem honest_stringParts (start : Location) (skip : Nat) (t : Text) (loc : Location) :
    Honest (Lexer.stringParts start skip t loc) := by
  -- the walk either stops with a fault or the end, or goes on with the next unit
  fun_induction Lexer.stringParts start skip t loc with
  | case1 => exact is_found_located _ _
  | case2 loc u rest skip ih => exact honest_bind ih (fun _ => trivial)
  | case3 => exact is_found_located _ _
  | case4 => trivial
  | case5 => exact is_found_located _ _
  | case6 loc u rest _ _ _ v _ ih => exact honest_bind ih (fun _ => trivial)
  | case7 => exact is_found_located _ _
  | case8 loc u rest _ _ _ _ code _ ih => exact honest_bind ih (fun _ => trivial)
  | case9 loc u rest _ _ _ _ ih => exact honest_bind ih (fun _ => trivial)

theorem honest_stringLexeme (written : Text) (loc : Location) :
    Honest (Lexer.stringLexeme written loc) :=
  honest_bind (honest_stringParts _ _ _ _) (fun _ => trivial)

theorem honest_piece (u : UInt16) (source : Text) (loc : Location) :
    Honest (Lexer.piece u source loc) := by
  unfold Lexer.piece
  split
  · trivial
  · split
    · trivial
    · split
      · trivial
      · split
        · trivial
        · split
          · trivial
          · split
            · exact honest_bind (honest_stringLexeme _ _) (fun _ => trivial)
            · split
              · trivial
              · exact is_found_located _ _

theorem honest_scan (skip : Nat) (t : Text) (loc : Location) :
    Honest (Lexer.scan skip t loc) := by
  fun_induction Lexer.scan skip t loc with
  | case1 => trivial
  | case2 skip u rest loc ih => exact ih
  | case3 loc u rest ih =>
      apply honest_bind (honest_piece _ _ _)
      intro r
      apply honest_bind (ih _)
      intro tokens
      split <;> trivial

theorem honest_tokenize (source : Text) (loc : Location) :
    Honest (tokenize source loc) := honest_scan 0 source loc

/-- What is read is placed in the context that it is read in. -/
def Standard.placed : Standard where
  token _ := True
  fault d := d.IsFound
  expr e := e.Placed true
  procedure p := p.Placed true
  block ctx b := b.Placed true ctx
  stmt ctx s := s.Placed true ctx
  located := is_found_located
  cut _ _ _ _ _ _ := trivial
  uncut := by
    intro source loc d failed
    have honest := honest_tokenize source loc
    rw [failed] at honest
    exact honest
  number _ := by simp only [Expr.Placed]
  opposite _ _ := by simp only [Expr.Placed]
  bool _ := by simp only [Expr.Placed]
  null _ := by simp only [Expr.Placed]
  string _ fine := by simpa only [Expr.Placed] using (Segment.allPlaced_iff ..).mpr fine
  ident _ _ := by simp only [Expr.Placed]
  array _ fine := by simpa only [Expr.Placed] using (Expr.allPlaced_iff ..).mpr fine
  hash _ fine := by simpa only [Expr.Placed] using (Entry.allPlaced_iff ..).mpr fine
  new _ _ fine := by simpa only [Expr.Placed] using (Entry.allPlaced_iff ..).mpr fine
  ref _ _ _ := by simp only [Expr.Placed]
  lambda _ fine := by simpa only [Expr.Placed] using fine
  call _ callee args := by
    simpa only [Expr.Placed] using ⟨callee, (Expr.allPlaced_iff ..).mpr args⟩
  field _ object _ := by simpa only [Expr.Placed] using object
  index _ object position := by simpa only [Expr.Placed] using ⟨object, position⟩
  choice _ condition consequent alternate := by
    simpa only [Expr.Placed] using ⟨condition, consequent, alternate⟩
  unary _ operand := by simpa only [Expr.Placed] using operand
  binary _ left right := by simpa only [Expr.Placed] using ⟨left, right⟩
  body _ _ body := by simpa only [Procedure.Placed] using body
  statements _ fine := by simpa only [Block.Placed] using (Stmt.allPlaced_iff ..).mpr fine
  define _ _ fine := by simpa only [Stmt.Placed] using fine
  cond := by
    intro ctx first others alternate loc _ branches fine
    have placed := (Branch.allPlaced_iff true (first :: others) ctx.branch).mpr branches
    cases alternate with
    | none => simpa only [Stmt.Placed] using placed
    | some b => simpa only [Stmt.Placed] using ⟨placed, fine b rfl⟩
  forEach _ _ subject body := by simpa only [Stmt.Placed] using ⟨subject, body⟩
  whileLoop _ condition body := by simpa only [Stmt.Placed] using ⟨condition, body⟩
  assign := by
    intro ctx e target op value loc _ fine found fine'
    -- the target is made of parts of the expression that was read for it
    have placed : target.Placed true := by
      cases e with
      | ident name loc =>
          cases found
          simp only [Target.Placed]
      | field object name loc =>
          cases found
          simpa only [Expr.Placed, Target.Placed] using fine
      | index object position loc =>
          cases found
          simpa only [Expr.Placed, Target.Placed] using fine
      | _ => cases found
    simpa only [Stmt.Placed] using ⟨placed, fine'⟩
  use _ top _ := by simpa only [Stmt.Placed, Context.Allows] using fun _ => top
  giveBack := by
    intro ctx value loc _ inside fine
    cases value with
    | none => simpa only [Stmt.Placed, Context.Allows] using fun _ => inside
    | some e =>
        simpa only [Stmt.Placed, Context.Allows] using ⟨fun _ => inside, fine e rfl⟩
  emit _ fine _ := by simpa only [Stmt.Placed] using fine
  imports _ top _ := by simpa only [Stmt.Placed, Context.Allows] using fun _ => top
  leave _ counts few := by
    simpa only [Stmt.Placed, Context.Allows] using fun _ => ⟨counts.pos, few⟩
  next _ counts few := by
    simpa only [Stmt.Placed, Context.Allows] using fun _ => ⟨counts.pos, few⟩
  perform _ fine := by simpa only [Stmt.Placed, Expr.Placed] using fine

end Grammar

theorem placed_of_parse (source : Text) (program : Program)
    (found : parse source = .ok program) : program.Placed true := by
  have outcome : Grammar.Standard.placed.Gives _ (parse source) :=
    Grammar.gives_parse fun _ _ _ _ => trivial
  rw [found] at outcome
  exact (Block.placed_iff true ⟨program.statements, program.loc⟩ .program).mp outcome

/-- A text that is not read is at fault in one of its places. -/
theorem is_found_of_parse (source : Text) (d : Diagnostic)
    (failed : parse source = .error d) : d.IsFound := by
  have outcome : Grammar.Standard.placed.Gives _ (parse source) :=
    Grammar.gives_parse fun _ _ _ _ => trivial
  rw [failed] at outcome
  exact outcome

theorem is_syntax_of_parse (source : Text) (d : Diagnostic)
    (failed : parse source = .error d) : d.IsSyntax :=
  (is_found_of_parse source d failed).malformed

end Loom
