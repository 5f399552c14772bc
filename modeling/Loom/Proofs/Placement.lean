import Loom.Grammar.Expression
import Loom.Program.Sites

/-!
Where statements stand. A statement is placed when what surrounds it allows it:
`return` in a function, `break` and `continue` in as many loops of the same
function as they name, `use` at the top of a body, `import` at the top of a
program. What surrounds a statement is a context, as it is for the grammar.

A lenient reading asks nothing, so that every tree is placed; what is proved of
placed programs in general then also holds of trees that no text is read as.
-/

namespace Loom

namespace Grammar.Context

/-- Whether a statement may stand in a context. -/
def Allows (ctx : Context) : Stmt → Prop
  | .giveBack _ _ => ctx.inFunction = true
  | .leave depth _ => 1 ≤ depth ∧ depth ≤ ctx.loopDepth
  | .next depth _ => 1 ≤ depth ∧ depth ≤ ctx.loopDepth
  | .use _ _ => ctx.scopeRoot = true
  | .imports _ _ _ => ctx.topLevel = true
  | _ => True

end Grammar.Context

open Grammar (Context)

mutual

def Expr.Placed (strict : Bool) : Expr → Prop
  | .number _ _ => True
  | .bool _ _ => True
  | .null _ => True
  | .string segments _ => Segment.AllPlaced strict segments
  | .ident _ _ => True
  | .array elements _ => Expr.AllPlaced strict elements
  | .hash entries _ => Entry.AllPlaced strict entries
  | .new entries _ _ => Entry.AllPlaced strict entries
  | .ref _ _ _ => True
  -- no context comes in here: what a lambda stands in is nothing to its body
  | .lambda procedure _ => procedure.Placed strict
  | .call callee args _ => callee.Placed strict ∧ Expr.AllPlaced strict args
  | .field object _ _ => object.Placed strict
  | .index object position _ => object.Placed strict ∧ position.Placed strict
  | .choice condition consequent alternate _ =>
      condition.Placed strict ∧ consequent.Placed strict ∧ alternate.Placed strict
  | .unary _ operand _ => operand.Placed strict
  | .binary _ left right _ => left.Placed strict ∧ right.Placed strict

def Expr.AllPlaced (strict : Bool) : List Expr → Prop
  | [] => True
  | e :: rest => e.Placed strict ∧ Expr.AllPlaced strict rest

def Segment.AllPlaced (strict : Bool) : List Segment → Prop
  | [] => True
  | .text _ :: rest => Segment.AllPlaced strict rest
  | .code value :: rest => value.Placed strict ∧ Segment.AllPlaced strict rest

def Entry.AllPlaced (strict : Bool) : List Entry → Prop
  | [] => True
  | ⟨_, value⟩ :: rest => value.Placed strict ∧ Entry.AllPlaced strict rest

/-- The body of a procedure stands in a function and in no loop, wherever the
procedure itself stands. -/
def Procedure.Placed (strict : Bool) : Procedure → Prop
  | ⟨_, _, body, _⟩ => body.Placed strict .function

def Block.Placed (strict : Bool) : Block → Context → Prop
  | ⟨statements, _⟩, ctx => Stmt.AllPlaced strict statements ctx

def Target.Placed (strict : Bool) : Target → Prop
  | .ident _ _ => True
  | .field object _ _ => object.Placed strict
  | .index object position _ => object.Placed strict ∧ position.Placed strict

def Branch.AllPlaced (strict : Bool) : List Branch → Context → Prop
  | [], _ => True
  | ⟨condition, body⟩ :: rest, ctx =>
      condition.Placed strict ∧ body.Placed strict ctx ∧ Branch.AllPlaced strict rest ctx

def Stmt.Placed (strict : Bool) : Stmt → Context → Prop
  | .define _ procedure _, _ => procedure.Placed strict
  | .cond branches none _, ctx => Branch.AllPlaced strict branches ctx.branch
  | .cond branches (some alternate) _, ctx =>
      Branch.AllPlaced strict branches ctx.branch ∧ alternate.Placed strict ctx.branch
  | .forEach _ subject body _, ctx => subject.Placed strict ∧ body.Placed strict ctx.loop
  | .whileLoop condition body _, ctx => condition.Placed strict ∧ body.Placed strict ctx.loop
  | .assign target _ value _, _ => target.Placed strict ∧ value.Placed strict
  | .use names loc, ctx => strict = true → ctx.Allows (.use names loc)
  | .giveBack none loc, ctx => strict = true → ctx.Allows (.giveBack none loc)
  | .giveBack (some value) loc, ctx =>
      (strict = true → ctx.Allows (.giveBack (some value) loc)) ∧ value.Placed strict
  | .emit value _ _, _ => value.Placed strict
  | .imports native modules loc, ctx => strict = true → ctx.Allows (.imports native modules loc)
  | .leave depth loc, ctx => strict = true → ctx.Allows (.leave depth loc)
  | .next depth loc, ctx => strict = true → ctx.Allows (.next depth loc)
  | .call callee args _ _, _ => callee.Placed strict ∧ Expr.AllPlaced strict args

def Stmt.AllPlaced (strict : Bool) : List Stmt → Context → Prop
  | [], _ => True
  | s :: rest, ctx => s.Placed strict ctx ∧ Stmt.AllPlaced strict rest ctx

end

/-- A program is placed when its statements are, at the top of a program. -/
def Program.Placed (strict : Bool) (program : Program) : Prop :=
  Stmt.AllPlaced strict program.statements .program

theorem Expr.allPlaced_iff (strict : Bool) (list : List Expr) :
    Expr.AllPlaced strict list ↔ ∀ e ∈ list, e.Placed strict := by
  induction list with
  | nil => simp [Expr.AllPlaced]
  | cons e rest ih => simp [Expr.AllPlaced, ih]

theorem Entry.allPlaced_iff (strict : Bool) (list : List Entry) :
    Entry.AllPlaced strict list ↔ ∀ e ∈ list, e.value.Placed strict := by
  induction list with
  | nil => simp [Entry.AllPlaced]
  | cons e rest ih =>
      cases e
      simp [Entry.AllPlaced, ih]

theorem Segment.allPlaced_iff (strict : Bool) (list : List Segment) :
    Segment.AllPlaced strict list ↔ ∀ e, .code e ∈ list → e.Placed strict := by
  induction list with
  | nil => simp [Segment.AllPlaced]
  | cons segment rest ih => cases segment <;> simp [Segment.AllPlaced, ih]

theorem Stmt.allPlaced_iff (strict : Bool) (statements : List Stmt) (ctx : Context) :
    Stmt.AllPlaced strict statements ctx ↔ ∀ s ∈ statements, s.Placed strict ctx := by
  induction statements with
  | nil => simp [Stmt.AllPlaced]
  | cons s rest ih => simp [Stmt.AllPlaced, ih]

theorem Branch.allPlaced_iff (strict : Bool) (branches : List Branch) (ctx : Context) :
    Branch.AllPlaced strict branches ctx ↔
      ∀ b ∈ branches, b.condition.Placed strict ∧ b.body.Placed strict ctx := by
  induction branches with
  | nil => simp [Branch.AllPlaced]
  | cons b rest ih =>
      cases b
      simp [Branch.AllPlaced, ih, and_assoc]

theorem Block.placed_iff (strict : Bool) (b : Block) (ctx : Context) :
    b.Placed strict ctx ↔ Stmt.AllPlaced strict b.statements ctx := by
  cases b
  simp [Block.Placed]

theorem Procedure.placed_iff (strict : Bool) (p : Procedure) :
    p.Placed strict ↔ Stmt.AllPlaced strict p.body.statements .function := by
  cases p
  simp [Procedure.Placed, Block.placed_iff]

/-! Nothing is asked of a tree that is read leniently. -/

mutual

theorem Expr.placed_of_lenient : (e : Expr) → e.Placed false
  | .number _ _ | .bool _ _ | .null _ | .ident _ _ | .ref _ _ _ => by simp [Expr.Placed]
  | .string segments _ => by
      simpa [Expr.Placed] using Segment.allPlaced_of_lenient segments
  | .array elements _ => by
      simpa [Expr.Placed] using Expr.allPlaced_of_lenient elements
  | .hash entries _ => by
      simpa [Expr.Placed] using Entry.allPlaced_of_lenient entries
  | .new entries _ _ => by
      simpa [Expr.Placed] using Entry.allPlaced_of_lenient entries
  | .lambda procedure _ => by
      simpa [Expr.Placed] using Procedure.placed_of_lenient procedure
  | .call callee args _ => by
      simpa [Expr.Placed] using
        ⟨Expr.placed_of_lenient callee, Expr.allPlaced_of_lenient args⟩
  | .field object _ _ => by
      simpa [Expr.Placed] using Expr.placed_of_lenient object
  | .index object position _ => by
      simpa [Expr.Placed] using
        ⟨Expr.placed_of_lenient object, Expr.placed_of_lenient position⟩
  | .choice condition consequent alternate _ => by
      simpa [Expr.Placed] using
        ⟨Expr.placed_of_lenient condition, Expr.placed_of_lenient consequent,
          Expr.placed_of_lenient alternate⟩
  | .unary _ operand _ => by
      simpa [Expr.Placed] using Expr.placed_of_lenient operand
  | .binary _ left right _ => by
      simpa [Expr.Placed] using
        ⟨Expr.placed_of_lenient left, Expr.placed_of_lenient right⟩

theorem Expr.allPlaced_of_lenient : (list : List Expr) → Expr.AllPlaced false list
  | [] => by simp [Expr.AllPlaced]
  | e :: rest => by
      simpa [Expr.AllPlaced] using
        ⟨Expr.placed_of_lenient e, Expr.allPlaced_of_lenient rest⟩

theorem Segment.allPlaced_of_lenient : (list : List Segment) → Segment.AllPlaced false list
  | [] => by simp [Segment.AllPlaced]
  | .text _ :: rest => by
      simpa [Segment.AllPlaced] using Segment.allPlaced_of_lenient rest
  | .code value :: rest => by
      simpa [Segment.AllPlaced] using
        ⟨Expr.placed_of_lenient value, Segment.allPlaced_of_lenient rest⟩

theorem Entry.allPlaced_of_lenient : (list : List Entry) → Entry.AllPlaced false list
  | [] => by simp [Entry.AllPlaced]
  | ⟨_, value⟩ :: rest => by
      simpa [Entry.AllPlaced] using
        ⟨Expr.placed_of_lenient value, Entry.allPlaced_of_lenient rest⟩

theorem Procedure.placed_of_lenient : (p : Procedure) → p.Placed false
  | ⟨_, _, body, _⟩ => by
      simpa [Procedure.Placed] using Block.placed_of_lenient body .function

theorem Block.placed_of_lenient : (b : Block) → (ctx : Context) → b.Placed false ctx
  | ⟨statements, _⟩, ctx => by
      simpa [Block.Placed] using Stmt.allPlaced_of_lenient statements ctx

theorem Target.placed_of_lenient : (t : Target) → t.Placed false
  | .ident _ _ => by simp [Target.Placed]
  | .field object _ _ => by
      simpa [Target.Placed] using Expr.placed_of_lenient object
  | .index object position _ => by
      simpa [Target.Placed] using
        ⟨Expr.placed_of_lenient object, Expr.placed_of_lenient position⟩

theorem Branch.allPlaced_of_lenient :
    (list : List Branch) → (ctx : Context) → Branch.AllPlaced false list ctx
  | [], _ => by simp [Branch.AllPlaced]
  | ⟨condition, body⟩ :: rest, ctx => by
      simpa [Branch.AllPlaced] using
        ⟨Expr.placed_of_lenient condition, Block.placed_of_lenient body ctx,
          Branch.allPlaced_of_lenient rest ctx⟩

theorem Stmt.placed_of_lenient : (s : Stmt) → (ctx : Context) → s.Placed false ctx
  | .define _ procedure _, _ => by
      simpa [Stmt.Placed] using Procedure.placed_of_lenient procedure
  | .cond branches none _, ctx => by
      simpa [Stmt.Placed] using Branch.allPlaced_of_lenient branches ctx.branch
  | .cond branches (some alternate) _, ctx => by
      simpa [Stmt.Placed] using
        ⟨Branch.allPlaced_of_lenient branches ctx.branch,
          Block.placed_of_lenient alternate ctx.branch⟩
  | .forEach _ subject body _, ctx => by
      simpa [Stmt.Placed] using
        ⟨Expr.placed_of_lenient subject, Block.placed_of_lenient body ctx.loop⟩
  | .whileLoop condition body _, ctx => by
      simpa [Stmt.Placed] using
        ⟨Expr.placed_of_lenient condition, Block.placed_of_lenient body ctx.loop⟩
  | .assign target _ value _, _ => by
      simpa [Stmt.Placed] using
        ⟨Target.placed_of_lenient target, Expr.placed_of_lenient value⟩
  | .giveBack (some value) _, _ => by
      simpa [Stmt.Placed] using Expr.placed_of_lenient value
  | .emit value _ _, _ => by
      simpa [Stmt.Placed] using Expr.placed_of_lenient value
  | .call callee args _ _, _ => by
      simpa [Stmt.Placed] using
        ⟨Expr.placed_of_lenient callee, Expr.allPlaced_of_lenient args⟩
  | .use _ _, _ | .giveBack none _, _ | .imports _ _ _, _ | .leave _ _, _ | .next _ _, _ => by
      simp [Stmt.Placed]

theorem Stmt.allPlaced_of_lenient :
    (list : List Stmt) → (ctx : Context) → Stmt.AllPlaced false list ctx
  | [], _ => by simp [Stmt.AllPlaced]
  | s :: rest, ctx => by
      simpa [Stmt.AllPlaced] using
        ⟨Stmt.placed_of_lenient s ctx, Stmt.allPlaced_of_lenient rest ctx⟩

end

/-! Numbering the procedures of a tree moves no statement. -/

mutual

theorem Expr.placed_withSites (strict : Bool) :
    (e : Expr) → (n : Site) → e.Placed strict → (e.withSites n).1.Placed strict
  | .number _ _, _, _ | .bool _ _, _, _ | .null _, _, _ | .ident _ _, _, _ | .ref _ _ _, _, _ => by
      simp [Expr.withSites, Expr.Placed]
  | .string segments _, n, placed => by
      simp only [Expr.Placed] at placed
      exact Segment.allPlaced_withSites strict segments n placed
  | .array elements _, n, placed => by
      simp only [Expr.Placed] at placed
      exact Expr.allPlaced_withSites strict elements n placed
  | .hash entries _, n, placed => by
      simp only [Expr.Placed] at placed
      exact Entry.allPlaced_withSites strict entries n placed
  | .new entries _ _, n, placed => by
      simp only [Expr.Placed] at placed
      exact Entry.allPlaced_withSites strict entries n placed
  | .lambda procedure _, n, placed => by
      simp only [Expr.Placed] at placed
      exact Procedure.placed_withSites strict procedure n placed
  | .call callee args _, n, placed => by
      simp only [Expr.Placed] at placed
      exact ⟨Expr.placed_withSites strict callee n placed.1,
        Expr.allPlaced_withSites strict args _ placed.2⟩
  | .field object _ _, n, placed => by
      simp only [Expr.Placed] at placed
      exact Expr.placed_withSites strict object n placed
  | .index object position _, n, placed => by
      simp only [Expr.Placed] at placed
      exact ⟨Expr.placed_withSites strict object n placed.1,
        Expr.placed_withSites strict position _ placed.2⟩
  | .choice condition consequent alternate _, n, placed => by
      simp only [Expr.Placed] at placed
      exact ⟨Expr.placed_withSites strict condition n placed.1,
        Expr.placed_withSites strict consequent _ placed.2.1,
        Expr.placed_withSites strict alternate _ placed.2.2⟩
  | .unary _ operand _, n, placed => by
      simp only [Expr.Placed] at placed
      exact Expr.placed_withSites strict operand n placed
  | .binary _ left right _, n, placed => by
      simp only [Expr.Placed] at placed
      exact ⟨Expr.placed_withSites strict left n placed.1,
        Expr.placed_withSites strict right _ placed.2⟩

theorem Expr.allPlaced_withSites (strict : Bool) :
    (list : List Expr) → (n : Site) → Expr.AllPlaced strict list →
      Expr.AllPlaced strict (Expr.allWithSites list n).1
  | [], _, _ => by simp [Expr.allWithSites, Expr.AllPlaced]
  | e :: rest, n, placed => by
      simp only [Expr.AllPlaced] at placed
      exact ⟨Expr.placed_withSites strict e n placed.1,
        Expr.allPlaced_withSites strict rest _ placed.2⟩

theorem Segment.allPlaced_withSites (strict : Bool) :
    (list : List Segment) → (n : Site) → Segment.AllPlaced strict list →
      Segment.AllPlaced strict (Segment.allWithSites list n).1
  | [], _, _ => by simp [Segment.allWithSites, Segment.AllPlaced]
  | .text _ :: rest, n, placed => by
      simp only [Segment.AllPlaced] at placed
      exact Segment.allPlaced_withSites strict rest n placed
  | .code value :: rest, n, placed => by
      simp only [Segment.AllPlaced] at placed
      exact ⟨Expr.placed_withSites strict value n placed.1,
        Segment.allPlaced_withSites strict rest _ placed.2⟩

theorem Entry.allPlaced_withSites (strict : Bool) :
    (list : List Entry) → (n : Site) → Entry.AllPlaced strict list →
      Entry.AllPlaced strict (Entry.allWithSites list n).1
  | [], _, _ => by simp [Entry.allWithSites, Entry.AllPlaced]
  | ⟨_, value⟩ :: rest, n, placed => by
      simp only [Entry.AllPlaced] at placed
      exact ⟨Expr.placed_withSites strict value n placed.1,
        Entry.allPlaced_withSites strict rest _ placed.2⟩

theorem Procedure.placed_withSites (strict : Bool) :
    (p : Procedure) → (n : Site) → p.Placed strict → (p.withSites n).1.Placed strict
  | ⟨_, _, body, _⟩, n, placed => by
      simp only [Procedure.Placed] at placed
      exact Block.placed_withSites strict body n.next .function placed

theorem Block.placed_withSites (strict : Bool) :
    (b : Block) → (n : Site) → (ctx : Context) → b.Placed strict ctx →
      (b.withSites n).1.Placed strict ctx
  | ⟨statements, _⟩, n, ctx, placed => by
      simp only [Block.Placed] at placed
      exact Stmt.allPlaced_withSites strict statements n ctx placed

theorem Target.placed_withSites (strict : Bool) :
    (t : Target) → (n : Site) → t.Placed strict → (t.withSites n).1.Placed strict
  | .ident _ _, _, _ => by simp [Target.withSites, Target.Placed]
  | .field object _ _, n, placed => by
      simp only [Target.Placed] at placed
      exact Expr.placed_withSites strict object n placed
  | .index object position _, n, placed => by
      simp only [Target.Placed] at placed
      exact ⟨Expr.placed_withSites strict object n placed.1,
        Expr.placed_withSites strict position _ placed.2⟩

theorem Branch.allPlaced_withSites (strict : Bool) :
    (list : List Branch) → (n : Site) → (ctx : Context) → Branch.AllPlaced strict list ctx →
      Branch.AllPlaced strict (Branch.allWithSites list n).1 ctx
  | [], _, _, _ => by simp [Branch.allWithSites, Branch.AllPlaced]
  | ⟨condition, body⟩ :: rest, n, ctx, placed => by
      simp only [Branch.AllPlaced] at placed
      exact ⟨Expr.placed_withSites strict condition n placed.1,
        Block.placed_withSites strict body _ ctx placed.2.1,
        Branch.allPlaced_withSites strict rest _ ctx placed.2.2⟩

theorem Stmt.placed_withSites (strict : Bool) :
    (s : Stmt) → (n : Site) → (ctx : Context) → s.Placed strict ctx →
      (s.withSites n).1.Placed strict ctx
  | .define _ procedure _, n, _, placed => by
      simp only [Stmt.Placed] at placed
      exact Procedure.placed_withSites strict procedure n placed
  | .cond branches none _, n, ctx, placed => by
      simp only [Stmt.Placed] at placed
      exact Branch.allPlaced_withSites strict branches n ctx.branch placed
  | .cond branches (some alternate) _, n, ctx, placed => by
      simp only [Stmt.Placed] at placed
      exact ⟨Branch.allPlaced_withSites strict branches n ctx.branch placed.1,
        Block.placed_withSites strict alternate _ ctx.branch placed.2⟩
  | .forEach _ subject body _, n, ctx, placed => by
      simp only [Stmt.Placed] at placed
      exact ⟨Expr.placed_withSites strict subject n placed.1,
        Block.placed_withSites strict body _ ctx.loop placed.2⟩
  | .whileLoop condition body _, n, ctx, placed => by
      simp only [Stmt.Placed] at placed
      exact ⟨Expr.placed_withSites strict condition n placed.1,
        Block.placed_withSites strict body _ ctx.loop placed.2⟩
  | .assign target _ value _, n, _, placed => by
      simp only [Stmt.Placed] at placed
      exact ⟨Target.placed_withSites strict target n placed.1,
        Expr.placed_withSites strict value _ placed.2⟩
  | .giveBack (some value) loc, n, ctx, placed => by
      simp only [Stmt.Placed] at placed
      exact ⟨placed.1, Expr.placed_withSites strict value n placed.2⟩
  | .emit value _ _, n, _, placed => by
      simp only [Stmt.Placed] at placed
      exact Expr.placed_withSites strict value n placed
  | .call callee args _ _, n, _, placed => by
      simp only [Stmt.Placed] at placed
      exact ⟨Expr.placed_withSites strict callee n placed.1,
        Expr.allPlaced_withSites strict args _ placed.2⟩
  | .use _ _, _, _, placed | .giveBack none _, _, _, placed | .imports _ _ _, _, _, placed
  | .leave _ _, _, _, placed | .next _ _, _, _, placed => by
      simpa only [Stmt.withSites] using placed

theorem Stmt.allPlaced_withSites (strict : Bool) :
    (list : List Stmt) → (n : Site) → (ctx : Context) → Stmt.AllPlaced strict list ctx →
      Stmt.AllPlaced strict (Stmt.allWithSites list n).1 ctx
  | [], _, _, _ => by simp [Stmt.allWithSites, Stmt.AllPlaced]
  | s :: rest, n, ctx, placed => by
      simp only [Stmt.AllPlaced] at placed
      exact ⟨Stmt.placed_withSites strict s n ctx placed.1,
        Stmt.allPlaced_withSites strict rest _ ctx placed.2⟩

end

theorem Program.placed_withSites (strict : Bool) (program : Program) (origin : Origin)
    (placed : program.Placed strict) : (program.withSites origin).Placed strict :=
  Stmt.allPlaced_withSites strict program.statements _ .program placed

theorem Program.placed_of_lenient (program : Program) : program.Placed false :=
  Stmt.allPlaced_of_lenient program.statements .program

end Loom
