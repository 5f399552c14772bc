import Loom.Eval.Expression
import Loom.Proofs.Likeness.Operator

/-!
Expressions over a machine that respects a likeness: what is asked of a tree and of one that
comes of an admitted revision of it agrees, and so does what is asked of like values.
-/

namespace Loom

/-- Statements that end alike. -/
inductive Flow.Like (l : Likeness) : Flow → Flow → Prop
  | normal : Like l .normal .normal
  | returned {v w : Value} (same : Value.Like l v w) : Like l (.returned v) (.returned w)
  | broke (depth : Nat) : Like l (.broke depth) (.broke depth)
  | continued (depth : Nat) : Like l (.continued depth) (.continued depth)

open Eval

/-- A machine for which trees are what their admitted revisions are, and values are what
their like are. -/
structure Machine.Respects (l : Likeness) (m : Machine) : Prop where
  eval : ∀ {r : Revision}, l.Admits r → ∀ e scope, Agree l (Value.Like l) (m.eval e scope)
    (m.eval (e.revised r) (l.before.scopes + scope))
  block : ∀ {r : Revision}, l.Admits r → ∀ statements scope, Agree l (Flow.Like l)
    (m.block statements scope)
    (m.block (Stmt.allRevised r statements) (l.before.scopes + scope))
  call : ∀ {callee callee' : Value} {args args' : List Value} (name : Text),
    Value.Like l callee callee' → List.Forall₂ (Value.Like l) args args' →
      Agree l (Value.Like l) (m.call callee args name) (m.call callee' args' name)

namespace Eval

variable {l : Likeness}

theorem agree_evalReferred (scope : Nat) (container? : Option Text) (name : Text) :
    Agree l (Value.Like l) (evalReferred scope container? name)
      (evalReferred (l.before.scopes + scope) container? name) := by
  cases container? with
  | none => exact agree_lookup scope name
  | some container =>
      apply agree_bind (agree_lookup scope container)
      intro v v' same
      have like := same
      cases same with
      | hash ref =>
          apply agree_get
          intro s t states
          rcases related_cases (states.heap.entry? ref name) with
            ⟨none, none'⟩ | ⟨v, w, some, some', like⟩
          · rw [none, none']
            exact agree_fault (.refl _)
          · rw [some, some']
            exact agree_pure like
      | _ => exact agree_refused like _ _

theorem agree_evalRef (scope : Nat) (container? : Option Text) (name : Text) :
    Agree l (Value.Like l) (evalRef scope container? name)
      (evalRef (l.before.scopes + scope) container? name) := by
  apply agree_bind (agree_evalReferred scope container? name)
  intro v v' same
  rw [same.isCallable_eq]
  split
  · exact agree_pure same
  · exact agree_refused same _ _

variable {m : Machine} (respects : m.Respects l) {r : Revision} (admitted : l.Admits r)
include respects admitted

theorem agree_evalAll (scope : Nat) (list : List Expr) :
    Agree l (List.Forall₂ (Value.Like l)) (evalAll m scope list)
      (evalAll m (l.before.scopes + scope) (Expr.allRevised r list)) := by
  induction list with
  | nil => exact agree_pure .nil
  | cons e rest ih =>
      apply agree_bind (respects.eval admitted e scope)
      intro v v' first
      exact agree_bind ih (fun _ _ others => agree_pure (.cons first others))

theorem agree_evalSegments (scope : Nat) (segments : List Segment) :
    Agree l Eq (evalSegments m scope segments)
      (evalSegments m (l.before.scopes + scope) (Segment.allRevised r segments)) := by
  induction segments with
  | nil => exact agree_pure rfl
  | cons segment rest ih =>
      cases segment with
      | text value => exact agree_then ih (fun _ => agree_pure rfl)
      | code value =>
          apply agree_bind (respects.eval admitted value scope)
          intro v v' same
          apply agree_then (agree_textOf same)
          intro text
          exact agree_then ih (fun _ => agree_pure rfl)

theorem agree_evalEntries (scope : Nat) (methods : Bool) (entries : List Entry)
    {table table' : Table Value} (sofar : Table.Like l table table') :
    Agree l (Table.Like l) (evalEntries m scope methods table entries)
      (evalEntries m (l.before.scopes + scope) methods table' (Entry.allRevised r entries)) := by
  induction entries generalizing table table' with
  | nil => exact agree_pure sofar
  | cons entry rest ih =>
      obtain ⟨key, e⟩ := entry
      apply agree_bind (respects.eval admitted e scope)
      intro v v' same
      have stored : Value.Like l (if methods && e.isRef then v.asMethod else v)
          (if methods && (e.revised r).isRef then v'.asMethod else v') := by
        rw [e.isRef_revised]
        split
        · exact same.asMethod
        · exact same
      exact ih (sofar.insert key stored)

theorem agree_evalFieldCall (scope : Nat) (object : Expr) (field : Text) (args : List Expr)
    (name : Text) :
    Agree l (Value.Like l) (evalFieldCall m scope object field args name)
      (evalFieldCall m (l.before.scopes + scope) (object.revised r) field
        (Expr.allRevised r args) name) := by
  apply agree_bind (respects.eval admitted object scope)
  intro receiver receiver' same
  apply agree_bind (agree_readField same field)
  intro callee callee' called
  apply agree_bind (agree_evalAll respects admitted scope args)
  intro values values' given
  apply respects.call name called
  rw [called.isMethod_eq]
  split
  · exact .cons same given
  · exact given

theorem agree_evalCall (scope : Nat) (callee : Expr) (args : List Expr) :
    Agree l (Value.Like l) (evalCall m scope callee args)
      (evalCall m (l.before.scopes + scope) (callee.revised r) (Expr.allRevised r args)) := by
  have called : ∀ (callee : Expr) (name : Text), Agree l (Value.Like l)
      (do
        let f ← m.eval callee scope
        let values ← evalAll m scope args
        m.call f values name)
      (do
        let f ← m.eval (callee.revised r) (l.before.scopes + scope)
        let values ← evalAll m (l.before.scopes + scope) (Expr.allRevised r args)
        m.call f values name) := by
    intro callee name
    apply agree_bind (respects.eval admitted callee scope)
    intro f f' same
    exact agree_bind (agree_evalAll respects admitted scope args)
      (fun _ _ given => respects.call name same given)
  have name := callee.calleeName_revised r
  cases callee with
  | field object field loc =>
      simp only [Expr.revised] at name
      simp only [Expr.revised, evalCall, name]
      exact agree_evalFieldCall respects admitted scope object field args _
  | _ =>
      simp only [Expr.revised] at name called
      simp only [Expr.revised, evalCall, name]
      exact called _ _

theorem agree_evalBinary (scope : Nat) (op : BinaryOp) (left right : Expr) :
    Agree l (Value.Like l) (evalBinary m scope op left right)
      (evalBinary m (l.before.scopes + scope) op (left.revised r) (right.revised r)) := by
  have both : ∀ op, Agree l (Value.Like l)
      (do binary op (← m.eval left scope) (← m.eval right scope))
      (do binary op (← m.eval (left.revised r) (l.before.scopes + scope))
            (← m.eval (right.revised r) (l.before.scopes + scope))) := by
    intro op
    apply agree_bind (respects.eval admitted left scope)
    intro v v' first
    exact agree_bind (respects.eval admitted right scope)
      (fun _ _ second => agree_binary first second op)
  have second : Agree l (Value.Like l)
      (do pure (.bool (← truthy (← m.eval right scope))))
      (do pure (.bool (← truthy (← m.eval (right.revised r) (l.before.scopes + scope))))) := by
    apply agree_bind (respects.eval admitted right scope)
    intro v v' same
    exact agree_then (agree_truthy same) (fun _ => agree_pure (.bool _))
  cases op with
  | and =>
      apply agree_bind (respects.eval admitted left scope)
      intro v v' same
      apply agree_then (agree_truthy same)
      intro b
      cases b with
      | true => exact second
      | false => exact agree_pure (.bool _)
  | or =>
      apply agree_bind (respects.eval admitted left scope)
      intro v v' same
      apply agree_then (agree_truthy same)
      intro b
      cases b with
      | true => exact agree_pure (.bool _)
      | false => exact second
  | _ => exact both _

theorem agree_evalExpr (e : Expr) (scope : Nat) :
    Agree l (Value.Like l) (evalExpr m e scope)
      (evalExpr m (e.revised r) (l.before.scopes + scope)) := by
  cases e with
  | number value loc =>
      simp only [Expr.revised]
      exact agree_number (admitted.number value)
  | bool value loc =>
      simp only [Expr.revised]
      exact agree_pure (.bool value)
  | null loc =>
      simp only [Expr.revised]
      exact agree_pure .null
  | ident name loc =>
      simp only [Expr.revised]
      exact agree_lookup scope name
  | ref container name loc =>
      simp only [Expr.revised]
      exact agree_evalRef scope container name
  | string segments loc =>
      simp only [Expr.revised]
      exact agree_then (agree_evalSegments respects admitted scope segments)
        (fun _ => agree_pure (.string _))
  | array elements loc =>
      simp only [Expr.revised]
      exact agree_bind (agree_evalAll respects admitted scope elements)
        (fun _ _ same => agree_newArray (Slot.all_like_of_values same))
  | hash entries loc =>
      simp only [Expr.revised]
      exact agree_bind (agree_evalEntries respects admitted scope false entries .nil)
        (fun _ _ same => agree_newHash same)
  | new entries hashLoc loc =>
      simp only [Expr.revised]
      exact agree_bind (agree_evalEntries respects admitted scope true entries .nil)
        (fun _ _ same => agree_newHash same)
  | lambda procedure loc =>
      simp only [Expr.revised]
      apply agree_get
      intro s t states
      rw [states.file]
      exact agree_pure (.function (Closure.like_revised admitted _ procedure scope _) false)
  | call callee args loc =>
      simp only [Expr.revised]
      exact agree_evalCall respects admitted scope callee args
  | field object name loc =>
      simp only [Expr.revised]
      exact agree_bind (respects.eval admitted object scope)
        (fun _ _ same => agree_readField same name)
  | index object position loc =>
      simp only [Expr.revised]
      apply agree_bind (respects.eval admitted object scope)
      intro v v' same
      exact agree_bind (respects.eval admitted position scope)
        (fun _ _ place => agree_readIndex same place)
  | choice condition consequent alternate loc =>
      simp only [Expr.revised]
      apply agree_bind (respects.eval admitted condition scope)
      intro v v' same
      apply agree_then (agree_truthy same)
      intro b
      cases b with
      | true => exact respects.eval admitted consequent scope
      | false => exact respects.eval admitted alternate scope
  | unary op operand loc =>
      simp only [Expr.revised]
      cases op with
      | not =>
          apply agree_bind (respects.eval admitted operand scope)
          intro v v' same
          exact agree_then (agree_truthy same) (fun _ => agree_pure (.bool _))
      | negate =>
          exact agree_bind (respects.eval admitted operand scope)
            (fun _ _ same => agree_negate same)
  | binary op left right loc =>
      simp only [Expr.revised]
      exact agree_evalBinary respects admitted scope op left right

end Eval

end Loom
