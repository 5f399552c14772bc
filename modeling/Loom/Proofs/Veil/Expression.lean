import Loom.Eval.Expression
import Loom.Proofs.Veil.Operator

/-!
Expressions that speak of no hidden name overlook the hidden variables, over a machine that
does.
-/

namespace Loom

/-- Whether what a statement gives back speaks of no hidden name. -/
def Flow.Avoids (hidden : List Text) : Flow → Prop
  | .returned v => v.Avoids hidden
  | _ => True

/-- A machine that overlooks hidden variables, and does not ask of what it calls whether it
is a method. -/
structure Machine.Overlooks (veil : Veil) (m : Machine) : Prop where
  eval : ∀ (e : Expr) (scope : Nat), Clear veil.names e.names →
    Eval.Overlooks veil (Value.Avoids veil.names) (m.eval e scope)
  block : ∀ (statements : List Stmt) (scope : Nat), Clear veil.names (Stmt.allNames statements) →
    Eval.Overlooks veil (Flow.Avoids veil.names) (m.block statements scope)
  call : ∀ (callee : Value) (args : List Value) (name : Text), callee.Avoids veil.names →
    (∀ v ∈ args, v.Avoids veil.names) →
      Eval.Overlooks veil (Value.Avoids veil.names) (m.call callee args name)
  method : ∀ (callee : Value) (args : List Value) (name : Text),
    m.call callee.asMethod args name = m.call callee args name

namespace Eval

variable {veil : Veil}

theorem overlooks_evalReferred (scope : Nat) {container? : Option Text} {name : Text}
    (spoken : container?.getD name ∉ veil.names) :
    Overlooks veil (Value.Avoids veil.names) (evalReferred scope container? name) := by
  cases container? with
  | none => exact overlooks_lookup scope spoken
  | some container =>
      apply overlooks_then (overlooks_lookup scope spoken)
      intro v
      cases v with
      | hash ref =>
          apply overlooks_get
          intro s t states
          rw [states.heap]
          refine ⟨rfl, ?_⟩
          cases found : s.heap.entry? ref name with
          | none => exact overlooks_fault _
          | some v => exact overlooks_pure (avoids_of_stored states.held.heap found)
      | _ => exact overlooks_refused _ _

theorem overlooks_evalRef (scope : Nat) {container? : Option Text} {name : Text}
    (spoken : container?.getD name ∉ veil.names) :
    Overlooks veil (Value.Avoids veil.names) (evalRef scope container? name) := by
  apply overlooks_bind (overlooks_evalReferred scope spoken)
  intro v avoids
  split
  · exact overlooks_pure avoids
  · exact overlooks_refused _ _

variable {m : Machine} (overlooks : m.Overlooks veil)
include overlooks

theorem overlooks_evalAll (scope : Nat) {list : List Expr}
    (clear : Clear veil.names (Expr.allNames list)) :
    Overlooks veil (fun values => ∀ v ∈ values, v.Avoids veil.names) (evalAll m scope list) := by
  induction list with
  | nil => exact overlooks_pure (by simp)
  | cons e rest ih =>
      obtain ⟨first, others⟩ := clear_append.mp clear
      apply overlooks_bind (overlooks.eval e scope first)
      intro v avoids
      apply overlooks_bind (ih others)
      intro values held
      exact overlooks_pure (List.forall_mem_cons.mpr ⟨avoids, held⟩)

theorem overlooks_evalSegments (scope : Nat) {segments : List Segment}
    (clear : Clear veil.names (Segment.allNames segments)) :
    Overlooks veil (fun _ => True) (evalSegments m scope segments) := by
  induction segments with
  | nil => exact overlooks_pure trivial
  | cons segment rest ih =>
      cases segment with
      | text value => exact overlooks_then (ih clear) (fun _ => overlooks_pure trivial)
      | code value =>
          obtain ⟨first, others⟩ := clear_append.mp clear
          apply overlooks_then (overlooks.eval value scope first)
          intro v
          apply overlooks_then (overlooks_textOf v)
          intro text
          exact overlooks_then (ih others) (fun _ => overlooks_pure trivial)

theorem overlooks_evalEntries (scope : Nat) (methods : Bool) {entries : List Entry}
    (clear : Clear veil.names (Entry.allNames entries)) {table : Table Value}
    (held : ∀ entry ∈ table, entry.2.Avoids veil.names) :
    Overlooks veil (fun table => ∀ entry ∈ table, entry.2.Avoids veil.names)
      (evalEntries m scope methods table entries) := by
  induction entries generalizing table with
  | nil => exact overlooks_pure held
  | cons entry rest ih =>
      obtain ⟨key, e⟩ := entry
      obtain ⟨first, others⟩ := clear_append.mp clear
      apply overlooks_bind (overlooks.eval e scope first)
      intro v avoids
      have stored : (if methods && e.isRef then v.asMethod else v).Avoids veil.names := by
        split
        · exact avoids.asMethod
        · exact avoids
      exact ih others (Table.forall_insert key _ table held stored)

theorem overlooks_evalFieldCall (scope : Nat) {object : Expr} (field : Text) {args : List Expr}
    (receives : Clear veil.names object.names) (given : Clear veil.names (Expr.allNames args))
    (name : Text) :
    Overlooks veil (Value.Avoids veil.names) (evalFieldCall m scope object field args name) := by
  apply overlooks_bind (overlooks.eval object scope receives)
  intro receiver avoids
  apply overlooks_bind (overlooks_readField receiver field)
  intro callee called
  apply overlooks_bind (overlooks_evalAll overlooks scope given)
  intro values held
  apply overlooks.call callee _ name called
  split
  · exact List.forall_mem_cons.mpr ⟨avoids, held⟩
  · exact held

theorem overlooks_evalCall (scope : Nat) {callee : Expr} {args : List Expr}
    (calls : Clear veil.names callee.names) (given : Clear veil.names (Expr.allNames args)) :
    Overlooks veil (Value.Avoids veil.names) (evalCall m scope callee args) := by
  unfold evalCall
  split
  · rename_i object field _
    have receives : Clear veil.names object.names := calls
    exact overlooks_evalFieldCall overlooks scope field receives given _
  · apply overlooks_bind (overlooks.eval callee scope calls)
    intro f called
    exact overlooks_bind (overlooks_evalAll overlooks scope given)
      (fun _ held => overlooks.call f _ _ called held)

theorem overlooks_evalBinary (scope : Nat) (op : BinaryOp) {left right : Expr}
    (first : Clear veil.names left.names) (second : Clear veil.names right.names) :
    Overlooks veil (Value.Avoids veil.names) (evalBinary m scope op left right) := by
  have both : ∀ op, Overlooks veil (Value.Avoids veil.names)
      (do binary op (← m.eval left scope) (← m.eval right scope)) := by
    intro op
    apply overlooks_then (overlooks.eval left scope first)
    intro a
    exact overlooks_then (overlooks.eval right scope second) (fun b => overlooks_binary op a b)
  have truth : Overlooks veil (Value.Avoids veil.names)
      (do pure (.bool (← truthy (← m.eval right scope)))) := by
    apply overlooks_then (overlooks.eval right scope second)
    intro b
    exact overlooks_then (overlooks_truthy b) (fun _ => overlooks_pure trivial)
  cases op with
  | and =>
      apply overlooks_then (overlooks.eval left scope first)
      intro a
      apply overlooks_then (overlooks_truthy a)
      intro holds
      cases holds with
      | true => exact truth
      | false => exact overlooks_pure trivial
  | or =>
      apply overlooks_then (overlooks.eval left scope first)
      intro a
      apply overlooks_then (overlooks_truthy a)
      intro holds
      cases holds with
      | true => exact overlooks_pure trivial
      | false => exact truth
  | _ => exact both _

theorem overlooks_evalExpr (e : Expr) (scope : Nat) (clear : Clear veil.names e.names) :
    Overlooks veil (Value.Avoids veil.names) (evalExpr m e scope) := by
  cases e with
  | number value loc => exact overlooks_number value
  | bool value loc => exact overlooks_pure trivial
  | null loc => exact overlooks_pure trivial
  | ident name loc => exact overlooks_lookup scope (clear_singleton.mp clear)
  | ref container name loc => exact overlooks_evalRef scope (clear_singleton.mp clear)
  | string segments loc =>
      exact overlooks_then (overlooks_evalSegments overlooks scope clear)
        (fun _ => overlooks_pure trivial)
  | array elements loc =>
      apply overlooks_bind (overlooks_evalAll overlooks scope clear)
      intro values held
      apply overlooks_newArray
      intro slot member
      obtain ⟨v, inside, rfl⟩ := List.mem_map.mp (List.mem_toArray.mp member)
      exact held v inside
  | hash entries loc =>
      exact overlooks_bind (overlooks_evalEntries overlooks scope false clear (by simp))
        (fun _ held => overlooks_newHash held)
  | new entries hashLoc loc =>
      exact overlooks_bind (overlooks_evalEntries overlooks scope true clear (by simp))
        (fun _ held => overlooks_newHash held)
  | lambda procedure loc =>
      apply overlooks_get
      intro s t states
      rw [states.file]
      exact ⟨rfl, overlooks_pure clear⟩
  | call callee args loc =>
      obtain ⟨calls, given⟩ := clear_append.mp clear
      exact overlooks_evalCall overlooks scope calls given
  | field object name loc =>
      exact overlooks_then (overlooks.eval object scope clear) (fun v => overlooks_readField v name)
  | index object position loc =>
      obtain ⟨first, second⟩ := clear_append.mp clear
      apply overlooks_then (overlooks.eval object scope first)
      intro v
      exact overlooks_then (overlooks.eval position scope second) (fun i => overlooks_readIndex v i)
  | choice condition consequent alternate loc =>
      obtain ⟨asked, branches⟩ := clear_append.mp clear
      obtain ⟨first, second⟩ := clear_append.mp branches
      apply overlooks_then (overlooks.eval condition scope asked)
      intro v
      apply overlooks_then (overlooks_truthy v)
      intro holds
      cases holds with
      | true => exact overlooks.eval consequent scope first
      | false => exact overlooks.eval alternate scope second
  | unary op operand loc =>
      cases op with
      | not =>
          apply overlooks_then (overlooks.eval operand scope clear)
          intro v
          exact overlooks_then (overlooks_truthy v) (fun _ => overlooks_pure trivial)
      | negate =>
          exact overlooks_then (overlooks.eval operand scope clear) (fun v => overlooks_negate v)
  | binary op left right loc =>
      obtain ⟨first, second⟩ := clear_append.mp clear
      exact overlooks_evalBinary overlooks scope op first second

end Eval

end Loom
