import Loom.Eval.Statement
import Loom.Proofs.Growth
import Loom.Proofs.Held

/-!
Expressions that call nothing. Whatever else such an expression does, variables and what the
heap holds stay as they are, and how deep a machine may nest evaluations plays no part once it
is enough for the expression. Expressions that only read do not even add to the heap.
-/

namespace Loom

namespace Expr

/-- The expressions that an expression evaluates on the way, if it evaluates all it can. What
a lambda is made of is not evaluated with it. -/
def parts : Expr → List Expr
  | number _ _ | bool _ _ | null _ | ident _ _ | ref _ _ _ | lambda _ _ => []
  | string segments _ => segments.filterMap fun
      | .text _ => none
      | .code value => some value
  | array elements _ => elements
  | hash entries _ | new entries _ _ => entries.map Entry.value
  | call callee args _ => callee :: args
  | field object _ _ => [object]
  | index object position _ => [object, position]
  | choice condition consequent alternate _ => [condition, consequent, alternate]
  | unary _ operand _ => [operand]
  | binary _ left right _ => [left, right]

theorem sizeOf_lt_of_mem_parts {e part : Expr} (member : part ∈ e.parts) :
    sizeOf part < sizeOf e := by
  cases e with
  | string segments loc =>
      obtain ⟨segment, inside, is⟩ := List.mem_filterMap.mp member
      have smaller := List.sizeOf_lt_of_mem inside
      cases segment with
      | text value => cases is
      | code value =>
          cases is
          simp only [Segment.code.sizeOf_spec] at smaller
          simp only [string.sizeOf_spec]
          omega
  | array elements loc =>
      have smaller : sizeOf part < sizeOf elements := List.sizeOf_lt_of_mem member
      simp only [array.sizeOf_spec]
      omega
  | hash entries loc | new entries hashLoc loc =>
      obtain ⟨⟨key, value⟩, inside, rfl⟩ := List.mem_map.mp member
      have smaller := List.sizeOf_lt_of_mem inside
      simp only [Entry.mk.sizeOf_spec] at smaller
      simp only [hash.sizeOf_spec, new.sizeOf_spec]
      omega
  | call callee args loc =>
      rcases List.mem_cons.mp member with rfl | inside
      · simp only [call.sizeOf_spec]
        omega
      · have smaller := List.sizeOf_lt_of_mem inside
        simp only [call.sizeOf_spec]
        omega
  | field object name loc =>
      simp only [parts, List.mem_singleton] at member
      subst member
      simp only [field.sizeOf_spec]
      omega
  | index object position loc =>
      simp only [parts, List.mem_cons, List.not_mem_nil, or_false] at member
      simp only [index.sizeOf_spec]
      rcases member with rfl | rfl <;> omega
  | choice condition consequent alternate loc =>
      simp only [parts, List.mem_cons, List.not_mem_nil, or_false] at member
      simp only [choice.sizeOf_spec]
      rcases member with rfl | rfl | rfl <;> omega
  | unary op operand loc =>
      simp only [parts, List.mem_singleton] at member
      subst member
      simp only [unary.sizeOf_spec]
      omega
  | binary op left right loc =>
      simp only [parts, List.mem_cons, List.not_mem_nil, or_false] at member
      simp only [binary.sizeOf_spec]
      rcases member with rfl | rfl <;> omega
  | _ => cases member

def isCall : Expr → Bool
  | call _ _ _ => true
  | _ => false

/-- An expression that neither is nor evaluates a call. -/
inductive CallFree : Expr → Prop where
  | intro {e : Expr} (other : e.isCall = false) (parts : ∀ part ∈ e.parts, CallFree part) :
      CallFree e

/-- Names, literals of scalars and strings, fields and elements. No literal is NaN. -/
def isRead : Expr → Bool
  | number value _ => !value.isNaN
  | bool _ _ | null _ | string _ _ | ident _ _ | field _ _ _ | index _ _ _ => true
  | _ => false

/-- An expression that is made of names and literals by reading fields and elements. -/
inductive ReadOnly : Expr → Prop where
  | intro {e : Expr} (read : e.isRead = true) (parts : ∀ part ∈ e.parts, ReadOnly part) :
      ReadOnly e

theorem isCall_of_isRead {e : Expr} (read : e.isRead = true) : e.isCall = false := by
  cases e with
  | call callee args loc => cases read
  | _ => rfl

theorem ReadOnly.callFree {e : Expr} (reads : e.ReadOnly) : e.CallFree := by
  induction reads with
  | intro read _ ih => exact .intro (isCall_of_isRead read) ih

theorem ReadOnly.part {e part : Expr} (reads : e.ReadOnly) (member : part ∈ e.parts) :
    part.ReadOnly := by
  obtain ⟨_, parts⟩ := reads
  exact parts part member

/-- An expression whose evaluation is nested no deeper than some fuel allows. -/
inductive Fits : Expr → (fuel : Nat) → Prop where
  | intro {n : Nat} {e : Expr} (parts : ∀ part ∈ e.parts, Fits part n) : Fits e (n + 1)

theorem Fits.succ {n : Nat} {e : Expr} (fits : e.Fits n) : e.Fits (n + 1) := by
  induction fits with
  | intro _ ih => exact .intro ih

theorem Fits.part {n : Nat} {e part : Expr} (fits : e.Fits n) (member : part ∈ e.parts) :
    part.Fits n := by
  obtain ⟨parts⟩ := fits
  exact (parts part member).succ

/-- For every expression some fuel is enough. -/
theorem fits_of_sizeOf_le {n : Nat} {e : Expr} (enough : sizeOf e ≤ n) : e.Fits n := by
  induction n generalizing e with
  | zero => cases e <;> simp at enough
  | succ n ih =>
      refine .intro fun part member => ih ?_
      have smaller := sizeOf_lt_of_mem_parts member
      omega

end Expr

namespace Eval

variable {m m' : Machine} {scope : Nat}

/-! What is evaluated on machines that evaluate the parts alike. -/

theorem evalAll_congr {list : List Expr}
    (same : ∀ e ∈ list, m.eval e scope = m'.eval e scope) :
    evalAll m scope list = evalAll m' scope list := by
  induction list with
  | nil => rfl
  | cons e rest ih =>
      rw [evalAll, evalAll, same e (.head _), ih fun e member => same e (.tail _ member)]

theorem evalSegments_congr {segments : List Segment}
    (same : ∀ e, Segment.code e ∈ segments → m.eval e scope = m'.eval e scope) :
    evalSegments m scope segments = evalSegments m' scope segments := by
  induction segments with
  | nil => rfl
  | cons segment rest ih =>
      have others := ih fun e member => same e (.tail _ member)
      cases segment with
      | text value => rw [evalSegments, evalSegments, others]
      | code e => rw [evalSegments, evalSegments, same e (.head _), others]

theorem evalEntries_congr (methods : Bool) {entries : List Entry} (table : Table Value)
    (same : ∀ entry ∈ entries, m.eval entry.value scope = m'.eval entry.value scope) :
    evalEntries m scope methods table entries = evalEntries m' scope methods table entries := by
  induction entries generalizing table with
  | nil => rfl
  | cons entry rest ih =>
      obtain ⟨key, e⟩ := entry
      have others := fun table => ih table fun entry member => same entry (.tail _ member)
      simp only [evalEntries, same _ (.head _), others]

theorem evalExpr_congr {e : Expr} (other : e.isCall = false)
    (same : ∀ part ∈ e.parts, m.eval part scope = m'.eval part scope) :
    evalExpr m e scope = evalExpr m' e scope := by
  cases e with
  | string segments loc =>
      have each : evalSegments m scope segments = evalSegments m' scope segments :=
        evalSegments_congr fun e member => same e (List.mem_filterMap.mpr ⟨_, member, rfl⟩)
      simp only [evalExpr, each]
  | array elements loc =>
      have each : evalAll m scope elements = evalAll m' scope elements := evalAll_congr same
      simp only [evalExpr, each]
  | hash entries loc | new entries hashLoc loc =>
      have each : ∀ methods,
          evalEntries m scope methods [] entries = evalEntries m' scope methods [] entries :=
        fun methods => evalEntries_congr methods [] fun entry member =>
          same _ (List.mem_map_of_mem member)
      simp only [evalExpr, each]
  | call callee args loc => cases other
  | field object name loc => simp only [evalExpr, same object (.head _)]
  | index object position loc =>
      simp only [evalExpr, same object (.head _), same position (.tail _ (.head _))]
  | choice condition consequent alternate loc =>
      simp only [evalExpr, same condition (.head _), same consequent (.tail _ (.head _)),
        same alternate (.tail _ (.tail _ (.head _)))]
  | unary op operand loc => cases op <;> simp only [evalExpr, same operand (.head _)]
  | binary op left right loc =>
      cases op <;>
        simp only [evalExpr, evalBinary, same left (.head _), same right (.tail _ (.head _))]
  | _ => rfl

/-! What is evaluated on machines on which the parts only add. -/

theorem adds_evalAll {list : List Expr} (each : ∀ e ∈ list, Adds (m.eval e scope)) :
    Adds (evalAll m scope list) := by
  induction list with
  | nil => exact adds_pure _
  | cons e rest ih =>
      have others := ih fun e member => each e (.tail _ member)
      exact adds_bind (each e (.head _)) fun _ => adds_bind others fun _ => adds_pure _

theorem adds_evalSegments {segments : List Segment}
    (each : ∀ e, Segment.code e ∈ segments → Adds (m.eval e scope)) :
    Adds (evalSegments m scope segments) := by
  induction segments with
  | nil => exact adds_pure _
  | cons segment rest ih =>
      have others := ih fun e member => each e (.tail _ member)
      cases segment with
      | text value => exact adds_bind others fun _ => adds_pure _
      | code e =>
          exact adds_bind (each e (.head _)) fun v =>
            adds_bind (still_textOf v).adds fun _ => adds_bind others fun _ => adds_pure _

theorem adds_evalEntries (methods : Bool) {entries : List Entry} (table : Table Value)
    (each : ∀ entry ∈ entries, Adds (m.eval entry.value scope)) :
    Adds (evalEntries m scope methods table entries) := by
  induction entries generalizing table with
  | nil => exact adds_pure _
  | cons entry rest ih =>
      obtain ⟨key, e⟩ := entry
      exact adds_bind (each _ (.head _)) fun _ =>
        ih _ fun entry member => each entry (.tail _ member)

theorem still_evalRef (container? : Option Text) (name : Text) :
    Still (evalRef scope container? name) := by
  have referred : Still (evalReferred scope container? name) := by
    cases container? with
    | none => exact still_lookup scope name
    | some container =>
        refine still_bind (still_lookup scope container) fun v => ?_
        cases v with
        | hash ref =>
            refine still_bind still_get fun s => ?_
            cases s.heap.entry? ref name with
            | none => exact still_fault _
            | some v => exact still_pure v
        | _ => exact still_typeFault _ _
  refine still_bind referred fun v => ?_
  cases v.isCallable with
  | true => exact still_pure v
  | false => exact still_typeFault v _

theorem adds_truth {x : Eval Value} (adds : Adds x) (f : Bool → Value) :
    Adds (do pure (f (← truthy (← x)))) :=
  adds_bind adds fun v => adds_bind (still_truthy v).adds fun _ => adds_pure _

theorem adds_evalBinary (op : BinaryOp) {left right : Expr} (first : Adds (m.eval left scope))
    (second : Adds (m.eval right scope)) : Adds (evalBinary m scope op left right) := by
  have both : ∀ op, Adds (do binary op (← m.eval left scope) (← m.eval right scope)) := fun op =>
    adds_bind first fun v => adds_bind second fun w => adds_binary op v w
  cases op with
  | and =>
      refine adds_bind first fun v => adds_bind (still_truthy v).adds fun b => ?_
      cases b with
      | true => exact adds_truth second .bool
      | false => exact adds_pure _
  | or =>
      refine adds_bind first fun v => adds_bind (still_truthy v).adds fun b => ?_
      cases b with
      | true => exact adds_pure _
      | false => exact adds_truth second .bool
  | _ => exact both _

theorem adds_evalExpr {e : Expr} (other : e.isCall = false)
    (each : ∀ part ∈ e.parts, Adds (m.eval part scope)) : Adds (evalExpr m e scope) := by
  cases e with
  | number value loc => exact adds_number value
  | bool value loc => exact adds_pure _
  | null loc => exact adds_pure _
  | string segments loc =>
      have parts : Adds (evalSegments m scope segments) := adds_evalSegments fun e member =>
        each e (List.mem_filterMap.mpr ⟨_, member, rfl⟩)
      exact adds_bind parts fun _ => adds_pure _
  | ident name loc => exact (still_lookup scope name).adds
  | array elements loc => exact adds_bind (adds_evalAll each) fun _ => adds_newArray _
  | hash entries loc | new entries hashLoc loc =>
      have parts : ∀ methods, Adds (evalEntries m scope methods [] entries) := fun methods =>
        adds_evalEntries methods [] fun entry member => each _ (List.mem_map_of_mem member)
      exact adds_bind (parts _) fun _ => adds_newHash _
  | ref container name loc => exact (still_evalRef container name).adds
  | lambda procedure loc => exact adds_bind still_get.adds fun _ => adds_pure _
  | call callee args loc => cases other
  | field object name loc =>
      exact adds_bind (each object (.head _)) fun v => (still_readField v name).adds
  | index object position loc =>
      exact adds_bind (each object (.head _)) fun v =>
        adds_bind (each position (.tail _ (.head _))) fun i => (still_readIndex v i).adds
  | choice condition consequent alternate loc =>
      refine adds_bind (each condition (.head _)) fun v =>
        adds_bind (still_truthy v).adds fun b => ?_
      cases b with
      | true => exact each consequent (.tail _ (.head _))
      | false => exact each alternate (.tail _ (.tail _ (.head _)))
  | unary op operand loc =>
      cases op with
      | not => exact adds_truth (each operand (.head _)) fun b => .bool !b
      | negate => exact adds_bind (each operand (.head _)) fun v => adds_negate v
  | binary op left right loc =>
      exact adds_evalBinary op (each left (.head _)) (each right (.tail _ (.head _)))

/-! What is evaluated on machines on which the parts change nothing. -/

theorem still_evalSegments {segments : List Segment}
    (each : ∀ e, Segment.code e ∈ segments → Still (m.eval e scope)) :
    Still (evalSegments m scope segments) := by
  induction segments with
  | nil => exact still_pure _
  | cons segment rest ih =>
      have others := ih fun e member => each e (.tail _ member)
      cases segment with
      | text value => exact still_bind others fun _ => still_pure _
      | code e =>
          exact still_bind (each e (.head _)) fun v =>
            still_bind (still_textOf v) fun _ => still_bind others fun _ => still_pure _

theorem still_evalExpr {e : Expr} (read : e.isRead = true)
    (each : ∀ part ∈ e.parts, Still (m.eval part scope)) : Still (evalExpr m e scope) := by
  cases e with
  | number value loc =>
      have definite : value.isNaN = false := by simpa [Expr.isRead] using read
      simp only [evalExpr, number, definite]
      exact still_pure _
  | bool value loc => exact still_pure _
  | null loc => exact still_pure _
  | string segments loc =>
      have parts : Still (evalSegments m scope segments) := still_evalSegments fun e member =>
        each e (List.mem_filterMap.mpr ⟨_, member, rfl⟩)
      exact still_bind parts fun _ => still_pure _
  | ident name loc => exact still_lookup scope name
  | field object name loc =>
      exact still_bind (each object (.head _)) fun v => still_readField v name
  | index object position loc =>
      exact still_bind (each object (.head _)) fun v =>
        still_bind (each position (.tail _ (.head _))) fun i => still_readIndex v i
  | _ => cases read

/-! On the machines of all fuels, by induction on how expressions are made of their parts. -/

variable {e : Expr} {host : Host} {fuel fuel' : Nat}

/-- What an expression without calls comes to does not depend on the fuel. -/
theorem eval_eq (free : e.CallFree) (fits : e.Fits fuel) (fits' : e.Fits fuel') :
    (Machine.of host fuel).eval e scope = (Machine.of host fuel').eval e scope := by
  induction free generalizing fuel fuel' with
  | intro other _ ih =>
      obtain ⟨left⟩ := fits
      obtain ⟨left'⟩ := fits'
      exact evalExpr_congr other fun part member =>
        ih part member (left part member) (left' part member)

theorem adds_eval (free : e.CallFree) (fits : e.Fits fuel) :
    Adds ((Machine.of host fuel).eval e scope) := by
  induction free generalizing fuel with
  | intro other _ ih =>
      obtain ⟨left⟩ := fits
      exact adds_evalExpr other fun part member => ih part member (left part member)

theorem still_eval (reads : e.ReadOnly) (fits : e.Fits fuel) :
    Still ((Machine.of host fuel).eval e scope) := by
  induction reads generalizing fuel with
  | intro read _ ih =>
      obtain ⟨left⟩ := fits
      exact still_evalExpr read fun part member => ih part member (left part member)

end Eval

end Loom
