import Loom.Eval.Expression
import Loom.Proofs.Discipline.Operator

/-!
What is ensured of expressions on a machine that obeys a discipline. What is
known of a value is carried over the steps that come between its evaluation and
its use.
-/

namespace Loom

open Grammar (Context)

namespace Discipline

variable {d : Discipline}

/-- How the statements of a context may end. -/
def Flows (d : Discipline) (ctx : Context) (t : State) : Flow → Prop
  | .normal => True
  | .returned v => d.Fine t v ∧ (d.strict = true → ctx.inFunction = true)
  | .broke depth => d.strict = true → 1 ≤ depth ∧ depth ≤ ctx.loopDepth
  | .continued depth => d.strict = true → 1 ≤ depth ∧ depth ≤ ctx.loopDepth

/-- What a context tells of the scope in which its statements are carried out, where that
is asked for: the top of a program is a global scope. -/
def Top (d : Discipline) (ctx : Context) (s : State) (scope : Nat) : Prop :=
  d.terms.atTop → ctx.topLevel = true → (s.scopes.scope scope).kind = .global

theorem Top.after {ctx : Context} {s t : State} {scope : Nat} (top : d.Top ctx s scope)
    (grows : s.Grows t) : d.Top ctx t scope :=
  fun asked above => grows.scopes.global (top asked above)

/-- Only a program has a top. -/
theorem top_of_inner {ctx : Context} {s : State} {scope : Nat} (inner : ctx.topLevel = false) :
    d.Top ctx s scope := by simp [Top, inner]

/-- Whether a discipline allows for what a host provides. -/
structure Admits (d : Discipline) (host : Host) : Prop where
  callBacks : ∀ name, Table.find? name host.natives = some .callBacks →
    ∀ h owner method, d.value h (.native ⟨.callBack, owner⟩ method)
  events : ∀ name, Table.find? name host.natives = some .events → d.terms.events name
  paths : ∀ name file found, host.resolver.resolve name file = .ok (some found) →
    d.terms.path found.path

theorem admits_inCall {d : Discipline} {host : Host} (admitted : d.Admits host) (limit : Nat) :
    (d.inCall limit).Admits host :=
  ⟨admitted.callBacks, admitted.events, admitted.paths⟩

end Discipline

/-- A machine on which whatever is evaluated keeps a discipline. -/
structure Machine.Obeys (m : Machine) (d : Discipline) (base : Nat) : Prop where
  admitted : d.Admits m.host
  /-- What is carried out may make functions. -/
  settled : d.terms.home ≤ base
  eval : ∀ {s e scope}, e.Placed d.strict → base ≤ scope →
    d.Ensures base s (m.eval e scope) d.Fine
  block : ∀ {s statements ctx scope}, Stmt.AllPlaced d.strict statements ctx → base ≤ scope →
    d.Top ctx s scope → d.Ensures base s (m.block statements scope) (d.Flows ctx)
  call : ∀ {s callee args name}, d.Fine s callee → (∀ v ∈ args, d.Fine s v) →
    d.Ensures base s (m.call callee args name) d.Fine

namespace Discipline

open Eval

variable {d : Discipline} {base : Nat} {s : State} {m : Machine}

/-- What is kept from any number of active calls on is kept within a call. -/
theorem ensures_within {α : Type} {limit : Nat} {step : Eval α} {good : State → α → Prop}
    (any : ∀ n, d.depth n) (ensured : Ensures d base s step good) :
    Ensures (d.inCall limit) base s step good := by
  intro ready
  have ends := ensured ⟨ready.held, ready.room, any _⟩
  -- a step leaves as many calls active as it found
  cases outcome : step s with
  | ok a t =>
      rw [outcome] at ends
      exact ⟨ends.1, ⟨ends.2.1.held, ends.2.1.room,
        (effect_same_control ends.1).depth ▸ ready.depth⟩, ends.2.2⟩
  | error e t =>
      rw [outcome] at ends
      exact ⟨ends.1, ⟨ends.2.1.held, ends.2.1.room,
        (effect_same_control ends.1).depth ▸ ready.depth⟩, ends.2.2⟩

theorem obeys_within (any : ∀ n, d.depth n) (obeys : m.Obeys d base) (limit : Nat) :
    m.Obeys (d.inCall limit) base :=
  { admitted := admits_inCall obeys.admitted limit
    settled := obeys.settled
    eval := fun placed inside => ensures_within any (obeys.eval placed inside)
    block := fun placed inside top => ensures_within any (obeys.block placed inside top)
    call := fun called fine => ensures_within any (obeys.call called fine) }

section

variable (obeys : m.Obeys d base) {scope : Nat} (inside : base ≤ scope)
include obeys inside

theorem ensures_evalAll (list : List Expr) (placed : Expr.AllPlaced d.strict list) :
    Ensures d base s (evalAll m scope list) (fun t values => ∀ v ∈ values, d.Fine t v) := by
  induction list generalizing s with
  | nil => exact ensures_pure (by simp)
  | cons e rest ih =>
      simp only [Expr.AllPlaced] at placed
      apply ensures_bind (obeys.eval placed.1 inside)
      intro v t _ _ fine
      apply ensures_bind (ih placed.2)
      intro values u effect _ others
      exact ensures_pure (List.forall_mem_cons.mpr ⟨Fine.after effect fine, others⟩)

theorem ensures_evalSegments (list : List Segment) (placed : Segment.AllPlaced d.strict list) :
    Ensures d base s (evalSegments m scope list) (fun _ _ => True) := by
  induction list generalizing s with
  | nil => exact ensures_pure trivial
  | cons segment rest ih =>
      cases segment with
      | text value =>
          simp only [Segment.AllPlaced] at placed
          exact ensures_bind (ih placed) (fun _ _ _ _ _ => ensures_pure trivial)
      | code value =>
          simp only [Segment.AllPlaced] at placed
          apply ensures_bind (obeys.eval placed.1 inside)
          intro v t _ _ fine
          apply ensures_bind (ensures_textOf fine)
          intro text u _ _ _
          exact ensures_bind (ih placed.2) (fun _ _ _ _ _ => ensures_pure trivial)

theorem ensures_evalEntries (methods : Bool) (table : Table Value) (list : List Entry)
    (placed : Entry.AllPlaced d.strict list) (held : ∀ entry ∈ table, d.Fine s entry.2) :
    Ensures d base s (evalEntries m scope methods table list)
      (fun t table => ∀ entry ∈ table, d.Fine t entry.2) := by
  induction list generalizing s table with
  | nil => exact ensures_pure held
  | cons entry rest ih =>
      obtain ⟨key, e⟩ := entry
      simp only [Entry.AllPlaced] at placed
      apply ensures_bind (obeys.eval placed.1 inside)
      intro v t effect _ fine
      -- a method is about if the function is, so the mark does not matter
      have stored : d.Fine t (if methods && e.isRef then v.asMethod else v) := by
        split
        · exact d.method fine
        · exact fine
      have still : ∀ entry ∈ table, d.Fine t entry.2 :=
        fun entry member => Fine.after effect (held entry member)
      exact ih _ placed.2 (Table.forall_insert key _ table still stored)

omit obeys inside in
theorem ensures_evalReferred (container? : Option Text) (name : Text) :
    Ensures d base s (evalReferred scope container? name) d.Fine := by
  cases container? with
  | none => exact ensures_fine ensures_lookup
  | some container =>
      apply ensures_still ensures_lookup
      intro v _ fine
      cases v with
      | hash ref =>
          apply ensures_get
          intro ready
          cases found : s.heap.entry? ref name with
          | some w => exact ensures_pure (fine_of_entry ready ref name w found)
          | none => exact ensures_fault (by simp [Fault.IsExit])
      | _ => exact ensures_typeFaultOf fine

omit obeys inside in
theorem ensures_evalRef (container? : Option Text) (name : Text) :
    Ensures d base s (evalRef scope container? name) d.Fine := by
  apply ensures_bind (ensures_evalReferred container? name)
  intro v t _ _ fine
  split
  · exact ensures_pure fine
  · exact ensures_typeFaultOf fine

theorem ensures_evalFieldCall (object : Expr) (field : Text) (args : List Expr) (name : Text)
    (placed : object.Placed d.strict) (placed' : Expr.AllPlaced d.strict args) :
    Ensures d base s (evalFieldCall m scope object field args name) d.Fine := by
  apply ensures_bind (obeys.eval placed inside)
  intro receiver t _ _ fine
  apply ensures_bind (ensures_readField fine)
  intro callee u effect _ called
  apply ensures_bind (ensures_evalAll obeys inside args placed')
  intro values v effect' _ others
  -- receiver and callee were there before the arguments, and are carried over them
  have fine' : d.Fine v receiver := (Fine.after effect fine).after effect'
  have passed : ∀ w ∈ (if callee.isMethod then receiver :: values else values), d.Fine v w := by
    split
    · exact List.forall_mem_cons.mpr ⟨fine', others⟩
    · exact others
  exact obeys.call (called.after effect') passed

theorem ensures_evalCall (callee : Expr) (args : List Expr) (placed : callee.Placed d.strict)
    (placed' : Expr.AllPlaced d.strict args) :
    Ensures d base s (evalCall m scope callee args) d.Fine := by
  unfold evalCall
  split
  · simp only [Expr.Placed] at placed
    exact ensures_evalFieldCall obeys inside _ _ args _ placed placed'
  · apply ensures_bind (obeys.eval placed inside)
    intro f t _ _ fine
    apply ensures_bind (ensures_evalAll obeys inside args placed')
    intro values u effect _ others
    exact obeys.call (Fine.after effect fine) others

/-- The truth of an expression decides how to go on. -/
theorem ensures_condition {α : Type} {e : Expr} {f : Bool → Eval α} {good : State → α → Prop}
    (placed : e.Placed d.strict)
    (rest : ∀ b t, Effect d.terms base s t → d.Ready base t → Ensures d base t (f b) good) :
    Ensures d base s (do f (← truthy (← m.eval e scope))) good := by
  apply ensures_bind (obeys.eval placed inside)
  intro v t effect _ fine
  apply ensures_bind (ensures_truthy fine)
  intro b u effect' ready _
  exact rest b u (.andThen effect effect') ready

theorem ensures_truthOf (e : Expr) (placed : e.Placed d.strict) (f : Bool → Bool) :
    Ensures d base s (do pure (.bool (f (← truthy (← m.eval e scope))))) d.Fine :=
  ensures_condition obeys inside placed (fun _ _ _ _ => ensures_pure (d.data rfl))

theorem ensures_evalBinary (op : BinaryOp) (left right : Expr) (placed : left.Placed d.strict)
    (placed' : right.Placed d.strict) :
    Ensures d base s (evalBinary m scope op left right) d.Fine := by
  unfold evalBinary
  split
  · apply ensures_condition obeys inside placed
    intro b t _ _
    cases b with
    | true => exact ensures_truthOf obeys inside right placed' id
    | false => exact ensures_pure (d.data rfl)
  · apply ensures_condition obeys inside placed
    intro b t _ _
    cases b with
    | true => exact ensures_pure (d.data rfl)
    | false => exact ensures_truthOf obeys inside right placed' id
  · apply ensures_bind (obeys.eval placed inside)
    intro a t _ _ first
    apply ensures_bind (obeys.eval placed' inside)
    intro b u effect _ second
    exact ensures_of_imp (ensures_binary op (Fine.after effect first) second)
      (fun _ _ result => result.1)

theorem ensures_evalExpr (e : Expr) (placed : e.Placed d.strict) :
    Ensures d base s (evalExpr m e scope) d.Fine := by
  cases e with
  | number value loc => exact ensures_of_imp (ensures_number value) (fun _ _ result => result.1)
  | bool value loc => exact ensures_pure (d.data rfl)
  | null loc => exact ensures_pure (d.data rfl)
  | string segments loc =>
      simp only [Expr.Placed] at placed
      exact ensures_bind (ensures_evalSegments obeys inside segments placed)
        (fun _ _ _ _ _ => ensures_pure (d.data rfl))
  | ident name loc => exact ensures_fine ensures_lookup
  | array elements loc =>
      simp only [Expr.Placed] at placed
      apply ensures_bind (ensures_evalAll obeys inside elements placed)
      intro values t _ _ fine
      apply ensures_newArray
      intro slot member
      simp only [List.mem_toArray, List.mem_map] at member
      obtain ⟨v, here, rfl⟩ := member
      exact fine v here
  | hash entries loc =>
      simp only [Expr.Placed] at placed
      exact ensures_bind (ensures_evalEntries obeys inside false [] entries placed (by simp))
        (fun _ _ _ _ held => ensures_newHash held)
  | new entries hashLoc loc =>
      simp only [Expr.Placed] at placed
      exact ensures_bind (ensures_evalEntries obeys inside true [] entries placed (by simp))
        (fun _ _ _ _ held => ensures_newHash held)
  | ref container name loc => exact ensures_evalRef container name
  | lambda procedure loc =>
      simp only [Expr.Placed] at placed
      have home := Nat.le_trans obeys.settled inside
      exact ensures_get (fun _ => ensures_pure (d.closure.mpr ⟨placed, home⟩))
  | call callee args loc =>
      simp only [Expr.Placed] at placed
      exact ensures_evalCall obeys inside callee args placed.1 placed.2
  | field object name loc =>
      simp only [Expr.Placed] at placed
      exact ensures_bind (obeys.eval placed inside) (fun _ _ _ _ fine => ensures_readField fine)
  | index object position loc =>
      simp only [Expr.Placed] at placed
      apply ensures_bind (obeys.eval placed.1 inside)
      intro v t _ _ first
      apply ensures_bind (obeys.eval placed.2 inside)
      intro i u effect _ second
      exact ensures_readIndex (Fine.after effect first) second
  | choice condition consequent alternate loc =>
      simp only [Expr.Placed] at placed
      apply ensures_condition obeys inside placed.1
      intro b t _ _
      cases b with
      | true => exact obeys.eval placed.2.1 inside
      | false => exact obeys.eval placed.2.2 inside
  | unary op operand loc =>
      simp only [Expr.Placed] at placed
      cases op with
      | not => exact ensures_truthOf obeys inside operand placed not
      | negate =>
          exact ensures_bind (obeys.eval placed inside) (fun _ _ _ _ fine => ensures_negate fine)
  | binary op left right loc =>
      simp only [Expr.Placed] at placed
      exact ensures_evalBinary obeys inside op left right placed.1 placed.2

end

end Discipline

end Loom
