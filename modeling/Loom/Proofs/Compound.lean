import Loom.Proofs.Closed.Run
import Loom.Proofs.Density
import Loom.Proofs.Purity

/-!
Compound assignments. A compound assignment works its target out once, and reads the old value
when the new one is there; written out, it works the target out twice, and reads the old value
first. Where the target is only made of reads and the new value of no call, both are the same.
-/

namespace Loom

namespace Target

/-- What reads the value that a target stands for. -/
def expr : Target → Expr
  | ident name loc => .ident name loc
  | field object name loc => .field object name loc
  | index object position loc => .index object position loc

/-- A target that is a name is the name of a variable that there is. -/
def Bound (s : State) (scope : Nat) : Target → Prop
  | ident name _ => s.scopes.has scope name = true
  | _ => True

end Target

namespace Eval

section

variable {α β : Type} {s t : State}

theorem bind_of_eq {x y : Eval α} {f : α → Eval β} (same : x s = y t) :
    (x >>= f) s = (y >>= f) t := by
  show EStateM.bind x f s = EStateM.bind y f t
  simp only [EStateM.bind, same]

theorem bind_congr_ok {x : Eval α} {f g : α → Eval β}
    (same : ∀ {a t}, x s = .ok a t → f a t = g a t) : (x >>= f) s = (x >>= g) s := by
  cases ran : x s with
  | ok a t => rw [bind_ok ran, bind_ok ran, same ran]
  | error e t => rw [bind_error ran, bind_error ran]

/-- What is read after a step is what is read before it, if the step keeps it. -/
theorem read_before {x old read : Eval α} {f : α → α → Eval β} {w : α} (now : read s = .ok w s)
    (kept : ∀ {v t}, x s = .ok v t → old t = .ok w t) :
    (x >>= fun v => old >>= fun a => f a v) s = (read >>= fun a => x >>= fun v => f a v) s := by
  rw [bind_ok now]
  cases ran : x s with
  | ok v t => rw [bind_ok ran, bind_ok ran, bind_ok (kept ran)]
  | error e t => rw [bind_error ran, bind_error ran]

end

variable {host : Host} {fuel scope : Nat} {s : State}

/-! What expressions come to, where they fit into the fuel. -/

theorem eval_field {object : Expr} {name : Text} {loc : Location} (free : object.CallFree)
    (fits : (Expr.field object name loc).Fits fuel) :
    (Machine.of host fuel).eval (.field object name loc) scope =
      ((Machine.of host fuel).eval object scope >>= fun o => readField o name) := by
  obtain ⟨left⟩ := fits
  have inside := left object (.head _)
  rw [eval_eq free (inside.succ) inside]
  rfl

theorem eval_index {object position : Expr} {loc : Location} (free : object.CallFree)
    (free' : position.CallFree) (fits : (Expr.index object position loc).Fits fuel) :
    (Machine.of host fuel).eval (.index object position loc) scope =
      ((Machine.of host fuel).eval object scope >>= fun o =>
        (Machine.of host fuel).eval position scope >>= fun p => readIndex o p) := by
  obtain ⟨left⟩ := fits
  have inside := left object (.head _)
  have inside' := left position (.tail _ (.head _))
  rw [eval_eq free (inside.succ) inside,
    eval_eq free' (inside'.succ) inside']
  rfl

/-- What an operator that assigns makes of two operands that are evaluated first. -/
theorem eval_operation {op : AssignOp} {operator : BinaryOp} (compound : op.binary? = some operator)
    {left right : Expr} {loc : Location} (free : left.CallFree) (free' : right.CallFree)
    (fits : (Expr.binary operator left right loc).Fits fuel) :
    (Machine.of host fuel).eval (.binary operator left right loc) scope =
      ((Machine.of host fuel).eval left scope >>= fun a =>
        (Machine.of host fuel).eval right scope >>= fun b => binary operator a b) := by
  obtain ⟨within⟩ := fits
  have inside := within left (.head _)
  have inside' := within right (.tail _ (.head _))
  rw [eval_eq free (inside.succ) inside,
    eval_eq free' (inside'.succ) inside']
  cases op <;> cases compound <;> rfl

/-- What is read from a closed state refers to what is there. -/
theorem within_eval (closed : s.Closed) {e : Expr} (reads : e.ReadOnly) (fits : e.Fits fuel)
    {v : Value} {t : State} (ran : (Machine.of host fuel).eval e scope s = .ok v t) :
    v.Within s.heap := by
  have kept := (Machine.closes_of host fuel).eval e scope s.heap s (Heap.spans_refl _) closed
  obtain rfl := (still_eval reads fits).state_eq ran
  rw [ran] at kept
  exact kept.2.2

/-! What is there is read as before when the heap has grown. -/

theorem entry_later {ref : Nat} {key : Text} {t : State} (there : ref < s.heap.hashes.size)
    (grows : s.heap.Grows t.heap) :
    entry ref key t = .ok ((s.heap.entry? ref key).getD .null) t := by
  show EStateM.Result.ok _ t = _
  rw [Heap.entry?, grows.hash ref there]
  rfl

theorem element_later {ref i : Nat} {t : State} (there : ref < s.heap.arrays.size)
    (grows : s.heap.Grows t.heap) :
    element ref i t = .ok ((s.heap.array ref)[i]?.join.getD .missing) t := by
  show EStateM.Result.ok _ t = _
  rw [grows.array ref there]

/-- A position that can be written to can be read. -/
theorem readIndex_of_elementPosition {ref i : Nat} {position : Value} {t : State}
    (ran : elementPosition ref position s = .ok i t) :
    i < (s.heap.array ref).size ∧
      readIndex (.array ref) position s = .ok ((s.heap.array ref)[i]?.join.getD .missing) s := by
  obtain ⟨x, u, number, checked⟩ := bind_eq_ok ran
  obtain rfl := (still_expectNumber _ _).state_eq number
  have read : array ref u = .ok (u.heap.array ref) u := rfl
  rw [bind_ok read] at checked
  rw [readIndex, bind_ok number, bind_ok read]
  cases whole : indexOf? x with
  | none =>
      simp only [whole] at checked
      cases checked
  | some j =>
      simp only [whole] at checked
      by_cases inside : j < (u.heap.array ref).size
      · rw [if_pos inside] at checked
        cases checked
        refine ⟨inside, ?_⟩
        simp only [dif_pos inside, Array.getElem?_eq_getElem inside, Option.join_some]
        rfl
      · rw [if_neg inside] at checked
        cases checked

/-! Storing. -/

section

variable {op : AssignOp} {operator : BinaryOp} (compound : op.binary? = some operator)
include compound

/-- An operator makes the same of an old value that is read before the new one is there. -/
theorem stored_before {x old old' read : Eval Value} {store : Value → Eval Unit} {w : Value}
    (now : read s = .ok w s) (kept : ∀ {v t}, x s = .ok v t → old t = .ok w t) :
    (x >>= fun v => assigned op old v >>= store) s =
      ((read >>= fun a => x >>= fun v => binary operator a v) >>= fun v =>
        assigned .set old' v >>= store) s := by
  have late : ∀ v, assigned op old v = (old >>= fun a => binary operator a v) := by
    intro v
    unfold assigned
    rw [compound]
  calc (x >>= fun v => assigned op old v >>= store) s
      = ((x >>= fun v => old >>= fun a => binary operator a v) >>= store) s := by
        simp only [late, bind_assoc]
    _ = ((read >>= fun a => x >>= fun v => binary operator a v) >>= store) s :=
        bind_of_eq (read_before now kept)

theorem element_stored_before {x read : Eval Value} {ref i : Nat} (adds : Adds x)
    (still : Still read) (there : ref < s.heap.arrays.size) (inside : i < (s.heap.array ref).size)
    (now : read s = .ok ((s.heap.array ref)[i]?.join.getD .missing) s) :
    (x >>= fun v => storeElement ref i op v) s =
      ((read >>= fun a => x >>= fun v => binary operator a v) >>= fun v =>
        storeElement ref i .set v) s := by
  have reads : Adds (read >>= fun a => x >>= fun v => binary operator a v) :=
    adds_bind still.adds fun a => adds_bind adds fun v => adds_binary operator a v
  have within : ∀ {y : Eval Value} {v t}, Adds y → y s = .ok v t →
      i < (t.heap.array ref).size := by
    intro y v t adds ran
    rw [(adds.heap ran).array ref there]
    exact inside
  rw [bind_congr_ok fun ran => storeElement_inside op _ (within adds ran),
    bind_congr_ok fun ran => storeElement_inside .set _ (within reads ran)]
  exact stored_before compound now fun ran => element_later there (adds.heap ran)

variable {value : Expr} {loc place : Location} (free : value.CallFree)
include free

/-- The variable is there before and after the new value is evaluated. -/
theorem expands_ident {name : Text} (bound : s.scopes.has scope name = true)
    (fits : (Expr.binary operator (.ident name loc) value place).Fits fuel) :
    execAssign (.of host fuel) (.ident name loc) op value scope s =
      execAssign (.of host fuel) (.ident name loc) .set
        (.binary operator (.ident name loc) value place) scope s := by
  have named : (Expr.ident name loc).ReadOnly := .intro rfl nofun
  have adds : Adds ((Machine.of host fuel).eval value scope) :=
    adds_eval free (fits.part (.tail _ (.head _)))
  obtain ⟨cell, found⟩ := Option.isSome_iff_exists.mp bound
  have looked : ∀ t : State, t.scopes = s.scopes →
      lookup scope name t = .ok (s.scopes.read cell) t := by
    intro t same
    unfold lookup
    rw [get_bind_run, same, ScopeTree.get?, found]
    rfl
  have read : (Machine.of host fuel).eval (.ident name loc) scope = lookup scope name := by
    obtain ⟨_⟩ := fits
    rfl
  simp only [execAssign]
  rw [eval_operation compound named.callFree free fits, read]
  exact stored_before compound (looked s rfl) fun ran => looked _ (adds.scopes ran)

/-- The hash is there before, so a new one cannot take its place. -/
theorem expands_field {object : Expr} {name : Text}
    (reads : (Expr.field object name loc).ReadOnly) (closed : s.Closed)
    (fits : (Expr.binary operator (.field object name loc) value place).Fits fuel) :
    execAssign (.of host fuel) (.field object name loc) op value scope s =
      execAssign (.of host fuel) (.field object name loc) .set
        (.binary operator (.field object name loc) value place) scope s := by
  have adds : Adds ((Machine.of host fuel).eval value scope) :=
    adds_eval free (fits.part (.tail _ (.head _)))
  have room := fits.part (.head _)
  have readsObject : object.ReadOnly := reads.part (.head _)
  have room' := room.part (.head _)
  simp only [execAssign]
  rw [eval_operation compound reads.callFree free fits, eval_field readsObject.callFree room]
  rcases still_eval readsObject room' s with ⟨o, ran⟩ | ⟨failure, ran⟩
  · rw [bind_ok ran, bind_ok ran]
    cases o with
    | hash ref =>
        have there : ref < s.heap.hashes.size := within_eval closed readsObject room' ran
        refine stored_before compound (bind_ok ran) fun later => ?_
        exact entry_later there (adds.heap later)
    | _ => rfl
  · rw [bind_error ran, bind_error ran]

theorem expands_index {object position : Expr}
    (reads : (Expr.index object position loc).ReadOnly) (closed : s.Closed)
    (fits : (Expr.binary operator (.index object position loc) value place).Fits fuel) :
    execAssign (.of host fuel) (.index object position loc) op value scope s =
      execAssign (.of host fuel) (.index object position loc) .set
        (.binary operator (.index object position loc) value place) scope s := by
  have adds : Adds ((Machine.of host fuel).eval value scope) :=
    adds_eval free (fits.part (.tail _ (.head _)))
  have room := fits.part (.head _)
  have readsObject : object.ReadOnly := reads.part (.head _)
  have readsPosition : position.ReadOnly := reads.part (.tail _ (.head _))
  have room' := room.part (.head _)
  have room'' := room.part (.tail _ (.head _))
  simp only [execAssign]
  rw [eval_operation compound reads.callFree free fits,
    eval_index readsObject.callFree readsPosition.callFree room]
  rcases still_eval readsObject room' s with ⟨o, ran⟩ | ⟨failure, ran⟩
  · rw [bind_ok ran, bind_ok ran]
    rcases still_eval readsPosition room'' s with ⟨p, ran'⟩ | ⟨failure, ran'⟩
    · rw [bind_ok ran', bind_ok ran']
      cases o with
      | array ref =>
          have there : ref < s.heap.arrays.size := within_eval closed readsObject room' ran
          dsimp only
          rcases still_elementPosition ref p s with ⟨i, position⟩ | ⟨failure, position⟩
          · rw [bind_ok position, bind_ok position]
            obtain ⟨inside, now⟩ := readIndex_of_elementPosition position
            refine element_stored_before compound adds ?_ there inside ?_
            · exact still_bind (still_eval readsObject room') fun o =>
                still_bind (still_eval readsPosition room'') fun p => still_readIndex o p
            · rw [bind_ok ran, bind_ok ran', now]
          · rw [bind_error position, bind_error position]
      | hash ref =>
          have there : ref < s.heap.hashes.size := within_eval closed readsObject room' ran
          dsimp only
          rcases still_textOf p s with ⟨key, text⟩ | ⟨failure, text⟩
          · rw [bind_ok text, bind_ok text]
            refine stored_before compound ?_ fun later => entry_later there (adds.heap later)
            rw [bind_ok ran, bind_ok ran', readIndex, bind_ok text]
            rfl
          · rw [bind_error text, bind_error text]
      | _ => rfl
    · rw [bind_error ran', bind_error ran']
  · rw [bind_error ran, bind_error ran]

end

/-! Neither runs out of fuel. -/

theorem concludes_storeElement (ref i : Nat) (op : AssignOp) (v : Value) :
    Concludes (storeElement ref i op v) := by
  have stores : Concludes (assigned op (element ref i) v >>= fun w =>
      modifyArray ref (fun slots => Heap.storeAt slots i w)) := by
    have old : Adds (element ref i) := adds_bind (still_array ref).adds fun _ => adds_pure _
    exact concludes_bind (adds_assigned op old v).concludes fun _ => concludes_modify _
  refine concludes_bind (still_array ref).concludes fun slots => ?_
  dsimp only
  split
  · exact concludes_bind (concludes_modify _) fun _ => stores
  · exact stores

theorem concludes_execAssign {target : Target} {value : Expr} (op : AssignOp)
    (reads : target.expr.ReadOnly) (room : target.expr.Fits fuel) (free : value.CallFree)
    (room' : value.Fits fuel) :
    Concludes (execAssign (.of host fuel) target op value scope) := by
  have evaluated : Concludes ((Machine.of host fuel).eval value scope) :=
    (adds_eval free room').concludes
  have part : ∀ part ∈ target.expr.parts, Concludes ((Machine.of host fuel).eval part scope) :=
    fun part member => (still_eval (reads.part member) (room.part member)).concludes
  have entered : ∀ ref key, Concludes ((Machine.of host fuel).eval value scope >>= fun v =>
      assigned op (entry ref key) v >>= fun w => modifyHash ref (Table.insert key w)) := by
    intro ref key
    exact concludes_bind evaluated fun v =>
      concludes_bind (adds_assigned op (still_entry ref key).adds v).concludes fun _ =>
        concludes_modify _
  cases target with
  | ident name loc =>
      exact concludes_bind evaluated fun v =>
        concludes_bind (adds_assigned op (still_lookup scope name).adds v).concludes fun _ =>
          concludes_modify _
  | field object name loc =>
      refine concludes_bind (part object (.head _)) fun o => ?_
      cases o with
      | hash ref => exact entered ref name
      | _ => exact (still_typeFault _ _).concludes
  | index object position loc =>
      refine concludes_bind (part object (.head _)) fun o =>
        concludes_bind (part position (.tail _ (.head _))) fun p => ?_
      cases o with
      | array ref =>
          exact concludes_bind (still_elementPosition ref p).concludes fun i =>
            concludes_bind evaluated fun v => concludes_storeElement ref i op v
      | hash ref =>
          exact concludes_bind (still_textOf p).concludes fun key => entered ref key
      | _ => exact (still_typeFault _ _).concludes

end Eval

open Eval

/-- A compound assignment is its expansion: if its target is made of reads and its value calls
nothing, both end alike in the same state, from every state in which what is held is there. All
states that sessions come to are such states (`Interpreter.closed_serveAll`). -/
theorem compound_is_expansion {host : Host} {fuel scope : Nat} {s : State} {op : AssignOp}
    {operator : BinaryOp} (compound : op.binary? = some operator) {target : Target}
    (reads : target.expr.ReadOnly) {value : Expr} (free : value.CallFree) (loc place : Location)
    (closed : s.Closed) (bound : target.Bound s scope)
    (fits : (Expr.binary operator target.expr value place).Fits fuel) :
    execStmt (.of host fuel) (.assign target op value loc) scope s =
        execStmt (.of host fuel)
          (.assign target .set (.binary operator target.expr value place) loc) scope s ∧
      ∀ t, execStmt (.of host fuel) (.assign target op value loc) scope s ≠
        .error .outOfFuel t := by
  constructor
  · have same : execAssign (.of host fuel) target op value scope s =
        execAssign (.of host fuel) target .set
          (.binary operator target.expr value place) scope s := by
      cases target with
      | ident name loc => exact expands_ident compound free bound fits
      | field object name loc => exact expands_field compound free reads closed fits
      | index object position loc => exact expands_index compound free reads closed fits
    exact bind_of_eq same
  · have room := fits.part (.head _)
    have room' := fits.part (.tail _ (.head _))
    exact concludes_bind (concludes_execAssign op reads room free room')
      (fun _ => (still_pure _).concludes) s

open Interpreter

/-- A global variable that holds an array with a one in it. -/
def oneInArray : State :=
  { blankState [] with
    scopes := ScopeTree.empty.newRoot.2.define 0 "a" (.array 0)
    heap := (Heap.empty.newArray #[some (.number 1 0)]).2 }

theorem closed_oneInArray : oneInArray.Closed := by
  have blank := (closed_blank []).after (Heap.grows_newArray .empty #[some (.number 1 0)]).spans
  have slots := blank.heap.newArray #[some (.number 1 0)] fun slot member => by
    obtain rfl := Array.mem_singleton.mp member
    trivial
  have cells := ScopeTree.All.define blank.cells 0 "a" (.array 0) Nat.zero_lt_one
  exact (blank.withHeap slots).withScopes cells

/-- `a[0] += a[0]` stores what `a[0] = a[0] + (a[0])` does. -/
theorem element_doubled :
    let here : Location := .origin
    let first : Target := .index (.ident "a" here) (.number 0 here) here
    let assign (op : AssignOp) (value : Expr) : Eval Flow :=
      execStmt (.of .plain 3) (.assign first op value here) 0
    let expansion : Expr := .binary .add first.expr first.expr here
    assign .add first.expr oneInArray = assign .set expansion oneInArray ∧
      (∀ t, assign .add first.expr oneInArray ≠ .error .outOfFuel t) ∧
        (Value.array 0).text? (after (assign .set expansion) oneInArray).heap = some "[2]" := by
  intro here first assign expansion
  have name : (Expr.ident "a" here).ReadOnly := .intro rfl nofun
  have zero : (Expr.number 0 here).ReadOnly := .intro (by decide +kernel) nofun
  have reads : first.expr.ReadOnly :=
    .intro rfl (by simpa [first, Target.expr, Expr.parts] using ⟨name, zero⟩)
  have leaves : (Expr.ident "a" here).Fits 1 ∧ (Expr.number 0 here).Fits 1 :=
    ⟨.intro nofun, .intro nofun⟩
  have inner : first.expr.Fits 2 :=
    .intro (by simpa [first, Target.expr, Expr.parts] using leaves)
  have fits : expansion.Fits 3 := .intro (by simpa [expansion, Expr.parts] using inner)
  have compound : AssignOp.add.binary? = some .add := rfl
  obtain ⟨same, concludes⟩ :=
    compound_is_expansion compound reads reads.callFree here here closed_oneInArray trivial fits
  exact ⟨same, concludes, by decide +kernel⟩

end Loom
