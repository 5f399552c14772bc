import Loom.Eval.Call
import Loom.Eval.Expression
import Loom.Proofs.Closed.Operator

/-!
What expressions and calls do to a closed state, on a machine that keeps states closed itself.
-/

namespace Loom

open Eval

/-- What a statement hands on is on a heap. -/
def Flow.Within (heap : Heap) : Flow → Prop
  | .returned v => v.Within heap
  | _ => True

theorem Flow.Within.after {heap later : Heap} {flow : Flow} (within : flow.Within heap)
    (spans : heap.Spans later) : flow.Within later := by
  cases flow with
  | returned v => exact Value.Within.after within spans
  | _ => trivial

/-- A machine from which nothing comes to dangle. -/
structure Machine.Closes (m : Machine) : Prop where
  eval : ∀ e scope heap, Stays Value.Within heap (m.eval e scope)
  block : ∀ statements scope heap, Stays Flow.Within heap (m.block statements scope)
  call : ∀ callee name {heap args}, AllWithin heap args →
    Stays Value.Within heap (m.call callee args name)

namespace Eval

variable {heap : Heap} {m : Machine}

theorem all_cons {v : Value} {values : List Value} {later : Heap} (first : v.Within heap)
    (spans : heap.Spans later) (others : AllWithin later values) : AllWithin later (v :: values) :=
  List.forall_mem_cons.mpr ⟨first.after spans, others⟩

theorem all_after {values : List Value} {later : Heap} (within : AllWithin heap values)
    (spans : heap.Spans later) : AllWithin later values :=
  fun v member => (within v member).after spans

theorem slots_of_values {values : List Value} (within : AllWithin heap values) :
    SlotsWithin heap (values.map some).toArray := by
  intro slot member
  obtain ⟨v, there, rfl⟩ := List.mem_map.mp (List.mem_toArray.mp member)
  exact within v there

/-! Steps that evaluate nothing. -/

theorem stays_nextEvent (loop : Nat) : Stays Any heap (nextEvent loop) := by
  intro s _ closed
  cases queued : s.queue with
  | nil =>
      have ran : nextEvent loop s = .ok none s := by
        show EStateM.Result.ok _ _ = _
        simp only [queued]
      rw [ran]
      exact ⟨Heap.spans_refl _, closed, trivial⟩
  | cons event rest =>
      have ran : nextEvent loop s =
          .ok (some event) { s with queue := rest, history := .took loop :: s.history } := by
        show EStateM.Result.ok _ _ = _
        simp only [queued]
      rw [ran]
      exact ⟨Heap.spans_refl _, closed.of_same rfl rfl rfl rfl rfl, trivial⟩

theorem stays_setHandler (loop : Nat) (name : Value) {handler : Value}
    (within : handler.Within heap) : Stays Value.Within heap (setHandler loop name handler) := by
  have text : Still (expectString name "SetHandler") := by
    cases name with
    | string t => exact still_pure t
    | _ => exact still_typeFault _ _
  refine stays_after text fun event later spans => ?_
  split
  · refine stays_then (stays_modify fun s inside closed => ⟨Heap.spans_refl _, ?_⟩) fun _ _ _ =>
      stays_value trivial
    have added : ∀ l ∈ s.loops, ∀ entry ∈ Table.insert event handler l.handlers,
        entry.2.Within s.heap := fun l member =>
      Table.forall_insert event handler _ (closed.handlers l member)
        (within.after (spans.trans inside))
    have handlers := forall_handlers s.loops loop
      (fun l => { l with handlers := Table.insert event handler l.handlers }) closed.handlers added
    exact ⟨closed.cells, closed.heap, handlers, closed.natives, closed.modules⟩
  · exact stays_typeFault _ _

theorem stays_bindAll (scope : Nat) : ∀ (params : List Text) {values : List Value} {heap : Heap},
    AllWithin heap values → Stays Any heap (bindAll scope params values)
  | [], _, _, _ => stays_any (still_pure _)
  | _ :: _, [], _, _ => stays_any (still_pure _)
  | param :: params, v :: values, _, within => by
      obtain ⟨first, others⟩ := List.forall_mem_cons.mp within
      exact stays_then (stays_define scope param first) fun _ _ spans =>
        stays_bindAll scope params (all_after others spans)

theorem stays_shareAll (scope : Nat) (names : List Text) :
    Stays Any heap (shareAll scope names) := by
  induction names generalizing heap with
  | nil => exact stays_any (still_pure _)
  | cons name rest ih => exact stays_then (stays_shareOuter scope name) fun _ _ _ => ih

theorem stays_resultOf (name : Text) {flow : Flow} (within : flow.Within heap) :
    Stays Value.Within heap (resultOf name flow) := by
  cases flow with
  | normal => exact stays_value trivial
  | returned v => exact stays_value within
  | broke depth | continued depth => exact stays_fault _

theorem stays_evalRef (scope : Nat) (container? : Option Text) (name : Text) :
    Stays Value.Within heap (evalRef scope container? name) := by
  have referred : Stays Value.Within heap (evalReferred scope container? name) := by
    cases container? with
    | none => exact stays_lookup scope name
    | some container =>
        refine stays_then (stays_lookup scope container) fun v _ _ => ?_
        cases v with
        | hash ref =>
            refine stays_get fun s _ closed => ?_
            cases found : s.heap.entry? ref name with
            | none => exact stays_fault _
            | some w => exact stays_value (closed.entry? w found)
        | _ => exact stays_typeFault _ _
  refine stays_bind referred fun v _ _ within => ?_
  split
  · exact stays_value within
  · exact stays_typeFault _ _

/-! Calls. -/

section

variable (closes : m.Closes)
include closes

theorem stays_hostCall (callee : Value) {args : List Value} (within : AllWithin heap args) :
    Stays Value.Within heap (hostCall m callee args) :=
  stays_after (still_present _) fun name _ spans => closes.call callee name (all_after within spans)

theorem stays_deliver (loop : Nat) (event : HostEvent) :
    Stays Any heap (deliver m loop event) := by
  have looked : Still (handler? loop event.name) := by
    refine still_bind still_get fun s => ?_
    split <;> exact still_pure _
  refine stays_after looked fun found _ _ => ?_
  cases found with
  | none => exact stays_any (still_pure _)
  | some handler =>
      refine stays_bind (stays_ofJson event.argument) fun payload _ _ within =>
        stays_after (still_present _) fun name _ spans => ?_
      have given := List.forall_mem_singleton.mpr (within.after spans)
      exact stays_then (closes.call handler name given) fun _ _ _ => stays_any (still_pure _)

theorem stays_dispatch (loop fuel : Nat) : Stays Any heap (dispatch m loop fuel) := by
  induction fuel generalizing heap with
  | zero => exact stays_throw _
  | succ fuel ih =>
      refine stays_then (stays_nextEvent loop) fun next _ _ => ?_
      cases next with
      | none => exact stays_any (still_pure _)
      | some event => exact stays_then (stays_deliver closes loop event) fun _ _ _ => ih

theorem stays_startLoop (loop : Nat) : Stays Value.Within heap (startLoop m loop) := by
  refine stays_after (still_bind still_get fun _ => still_pure _) fun running _ _ => ?_
  cases running with
  | true => exact stays_fault _
  | false =>
      exact stays_then (stays_whileRunning (stays_dispatch closes loop m.fuel) loop) fun _ _ _ =>
        stays_value trivial

theorem stays_runNative (n : Native) {args : List Value} (within : AllWithin heap args) :
    Stays Value.Within heap (runNative m n args) := by
  unfold runNative
  split
  · exact Builtin.stays_run _ _ within
  · exact stays_setHandler _ _ (within _ (.tail _ (.head _)))
  · exact stays_startLoop closes _
  · exact stays_hostCall closes _ fun v member => within v (.tail _ member)
  · exact stays_newArray (slots_of_values within)
  · exact stays_value trivial
  · exact stays_throw _

theorem stays_activate (f : Closure) (name : Text) (scope : Nat) :
    Stays Value.Within heap (activate m f name scope) :=
  stays_then (stays_shareAll scope _) fun _ later _ =>
    stays_inFile (stays_inCall (stays_bind (closes.block _ scope later) fun _ _ _ within =>
      stays_resultOf name within)) f.file

theorem stays_callFunction (f : Closure) {args : List Value} (name : Text)
    (within : AllWithin heap args) : Stays Value.Within heap (callFunction m f args name) := by
  have checked : ∀ limit, Still (checkDepth limit name) := fun limit => by
    refine still_bind still_get fun s => ?_
    dsimp only
    split
    · exact still_fault _
    · split
      · exact still_fault _
      · exact still_pure _
  dsimp only [callFunction]
  split
  · exact stays_fault _
  · exact stays_after (checked _) fun _ _ spans =>
      stays_then (stays_newScope _ _) fun scope _ spans' =>
        stays_then (stays_bindAll scope _ (all_after within (spans.trans spans'))) fun _ _ _ =>
          stays_activate closes f name scope

theorem stays_callNative (n : Native) {args : List Value} (name : Text)
    (within : AllWithin heap args) : Stays Value.Within heap (callNative m n args name) := by
  unfold callNative
  split
  · split
    · exact stays_fault _
    · exact stays_runNative closes n within
  · exact stays_runNative closes n within

theorem stays_callValue (callee : Value) {args : List Value} (name : Text)
    (within : AllWithin heap args) : Stays Value.Within heap (callValue m callee args name) := by
  cases callee with
  | native n method => exact stays_callNative closes n name within
  | function f method => exact stays_callFunction closes f name within
  | _ => exact stays_after (still_typeOf _) fun _ _ _ => stays_fault _

/-! Expressions. -/

theorem stays_evalAll (scope : Nat) (elements : List Expr) :
    Stays AllWithin heap (evalAll m scope elements) := by
  induction elements generalizing heap with
  | nil => exact stays_pure fun _ _ => List.forall_mem_nil _
  | cons e rest ih =>
      exact stays_bind (closes.eval e scope heap) fun v _ _ first =>
        stays_bind ih fun values _ spans others =>
          stays_pure fun _ spans' => all_cons first (spans.trans spans') (all_after others spans')

theorem stays_evalSegments (scope : Nat) (segments : List Segment) :
    Stays Any heap (evalSegments m scope segments) := by
  induction segments generalizing heap with
  | nil => exact stays_any (still_pure _)
  | cons segment rest ih =>
      cases segment with
      | text value => exact stays_then ih fun _ _ _ => stays_any (still_pure _)
      | code value =>
          exact stays_then (closes.eval value scope heap) fun v _ _ =>
            stays_after (still_textOf v) fun _ _ _ =>
              stays_then ih fun _ _ _ => stays_any (still_pure _)

/-- A table whose values are all on a heap. -/
abbrev EntriesWithin (heap : Heap) (table : Table Value) : Prop :=
  ∀ entry ∈ table, entry.2.Within heap

theorem stays_evalEntries (scope : Nat) (methods : Bool) (entries : List Entry)
    {table : Table Value} (held : EntriesWithin heap table) :
    Stays EntriesWithin heap (evalEntries m scope methods table entries) := by
  induction entries generalizing heap table with
  | nil => exact stays_pure fun _ spans entry member => (held entry member).after spans
  | cons entry rest ih =>
      obtain ⟨key, e⟩ := entry
      refine stays_bind (closes.eval e scope heap) fun v later spans within => ih ?_
      have held' : EntriesWithin later table := fun entry member => (held entry member).after spans
      refine Table.forall_insert key _ table held' ?_
      split
      · exact within.asMethod
      · exact within

theorem stays_evalCall (scope : Nat) (callee : Expr) (args : List Expr) :
    Stays Value.Within heap (evalCall m scope callee args) := by
  unfold evalCall
  split
  · refine stays_bind (closes.eval _ scope heap) fun receiver _ _ within =>
      stays_then (stays_readField receiver _) fun f _ spans =>
        stays_bind (stays_evalAll closes scope args) fun values _ spans' others =>
          closes.call f _ ?_
    split
    · exact all_cons within (spans.trans spans') others
    · exact others
  · exact stays_then (closes.eval _ scope heap) fun f _ _ =>
      stays_bind (stays_evalAll closes scope args) fun _ _ _ within => closes.call f _ within

/-- A truth value that hangs on what an expression comes to. -/
theorem stays_condition (scope : Nat) (e : Expr) (f : Bool → Bool) :
    Stays Value.Within heap (do pure (.bool (f (← truthy (← m.eval e scope))))) :=
  stays_then (closes.eval e scope heap) fun v _ _ => stays_truth v f

theorem stays_evalBinary (scope : Nat) (op : BinaryOp) (left right : Expr) :
    Stays Value.Within heap (evalBinary m scope op left right) := by
  have both : ∀ op, Stays Value.Within heap (do
      let a ← m.eval left scope
      let b ← m.eval right scope
      binary op a b) := fun op =>
    stays_then (closes.eval left scope heap) fun a later _ =>
      stays_then (closes.eval right scope later) fun b _ _ => stays_binary op a b
  cases op with
  | and =>
      refine stays_then (closes.eval left scope heap) fun a _ _ =>
        stays_after (still_truthy a) fun holds _ _ => ?_
      cases holds with
      | true => exact stays_condition closes scope right id
      | false => exact stays_value trivial
  | or =>
      refine stays_then (closes.eval left scope heap) fun a _ _ =>
        stays_after (still_truthy a) fun holds _ _ => ?_
      cases holds with
      | true => exact stays_value trivial
      | false => exact stays_condition closes scope right id
  | _ => exact both _

theorem stays_evalExpr (e : Expr) (scope : Nat) :
    Stays Value.Within heap (evalExpr m e scope) := by
  cases e with
  | number value loc => exact stays_number value
  | bool value loc | null loc => exact stays_value trivial
  | string segments loc =>
      exact stays_then (stays_evalSegments closes scope segments) fun _ _ _ => stays_value trivial
  | ident name loc => exact stays_lookup scope name
  | array elements loc =>
      exact stays_bind (stays_evalAll closes scope elements) fun _ _ _ within =>
        stays_newArray (slots_of_values within)
  | hash entries loc | new entries base loc =>
      exact stays_bind (stays_evalEntries closes scope _ entries (List.forall_mem_nil _))
        fun _ _ _ within => stays_newHash within
  | ref container name loc => exact stays_evalRef scope container name
  | lambda procedure loc => exact stays_get fun _ _ _ => stays_value trivial
  | call callee args loc => exact stays_evalCall closes scope callee args
  | field object name loc =>
      exact stays_then (closes.eval object scope heap) fun v _ _ => stays_readField v name
  | index object position loc =>
      exact stays_then (closes.eval object scope heap) fun v later _ =>
        stays_then (closes.eval position scope later) fun i _ _ => stays_readIndex v i
  | choice condition consequent alternate loc =>
      refine stays_then (closes.eval condition scope heap) fun v _ _ =>
        stays_after (still_truthy v) fun holds later _ => ?_
      cases holds with
      | true => exact closes.eval consequent scope later
      | false => exact closes.eval alternate scope later
  | unary op operand loc =>
      cases op with
      | not => exact stays_condition closes scope operand (!·)
      | negate =>
          exact stays_then (closes.eval operand scope heap) fun v _ _ => stays_negate v
  | binary op left right loc => exact stays_evalBinary closes scope op left right

end

end Eval

end Loom
