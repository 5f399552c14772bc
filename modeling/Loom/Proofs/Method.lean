import Loom.Interpreter
import Loom.Proofs.Likeness.Operator
import Loom.Proofs.Veil.Statement

/-!
What is no matter of a callable's being a method, and what is no matter of the name that it
is called by. Only a field call asks whether a value is a method. A value and the method made
of it are equal, have the same text and do the same when they are called, and a native
function that is given the one does what it does with the other, but for the copy that it
may store. The name that a call is made under is for messages alone.
-/

namespace Loom

/-! Values. -/

theorem Value.asMethod_asMethod (v : Value) : v.asMethod.asMethod = v.asMethod := by
  cases v <;> rfl

theorem Value.text?_asMethod (v : Value) (heap : Heap) : v.asMethod.text? heap = v.text? heap := by
  unfold text?
  cases heap.size <;> cases v <;> rfl

theorem Value.toHost_asMethod (v : Value) (heap : Heap) :
    v.asMethod.toHost heap = v.toHost heap := by
  unfold toHost
  cases heap.size <;> cases v <;> rfl

/-- No value tells a callable and the method made of it apart by equality. -/
theorem Value.equal?_asMethod (heap : Heap) (v w : Value) :
    Value.equal? heap v.asMethod w = Value.equal? heap v w ∧
      Value.equal? heap w v.asMethod = Value.equal? heap w v := by
  have level : ∀ inner begun,
      Equality.level heap inner v.asMethod w begun = Equality.level heap inner v w begun ∧
        Equality.level heap inner w v.asMethod begun = Equality.level heap inner w v begun := by
    intro inner begun
    cases v <;> cases w <;> exact ⟨rfl, rfl⟩
  unfold equal?
  cases heap.size * heap.size with
  | zero => exact ⟨congrArg (Option.map _) (level _ _).1, congrArg (Option.map _) (level _ _).2⟩
  | succ fuel =>
      exact ⟨congrArg (Option.map _) (level _ _).1, congrArg (Option.map _) (level _ _).2⟩

theorem Value.equal?_self {v : Value} (callable : v.isCallable = true) (heap : Heap) :
    Value.equal? heap v v = some true := by
  have level : ∀ inner begun, Equality.level heap inner v v begun = some (true, begun) := by
    intro inner begun
    cases v with
    | function f method => simp [Equality.level, Equality.same]
    | native n method => simp [Equality.level, Equality.same]
    | _ => cases callable
  unfold equal?
  cases heap.size * heap.size with
  | zero => rw [Equality.within, level, Option.map_some]
  | succ fuel => rw [Equality.within, level, Option.map_some]

/-! Names of calls. -/

/-- The kind of a failure of the program. -/
def Stop.kind? : Stop → Option FaultKind
  | .failed (.program d) => some d.fault.kind
  | _ => none

/-- Whether two failures are of one kind, or the same where they have none. -/
def Stop.SameKind (e e' : Stop) : Prop := e'.kind? = e.kind? ∧ (e.kind? = none → e' = e)

theorem Stop.sameKind_refl (e : Stop) : e.SameKind e := ⟨rfl, fun _ => rfl⟩

namespace Eval

variable {α β : Type}

/-- How two steps end that differ at most in the names in their messages. -/
inductive Worded : EStateM.Result Stop State α → EStateM.Result Stop State α → Prop
  | ok (a : α) (s : State) : Worded (.ok a s) (.ok a s)
  | error {e e' : Stop} (s : State) (kind : e.SameKind e') : Worded (.error e s) (.error e' s)

/-- Two steps that differ at most in the names in their messages. -/
def SameButWords (x y : Eval α) : Prop := ∀ s, Worded (x s) (y s)

variable {x y : Eval α}

theorem sameButWords_refl (x : Eval α) : SameButWords x x := by
  intro s
  cases x s with
  | ok a t => exact .ok a t
  | error e t => exact .error t e.sameKind_refl

theorem sameButWords_fault {cause cause' : Fault} (kind : cause'.kind = cause.kind) :
    SameButWords (fault cause : Eval α) (fault cause') :=
  fun s => .error s ⟨congrArg some kind, fun none => by cases none⟩

theorem sameButWords_runtimeFault (cause cause' : RuntimeFault) :
    SameButWords (runtimeFault cause : Eval α) (runtimeFault cause') :=
  sameButWords_fault rfl

theorem sameButWords_bind {f g : α → Eval β} (first : SameButWords x y)
    (rest : ∀ a, SameButWords (f a) (g a)) : SameButWords (x >>= f) (y >>= g) := by
  intro s
  have ends := first s
  rw [bind_run, bind_run]
  generalize x s = r at ends ⊢
  generalize y s = r' at ends ⊢
  cases ends with
  | ok a t => exact rest a t
  | error t kind => exact .error t kind

/-- After one and the same step. -/
theorem sameButWords_after (x : Eval α) {f g : α → Eval β}
    (rest : ∀ a, SameButWords (f a) (g a)) : SameButWords (x >>= f) (x >>= g) :=
  sameButWords_bind (sameButWords_refl x) rest

theorem worded_finally (undo : State → State) {s : State} (ends : Worded (x s) (y s)) :
    Worded (finally_ x undo s) (finally_ y undo s) := by
  simp only [finally_]
  generalize x s = r at ends ⊢
  generalize y s = r' at ends ⊢
  cases ends with
  | ok a s => exact .ok a (undo s)
  | error s kind => exact .error (undo s) kind

theorem sameButWords_checkDepth (limit : Nat) (name name' : Text) :
    SameButWords (checkDepth limit name) (checkDepth limit name') := by
  apply sameButWords_after
  intro s
  dsimp only
  split
  · exact sameButWords_runtimeFault _ _
  · split
    · exact sameButWords_runtimeFault _ _
    · exact sameButWords_refl _

theorem sameButWords_resultOf (name name' : Text) (flow : Flow) :
    SameButWords (resultOf name flow) (resultOf name' flow) := by
  cases flow with
  | normal | returned v => exact sameButWords_refl _
  | broke depth | continued depth => exact sameButWords_runtimeFault _ _

theorem sameButWords_callFunction (m : Machine) (f : Closure) (args : List Value)
    (name name' : Text) :
    SameButWords (callFunction m f args name) (callFunction m f args name') := by
  unfold callFunction activate
  dsimp only
  split
  · exact sameButWords_fault rfl
  · apply sameButWords_bind (sameButWords_checkDepth m.host.maxCallDepth name name')
    intro _
    apply sameButWords_after
    intro scope
    apply sameButWords_after
    intro _
    apply sameButWords_after
    intro _ s
    have ran : SameButWords (do resultOf name (← m.block f.procedure.body.statements scope))
        (do resultOf name' (← m.block f.procedure.body.statements scope)) :=
      sameButWords_after _ (sameButWords_resultOf name name')
    exact worded_finally _ (worded_finally _ (ran _))

/-- A call does the same under another name, but for the name in its message. -/
theorem sameButWords_callValue (m : Machine) (callee : Value) (args : List Value)
    (name name' : Text) :
    SameButWords (callValue m callee args name) (callValue m callee args name') := by
  cases callee with
  | function f method => exact sameButWords_callFunction m f args name name'
  | native n method =>
      simp only [callValue, callNative]
      split
      · split
        · exact sameButWords_fault rfl
        · exact sameButWords_refl _
      · exact sameButWords_refl _
  | _ => exact sameButWords_after _ (fun _ => sameButWords_runtimeFault _ _)

end Eval

/-! Native functions. -/

/-- Whether a native function keeps what it is given: in an array, or as a handler. -/
def Action.Stores : Action → Prop
  | .builtin .add | .setHandler | .listArguments => True
  | _ => False

namespace Eval

theorem typeOf_asMethod (v : Value) : typeOf v.asMethod = typeOf v := by
  cases v <;> rfl

theorem textOf_asMethod (v : Value) : textOf v.asMethod = textOf v := by
  simp only [textOf, Value.text?_asMethod]

theorem truthy_asMethod (v : Value) : truthy v.asMethod = truthy v := by
  cases v <;> rfl

theorem equal_asMethod (v w : Value) :
    equal v.asMethod w = equal v w ∧ equal w v.asMethod = equal w v := by
  simp only [equal, Value.equal?_asMethod, and_self]

theorem expectNumber_asMethod (v : Value) (operation : Text) :
    expectNumber v.asMethod operation = expectNumber v operation := by
  cases v <;> rfl

theorem standing_asMethod (v w : Value) :
    standing v.asMethod w = standing v w ∧ standing w v.asMethod = standing w v := by
  cases v <;> cases w <;> exact ⟨rfl, rfl⟩

/-- No operator tells a callable and the method made of it apart. -/
theorem binary_asMethod (op : BinaryOp) (v w : Value) :
    binary op v.asMethod w = binary op v w ∧ binary op w v.asMethod = binary op w v := by
  obtain ⟨left, right⟩ := equal_asMethod v w
  obtain ⟨stands, stands'⟩ := standing_asMethod v w
  cases op <;> simp only [binary, compare, operands, expectNumber_asMethod, truthy_asMethod,
    textOf_asMethod, left, right, stands, stands', and_self]

theorem negate_asMethod (v : Value) : negate v.asMethod = negate v := by
  simp only [negate, expectNumber_asMethod]

theorem readField_asMethod (v : Value) (name : Text) :
    readField v.asMethod name = readField v name := by
  cases v <;> rfl

theorem readIndex_asMethod (v w : Value) :
    readIndex v.asMethod w = readIndex v w ∧ readIndex w v.asMethod = readIndex w v := by
  constructor
  · cases v <;> rfl
  · cases w <;> simp only [readIndex, expectNumber_asMethod, textOf_asMethod]

theorem itemsOf_asMethod (v : Value) : itemsOf v.asMethod = itemsOf v := by
  cases v <;> rfl

end Eval

/-! The place of a value among one or two. -/

theorem alone_of_length {front back : List Value} {v : Value}
    (length : (front ++ v :: back).length = 1) : front = [] ∧ back = [] := by
  rw [List.length_append, List.length_cons] at length
  exact ⟨List.length_eq_zero_iff.mp (by omega), List.length_eq_zero_iff.mp (by omega)⟩

theorem first_or_last_of_length {front back : List Value} {v : Value}
    (length : (front ++ v :: back).length = 2) :
    (front = [] ∧ ∃ w, back = [w]) ∨ (∃ w, front = [w]) ∧ back = [] := by
  rw [List.length_append, List.length_cons] at length
  cases front with
  | nil => exact .inl ⟨rfl, List.length_eq_one_iff.mp (by simpa using length)⟩
  | cons w front =>
      rw [List.length_cons] at length
      have none : front = [] := List.length_eq_zero_iff.mp (by omega)
      exact .inr ⟨⟨w, by rw [none]⟩, List.length_eq_zero_iff.mp (by omega)⟩

namespace Builtin

open Eval

theorem anyEqual_asMethod (v : Value) (slots : List Slot) :
    anyEqual v.asMethod slots = anyEqual v slots := by
  induction slots with
  | nil => rfl
  | cons slot rest ih =>
      cases slot with
      | none => exact ih
      | some w => simp only [anyEqual, (equal_asMethod v w).2, ih]

theorem findIn_asMethod (v w : Value) :
    findIn v.asMethod w = findIn v w ∧ findIn w v.asMethod = findIn w v := by
  constructor
  · cases v <;> rfl
  · cases w <;> simp only [findIn, anyEqual_asMethod, textOf_asMethod]

theorem rangeFrom_asMethod (fuel : Nat) (v w : Value) :
    rangeFrom fuel v.asMethod w = rangeFrom fuel v w ∧
      rangeFrom fuel w v.asMethod = rangeFrom fuel w v := by
  simp only [rangeFrom, expectNumber_asMethod, and_self]

theorem removeFrom_asMethod (v w : Value) :
    removeFrom v.asMethod w = removeFrom v w ∧ removeFrom w v.asMethod = removeFrom w v := by
  constructor
  · cases v <;> rfl
  · cases w <;> simp only [removeFrom, expectNumber_asMethod, textOf_asMethod]

theorem countOf_asMethod (v : Value) : countOf v.asMethod = countOf v := by
  cases v <;> rfl

theorem keysOf_asMethod (v : Value) : keysOf v.asMethod = keysOf v := by
  cases v <;> rfl

theorem toNumber_asMethod (v : Value) : toNumber v.asMethod = toNumber v := by
  cases v <;> rfl

/-- A built-in function that keeps nothing does not ask which of its arguments are methods. -/
theorem run_asMethod (fuel : Nat) {b : Builtin} (keeps : ¬ (Action.builtin b).Stores)
    (front back : List Value) (v : Value) :
    run fuel b (front ++ v.asMethod :: back) = run fuel b (front ++ v :: back) := by
  by_cases right : (front ++ v :: back).length = b.arity
  · cases b with
    | add => exact absurd trivial keeps
    | find =>
        rcases first_or_last_of_length right with ⟨rfl, w, rfl⟩ | ⟨⟨w, rfl⟩, rfl⟩
        · exact (findIn_asMethod v w).1
        · exact (findIn_asMethod v w).2
    | rangeArray =>
        rcases first_or_last_of_length right with ⟨rfl, w, rfl⟩ | ⟨⟨w, rfl⟩, rfl⟩
        · exact (rangeFrom_asMethod fuel v w).1
        · exact (rangeFrom_asMethod fuel v w).2
    | remove =>
        rcases first_or_last_of_length right with ⟨rfl, w, rfl⟩ | ⟨⟨w, rfl⟩, rfl⟩
        · exact (removeFrom_asMethod v w).1
        · exact (removeFrom_asMethod v w).2
    | count =>
        obtain ⟨rfl, rfl⟩ := alone_of_length right
        exact countOf_asMethod v
    | keys =>
        obtain ⟨rfl, rfl⟩ := alone_of_length right
        exact keysOf_asMethod v
    | str =>
        obtain ⟨rfl, rfl⟩ := alone_of_length right
        exact congrArg (fun text : Eval Text => do pure (Value.string (← text)))
          (textOf_asMethod v)
    | num =>
        obtain ⟨rfl, rfl⟩ := alone_of_length right
        exact toNumber_asMethod v
    | type =>
        obtain ⟨rfl, rfl⟩ := alone_of_length right
        exact congrArg (fun type : Eval TypeName => do pure (Value.string (← type).text))
          (typeOf_asMethod v)
  · have same : (front ++ v.asMethod :: back).length = (front ++ v :: back).length := by simp
    rw [run_of_wrong_length fuel b _ right, run_of_wrong_length fuel b _ (same ▸ right), same]

end Builtin

/-- Heaps of which the second may have methods where the first has other callables. -/
structure Heap.SameButMethods (heap other : Heap) : Prop where
  arrayCount : other.arrays.size = heap.arrays.size
  hashCount : other.hashes.size = heap.hashes.size
  array : ∀ ref, (other.array ref).map (Option.map Value.asMethod) =
    (heap.array ref).map (Option.map Value.asMethod)
  hash : ∀ ref, Table.mapped Value.asMethod (other.hash ref) =
    Table.mapped Value.asMethod (heap.hash ref)

namespace Heap

theorem sameButMethods_refl (heap : Heap) : heap.SameButMethods heap :=
  ⟨rfl, rfl, fun _ => rfl, fun _ => rfl⟩

/-- An array that takes a callable in at its end. -/
theorem sameButMethods_push (heap : Heap) (ref : Nat) (v : Value) :
    (heap.modifyArray ref (·.push (some v))).SameButMethods
      (heap.modifyArray ref (·.push (some v.asMethod))) where
  arrayCount := by simp [modifyArray]
  hashCount := rfl
  array other := by
    rw [array_modifyArray, array_modifyArray]
    split
    · simp [Value.asMethod_asMethod]
    · rfl
  hash _ := rfl

/-- A new array that holds a callable. -/
theorem sameButMethods_newArray (heap : Heap) (front back : List Slot) (v : Value) :
    (heap.newArray (front ++ some v :: back).toArray).2.SameButMethods
      (heap.newArray (front ++ some v.asMethod :: back).toArray).2 where
  arrayCount := by simp [newArray]
  hashCount := rfl
  array other := by
    rw [array_newArray, array_newArray]
    split
    · simp [Value.asMethod_asMethod]
    · rfl
  hash _ := rfl

end Heap

/-- States that differ at most in which of the callables kept on the heap and as handlers are
methods. -/
structure State.SameButMethods (s t : State) : Prop where
  heap : s.heap.SameButMethods t.heap
  loops : ∀ id : Nat, t.loops[id]?.map EventLoop.tagged = s.loops[id]?.map EventLoop.tagged
  rest : t = { s with heap := t.heap, loops := t.loops }

theorem State.sameButMethods_refl (s : State) : s.SameButMethods s :=
  ⟨s.heap.sameButMethods_refl, fun _ => rfl, rfl⟩

namespace Eval

/-- How two calls end of which the second has stored a method where the first has stored the
callable it was made of. -/
inductive CopyEnds {α : Type} : EStateM.Result Stop State α → EStateM.Result Stop State α → Prop
  | ok (a : α) {s t : State} (states : s.SameButMethods t) : CopyEnds (.ok a s) (.ok a t)
  | error (e : Stop) {s t : State} (states : s.SameButMethods t) :
      CopyEnds (.error e s) (.error e t)

theorem copyEnds_refl {α : Type} (r : EStateM.Result Stop State α) : CopyEnds r r := by
  cases r with
  | ok a s => exact .ok a s.sameButMethods_refl
  | error e s => exact .error e s.sameButMethods_refl

theorem addTo_asMethod (target v : Value) (s : State) :
    CopyEnds (Builtin.addTo target v s) (Builtin.addTo target v.asMethod s) := by
  cases target with
  | array ref =>
      have stored := s.heap.sameButMethods_push ref v
      exact .ok Value.null (s := { s with heap := _ }) (t := { s with heap := _ })
        ⟨stored, fun _ => rfl, rfl⟩
  | _ => exact copyEnds_refl _

theorem newArray_asMethod (front back : List Slot) (v : Value) (s : State) :
    CopyEnds (newArray (front ++ some v :: back).toArray s)
      (newArray (front ++ some v.asMethod :: back).toArray s) := by
  have stored := s.heap.sameButMethods_newArray front back v
  exact .ok (Value.array s.heap.arrays.size) (s := { s with heap := _ }) (t := { s with heap := _ })
    ⟨stored, fun _ => rfl, rfl⟩

/-- The loops after a handler was stored, and after the method made of it was. -/
theorem loops_asMethod (loops : Array EventLoop) (loop : Nat) (event : Text) (v : Value)
    (id : Nat) :
    ((loops.modify loop (fun l =>
        { l with handlers := Table.insert event v.asMethod l.handlers }))[id]?).map
        EventLoop.tagged =
      ((loops.modify loop (fun l =>
        { l with handlers := Table.insert event v l.handlers }))[id]?).map EventLoop.tagged := by
  rw [Array.getElem?_modify, Array.getElem?_modify]
  split
  · rw [Option.map_map, Option.map_map]
    apply congrArg (fun f => Option.map f loops[id]?)
    funext l
    simp only [Function.comp_apply, EventLoop.tagged, ← Table.insert_mapped,
      Value.asMethod_asMethod]
  · rfl

theorem setHandler_asMethod (loop : Nat) (name v : Value) (s : State) :
    CopyEnds (setHandler loop name v s) (setHandler loop name v.asMethod s) := by
  have callable : v.asMethod.isCallable = v.isCallable := by cases v <;> rfl
  simp only [setHandler, callable, typeOf_asMethod]
  cases name with
  | string event =>
      cases v.isCallable with
      | true =>
          have stored := loops_asMethod s.loops loop event v
          exact .ok Value.null (s := { s with loops := _ }) (t := { s with loops := _ })
            ⟨s.heap.sameButMethods_refl, stored, rfl⟩
      | false => exact copyEnds_refl _
  | _ => exact copyEnds_refl _

variable {m : Machine} (method : ∀ (callee : Value) (args : List Value) (name : Text),
  m.call callee.asMethod args name = m.call callee args name)
include method

/-- A native function that keeps nothing does with a method what it does with the callable
that it was made of. One that calls its first argument hands the others on as they are. -/
theorem callNative_asMethod {n : Native} (keeps : ¬ n.action.Stores) {front : List Value}
    (first : n.action = .callBack → front = []) (back : List Value) (v : Value) (name : Text) :
    callNative m n (front ++ v.asMethod :: back) name =
      callNative m n (front ++ v :: back) name := by
  obtain ⟨action, owner⟩ := n
  have length : (front ++ v.asMethod :: back).length = (front ++ v :: back).length := by simp
  have ran : runNative m ⟨action, owner⟩ (front ++ v.asMethod :: back) =
      runNative m ⟨action, owner⟩ (front ++ v :: back) := by
    cases action with
    | builtin b => exact Builtin.run_asMethod m.fuel keeps front back v
    | setHandler | listArguments => exact absurd trivial keeps
    | startLoop => cases front <;> rfl
    | host name => rfl
    | callBack =>
        obtain rfl := first rfl
        exact hostCall_asMethod method v back
  simp only [callNative, length, ran]

omit method in
/-- A native function that keeps what it is given, when it is given as much as it takes. -/
theorem copyEnds_runNative {n : Native} (keeps : n.action.Stores) {front back : List Value}
    {v : Value} (right : ∀ k ∈ n.action.arity?, (front ++ v :: back).length = k) (s : State) :
    CopyEnds (runNative m n (front ++ v :: back) s)
      (runNative m n (front ++ v.asMethod :: back) s) := by
  obtain ⟨action, owner⟩ := n
  cases action with
  | builtin b =>
      cases b with
      | add =>
          rcases first_or_last_of_length (right 2 rfl) with ⟨rfl, w, rfl⟩ | ⟨⟨w, rfl⟩, rfl⟩
          · -- the target of an addition is not stored
            cases v <;> exact copyEnds_refl _
          · exact addTo_asMethod w v s
      | _ => cases keeps
  | setHandler =>
      rcases first_or_last_of_length (right 2 rfl) with ⟨rfl, w, rfl⟩ | ⟨⟨w, rfl⟩, rfl⟩
      · cases v <;> exact copyEnds_refl _
      · exact setHandler_asMethod owner w v s
  | listArguments =>
      have stored := newArray_asMethod (front.map some) (back.map some) v s
      simpa only [runNative, List.map_append, List.map_cons] using stored
  | _ => cases keeps

omit method in
/-- A native function that keeps what it is given keeps the method, and does nothing else. -/
theorem copyEnds_callNative {n : Native} (keeps : n.action.Stores) (front back : List Value)
    (v : Value) (name : Text) (s : State) :
    CopyEnds (callNative m n (front ++ v :: back) name s)
      (callNative m n (front ++ v.asMethod :: back) name s) := by
  have length : (front ++ v.asMethod :: back).length = (front ++ v :: back).length := by simp
  unfold callNative
  rw [length]
  cases arity : n.action.arity? with
  | none => exact copyEnds_runNative keeps (fun k some => by rw [arity] at some; cases some) s
  | some k =>
      by_cases right : (front ++ v :: back).length = k
      · simp only [right, ne_eq, not_true_eq_false, if_false]
        apply copyEnds_runNative keeps
        intro k' same
        rw [arity] at same
        cases same
        exact right
      · simp only [right, ne_eq, not_false_eq_true, if_true]
        exact copyEnds_refl _

end Eval

end Loom
