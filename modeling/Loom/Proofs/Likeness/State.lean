import Loom.Proofs.Likeness.Answer
import Loom.Proofs.Likeness.Scope
import Loom.Proofs.Steps

/-!
Steps from like states. Two steps agree when from any two like states they end alike: both
with results of which one is like the other, or both with failures that read the same, and
in like states again. Steps that are made of steps that agree do agree. What steps only
write, and never read, need not be alike.
-/

namespace Loom

def TypeFault.plain : TypeFault → TypeFault
  | .fractionalBounds first last => .fractionalBounds (plainNumber first) (plainNumber last)
  | cause => cause

def RuntimeFault.plain : RuntimeFault → RuntimeFault
  | .indexOutOfRange index length => .indexOutOfRange (plainNumber index) length
  | cause => cause

def Fault.plain : Fault → Fault
  | .wrongType cause => .wrongType cause.plain
  | .runtime cause => .runtime cause.plain
  | fault => fault

def Diagnostic.plain (d : Diagnostic) : Diagnostic := { d with fault := d.fault.plain }

def Failure.plain : Failure → Failure
  | .program d => .program d.plain
  | .host fault => .host fault

def Stop.plain : Stop → Stop
  | .failed failure => .failed failure.plain
  | .outOfFuel => .outOfFuel

/-- A fault reads the same whatever the sign of the zeros in it. -/
theorem Fault.plain_keeps (fault : Fault) :
    fault.plain.kind = fault.kind ∧ fault.plain.message = fault.message := by
  cases fault with
  | wrongType cause =>
      refine ⟨rfl, ?_⟩
      cases cause with
      | fractionalBounds first last =>
          simp only [Fault.plain, TypeFault.plain, Fault.message, TypeFault.message,
            text_plain (plainNumber_plainNumber first), text_plain (plainNumber_plainNumber last)]
      | _ => rfl
  | runtime cause =>
      refine ⟨rfl, ?_⟩
      cases cause with
      | indexOutOfRange index length =>
          simp only [Fault.plain, RuntimeFault.plain, Fault.message, RuntimeFault.message,
            text_plain (plainNumber_plainNumber index)]
      | _ => rfl
  | _ => exact ⟨rfl, rfl⟩

theorem Failure.locate_plain (failure : Failure) (loc : Location) (file : Option Text) :
    (failure.locate loc file).plain = failure.plain.locate loc file := by
  cases failure <;> rfl

/-- Event loops with the same handlers. -/
structure EventLoop.Like (l : Likeness) (loop other : EventLoop) : Prop where
  handlers : Table.Like l loop.handlers other.handlers
  running : other.running = loop.running

/-- A state in front of which others were. -/
structure State.Like (l : Likeness) (s t : State) : Prop where
  scopes : s.scopes.Like l t.scopes
  heap : s.heap.Like l t.heap
  loopCount : t.loops.size = l.before.loops + s.loops.size
  loop : ∀ id, Option.Rel (EventLoop.Like l) s.loops[id]? t.loops[l.before.loops + id]?
  queue : t.queue = s.queue
  emitted : t.emitted = s.emitted ++ l.emitted
  depth : t.depth = s.depth
  file : t.file = s.file
  loading : t.loading = s.loading
  globals : t.globals = l.before.scopes + s.globals
  shared : t.shared = Table.mapped (l.before.cells + ·) s.shared
  nativeCache : Table.Like l s.nativeCache t.nativeCache
  moduleCache : Table.Like l s.moduleCache t.moduleCache
  stamps : t.stamps = l.before.stamps + s.stamps
  programs : t.programs = l.before.programs + s.programs

theorem State.Like.modifyLoop {l : Likeness} {s t : State} (same : s.Like l t) (loop : Nat)
    {change change' : EventLoop → EventLoop}
    (step : ∀ a b, EventLoop.Like l a b → EventLoop.Like l (change a) (change' b)) :
    { s with loops := s.loops.modify loop change }.Like l
      { t with loops := t.loops.modify (l.before.loops + loop) change' } := by
  refine { same with loopCount := ?_, loop := fun id => ?_ }
  · simpa using same.loopCount
  · have found := same.loop id
    simp only [Array.getElem?_modify, Nat.add_left_cancel_iff]
    split
    · rcases related_cases found with ⟨none, none'⟩ | ⟨a, b, some, some', like⟩
      · rw [none, none']
        exact .none
      · rw [some, some']
        exact .some (step a b like)
    · exact found

theorem State.Like.pushLoop {l : Likeness} {s t : State} (same : s.Like l t)
    {last last' : EventLoop} (like : last.Like l last') :
    { s with loops := s.loops.push last }.Like l { t with loops := t.loops.push last' } := by
  refine { same with loopCount := ?_, loop := fun id => ?_ }
  · simp only [Array.size_push, same.loopCount, Nat.add_assoc]
  · simp only [Array.getElem?_push, same.loopCount, Nat.add_left_cancel_iff]
    split
    · exact .some like
    · exact same.loop id

namespace Eval

variable {α β γ δ : Type} {l : Likeness}

/-- How steps from like states end alike; results are compared by a relation. -/
inductive Ends (l : Likeness) (R : α → β → Prop) :
    EStateM.Result Stop State α → EStateM.Result Stop State β → Prop
  | ok {a : α} {b : β} {s t : State} (results : R a b) (states : s.Like l t) :
      Ends l R (.ok a s) (.ok b t)
  | error {e e' : Stop} {s t : State} (stops : l.Same Stop.plain e e') (states : s.Like l t) :
      Ends l R (.error e s) (.error e' t)

/-- From like states two steps end alike. -/
def Agree (l : Likeness) (R : α → β → Prop) (x : Eval α) (y : Eval β) : Prop :=
  ∀ s t, State.Like l s t → Ends l R (x s) (y t)

section

variable {R : α → β → Prop} {Q : γ → δ → Prop} {x : Eval α} {y : Eval β}

theorem agree_pure {a : α} {b : β} (results : R a b) : Agree l R (pure a) (pure b) :=
  fun _ _ states => .ok results states

theorem agree_failWith {failure failure' : Failure}
    (same : l.Same Failure.plain failure failure') :
    Agree l R (failWith failure) (failWith failure') :=
  fun _ _ states => .error (same.map Stop.failed (congrArg Stop.failed)) states

theorem agree_outOfFuel : Agree l R outOfFuel outOfFuel :=
  fun _ _ states => .error (.refl _) states

theorem agree_bind {f : α → Eval γ} {g : β → Eval δ} (first : Agree l R x y)
    (rest : ∀ a b, R a b → Agree l Q (f a) (g b)) : Agree l Q (x >>= f) (y >>= g) := by
  intro s t states
  have ends := first s t states
  rw [bind_run, bind_run]
  generalize x s = r at ends ⊢
  generalize y t = r' at ends ⊢
  cases ends with
  | ok results states => exact rest _ _ results _ _ states
  | error stops states => exact .error stops states

/-- After steps that give the same. -/
theorem agree_then {x y : Eval α} {f : α → Eval γ} {g : α → Eval δ} (first : Agree l Eq x y)
    (rest : ∀ a, Agree l Q (f a) (g a)) : Agree l Q (x >>= f) (y >>= g) := by
  apply agree_bind first
  rintro a _ rfl
  exact rest a

theorem agree_get {f : State → Eval γ} {g : State → Eval δ}
    (rest : ∀ s t, State.Like l s t → Agree l Q (f s) (g t)) :
    Agree l Q (get >>= f) (get >>= g) :=
  fun s t states => rest s t states s t states

theorem agree_modify {change change' : State → State}
    (step : ∀ s t, State.Like l s t → (change s).Like l (change' t)) :
    Agree l Eq (modify change : Eval PUnit) (modify change') :=
  fun s t states => .ok rfl (step s t states)

theorem agree_modifyGet {change : State → α × State} {change' : State → β × State}
    (step : ∀ s t, State.Like l s t → R (change s).1 (change' t).1 ∧
      (change s).2.Like l (change' t).2) :
    Agree l R (modifyGet change) (modifyGet change') :=
  fun s t states => .ok (step s t states).1 (step s t states).2

theorem agree_finally {undo undo' : State → State} (agree : Agree l R x y)
    (back : ∀ s t, State.Like l s t → (undo s).Like l (undo' t)) :
    Agree l R (finally_ x undo) (finally_ y undo') := by
  intro s t states
  have ends := agree s t states
  simp only [finally_]
  generalize x s = r at ends ⊢
  generalize y t = r' at ends ⊢
  cases ends with
  | ok results states => exact .ok results (back _ _ states)
  | error stops states => exact .error stops (back _ _ states)

/-! Failures. -/

theorem agree_fault {cause cause' : Fault} (same : l.Same Fault.plain cause cause') :
    Agree l R (fault cause) (fault cause') :=
  agree_failWith (same.map (fun fault => Failure.program ⟨fault, none, none⟩)
    (congrArg fun fault => Failure.program ⟨fault, none, none⟩))

theorem agree_typeFault {cause cause' : TypeFault} (same : l.Same TypeFault.plain cause cause') :
    Agree l R (typeFault cause) (typeFault cause') :=
  agree_fault (same.map Fault.wrongType (congrArg Fault.wrongType))

theorem agree_runtimeFault {cause cause' : RuntimeFault}
    (same : l.Same RuntimeFault.plain cause cause') :
    Agree l R (runtimeFault cause) (runtimeFault cause') :=
  agree_fault (same.map Fault.runtime (congrArg Fault.runtime))

/-- The same answer, or none. -/
theorem agree_answer (result : Option α) : Agree l Eq (present result) (present result) := by
  cases result with
  | none => exact agree_failWith (.refl _)
  | some a => exact agree_pure rfl

/-! Control. -/

theorem agree_inFile (file : Option Text) (agree : Agree l R x y) :
    Agree l R (inFile file x) (inFile file y) := by
  intro s t states
  have entered : { s with file := file }.Like l { t with file := file } :=
    { states with file := rfl }
  have back : ∀ s' t', State.Like l s' t' →
      { s' with file := s.file }.Like l { t' with file := t.file } :=
    fun _ _ after => { after with file := states.file }
  exact agree_finally agree back _ _ entered

theorem agree_inCall (agree : Agree l R x y) : Agree l R (inCall x) (inCall y) := by
  intro s t states
  have entered : { s with depth := s.depth + 1 }.Like l { t with depth := t.depth + 1 } :=
    { states with depth := congrArg (· + 1) states.depth }
  have back : ∀ s' t', State.Like l s' t' →
      { s' with depth := s'.depth - 1 }.Like l { t' with depth := t'.depth - 1 } :=
    fun _ _ after => { after with depth := congrArg (· - 1) after.depth }
  exact agree_finally agree back _ _ entered

theorem agree_whileLoading (path : Text) (agree : Agree l R x y) :
    Agree l R (whileLoading path x) (whileLoading path y) := by
  intro s t states
  have entered : { s with loading := path :: s.loading }.Like l
      { t with loading := path :: t.loading } :=
    { states with loading := congrArg (path :: ·) states.loading }
  have back : ∀ s' t', State.Like l s' t' →
      { s' with loading := s'.loading.erase path }.Like l
        { t' with loading := t'.loading.erase path } :=
    fun _ _ after => { after with loading := congrArg (List.erase · path) after.loading }
  exact agree_finally agree back _ _ entered

theorem setRunning_like (loop : Nat) (running : Bool) {s t : State} (states : State.Like l s t) :
    (setRunning loop running s).Like l (setRunning (l.before.loops + loop) running t) :=
  states.modifyLoop loop (fun _ _ same => { same with running := rfl })

theorem agree_whileRunning (loop : Nat) (agree : Agree l R x y) :
    Agree l R (whileRunning loop x) (whileRunning (l.before.loops + loop) y) :=
  fun _ _ states => agree_finally agree (fun _ _ after => setRunning_like loop false after) _ _
    (setRunning_like loop true states)

theorem agree_nothingUnderway : Agree l Eq nothingUnderway nothingUnderway :=
  fun _ _ states => .ok rfl { states with }

theorem agree_during (statement statement' : Stmt) (agree : Agree l R x y) :
    Agree l R (during statement x) (during statement' y) := by
  intro s t states
  have ends := agree _ _ (show State.Like l { s with underway := ⟨statement, s.file⟩ :: s.underway }
    { t with underway := ⟨statement', t.file⟩ :: t.underway } from { states with })
  simp only [during]
  generalize x _ = r at ends ⊢
  generalize y _ = r' at ends ⊢
  cases ends with
  | ok results after => exact .ok results { after with }
  | error stops after => exact .error stops after

theorem agree_located (loc : Location) (agree : Agree l R x y) :
    Agree l R (located loc x) (located loc y) := by
  intro s t states
  have ends := agree s t states
  simp only [located]
  generalize x s = r at ends ⊢
  generalize y t = r' at ends ⊢
  cases ends with
  | ok results after => exact .ok results after
  | @error e e' s' t' stops after =>
      have looks := stops.looks
      cases e with
      | outOfFuel =>
          cases e' with
          | outOfFuel => exact .error stops after
          | failed failure' => cases looks
      | failed failure =>
          cases e' with
          | outOfFuel => cases looks
          | failed failure' =>
              have placed : l.Same Stop.plain (.failed (failure.locate loc s'.file))
                  (.failed (failure'.locate loc t'.file)) := by
                rw [after.file]
                rcases stops with stops | ⟨blind, stops⟩
                · rw [Stop.failed.inj stops]
                  exact .refl _
                · refine .inr ⟨blind, congrArg Stop.failed ?_⟩
                  rw [Failure.locate_plain, Failure.locate_plain, Stop.failed.inj stops]
              exact .error placed after

end

/-! Questions about values. -/

section

variable {v v' w w' : Value} (left : Value.Like l v v') (right : Value.Like l w w')
include left

theorem agree_typeOf : Agree l Eq (typeOf v) (typeOf v') := by
  unfold typeOf
  rw [left.type?_eq]
  exact agree_answer _

/-- A value is refused for its type. -/
theorem agree_refused (R : α → β → Prop) (cause : TypeName → TypeFault) :
    Agree l R (do typeFault (cause (← typeOf v))) (do typeFault (cause (← typeOf v'))) :=
  agree_then (agree_typeOf left) (fun _ => agree_typeFault (.refl _))

theorem agree_truthy : Agree l Eq (truthy v) (truthy v') := by
  apply agree_get
  intro s t states
  rw [left.truthy?_eq states.heap]
  exact agree_answer _

theorem agree_textOf : Agree l Eq (textOf v) (textOf v') := by
  apply agree_get
  intro s t states
  rw [left.text?_eq states.heap]
  exact agree_answer _

theorem agree_expectNumber (operation : Text) :
    Agree l (l.Same plainNumber) (expectNumber v operation) (expectNumber v' operation) := by
  have same := left
  cases left with
  | number value stamp => exact agree_pure value
  | _ => exact agree_refused same _ _

theorem agree_expectString (operation : Text) :
    Agree l Eq (expectString v operation) (expectString v' operation) := by
  have same := left
  cases left with
  | string t => exact agree_pure rfl
  | _ => exact agree_refused same _ _

include right in
theorem agree_equal : Agree l Eq (equal v w) (equal v' w') := by
  apply agree_get
  intro s t states
  rw [Value.Like.equal?_eq states.heap left right]
  exact agree_answer _

end

/-! Values made. -/

/-- Of two stamps the other is as far behind those given out before. -/
theorem agree_stamp : Agree l (fun n m => m = l.before.stamps + n) stamp stamp :=
  agree_modifyGet fun _ _ states =>
    ⟨states.stamps, { states with stamps := congrArg (· + 1) states.stamps }⟩

theorem agree_number {x y : Float} (same : l.Same plainNumber x y) :
    Agree l (Value.Like l) (number x) (number y) := by
  unfold number
  rw [isNaN_plain same.looks]
  split
  · apply agree_bind agree_stamp
    rintro n _ rfl
    exact agree_pure (.number same (n + 1))
  · exact agree_pure (.number same 0)

theorem agree_newArray {elements elements' : Array Slot}
    (same : Slot.AllLike l elements elements') :
    Agree l (Value.Like l) (newArray elements) (newArray elements') :=
  agree_modifyGet fun _ _ states =>
    ⟨(states.heap.newArray same).1, { states with heap := (states.heap.newArray same).2 }⟩

theorem agree_newHash {entries entries' : Table Value} (same : Table.Like l entries entries') :
    Agree l (Value.Like l) (newHash entries) (newHash entries') :=
  agree_modifyGet fun _ _ states =>
    ⟨(states.heap.newHash same).1, { states with heap := (states.heap.newHash same).2 }⟩

theorem agree_ofJson (data : Json) : Agree l (Value.Like l) (ofJson data) (ofJson data) :=
  agree_modifyGet fun s _ states => by
    obtain ⟨values, heaps⟩ := Value.ofHost_like data.host states.heap s.stamps
    rw [← states.stamps] at values heaps
    exact ⟨values, { states with
      heap := heaps
      stamps := by simp only [states.stamps, Nat.add_assoc] }⟩

/-! The heap. -/

theorem agree_array (ref : Nat) :
    Agree l (Slot.AllLike l) (array ref) (array (l.before.arrays + ref)) :=
  agree_get fun _ _ states => agree_pure (states.heap.array ref)

theorem agree_hash (ref : Nat) :
    Agree l (Table.Like l) (hash ref) (hash (l.before.hashes + ref)) :=
  agree_get fun _ _ states => agree_pure (states.heap.hash ref)

theorem agree_entry (ref : Nat) (key : Text) :
    Agree l (Value.Like l) (entry ref key) (entry (l.before.hashes + ref) key) :=
  agree_get fun _ _ states => agree_pure (related_getD (states.heap.entry? ref key) .null)

theorem agree_modifyArray (ref : Nat) {f g : Array Slot → Array Slot}
    (step : ∀ slots slots', Slot.AllLike l slots slots' → Slot.AllLike l (f slots) (g slots')) :
    Agree l Eq (modifyArray ref f) (modifyArray (l.before.arrays + ref) g) :=
  agree_modify fun _ _ states => { states with heap := states.heap.modifyArray ref step }

theorem agree_modifyHash (ref : Nat) {f g : Table Value → Table Value}
    (step : ∀ table table', Table.Like l table table' → Table.Like l (f table) (g table')) :
    Agree l Eq (modifyHash ref f) (modifyHash (l.before.hashes + ref) g) :=
  agree_modify fun _ _ states => { states with heap := states.heap.modifyHash ref step }

/-! Scopes. -/

theorem agree_newScope (parent : Nat) (kind : ScopeKind) :
    Agree l (fun id other => other = l.before.scopes + id) (newScope parent kind)
      (newScope (l.before.scopes + parent) kind) :=
  agree_modifyGet fun _ _ states =>
    ⟨(states.scopes.child parent kind).1,
      { states with scopes := (states.scopes.child parent kind).2 }⟩

theorem agree_lookup (scope : Nat) (name : Text) :
    Agree l (Value.Like l) (lookup scope name) (lookup (l.before.scopes + scope) name) := by
  apply agree_get
  intro s t states
  rcases related_cases (states.scopes.get? scope name) with
    ⟨none, none'⟩ | ⟨v, w, some, some', like⟩
  · rw [none, none']
    exact agree_fault (.refl _)
  · rw [some, some']
    exact agree_pure like

theorem agree_define (scope : Nat) (name : Text) {v w : Value} (same : Value.Like l v w) :
    Agree l Eq (define scope name v) (define (l.before.scopes + scope) name w) :=
  agree_modify fun _ _ states => { states with scopes := states.scopes.define scope name same }

theorem agree_assign (scope : Nat) (name : Text) {v w : Value} (same : Value.Like l v w) :
    Agree l Eq (assign scope name v) (assign (l.before.scopes + scope) name w) :=
  agree_modify fun _ _ states => { states with scopes := states.scopes.assign scope name same }

theorem agree_mark (m m' : Mark) : Agree l Eq (mark m) (mark m') :=
  agree_modify fun _ _ states => { states with }

theorem agree_note (b b' : Binding) : Agree l Eq (note b) (note b') :=
  agree_modify fun _ _ states => { states with }

theorem agree_rebind (scope : Nat) (name : Text) {v w : Value} (b b' : Binding)
    (same : Value.Like l v w) :
    Agree l Eq (rebind scope name v b) (rebind (l.before.scopes + scope) name w b') :=
  agree_then (agree_define scope name same) (fun _ => agree_note b b')

theorem agree_shareOuter (scope : Nat) (name : Text) :
    Agree l Eq (shareOuter scope name) (shareOuter (l.before.scopes + scope) name) := by
  rw [shareOuter_eq, shareOuter_eq]
  apply agree_then (agree_mark _ _)
  intro _
  apply agree_get
  intro s t states
  rw [states.scopes.hidesOuter_eq]
  split
  · exact agree_runtimeFault (.refl _)
  · exact agree_modify fun _ _ states => { states with scopes := states.scopes.share scope name }

theorem agree_emit (line : Text) (key : Option Text) :
    Agree l Eq (emit line key) (emit line key) :=
  agree_modify fun _ _ states =>
    { states with emitted := congrArg (Emission.mk line key :: ·) states.emitted }

end Eval

end Loom
