import Loom.Proofs.Held
import Loom.Proofs.Mention
import Loom.Proofs.Steps
import Loom.Proofs.Veil.Scope

/-!
Steps that overlook hidden variables. From two states of which the second has the hidden
variables as well, such a step gives the same result or fails in the same way, and the
states after it are two such states again. Nor does it notice whether the handlers of an
event loop are methods. Steps made of steps that overlook the variables overlook them too.
-/

namespace Loom

/-- A value of which the code speaks of no hidden name. -/
def Value.Avoids (hidden : List Text) : Value → Prop
  | .function f _ => Clear hidden f.procedure.names
  | _ => True

theorem Value.avoids_of_data {hidden : List Text} (v : Value) (data : v.isData = true) :
    v.Avoids hidden := by
  cases v with
  | function f method => cases data
  | _ => trivial

/-- Where no name is hidden, every value avoids them all. -/
theorem Value.avoids_none (v : Value) : v.Avoids [] := by
  cases v with
  | function f method => exact clear_of_none f.procedure.names
  | _ => trivial

theorem Value.Avoids.asMethod {hidden : List Text} {v : Value} (avoids : v.Avoids hidden) :
    v.asMethod.Avoids hidden := by
  cases v <;> exact avoids

/-- An event loop with methods for handlers. -/
def EventLoop.tagged (loop : EventLoop) : EventLoop :=
  { loop with handlers := Table.mapped Value.asMethod loop.handlers }

/-- Two states of which the second has the hidden variables as well, and the handlers of
which differ at most in that they are methods. What no step reads may differ, the cells that
the host shares included. -/
structure State.Veiled (veil : Veil) (s t : State) : Prop where
  scopes : s.scopes.Veiled veil t.scopes
  heap : t.heap = s.heap
  loopCount : t.loops.size = s.loops.size
  loop : ∀ id : Nat, t.loops[id]?.map EventLoop.tagged = s.loops[id]?.map EventLoop.tagged
  queue : t.queue = s.queue
  emitted : t.emitted = s.emitted
  depth : t.depth = s.depth
  file : t.file = s.file
  loading : t.loading = s.loading
  globals : t.globals = s.globals
  nativeCache : t.nativeCache = s.nativeCache
  moduleCache : t.moduleCache = s.moduleCache
  stamps : t.stamps = s.stamps
  programs : t.programs = s.programs
  held : s.All (Value.Avoids veil.names)

/-- What holds of all values holds of those that a state keeps. -/
theorem State.all_of_forall {P : Value → Prop} (all : ∀ v, P v) (s : State) : s.All P :=
  ⟨fun v _ => all v, ⟨fun _ slot _ => all slot.read, fun _ entry _ => all entry.2⟩,
    fun _ _ entry _ => all entry.2, fun entry _ => all entry.2, fun entry _ => all entry.2⟩

/-- A state beside itself. -/
theorem State.veiled_self {s : State} {names : List Text} {home low : Nat}
    (scopes : s.scopes.Veiled ⟨names, home, low, 0⟩ s.scopes)
    (held : s.All (Value.Avoids names)) : s.Veiled ⟨names, home, low, 0⟩ s :=
  ⟨scopes, rfl, rfl, fun _ => rfl, rfl, rfl, rfl, rfl, rfl, rfl, rfl, rfl, rfl, rfl, held⟩

namespace State.Veiled

variable {veil : Veil} {s t : State} (states : s.Veiled veil t)
include states

theorem withHeap {heap : Heap} (held : heap.All (Value.Avoids veil.names)) :
    { s with heap := heap }.Veiled veil { t with heap := heap } :=
  { states with heap := rfl, held := states.held.withHeap held }

theorem withScopes {scopes scopes' : ScopeTree} (veiled : scopes.Veiled veil scopes')
    (held : scopes.All (Value.Avoids veil.names)) :
    { s with scopes := scopes }.Veiled veil { t with scopes := scopes' } :=
  { states with scopes := veiled, held := states.held.withScopes held }

/-- The loops after a change of one of them. -/
theorem modifyLoop (loop : Nat) {change : EventLoop → EventLoop}
    (step : ∀ a b : EventLoop, b.tagged = a.tagged → (change b).tagged = (change a).tagged)
    (held : ∀ l ∈ s.loops, ∀ entry ∈ (change l).handlers, entry.2.Avoids veil.names) :
    { s with loops := s.loops.modify loop change }.Veiled veil
      { t with loops := t.loops.modify loop change } := by
  have handlers := forall_handlers s.loops loop change states.held.handlers held
  refine { states with loopCount := ?_, loop := fun id => ?_, held := ?_ }
  · simpa using states.loopCount
  · have same := states.loop id
    simp only [Array.getElem?_modify]
    split
    · cases here : s.loops[id]? with
      | none =>
          rw [here] at same
          rw [Option.map_eq_none_iff.mp same]
      | some a =>
          rw [here] at same
          obtain ⟨b, there, tagged⟩ := Option.map_eq_some_iff.mp same
          rw [there]
          exact congrArg some (step a b tagged)
    · exact same
  · exact ⟨states.held.cells, states.held.heap, handlers, states.held.natives, states.held.modules⟩

theorem setRunning (loop : Nat) (running : Bool) :
    (Eval.setRunning loop running s).Veiled veil (Eval.setRunning loop running t) := by
  apply states.modifyLoop loop
  · intro a b tagged
    exact congrArg (fun l => { l with running := running }) tagged
  · exact states.held.handlers

theorem pushLoop :
    { s with loops := s.loops.push ⟨[], false⟩ }.Veiled veil
      { t with loops := t.loops.push ⟨[], false⟩ } := by
  refine { states with loopCount := ?_, loop := fun id => ?_, held := ?_ }
  · simp only [Array.size_push, states.loopCount]
  · simp only [Array.getElem?_push, states.loopCount]
    split
    · rfl
    · exact states.loop id
  · refine ⟨states.held.cells, states.held.heap, ?_, states.held.natives, states.held.modules⟩
    intro l member entry inside
    rcases Array.mem_push.mp member with old | new
    · exact states.held.handlers l old entry inside
    · rw [new] at inside
      cases inside

end State.Veiled

namespace Eval

variable {α β : Type} {veil : Veil}

/-- How a step ends from two such states. -/
inductive Overlooked (veil : Veil) (good : α → Prop) :
    EStateM.Result Stop State α → EStateM.Result Stop State α → Prop
  | ok {a : α} {s t : State} (result : good a) (states : s.Veiled veil t) :
      Overlooked veil good (.ok a s) (.ok a t)
  | error {e : Stop} {s t : State} (states : s.Veiled veil t) :
      Overlooked veil good (.error e s) (.error e t)

/-- A step that overlooks hidden variables; what is good holds of its results. -/
def Overlooks (veil : Veil) (good : α → Prop) (x : Eval α) : Prop :=
  ∀ s t, State.Veiled veil s t → Overlooked veil good (x s) (x t)

section

variable {good : α → Prop} {fine : β → Prop} {x : Eval α}

theorem overlooks_pure {a : α} (result : good a) : Overlooks veil good (pure a) :=
  fun _ _ states => .ok result states

theorem overlooks_failWith (failure : Failure) : Overlooks veil good (failWith failure) :=
  fun _ _ states => .error states

theorem overlooks_outOfFuel : Overlooks veil good outOfFuel :=
  fun _ _ states => .error states

theorem overlooks_bind {f : α → Eval β} (first : Overlooks veil good x)
    (rest : ∀ a, good a → Overlooks veil fine (f a)) : Overlooks veil fine (x >>= f) := by
  intro s t states
  have ends := first s t states
  rw [bind_run, bind_run]
  generalize x s = r at ends ⊢
  generalize x t = r' at ends ⊢
  cases ends with
  | ok result states => exact rest _ result _ _ states
  | error states => exact .error states

/-- After a step of which any result will do. -/
theorem overlooks_then {f : α → Eval β} (first : Overlooks veil good x)
    (rest : ∀ a, Overlooks veil fine (f a)) : Overlooks veil fine (x >>= f) :=
  overlooks_bind first (fun a _ => rest a)

/-- What a step takes from the state is the same in both. -/
theorem overlooks_get {f : State → Eval β}
    (rest : ∀ s t, State.Veiled veil s t → f t = f s ∧ Overlooks veil fine (f s)) :
    Overlooks veil fine (get >>= f) := by
  intro s t states
  obtain ⟨same, overlooks⟩ := rest s t states
  rw [get_bind_run, get_bind_run, same]
  exact overlooks s t states

theorem overlooks_modify {change : State → State}
    (step : ∀ s t, State.Veiled veil s t → (change s).Veiled veil (change t)) :
    Overlooks veil (fun _ => True) (modify change : Eval PUnit) :=
  fun s t states => .ok trivial (step s t states)

theorem overlooks_modifyGet {change : State → α × State}
    (step : ∀ s t, State.Veiled veil s t → (change t).1 = (change s).1 ∧ good (change s).1 ∧
      (change s).2.Veiled veil (change t).2) :
    Overlooks veil good (modifyGet change : Eval α) := by
  intro s t states
  obtain ⟨same, result, after⟩ := step s t states
  show Overlooked veil good (.ok (change s).1 (change s).2) (.ok (change t).1 (change t).2)
  rw [same]
  exact .ok result after

theorem overlooks_finally {undo undo' : State → State} {s t : State}
    (ends : Overlooked veil good (x s) (x t))
    (back : ∀ s t, State.Veiled veil s t → (undo s).Veiled veil (undo' t)) :
    Overlooked veil good (finally_ x undo s) (finally_ x undo' t) := by
  simp only [finally_]
  generalize x s = r at ends ⊢
  generalize x t = r' at ends ⊢
  cases ends with
  | ok result states => exact .ok result (back _ _ states)
  | error states => exact .error (back _ _ states)

/-! Failures. -/

theorem overlooks_fault (cause : Fault) : Overlooks veil good (fault cause) :=
  overlooks_failWith _

theorem overlooks_typeFault (cause : TypeFault) : Overlooks veil good (typeFault cause) :=
  overlooks_failWith _

theorem overlooks_runtimeFault (cause : RuntimeFault) :
    Overlooks veil good (runtimeFault cause) :=
  overlooks_failWith _

theorem overlooks_present {result : Option α} (present : ∀ a ∈ result, good a) :
    Overlooks veil good (Eval.present result) := by
  cases result with
  | none => exact overlooks_failWith _
  | some a => exact overlooks_pure (present a rfl)

/-! Control. -/

theorem overlooks_inFile (file : Option Text) (overlooks : Overlooks veil good x) :
    Overlooks veil good (inFile file x) := by
  intro s t states
  have entered : { s with file := file }.Veiled veil { t with file := file } :=
    { states with file := rfl, held := states.held.of_same rfl rfl rfl rfl rfl }
  exact overlooks_finally (overlooks _ _ entered) (fun _ _ after =>
    { after with file := states.file, held := after.held.of_same rfl rfl rfl rfl rfl })

theorem overlooks_inCall (overlooks : Overlooks veil good x) :
    Overlooks veil good (inCall x) := by
  intro s t states
  have entered : { s with depth := s.depth + 1 }.Veiled veil { t with depth := t.depth + 1 } :=
    { states with
      depth := congrArg (· + 1) states.depth
      held := states.held.of_same rfl rfl rfl rfl rfl }
  exact overlooks_finally (overlooks _ _ entered) (fun _ _ after =>
    { after with
      depth := congrArg (· - 1) after.depth
      held := after.held.of_same rfl rfl rfl rfl rfl })

theorem overlooks_whileLoading (path : Text) (overlooks : Overlooks veil good x) :
    Overlooks veil good (whileLoading path x) := by
  intro s t states
  have entered : { s with loading := path :: s.loading }.Veiled veil
      { t with loading := path :: t.loading } :=
    { states with
      loading := congrArg (path :: ·) states.loading
      held := states.held.of_same rfl rfl rfl rfl rfl }
  exact overlooks_finally (overlooks _ _ entered) (fun _ _ after =>
    { after with
      loading := congrArg (List.erase · path) after.loading
      held := after.held.of_same rfl rfl rfl rfl rfl })

theorem overlooks_whileRunning (loop : Nat) (overlooks : Overlooks veil good x) :
    Overlooks veil good (whileRunning loop x) :=
  fun _ _ states => overlooks_finally (overlooks _ _ (states.setRunning loop true))
    (fun _ _ after => after.setRunning loop false)

theorem overlooks_during (statement : Stmt) (overlooks : Overlooks veil good x) :
    Overlooks veil good (during statement x) := by
  intro s t states
  have ends := overlooks _ _ (show State.Veiled veil
    { s with underway := ⟨statement, s.file⟩ :: s.underway }
    { t with underway := ⟨statement, t.file⟩ :: t.underway } from
      { states with held := states.held.of_same rfl rfl rfl rfl rfl })
  simp only [during]
  generalize x _ = r at ends ⊢
  generalize x _ = r' at ends ⊢
  cases ends with
  | ok result after =>
      exact .ok result { after with held := after.held.of_same rfl rfl rfl rfl rfl }
  | error after => exact .error after

theorem overlooks_located (loc : Location) (overlooks : Overlooks veil good x) :
    Overlooks veil good (located loc x) := by
  intro s t states
  have ends := overlooks s t states
  simp only [located]
  generalize x s = r at ends ⊢
  generalize x t = r' at ends ⊢
  cases ends with
  | ok result after => exact .ok result after
  | @error e s' t' after =>
      cases e with
      | outOfFuel => exact .error after
      | failed failure =>
          dsimp only
          rw [after.file]
          exact .error after

end

/-! Questions about values. -/

theorem overlooks_typeOf (v : Value) : Overlooks veil (fun _ => True) (typeOf v) :=
  overlooks_present (fun _ _ => trivial)

/-- A value is refused for its type. -/
theorem overlooks_refused {good : α → Prop} (v : Value) (cause : TypeName → TypeFault) :
    Overlooks veil good (do typeFault (cause (← typeOf v))) :=
  overlooks_then (overlooks_typeOf v) (fun _ => overlooks_typeFault _)

/-- An answer that depends on the heap alone. -/
theorem overlooks_answer {good : α → Prop} (answer : Heap → Option α)
    (fine : ∀ heap, ∀ a ∈ answer heap, good a) :
    Overlooks veil good (do present (answer (← get).heap)) := by
  apply overlooks_get
  intro s t states
  rw [states.heap]
  exact ⟨rfl, overlooks_present (fine s.heap)⟩

theorem overlooks_truthy (v : Value) : Overlooks veil (fun _ => True) (truthy v) :=
  overlooks_answer v.truthy? (fun _ _ _ => trivial)

theorem overlooks_textOf (v : Value) : Overlooks veil (fun _ => True) (textOf v) :=
  overlooks_answer v.text? (fun _ _ _ => trivial)

theorem overlooks_equal (a b : Value) : Overlooks veil (fun _ => True) (equal a b) :=
  overlooks_answer (Value.equal? · a b) (fun _ _ _ => trivial)

theorem overlooks_expectNumber (v : Value) (operation : Text) :
    Overlooks veil (fun _ => True) (expectNumber v operation) := by
  cases v with
  | number x stamp => exact overlooks_pure trivial
  | _ => exact overlooks_refused _ _

theorem overlooks_expectString (v : Value) (operation : Text) :
    Overlooks veil (fun _ => True) (expectString v operation) := by
  cases v with
  | string t => exact overlooks_pure trivial
  | _ => exact overlooks_refused _ _

/-! Values made. -/

theorem overlooks_stamp : Overlooks veil (fun _ => True) stamp :=
  overlooks_modifyGet fun _ _ states =>
    ⟨states.stamps, trivial, { states with
      stamps := congrArg (· + 1) states.stamps
      held := states.held.of_same rfl rfl rfl rfl rfl }⟩

theorem overlooks_number (x : Float) : Overlooks veil (Value.Avoids veil.names) (number x) := by
  unfold number
  split
  · exact overlooks_then overlooks_stamp (fun _ => overlooks_pure trivial)
  · exact overlooks_pure trivial

/-- A change of the heap that depends on the heap alone. -/
theorem overlooks_make {good : α → Prop} (make : Heap → α × Heap)
    (held : ∀ heap : Heap, heap.All (Value.Avoids veil.names) →
      good (make heap).1 ∧ (make heap).2.All (Value.Avoids veil.names)) :
    Overlooks veil good (modifyGet fun s =>
      let ⟨a, heap⟩ := make s.heap
      (a, { s with heap := heap })) :=
  overlooks_modifyGet fun s t states => by
    obtain ⟨result, after⟩ := held s.heap states.held.heap
    dsimp only
    rw [states.heap]
    exact ⟨rfl, result, states.withHeap after⟩

theorem overlooks_newArray {elements : Array Slot}
    (held : ∀ slot ∈ elements, slot.read.Avoids veil.names) :
    Overlooks veil (Value.Avoids veil.names) (newArray elements) :=
  overlooks_make (Heap.newArray · elements) (fun _ all => ⟨trivial, all.newArray elements held⟩)

theorem overlooks_newHash {entries : Table Value}
    (held : ∀ entry ∈ entries, entry.2.Avoids veil.names) :
    Overlooks veil (Value.Avoids veil.names) (newHash entries) :=
  overlooks_make (Heap.newHash · entries) (fun _ all => ⟨trivial, all.newHash entries held⟩)

theorem overlooks_ofJson (data : Json) :
    Overlooks veil (Value.Avoids veil.names) (ofJson data) :=
  overlooks_modifyGet fun s t states => by
    obtain ⟨after, result⟩ :=
      Value.all_ofHost Value.avoids_of_data data s.heap s.stamps states.held.heap
    dsimp only
    rw [states.heap, states.stamps]
    have made := states.withHeap after
    exact ⟨rfl, result, { made with
      stamps := rfl
      held := made.held.of_same rfl rfl rfl rfl rfl }⟩

/-! The heap. -/

/-- What is read of the heap alone. -/
theorem overlooks_look {good : α → Prop} (look : Heap → α)
    (fine : ∀ heap : Heap, heap.All (Value.Avoids veil.names) → good (look heap)) :
    Overlooks veil good (do pure (look (← get).heap)) := by
  apply overlooks_get
  intro s t states
  rw [states.heap]
  exact ⟨rfl, overlooks_pure (fine s.heap states.held.heap)⟩

theorem overlooks_array (ref : Nat) :
    Overlooks veil (fun slots => ∀ slot ∈ slots, slot.read.Avoids veil.names) (array ref) :=
  overlooks_look (Heap.array · ref) (fun _ all => all.slots ref)

theorem overlooks_hash (ref : Nat) :
    Overlooks veil (fun table => ∀ entry ∈ table, entry.2.Avoids veil.names) (hash ref) :=
  overlooks_look (Heap.hash · ref) (fun _ all => all.entries ref)

theorem avoids_of_stored {hidden : List Text} {heap : Heap} (all : heap.All (Value.Avoids hidden))
    {ref : Nat} {key : Text} {v : Value} (found : heap.entry? ref key = some v) :
    v.Avoids hidden := by
  obtain ⟨w, stored, present⟩ := Option.bind_eq_some_iff.mp found
  have avoids := Table.holds_of_find? key w _ (all.entries ref) stored
  cases w with
  | missing => cases present
  | _ =>
      cases present
      exact avoids

theorem overlooks_entry (ref : Nat) (key : Text) :
    Overlooks veil (Value.Avoids veil.names) (entry ref key) := by
  apply overlooks_look (fun heap => (heap.entry? ref key).getD .null)
  intro heap all
  cases found : heap.entry? ref key with
  | none => trivial
  | some v => exact avoids_of_stored all found

theorem overlooks_modifyArray (ref : Nat) {f : Array Slot → Array Slot}
    (step : ∀ slots : Array Slot, (∀ slot ∈ slots, slot.read.Avoids veil.names) →
      ∀ slot ∈ f slots, slot.read.Avoids veil.names) :
    Overlooks veil (fun _ => True) (modifyArray ref f) :=
  overlooks_modify fun s t states => by
    have after := states.held.heap.modifyArray ref f (step _ (states.held.heap.slots ref))
    rw [states.heap]
    exact states.withHeap after

theorem overlooks_modifyHash (ref : Nat) {f : Table Value → Table Value}
    (step : ∀ table : Table Value, (∀ entry ∈ table, entry.2.Avoids veil.names) →
      ∀ entry ∈ f table, entry.2.Avoids veil.names) :
    Overlooks veil (fun _ => True) (modifyHash ref f) :=
  overlooks_modify fun s t states => by
    have after := states.held.heap.modifyHash ref f (step _ (states.held.heap.entries ref))
    rw [states.heap]
    exact states.withHeap after

/-! Scopes. -/

theorem overlooks_newScope (parent : Nat) (kind : ScopeKind) :
    Overlooks veil (fun _ => True) (newScope parent kind) :=
  overlooks_modifyGet fun _ _ states =>
    ⟨(states.scopes.child parent kind).1, trivial,
      states.withScopes (states.scopes.child parent kind).2 states.held.cells⟩

theorem overlooks_mark (m : Mark) : Overlooks veil (fun _ => True) (mark m) :=
  overlooks_modify fun _ _ states =>
    { states with held := states.held.of_same rfl rfl rfl rfl rfl }

theorem overlooks_note (b : Binding) : Overlooks veil (fun _ => True) (note b) :=
  overlooks_modify fun _ _ states =>
    { states with held := states.held.of_same rfl rfl rfl rfl rfl }

theorem overlooks_emit (line : Text) (key : Option Text) :
    Overlooks veil (fun _ => True) (emit line key) :=
  overlooks_modify fun _ _ states =>
    { states with
      emitted := congrArg (⟨line, key⟩ :: ·) states.emitted
      held := states.held.of_same rfl rfl rfl rfl rfl }

variable (scope : Nat) {name : Text} (spoken : name ∉ veil.names)
include spoken

theorem overlooks_lookup : Overlooks veil (Value.Avoids veil.names) (lookup scope name) := by
  apply overlooks_get
  intro s t states
  rw [states.scopes.get?_eq spoken]
  refine ⟨rfl, ?_⟩
  cases found : s.scopes.get? scope name with
  | none => exact overlooks_fault _
  | some v => exact overlooks_pure (states.held.cells.get? trivial scope name v found)

theorem overlooks_define {v : Value} (avoids : v.Avoids veil.names) :
    Overlooks veil (fun _ => True) (define scope name v) :=
  overlooks_modify fun _ _ states =>
    states.withScopes (states.scopes.define spoken scope v)
      (states.held.cells.define scope name v avoids)

theorem overlooks_assign {v : Value} (avoids : v.Avoids veil.names) :
    Overlooks veil (fun _ => True) (assign scope name v) :=
  overlooks_modify fun _ _ states =>
    states.withScopes (states.scopes.assign spoken scope v)
      (states.held.cells.assign scope name v avoids)

theorem overlooks_rebind (b : Binding) {v : Value} (avoids : v.Avoids veil.names) :
    Overlooks veil (fun _ => True) (rebind scope name v b) :=
  overlooks_then (overlooks_define scope spoken avoids) (fun _ => overlooks_note b)

theorem overlooks_shareOuter : Overlooks veil (fun _ => True) (shareOuter scope name) := by
  rw [shareOuter_eq]
  apply overlooks_then (overlooks_mark _)
  intro _
  apply overlooks_get
  intro s t states
  rw [states.scopes.hidesOuter_eq spoken]
  refine ⟨rfl, ?_⟩
  split
  · exact overlooks_runtimeFault _
  · exact overlooks_modify fun _ _ states =>
      { states with
        scopes := states.scopes.share spoken scope
        held := (states.held.withScopes (states.held.cells.share scope name trivial)).of_same
          rfl rfl rfl rfl rfl }

end Eval

end Loom
