import Loom.Proofs.Growth
import Loom.Proofs.Held

/-!
Nothing dangles. Arrays and hashes are known by their place on the heap, and in a closed state
every place that is held somewhere is one of its heap. Steps from closed states end in closed
states, and what they give is on the heap by then; as a heap only grows, it stays there.
-/

namespace Loom

namespace Heap

/-- A later heap has all the places of an earlier one. -/
structure Spans (heap later : Heap) : Prop where
  arrays : heap.arrays.size ≤ later.arrays.size
  hashes : heap.hashes.size ≤ later.hashes.size

theorem spans_refl (heap : Heap) : heap.Spans heap := ⟨Nat.le_refl _, Nat.le_refl _⟩

theorem Spans.trans {heap middle later : Heap} (first : heap.Spans middle)
    (second : middle.Spans later) : heap.Spans later :=
  ⟨Nat.le_trans first.arrays second.arrays, Nat.le_trans first.hashes second.hashes⟩

theorem Grows.spans {heap later : Heap} (grows : heap.Grows later) : heap.Spans later :=
  ⟨grows.arrays, grows.hashes⟩

theorem spans_modifyArray (heap : Heap) (ref : Nat) (f : Array Slot → Array Slot) :
    heap.Spans (heap.modifyArray ref f) :=
  ⟨by simp [modifyArray], Nat.le_refl _⟩

theorem spans_modifyHash (heap : Heap) (ref : Nat) (f : Table Value → Table Value) :
    heap.Spans (heap.modifyHash ref f) :=
  ⟨Nat.le_refl _, by simp [modifyHash]⟩

end Heap

/-- A value that is no array or hash beyond those of a heap. -/
def Value.Within (heap : Heap) : Value → Prop
  | .array ref => ref < heap.arrays.size
  | .hash ref => ref < heap.hashes.size
  | _ => True

namespace Value

variable {heap later : Heap} {v : Value}

theorem Within.after (within : v.Within heap) (spans : heap.Spans later) : v.Within later := by
  cases v with
  | array ref => exact Nat.lt_of_lt_of_le within spans.arrays
  | hash ref => exact Nat.lt_of_lt_of_le within spans.hashes
  | _ => trivial

theorem Within.asMethod (within : v.Within heap) : v.asMethod.Within heap := by
  cases v with
  | array ref | hash ref => exact within
  | _ => trivial

theorem Within.present (within : v.Within heap) : ∀ w ∈ v.present?, w.Within heap := by
  intro w found
  cases v with
  | missing => cases found
  | _ =>
      cases found
      exact within

/-! Plain data brings in nothing that is not there. -/

mutual

theorem within_ofHost : ∀ (data : Json) (heap : Heap) (n : Nat), heap.All (Within heap) →
    (ofHost data.host heap n).2.All (Within (ofHost data.host heap n).2) ∧
      (ofHost data.host heap n).1.Within (ofHost data.host heap n).2
  | .null, _, _, held => ⟨held, trivial⟩
  | .bool _, _, _, held => ⟨held, trivial⟩
  | .num _, _, _, held => ⟨held, trivial⟩
  | .str _, _, _, held => ⟨held, trivial⟩
  | .arr items, heap, n, held => by
      obtain ⟨held, slots⟩ := within_allOfHost items heap n held
      generalize made : allOfHost (Json.hostItems items) heap n = contents at held slots
      have spans := (Heap.grows_newArray contents.2 contents.1.toArray).spans
      simp only [Json.host, ofHost, made]
      refine ⟨(held.imp fun _ within => within.after spans).newArray _ fun slot member => ?_, ?_⟩
      · exact (slots slot (List.mem_toArray.mp member)).after spans
      · show contents.2.arrays.size < _
        simp [Heap.newArray]
  | .obj fields, heap, n, held => by
      obtain ⟨held, entries⟩ := within_fieldsOfHost fields heap n held
      generalize made : fieldsOfHost (Json.hostFields fields) heap n = contents at held entries
      have spans := (Heap.grows_newHash contents.2 contents.1).spans
      simp only [Json.host, ofHost, made]
      refine ⟨(held.imp fun _ within => within.after spans).newHash _ fun entry member => ?_, ?_⟩
      · exact (entries entry member).after spans
      · show contents.2.hashes.size < _
        simp [Heap.newHash]

theorem within_allOfHost : ∀ (items : List Json) (heap : Heap) (n : Nat),
    heap.All (Within heap) →
    (allOfHost (Json.hostItems items) heap n).2.All
        (Within (allOfHost (Json.hostItems items) heap n).2) ∧
      ∀ slot ∈ (allOfHost (Json.hostItems items) heap n).1,
        slot.read.Within (allOfHost (Json.hostItems items) heap n).2
  | [], _, _, held => ⟨held, by simp [Json.hostItems, allOfHost]⟩
  | item :: rest, heap, n, held => by
      obtain ⟨held, first⟩ := within_ofHost item heap n held
      obtain ⟨held, others⟩ := within_allOfHost rest _ (n + item.host.nans) held
      have later :=
        first.after (Heap.grows_allOfHost (Json.hostItems rest) _ (n + item.host.nans)).spans
      exact ⟨held, List.forall_mem_cons.mpr ⟨later, others⟩⟩

theorem within_fieldsOfHost : ∀ (fields : List (Text × Json)) (heap : Heap) (n : Nat),
    heap.All (Within heap) →
    (fieldsOfHost (Json.hostFields fields) heap n).2.All
        (Within (fieldsOfHost (Json.hostFields fields) heap n).2) ∧
      ∀ entry ∈ (fieldsOfHost (Json.hostFields fields) heap n).1,
        entry.2.Within (fieldsOfHost (Json.hostFields fields) heap n).2
  | [], _, _, held => ⟨held, by simp [Json.hostFields, fieldsOfHost]⟩
  | (_, item) :: rest, heap, n, held => by
      obtain ⟨held, first⟩ := within_ofHost item heap n held
      obtain ⟨held, others⟩ := within_fieldsOfHost rest _ (n + item.host.nans) held
      have later :=
        first.after (Heap.grows_fieldsOfHost (Json.hostFields rest) _ (n + item.host.nans)).spans
      exact ⟨held, List.forall_mem_cons.mpr ⟨later, others⟩⟩

end

end Value

/-- Every array and hash that a state holds somewhere is there. -/
def State.Closed (s : State) : Prop := s.All (Value.Within s.heap)

namespace State

variable {s t : State}

/-- What a closed state holds is on the heap later as well. -/
theorem Closed.after (closed : s.Closed) {heap : Heap} (spans : s.heap.Spans heap) :
    s.All (Value.Within heap) :=
  closed.imp fun _ within => within.after spans

theorem Closed.of_same (closed : s.Closed) (scopes : t.scopes = s.scopes) (heap : t.heap = s.heap)
    (loops : t.loops = s.loops) (natives : t.nativeCache = s.nativeCache)
    (modules : t.moduleCache = s.moduleCache) : t.Closed := by
  have held : t.All (Value.Within s.heap) :=
    State.All.of_same closed scopes heap loops natives modules
  rwa [← heap] at held

/-- What is found in a hash is on the heap. -/
theorem Closed.entry? (closed : s.Closed) {ref : Nat} {key : Text} :
    ∀ v ∈ s.heap.entry? ref key, v.Within s.heap := by
  intro v found
  obtain ⟨w, there, present⟩ := Option.bind_eq_some_iff.mp found
  exact (Table.holds_of_find? key w _ (closed.heap.entries ref) there).present v present

end State

namespace Eval

variable {α β : Type}

/-- How a step from a state may end: nothing dangles, no place is lost, and what the step gives
is good on the heap that it leaves. -/
def Kept (good : Heap → α → Prop) (s : State) : EStateM.Result Stop State α → Prop
  | .ok a t => s.heap.Spans t.heap ∧ t.Closed ∧ good t.heap a
  | .error _ t => s.heap.Spans t.heap ∧ t.Closed

/-- A step that ends so from all closed states that have the places of a heap. -/
def Stays (good : Heap → α → Prop) (heap : Heap) (x : Eval α) : Prop :=
  ∀ s, heap.Spans s.heap → s.Closed → Kept good s (x s)

/-- Whatever a step gives is good. -/
abbrev Any (_ : Heap) (_ : α) : Prop := True

/-- Values that are all on a heap. -/
abbrev AllWithin (heap : Heap) (values : List Value) : Prop := ∀ v ∈ values, v.Within heap

section

variable {good : Heap → α → Prop} {better : Heap → β → Prop} {heap : Heap} {x : Eval α}

theorem kept_after {s t : State} {result : EStateM.Result Stop State α}
    (spans : s.heap.Spans t.heap) (kept : Kept good t result) : Kept good s result := by
  cases result with
  | ok a u => exact ⟨spans.trans kept.1, kept.2⟩
  | error e u => exact ⟨spans.trans kept.1, kept.2⟩

theorem stays_bind {f : α → Eval β} (first : Stays good heap x)
    (rest : ∀ a later, heap.Spans later → good later a → Stays better later (f a)) :
    Stays better heap (x >>= f) := by
  intro s spans closed
  have kept := first s spans closed
  cases ran : x s with
  | ok a t =>
      rw [bind_ok ran]
      rw [ran] at kept
      obtain ⟨grown, closed, result⟩ := kept
      -- the rest starts from the heap that the first step has left
      exact kept_after grown
        (rest a t.heap (spans.trans grown) result t (Heap.spans_refl _) closed)
  | error e t =>
      rw [bind_error ran]
      rw [ran] at kept
      exact kept

/-- After a step of which it does not matter what it gives. -/
theorem stays_then {f : α → Eval β} (first : Stays good heap x)
    (rest : ∀ a later, heap.Spans later → Stays better later (f a)) :
    Stays better heap (x >>= f) :=
  stays_bind first fun a later spans _ => rest a later spans

theorem stays_pure {a : α} (result : ∀ later, heap.Spans later → good later a) :
    Stays good heap (pure a) :=
  fun _ spans closed => ⟨Heap.spans_refl _, closed, result _ spans⟩

/-- A value that was on a heap still is. -/
theorem stays_value {v : Value} (within : v.Within heap) : Stays Value.Within heap (pure v) :=
  stays_pure fun _ spans => within.after spans

theorem stays_throw (e : Stop) : Stays good heap (throw e) :=
  fun _ _ closed => ⟨Heap.spans_refl _, closed⟩

theorem stays_fault (cause : Fault) : Stays good heap (fault cause) := stays_throw _

theorem stays_get {f : State → Eval β}
    (rest : ∀ s : State, heap.Spans s.heap → s.Closed → Stays better s.heap (f s)) :
    Stays better heap (get >>= f) :=
  fun s spans closed => rest s spans closed s (Heap.spans_refl _) closed

theorem stays_modify {change : State → State}
    (step : ∀ s : State, heap.Spans s.heap → s.Closed →
      s.heap.Spans (change s).heap ∧ (change s).Closed) :
    Stays Any heap (modify change) :=
  fun s spans closed => ⟨(step s spans closed).1, (step s spans closed).2, trivial⟩

/-- A change of what holds no values. -/
theorem stays_aside {change : State → State} (scopes : ∀ s, (change s).scopes = s.scopes)
    (same : ∀ s, (change s).heap = s.heap) (loops : ∀ s, (change s).loops = s.loops)
    (natives : ∀ s, (change s).nativeCache = s.nativeCache)
    (modules : ∀ s, (change s).moduleCache = s.moduleCache) :
    Stays Any heap (modify change) :=
  stays_modify fun s _ closed =>
    ⟨(same s).symm ▸ Heap.spans_refl _,
      closed.of_same (scopes s) (same s) (loops s) (natives s) (modules s)⟩

/-- A step that changes nothing. -/
theorem stays_any (still : Still x) : Stays Any heap x := by
  intro s _ closed
  rcases still s with ⟨a, ran⟩ | ⟨failure, ran⟩
  · rw [ran]
    exact ⟨Heap.spans_refl _, closed, trivial⟩
  · rw [ran]
    exact ⟨Heap.spans_refl _, closed⟩

/-- After a step that changes nothing. -/
theorem stays_after {f : α → Eval β} (still : Still x)
    (rest : ∀ a later, heap.Spans later → Stays better later (f a)) :
    Stays better heap (x >>= f) :=
  stays_then (stays_any still) rest

theorem stays_typeFault (v : Value) (cause : TypeName → TypeFault) :
    Stays good heap (do typeFault (cause (← typeOf v))) :=
  stays_after (still_typeOf v) fun _ _ _ => stays_fault _

/-! Control. -/

theorem kept_finally {s begun : State} {undo : State → State} (kept : Kept good begun (x begun))
    (same : begun.heap = s.heap) (heap : ∀ t, (undo t).heap = t.heap)
    (closed : ∀ t, t.Closed → (undo t).Closed) : Kept good s (finally_ x undo begun) := by
  cases ran : x begun with
  | ok a t =>
      rw [finally_ok ran]
      rw [ran] at kept
      obtain ⟨grown, inside, result⟩ := kept
      refine ⟨?_, closed t inside, ?_⟩
      · rw [heap, ← same]
        exact grown
      · rw [heap]
        exact result
  | error e t =>
      rw [finally_error ran]
      rw [ran] at kept
      refine ⟨?_, closed t kept.2⟩
      rw [heap, ← same]
      exact kept.1

variable (stays : Stays good heap x)
include stays

theorem stays_inFile (file : Option Text) : Stays good heap (inFile file x) := by
  intro s spans closed
  exact kept_finally (stays _ spans (closed.of_same rfl rfl rfl rfl rfl)) rfl (fun _ => rfl)
    fun _ closed => closed.of_same rfl rfl rfl rfl rfl

theorem stays_inCall : Stays good heap (inCall x) := by
  intro s spans closed
  exact kept_finally (stays _ spans (closed.of_same rfl rfl rfl rfl rfl)) rfl (fun _ => rfl)
    fun _ closed => closed.of_same rfl rfl rfl rfl rfl

theorem stays_whileLoading (path : Text) : Stays good heap (whileLoading path x) := by
  intro s spans closed
  exact kept_finally (stays _ spans (closed.of_same rfl rfl rfl rfl rfl)) rfl (fun _ => rfl)
    fun _ closed => closed.of_same rfl rfl rfl rfl rfl

theorem stays_whileRunning (loop : Nat) : Stays good heap (whileRunning loop x) := by
  intro s spans closed
  exact kept_finally (stays _ spans (State.All.setRunning closed loop true)) rfl (fun _ => rfl)
    fun _ closed => State.All.setRunning closed loop false

/-- What carries a statement out and places its failures. -/
theorem stays_statement (statement : Stmt) :
    Stays good heap (located statement.loc (during statement x)) := by
  intro s spans closed
  have kept := stays { s with underway := ⟨statement, s.file⟩ :: s.underway } spans
    (closed.of_same rfl rfl rfl rfl rfl)
  unfold located during
  cases ran : x { s with underway := ⟨statement, s.file⟩ :: s.underway } with
  | ok a t =>
      rw [ran] at kept
      exact ⟨kept.1, kept.2.1.of_same rfl rfl rfl rfl rfl, kept.2.2⟩
  | error e t =>
      rw [ran] at kept
      cases e <;> exact kept

end

variable {heap : Heap}

/-! The heap. -/

theorem stays_newArray {elements : Array Slot} (fine : ∀ slot ∈ elements, slot.read.Within heap) :
    Stays Value.Within heap (newArray elements) := by
  intro s spans closed
  have grown := (s.heap.grows_newArray elements).spans
  have all := closed.after grown
  refine ⟨grown, all.withHeap (all.heap.newArray elements fun slot member => ?_), ?_⟩
  · exact (fine slot member).after (spans.trans grown)
  · show s.heap.arrays.size < (s.heap.newArray elements).2.arrays.size
    simp [Heap.newArray]

theorem stays_newHash {entries : Table Value} (fine : ∀ entry ∈ entries, entry.2.Within heap) :
    Stays Value.Within heap (newHash entries) := by
  intro s spans closed
  have grown := (s.heap.grows_newHash entries).spans
  have all := closed.after grown
  refine ⟨grown, all.withHeap (all.heap.newHash entries fun entry member => ?_), ?_⟩
  · exact (fine entry member).after (spans.trans grown)
  · show s.heap.hashes.size < (s.heap.newHash entries).2.hashes.size
    simp [Heap.newHash]

theorem stays_ofJson (data : Json) : Stays Value.Within heap (ofJson data) := by
  intro s _ closed
  have grown := (Heap.grows_ofHost data.host s.heap s.stamps).spans
  obtain ⟨all, inside⟩ := Value.within_ofHost data s.heap s.stamps closed.heap
  exact ⟨grown, ((closed.after grown).withHeap all).of_same rfl rfl rfl rfl rfl, inside⟩

theorem stays_modifyArray {ref : Nat} {f : Array Slot → Array Slot}
    (fine : ∀ s : State, heap.Spans s.heap → s.Closed →
      ∀ slot ∈ f (s.heap.array ref), slot.read.Within s.heap) :
    Stays Any heap (modifyArray ref f) := by
  refine stays_modify fun s spans closed => ?_
  have grown := s.heap.spans_modifyArray ref f
  have all := closed.after grown
  refine ⟨grown, all.withHeap (all.heap.modifyArray ref f fun slot member => ?_)⟩
  exact (fine s spans closed slot member).after grown

theorem stays_modifyHash {ref : Nat} {f : Table Value → Table Value}
    (fine : ∀ s : State, heap.Spans s.heap → s.Closed →
      ∀ entry ∈ f (s.heap.hash ref), entry.2.Within s.heap) :
    Stays Any heap (modifyHash ref f) := by
  refine stays_modify fun s spans closed => ?_
  have grown := s.heap.spans_modifyHash ref f
  have all := closed.after grown
  refine ⟨grown, all.withHeap (all.heap.modifyHash ref f fun entry member => ?_)⟩
  exact (fine s spans closed entry member).after grown

theorem stays_insert {ref : Nat} {key : Text} {v : Value} (within : v.Within heap) :
    Stays Any heap (modifyHash ref (Table.insert key v)) :=
  stays_modifyHash fun _ spans closed =>
    Table.forall_insert key v _ (closed.heap.entries ref) (within.after spans)

/-! Variables. -/

/-- A change of variables only. -/
theorem stays_scopes {change : State → State} {scopes : State → ScopeTree}
    (same : ∀ s, change s = { s with scopes := scopes s })
    (cells : ∀ s : State, heap.Spans s.heap → s.scopes.All (Value.Within s.heap) →
      (scopes s).All (Value.Within s.heap)) : Stays Any heap (modify change) := by
  refine stays_modify fun s spans closed => ?_
  rw [same]
  exact ⟨Heap.spans_refl _, State.All.withScopes closed (cells s spans closed.cells)⟩

theorem stays_define (scope : Nat) (name : Text) {v : Value} (within : v.Within heap) :
    Stays Any heap (define scope name v) :=
  stays_scopes (fun _ => rfl) fun _ spans cells => cells.define scope name v (within.after spans)

theorem stays_assign (scope : Nat) (name : Text) {v : Value} (within : v.Within heap) :
    Stays Any heap (assign scope name v) :=
  stays_scopes (fun _ => rfl) fun _ spans cells => cells.assign scope name v (within.after spans)

theorem stays_mark (m : Mark) : Stays Any heap (mark m) :=
  stays_aside (fun _ => rfl) (fun _ => rfl) (fun _ => rfl) (fun _ => rfl) (fun _ => rfl)

theorem stays_note (b : Binding) : Stays Any heap (note b) :=
  stays_aside (fun _ => rfl) (fun _ => rfl) (fun _ => rfl) (fun _ => rfl) (fun _ => rfl)

theorem stays_nothingUnderway : Stays Any heap nothingUnderway :=
  stays_aside (fun _ => rfl) (fun _ => rfl) (fun _ => rfl) (fun _ => rfl) (fun _ => rfl)

theorem stays_stamp : Stays Any heap stamp :=
  fun _ _ closed => ⟨Heap.spans_refl _, closed.of_same rfl rfl rfl rfl rfl, trivial⟩

theorem stays_emit (line : Text) (key : Option Text) : Stays Any heap (emit line key) :=
  stays_aside (fun _ => rfl) (fun _ => rfl) (fun _ => rfl) (fun _ => rfl) (fun _ => rfl)

theorem stays_rebind (scope : Nat) (name : Text) {v : Value} (b : Binding)
    (within : v.Within heap) : Stays Any heap (rebind scope name v b) :=
  stays_then (stays_define scope name within) fun _ _ _ => stays_note b

theorem stays_newScope (parent : Nat) (kind : ScopeKind) :
    Stays Any heap (newScope parent kind) :=
  fun _ _ closed => ⟨Heap.spans_refl _, State.All.withScopes closed closed.cells, trivial⟩

theorem stays_shareOuter (scope : Nat) (name : Text) : Stays Any heap (shareOuter scope name) := by
  rw [shareOuter_eq]
  refine stays_then (stays_mark _) fun _ _ _ => stays_get fun s _ _ => ?_
  split
  · exact stays_fault _
  · refine stays_modify fun s _ closed => ⟨Heap.spans_refl _, ?_⟩
    have shared := State.All.withScopes closed (closed.cells.share scope name trivial)
    exact shared.of_same rfl rfl rfl rfl rfl

end Eval

end Loom
