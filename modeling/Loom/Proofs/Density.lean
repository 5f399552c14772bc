import Loom.Proofs.Watching

/-!
Arrays are dense, and no operation meets a value that is missing, up to the
first index assignment whose position has left its array. The position of an
index assignment has to lie in the array when it is worked out; what is stored is
worked out after that, and may take elements away. An assignment that still finds
its position replaces an element or fails as a program does; one that does not
writes behind the end of the array, or reads there. It leaves a mark, and nothing
but such a mark comes before a hole.
-/

namespace Loom

open Eval

/-! Heaps without holes. -/

/-- Whether each slot of each array and each key of each hash holds a value. -/
def Heap.isWhole (heap : Heap) : Bool :=
  heap.arrays.all (fun slots => slots.all (fun slot => slot.read.type?.isSome)) &&
    heap.hashes.all (fun entries => entries.all (fun entry => entry.2.type?.isSome))

theorem Value.type_is_some_iff (v : Value) : v.type?.isSome = true ↔ v ≠ .missing := by
  cases v <;> simp [type?]

theorem forall_getD_iff {α : Type} (xs : Array α) (empty : α) (P : α → Prop) (none : P empty) :
    (∀ i, P (xs.getD i empty)) ↔ ∀ x ∈ xs, P x := by
  constructor
  · intro all x member
    obtain ⟨i, inside, same⟩ := Array.mem_iff_getElem.mp member
    have held := all i
    simpa [Array.getD, inside, same] using held
  · intro all i
    unfold Array.getD
    split
    · exact all _ (Array.getElem_mem _)
    · exact none

theorem Heap.isWhole_iff (heap : Heap) : heap.isWhole = true ↔ heap.Whole := by
  have arrays := forall_getD_iff heap.arrays #[] (fun slots => ∀ slot ∈ slots, slot.read ≠ .missing)
    (by simp)
  have hashes := forall_getD_iff heap.hashes []
    (fun entries => ∀ entry ∈ entries, entry.2 ≠ .missing) (by simp)
  simp only [isWhole, Bool.and_eq_true, Array.all_eq_true', List.all_eq_true,
    Value.type_is_some_iff, ← arrays, ← hashes]
  exact ⟨fun ⟨array, hash⟩ => ⟨array, hash⟩, fun whole => ⟨whole.array, whole.hash⟩⟩

/-! Marks of positions that had left their array. -/

def Vanished (history : List Mark) : Prop := ∃ ref i, .vanished ref i ∈ history

def Mark.isVanished : Mark → Bool
  | vanished _ _ => true
  | _ => false

theorem any_isVanished_iff (history : List Mark) :
    history.any Mark.isVanished = true ↔ Vanished history := by
  rw [List.any_eq_true]
  constructor
  · rintro ⟨m, member, is⟩
    cases m with
    | vanished ref i => exact ⟨ref, i, member⟩
    | _ => simp [Mark.isVanished] at is
  · rintro ⟨ref, i, member⟩
    exact ⟨_, member, rfl⟩

theorem Vanished.later {h k : List Mark} (more : h <:+ k) (vanished : Vanished h) : Vanished k := by
  obtain ⟨ref, i, member⟩ := vanished
  exact ⟨ref, i, more.subset member⟩

/-- A state whose heap has a hole that no mark accounts for. -/
def State.isTorn (s : State) : Bool := !s.heap.isWhole && !s.history.any Mark.isVanished

theorem steady_isTorn : Steady State.isTorn := fun _ _ _ _ _ => rfl

/-! What a whole session keeps. -/

/-- Whether a host has a module of its own through which programs call values. -/
def Host.CallsBack (host : Host) : Prop := ∃ name, Table.find? name host.natives = some .callBacks

namespace Discipline

/-- Nothing is missing unless a position has vanished; a call back without
anything to call is what a host that calls back makes of it. -/
def dense (callsBack : Prop) : Discipline where
  terms := .any
  strict := false
  value := fun h v =>
    (v ≠ .missing ∧ ∀ owner method, v = .native ⟨.callBack, owner⟩ method → callsBack) ∨ Vanished h
  stop := fun h e => e = .failed (.host .missingValue) → callsBack ∨ Vanished h
  -- marks are never taken back, so what one allows stays allowed
  value_later := fun more fine => fine.imp_right (Vanished.later more)
  stop_later := fun more allowed same => (allowed same).imp_right (Vanished.later more)
  data := fun {_ v} plain => by cases v <;> simp_all [Value.isData]
  native := fun apart _ => .inl ⟨by simp, fun owner method same => by simp_all⟩
  loop := fun _ => .inl ⟨by simp, fun owner method same => by simp at same⟩
  starts := fun _ => trivial
  method :=
    fun {_ v} fine => by cases v <;> exact fine.imp_left (fun there => by simp_all [Value.asMethod])
  closure := fun {_ f _} => by simp [f.procedure.placed_of_lenient, Terms.any]
  vanished := fun member => .inr ⟨_, _, member⟩
  atTop := fun _ => not_false
  missing := fun fine _ => fine.elim (fun there => absurd rfl there.1) .inr
  bare := fun fine _ => fine.imp_left (fun there => there.2 _ _ rfl)
  outOfFuel := by simp
  fault := by simp
  directory := by simp
  located :=
    fun {_ failure _ _} allowed same => allowed (by cases failure <;> simp_all [Failure.locate])

theorem admits_dense (host : Host) : (dense host.CallsBack).Admits host :=
  ⟨fun name found _ _ _ => .inl ⟨by simp, fun _ _ _ => ⟨name, found⟩⟩, fun _ _ => trivial,
    fun _ _ _ _ => trivial⟩

theorem whole_of_dense {callsBack : Prop} {base : Nat} {s : State}
    (ready : (dense callsBack).Ready base s) (still : ¬ Vanished s.history) : s.heap.Whole := by
  constructor
  · intro ref slot member
    exact ((ready.held.heap.slots ref slot member).resolve_right still).1
  · intro ref entry member
    exact ((ready.held.heap.entries ref entry member).resolve_right still).1

theorem not_torn_of_dense {callsBack : Prop} {base : Nat} (s : State)
    (ready : (dense callsBack).Ready base s) : s.isTorn = false := by
  by_cases vanished : Vanished s.history
  · simp [State.isTorn, (any_isVanished_iff s.history).mpr vanished]
  · simp [State.isTorn, s.heap.isWhole_iff.mpr (whole_of_dense ready vanished)]

end Discipline

/-! Assignments to elements. -/

/-- What an index assignment comes to as the language has it: a value takes the
place of the element at the position, or the program fails and arrays and hashes
are as they were. -/
def Replaces (ref i : Nat) (s : State) : EStateM.Result Stop State Unit → Prop
  | .ok _ t => i < (s.heap.array ref).size ∧ ∃ v : Value, v ≠ .missing ∧
      t.heap = s.heap.modifyArray ref (fun slots => slots.setIfInBounds i (some v))
  | .error e t => (∃ d, e = .failed (.program d)) ∧ t.heap = s.heap

variable {s : State} {α β : Type}

/-- How a step ends that leaves the heap and the marks as they were and fails
only as a program does. -/
def Calm (s : State) (good : α → Prop) : EStateM.Result Stop State α → Prop
  | .ok a t => t.heap = s.heap ∧ t.history = s.history ∧ good a
  | .error e t => t.heap = s.heap ∧ t.history = s.history ∧ ∃ d, e = .failed (.program d)

theorem calm_pure {a : α} {good : α → Prop} (fine : good a) :
    Calm s good ((pure a : Eval α) s) := ⟨rfl, rfl, fine⟩

theorem calm_fault (cause : Fault) {good : α → Prop} : Calm s good ((fault cause : Eval α) s) :=
  ⟨rfl, rfl, _, rfl⟩

theorem calm_of_same {t : State} {good : α → Prop} {result : EStateM.Result Stop State α}
    (heap : t.heap = s.heap) (history : t.history = s.history) (calm : Calm t good result) :
    Calm s good result := by
  cases result with
  | ok a u => exact ⟨calm.1.trans heap, calm.2.1.trans history, calm.2.2⟩
  | error e u => exact ⟨calm.1.trans heap, calm.2.1.trans history, calm.2.2⟩

theorem calm_bind {x : Eval α} {f : α → Eval β} {good : α → Prop} {better : β → Prop}
    (first : Calm s good (x s)) (rest : ∀ a t, good a → Calm t better (f a t)) :
    Calm s better ((x >>= f) s) := by
  cases outcome : x s with
  | error e t =>
      rw [outcome] at first
      rw [bind_error outcome]
      exact first
  | ok a t =>
      rw [outcome] at first
      obtain ⟨heap, history, fine⟩ := first
      rw [bind_ok outcome]
      exact calm_of_same heap history (rest a t fine)

theorem calm_expectNumber {v : Value} (operation : Text) (there : v ≠ .missing) :
    Calm s (fun _ => True) (expectNumber v operation s) := by
  cases v with
  | missing => exact absurd rfl there
  | number x n => exact calm_pure trivial
  | _ => exact calm_fault _

theorem calm_number (x : Float) : Calm s (fun v => v ≠ .missing) (number x s) := by
  unfold number
  split
  · exact ⟨rfl, rfl, by simp⟩
  · exact calm_pure (by simp)

theorem calm_arithmetic {op : BinaryOp} {left right : Value} {f : Float × Float → Eval Value}
    (first : left ≠ .missing) (second : right ≠ .missing)
    (result : ∀ pair t, Calm t (fun v => v ≠ .missing) (f pair t)) :
    Calm s (fun v => v ≠ .missing) ((operands op left right >>= f) s) := by
  have pair : Calm s (fun _ => True) (operands op left right s) := by
    apply calm_bind (calm_expectNumber _ first)
    intro a t _
    apply calm_bind (calm_expectNumber _ second)
    intro b t _
    exact calm_pure trivial
  exact calm_bind pair (fun pair t _ => result pair t)

theorem calm_assigned (op : AssignOp) {old : Eval Value} {v : Value} (there : v ≠ .missing)
    (previous : Calm s (fun w => w ≠ .missing) (old s)) :
    Calm s (fun w => w ≠ .missing) (assigned op old v s) := by
  -- the five operators that assign differ in what they make of two numbers only
  have worked : ∀ (op : BinaryOp) (f : Float × Float → Eval Value),
      (∀ pair t, Calm t (fun w => w ≠ .missing) (f pair t)) →
        Calm s (fun w => w ≠ .missing) ((old >>= fun w => operands op w v >>= f) s) := by
    intro op f result
    apply calm_bind previous
    intro w t read
    exact calm_arithmetic read there result
  have divided : ∀ (x y : Float) cause t,
      Calm t (fun w => w ≠ .missing) ((if y == 0 then runtimeFault cause else number x) t) := by
    intro x y cause t
    split
    · exact calm_fault _
    · exact calm_number x
  cases op with
  | set => exact calm_pure there
  | add => exact worked .add _ (fun _ _ => calm_number _)
  | subtract => exact worked .subtract _ (fun _ _ => calm_number _)
  | multiply => exact worked .multiply _ (fun _ _ => calm_number _)
  | divide => exact worked .divide _ (fun ⟨a, b⟩ _ => divided (a / b) b _ _)
  | remainder => exact worked .remainder _ (fun ⟨a, b⟩ _ => divided (remainderOf a b) b _ _)

section

variable {ref i : Nat} (op : AssignOp) (v : Value)

theorem storeElement_inside (inside : i < (s.heap.array ref).size) :
    storeElement ref i op v s =
      (assigned op (element ref i) v >>= fun w =>
        modifyArray ref (fun slots => Heap.storeAt slots i w)) s := by
  have read : array ref s = .ok (s.heap.array ref) s := rfl
  unfold storeElement
  rw [bind_ok read]
  simp only [Nat.not_le_of_lt inside, if_false]

theorem storeElement_late (late : (s.heap.array ref).size ≤ i) :
    storeElement ref i op v s =
      (assigned op (element ref i) v >>= fun w =>
        modifyArray ref (fun slots => Heap.storeAt slots i w))
          { s with history := .vanished ref i :: s.history } := by
  have read : array ref s = .ok (s.heap.array ref) s := rfl
  unfold storeElement
  rw [bind_ok read]
  simp only [late, if_true]
  rfl

theorem modifyArray_congr (heap : Heap) (f g : Array Slot → Array Slot)
    (same : f (heap.array ref) = g (heap.array ref)) :
    heap.modifyArray ref f = heap.modifyArray ref g := by
  have arrays : heap.arrays.modify ref f = heap.arrays.modify ref g := by
    apply Array.ext
    · simp
    · intro j left right
      simp only [Array.size_modify] at left
      simp only [Array.getElem_modify]
      split
      · rename_i here
        subst here
        simpa [Heap.array, Array.getD, left] using same
      · rfl
  simp only [Heap.modifyArray, arrays]

/-- An assignment whose position still lies in the array does what it should. -/
theorem replaces_of_inside (whole : s.heap.Whole) (there : v ≠ .missing)
    (inside : i < (s.heap.array ref).size) :
    Replaces ref i s (storeElement ref i op v s) ∧
      (after (storeElement ref i op v) s).history = s.history := by
  have read : Calm s (fun w => w ≠ .missing) (element ref i s) := by
    have held := whole.array ref _ (Array.getElem_mem inside)
    have there : (s.heap.array ref)[i]?.join.getD .missing ≠ .missing := by
      simpa [Slot.read, Array.getElem?_eq_getElem inside] using held
    exact ⟨rfl, rfl, there⟩
  have worked := calm_assigned op there read
  unfold after
  rw [storeElement_inside op v inside]
  cases outcome : assigned op (element ref i) v s with
  | error e t =>
      rw [outcome] at worked
      obtain ⟨heap, history, fails⟩ := worked
      rw [bind_error outcome]
      exact ⟨⟨fails, heap⟩, history⟩
  | ok w t =>
      rw [outcome] at worked
      obtain ⟨heap, history, fine⟩ := worked
      rw [bind_ok outcome]
      -- the operator has left the heap as it was, so the position is still inside
      have stored : t.heap.modifyArray ref (fun slots => Heap.storeAt slots i w) =
          s.heap.modifyArray ref (fun slots => slots.setIfInBounds i (some w)) := by
        rw [heap]
        apply modifyArray_congr
        simp only [Heap.storeAt, inside, if_true]
      exact ⟨⟨inside, w, fine, stored⟩, history⟩

/-- Where the position has left the array, the value goes behind its end. -/
theorem late_set (late : (s.heap.array ref).size ≤ i) :
    storeElement ref i .set v s =
      .ok () { s with
        heap := s.heap.modifyArray ref (fun slots => Heap.storeAt slots i v)
        history := .vanished ref i :: s.history } := by
  rw [storeElement_late _ v late]
  rfl

theorem element_late (late : (s.heap.array ref).size ≤ i) :
    element ref i s = .ok .missing s := by
  have nothing : (s.heap.array ref)[i]?.join.getD .missing = .missing := by
    rw [Array.getElem?_eq_none late]
    rfl
  show EStateM.Result.ok ((s.heap.array ref)[i]?.join.getD .missing) s = _
  rw [nothing]

theorem assigned_late (late : (s.heap.array ref).size ≤ i) (compound : op ≠ .set) :
    assigned op (element ref i) v s = .error (.failed (.host .missingValue)) s := by
  have read := element_late late
  cases op with
  | set => exact absurd rfl compound
  | _ => exact bind_ok (f := fun w => binary _ w v) read

/-- Where the position has left the array, an operator is given what is missing. -/
theorem late_compound (late : (s.heap.array ref).size ≤ i) (compound : op ≠ .set) :
    storeElement ref i op v s =
      .error (.failed (.host .missingValue))
        { s with history := .vanished ref i :: s.history } := by
  rw [storeElement_late _ v late]
  apply bind_error
  apply assigned_late op v _ compound
  exact late

theorem not_replaces_of_late (late : (s.heap.array ref).size ≤ i) :
    ¬ Replaces ref i s (storeElement ref i op v s) ∧
      .vanished ref i ∈ s.marksSince (after (storeElement ref i op v) s) := by
  unfold after
  -- without an operator nothing fails, but the array grows; with one nothing is stored
  by_cases plain : op = .set
  · subst plain
    rw [late_set v late]
    constructor
    · rintro ⟨inside, _⟩
      exact Nat.not_le_of_lt inside late
    · rw [State.marksSince_cons rfl]
      exact .head _
  · rw [late_compound op v late plain]
    constructor
    · rintro ⟨⟨d, same⟩, _⟩
      cases same
    · rw [State.marksSince_cons rfl]
      exact .head _

/-- An index assignment leaves its mark exactly if it does not do what it should. -/
theorem vanished_iff (whole : s.heap.Whole) (there : v ≠ .missing) :
    .vanished ref i ∈ s.marksSince (after (storeElement ref i op v) s) ↔
      ¬ Replaces ref i s (storeElement ref i op v s) := by
  by_cases inside : i < (s.heap.array ref).size
  · obtain ⟨replaced, still⟩ := replaces_of_inside op v whole there inside
    have unmarked : s.marksSince (after (storeElement ref i op v) s) = [] :=
      State.marksSince_of_append still
    simp [unmarked, replaced]
  · obtain ⟨broken, marked⟩ := not_replaces_of_late op v (Nat.le_of_not_lt inside)
    simp [marked, broken]

end

/-! Sessions. -/

/-- Whatever a host asks of a new interpreter, the same comes of it when it is
watched for holes that no mark accounts for: there are none at any point. A
session without a vanished position leaves a heap without holes, and nothing in
it fails for a missing value, unless the host has a module to call back with. And
it is exactly the index assignments that do not replace an element or fail as
programs do that leave such a mark. -/
theorem dense_until_vanished (host : Host) (events : List HostEvent) (fuel : Nat)
    (requests : List Request) :
    (∀ alarm,
      (Interpreter.new host events).serveAll
          (fun host => .watched State.isTorn (.failed (.host alarm)) host fuel) requests =
        (Interpreter.new host events).serveAll (fun host => .of host fuel) requests) ∧
    (∀ results final,
      (Interpreter.new host events).serveAll (fun host => .of host fuel) requests =
          (results, final) → ¬ Vanished final.state.history →
        final.state.heap.Whole ∧
          (¬ host.CallsBack → .error (.failed (.host .missingValue)) ∉ results)) ∧
    ∀ (s : State) ref i op v, s.heap.Whole → v ≠ .missing →
      (.vanished ref i ∈ s.marksSince (after (storeElement ref i op v) s) ↔
        ¬ Replaces ref i s (storeElement ref i op v s)) := by
  have kept := Discipline.kept_new (Discipline.admits_dense host) (fun _ => trivial) events
  have placed : ∀ request ∈ requests, request.Placed (Discipline.dense host.CallsBack).strict :=
    fun request _ => request.placed_of_lenient
  constructor
  · intro alarm
    -- no state is ever torn, so the watch does not go off
    exact Discipline.serveAll_watched (Nat.le_refl 0) steady_isTorn Discipline.not_torn_of_dense
      alarm fuel requests
      kept placed
  constructor
  · intro results final outcome still
    have served :=
      Discipline.allows_serveAll (Discipline.serves_of (Nat.le_refl 0) fuel) requests kept placed
    rw [outcome] at served
    obtain ⟨_, _, kept, stops⟩ := served
    constructor
    · exact Discipline.whole_of_dense kept.ready still
    · intro quiet member
      exact (stops _ member rfl).elim quiet still
  · intro s ref i op v whole there
    exact vanished_iff op v whole there

/-- A program that makes arrays, lengthens them and goes through them. -/
def growingRequests : List Request :=
  [.runSource "a = [true, [null]]\nfunc f(x)\nuse a\nAdd(a, [x, a])\nreturn a\nend\nf(\"s\")\n"
    none,
    .runSource "h = \x7b\"k\": f(a)\x7d\nfor a as x\nh[x] = [x]\nend\nemit h\nk()\n" none,
    .call "f" [.arr [.null, .bool true]]]

theorem plain_not_callsBack : ¬ Host.plain.CallsBack := by
  rintro ⟨name, found⟩
  have member := Table.mem_of_find? name _ _ found
  simp [Host.plain, Host.builtinModules] at member

def growingSession : List (Except Stop Unit) × Interpreter :=
  (Interpreter.new .plain []).serveAll (fun host => .of host 15) growingRequests

theorem whole_after_session :
    ¬ Vanished growingSession.2.state.history ∧ growingSession.2.state.heap.Whole ∧
      .error (.failed (.host .missingValue)) ∉ growingSession.1 := by
  have quiet : growingSession.2.state.history.any Mark.isVanished = false := by decide +kernel
  have still : ¬ Vanished growingSession.2.state.history := by
    rw [← any_isVanished_iff, quiet]
    exact Bool.false_ne_true
  have outcome : growingSession = (growingSession.1, growingSession.2) :=
    (Prod.eta growingSession).symm
  obtain ⟨_, unbroken, _⟩ := dense_until_vanished .plain [] 15 growingRequests
  obtain ⟨whole, fails⟩ := unbroken growingSession.1 growingSession.2 outcome still
  exact ⟨still, whole, fails plain_not_callsBack⟩

/-- A state with one array, which has nothing in it any more. -/
def emptied : State := { Interpreter.blankState [] with heap := ⟨#[#[]], #[]⟩ }

/-- An assignment to its third element, begun when it had one, leaves two holes. -/
theorem holes_behind_end :
    emptied.heap.isWhole = true ∧
      ((after (storeElement 0 2 .set (.bool true)) emptied).heap.array 0).size = 3 ∧
      (after (storeElement 0 2 .set (.bool true)) emptied).heap.isWhole = false ∧
      .vanished 0 2 ∈ emptied.marksSince (after (storeElement 0 2 .set (.bool true)) emptied) := by
  decide +kernel

end Loom
