import Loom.Proofs.Effect
import Loom.Proofs.Held
import Loom.Proofs.Placement
import Loom.Proofs.Steps

/-!
What a run keeps. A discipline says which values may be about and how a step may
stop, given the marks that runs have left so far. It asks nothing of a run but
what is decided at single places of the evaluator, which are its laws; that every
step then keeps to it, whatever program is run, is shown once for all disciplines.

The rules here are about steps in general: how what is ensured of a step follows
from what is ensured of the steps that it is made of.
-/

namespace Loom

/-- The faults of a program that leaves a loop or a function it is not in. -/
def Fault.IsExit : Fault → Prop
  | .runtime .returnOutsideFunction => True
  | .runtime .outsideLoop => True
  | .runtime (.outsideLoopIn _) => True
  | _ => False

structure Discipline where
  terms : Terms
  /-- Whether programs have to be placed. -/
  strict : Bool
  value : List Mark → Value → Prop
  stop : List Mark → Stop → Prop
  /-- How many calls may be active. -/
  depth : Nat → Prop := fun _ => True
  value_later : ∀ {h k v}, h <:+ k → value h v → value k v
  stop_later : ∀ {h k e}, h <:+ k → stop h e → stop k e
  data : ∀ {h} {v : Value}, v.isData = true → value h v
  native : ∀ {h} {n : Native} {method}, n.action ≠ .callBack → n.action ≠ .startLoop →
    value h (.native n method)
  /-- A loop may be started through a value once it has been made. -/
  loop : ∀ {h owner method}, .opened owner ∈ h → value h (.native ⟨.startLoop, owner⟩ method)
  starts : ∀ {h owner method}, value h (.native ⟨.startLoop, owner⟩ method) →
    terms.starts h owner
  method : ∀ {h v}, value h v → value h v.asMethod
  closure : ∀ {h} {f : Closure} {method},
    value h (.function f method) ↔ f.procedure.Placed strict ∧ terms.home ≤ f.scope
  /-- A position that has left its array leads to a slot that holds nothing. -/
  vanished : ∀ {h ref position}, .vanished ref position ∈ h → value h .missing
  /-- Only of programs that are placed is it known where their imports stand. -/
  atTop : strict = false → ¬ terms.atTop
  missing : ∀ {h}, value h .missing → stop h (.failed (.host .missingValue))
  /-- A call back without anything to call looks into what is not there. -/
  bare : ∀ {h owner method}, value h (.native ⟨.callBack, owner⟩ method) →
    stop h (.failed (.host .missingValue))
  outOfFuel : ∀ {h}, stop h .outOfFuel
  fault : ∀ {h} {d : Diagnostic}, (strict = true → ¬ d.fault.IsExit) →
    stop h (.failed (.program d))
  /-- A module may be looked for where there is a directory. -/
  directory : ∀ {h}, stop h (.failed (.host .directoryRead))
  located : ∀ {h failure loc file}, stop h (.failed failure) →
    stop h (.failed (failure.locate loc file))

namespace Discipline

theorem strict_of_atTop {d : Discipline} (asked : d.terms.atTop) : d.strict = true := by
  cases lenient : d.strict with
  | true => rfl
  | false => exact absurd asked (d.atTop lenient)

/-- Within a call of a function: one call more is active, and there was room for it. -/
def inCall (d : Discipline) (limit : Nat) : Discipline :=
  { d with depth := fun n => ∃ k, n = k + 1 ∧ d.depth k ∧ k < limit }

/-- A state that a discipline may be kept from: what it keeps is in order, the
scopes that it leaves alone are there, and as many calls are active as may be. -/
structure Ready (d : Discipline) (base : Nat) (s : State) : Prop where
  held : s.All (d.value s.history)
  room : base ≤ s.scopes.scopes.size
  depth : d.depth s.depth

variable {d : Discipline} {base : Nat} {s : State} {α β : Type}

/-- How a part of a run from a state may end. -/
def EndsIn (d : Discipline) (part : Part) (base : Nat) (s : State) (good : State → α → Prop) :
    EStateM.Result Stop State α → Prop
  | .ok a t => Chain d.terms base part s t ∧ d.Ready base t ∧ good t a
  | .error e t => Chain d.terms base part s t ∧ d.Ready base t ∧ d.stop t.history e

/-- How a step from a state may end. -/
abbrev Ends (d : Discipline) (base : Nat) (s : State) (good : State → α → Prop) :
    EStateM.Result Stop State α → Prop := d.EndsIn .code base s good

/-- A step keeps a discipline from a state on, and what it gives is good. -/
def Ensures (d : Discipline) (base : Nat) (s : State) (step : Eval α) (good : State → α → Prop) :
    Prop :=
  d.Ready base s → Ends d base s good (step s)

abbrev Fine (d : Discipline) (t : State) (v : Value) : Prop := d.value t.history v

theorem Fine.after {t u : State} {v : Value} (effect : Effect d.terms base t u)
    (fine : d.Fine t v) :
    d.Fine u v :=
  d.value_later (effect_grows effect).history fine

theorem Ready.after {t u : State} (ready : d.Ready base t) (grows : t.Grows u)
    (depth : u.depth = t.depth)
    (held : t.All (d.value t.history) → u.All (d.value t.history)) : d.Ready base u := by
  constructor
  · exact (held ready.held).imp (fun _ fine => d.value_later grows.history fine)
  · exact Nat.le_trans ready.room grows.scopes.size
  · exact depth ▸ ready.depth

theorem ends_of_imp {good better : State → α → Prop} {result : EStateM.Result Stop State α}
    (ends : Ends d base s good result) (step : ∀ t a, good t a → better t a) :
    Ends d base s better result := by
  cases result with
  | ok a t => exact ⟨ends.1, ends.2.1, step t a ends.2.2⟩
  | error e t => exact ends

theorem ensures_of_imp {step : Eval α} {good better : State → α → Prop}
    (ensured : Ensures d base s step good) (imp : ∀ t a, good t a → better t a) :
    Ensures d base s step better :=
  fun ready => ends_of_imp (ensured ready) imp

theorem ensures_pure {a : α} {good : State → α → Prop} (fine : good s a) :
    Ensures d base s (pure a) good := fun ready => ⟨.none s, ready, fine⟩

theorem ends_after {part : Part} {t : State} {good : State → α → Prop}
    {result : EStateM.Result Stop State α} (effect : Chain d.terms base part s t)
    (ends : EndsIn d part base t good result) : EndsIn d part base s good result := by
  cases result with
  | ok a u => exact ⟨.andThen effect ends.1, ends.2⟩
  | error e u => exact ⟨.andThen effect ends.1, ends.2⟩

theorem ensures_bind {x : Eval α} {f : α → Eval β} {good : State → α → Prop}
    {better : State → β → Prop} (first : Ensures d base s x good)
    (rest : ∀ a t, Effect d.terms base s t → d.Ready base t → good t a →
      Ensures d base t (f a) better) :
    Ensures d base s (x >>= f) better := by
  intro ready
  have ends := first ready
  cases outcome : x s with
  | ok a t =>
      rw [Eval.bind_ok outcome]
      rw [outcome] at ends
      obtain ⟨effect, ready, fine⟩ := ends
      -- the rest is followed from the state that the first step has left
      exact ends_after effect (rest a t effect ready fine ready)
  | error e t =>
      rw [Eval.bind_error outcome]
      rw [outcome] at ends
      exact ends

/-- What can be told of a step's result by working it out is ensured as well. -/
theorem ensures_also {step : Eval α} {good also : State → α → Prop}
    (ensured : Ensures d base s step good) (worked : ∀ a t, step s = .ok a t → also t a) :
    Ensures d base s step (fun t a => good t a ∧ also t a) := by
  intro ready
  have ends := ensured ready
  cases outcome : step s with
  | ok a t =>
      rw [outcome] at ends
      exact ⟨ends.1, ends.2.1, ends.2.2, worked a t outcome⟩
  | error e t =>
      rw [outcome] at ends
      exact ends

/-- A step of which only matters that it keeps the discipline. -/
theorem ensures_then {x : Eval α} {f : α → Eval β} {better : State → β → Prop}
    (first : Ensures d base s x (fun _ _ => True))
    (rest : ∀ a t, Effect d.terms base s t → d.Ready base t → Ensures d base t (f a) better) :
    Ensures d base s (x >>= f) better :=
  ensures_bind first (fun a t effect ready _ => rest a t effect ready)

/-- A step that only looks at the state is followed from that same state. -/
theorem ensures_get {f : State → Eval β} {good : State → β → Prop}
    (rest : d.Ready base s → Ensures d base s (f s) good) :
    Ensures d base s (get >>= f) good := fun ready => rest ready ready

theorem ensures_throw {e : Stop} {good : State → α → Prop} (allowed : d.stop s.history e) :
    Ensures d base s (throw e) good := fun ready => ⟨.none s, ready, allowed⟩

theorem ensures_fault {cause : Fault} {good : State → α → Prop} (inside : ¬ cause.IsExit) :
    Ensures d base s (Eval.fault cause) good :=
  ensures_throw (d.fault fun _ => inside)

theorem ensures_typeFault {cause : TypeFault} {good : State → α → Prop} :
    Ensures d base s (Eval.typeFault cause) good := ensures_fault (by simp [Fault.IsExit])

theorem ensures_outOfFuel {good : State → α → Prop} : Ensures d base s Eval.outOfFuel good :=
  ensures_throw d.outOfFuel

theorem ensures_modify {change : State → State} {good : State → Unit → Prop}
    (effect : Effect d.terms base s (change s))
    (held : s.All (d.value s.history) → (change s).All (d.value s.history))
    (fine : good (change s) ()) : Ensures d base s (modify change) good :=
  fun ready => ⟨effect, ready.after (effect_grows effect) (effect_same_control effect).depth held,
    fine⟩

theorem ensures_modifyGet {change : State → α × State} {good : State → α → Prop}
    (effect : Effect d.terms base s (change s).2)
    (held : s.All (d.value s.history) → (change s).2.All (d.value s.history))
    (fine : good (change s).2 (change s).1) : Ensures d base s (modifyGet change) good :=
  fun ready => ⟨effect, ready.after (effect_grows effect) (effect_same_control effect).depth held,
    fine⟩

/-! Steps between a change of control and its undoing. -/

/-- A change of control keeps a state ready. -/
theorem Ready.of_same {t u : State} (ready : d.Ready base t) (scopes : u.scopes = t.scopes)
    (heap : u.heap = t.heap) (loops : u.loops = t.loops) (natives : u.nativeCache = t.nativeCache)
    (modules : u.moduleCache = t.moduleCache) (history : u.history = t.history)
    (depth : u.depth = t.depth) : d.Ready base u := by
  constructor
  · rw [history]
    exact ready.held.of_same scopes heap loops natives modules
  · exact scopes ▸ ready.room
  · exact depth ▸ ready.depth

/-- Inside a call, and after it, is one call more and one less. -/
theorem Ready.enter {limit : Nat} (ready : d.Ready base s) (room : s.depth < limit) :
    (d.inCall limit).Ready base { s with depth := s.depth + 1 } :=
  ⟨ready.held.of_same rfl rfl rfl rfl rfl, ready.room, s.depth, rfl, ready.depth, room⟩

theorem Ready.leave {limit : Nat} {t : State} (ready : (d.inCall limit).Ready base t) :
    d.Ready base { t with depth := t.depth - 1 } := by
  obtain ⟨k, entered, allowed, _⟩ := ready.depth
  constructor
  · exact ready.held.of_same rfl rfl rfl rfl rfl
  · exact ready.room
  · show d.depth (t.depth - 1)
    rw [entered]
    exact allowed

/-- The step in between may be under a discipline that only differs in how many calls
are active. -/
theorem ends_finally {p : Nat → Prop} (begin undo : State → State)
    {good better : State → α → Prop} {part : Part} {step : Eval α}
    (ensured : Ready { d with depth := p } base (begin s) →
      EndsIn { d with depth := p } part base (begin s) good (step (begin s)))
    (bracket : ∀ t, Chain d.terms base part (begin s) t → Effect d.terms base s (undo t))
    (entry : d.Ready base s → Ready { d with depth := p } base (begin s))
    (exit : ∀ t, Ready { d with depth := p } base t → d.Ready base (undo t))
    (same : ∀ t, (undo t).history = t.history)
    (imp : ∀ t a, good t a → better (undo t) a) (ready : d.Ready base s) :
    Ends d base s better (Eval.finally_ step undo (begin s)) := by
  have ends := ensured (entry ready)
  unfold Eval.finally_
  cases outcome : step (begin s) with
  | ok a t =>
      rw [outcome] at ends
      exact ⟨bracket t ends.1, exit t ends.2.1, imp t a ends.2.2⟩
  | error e t =>
      rw [outcome] at ends
      obtain ⟨effect, ready, allowed⟩ := ends
      -- the undoing leaves no mark, so what was allowed still is
      have still : d.stop (undo t).history e := by
        rw [same]
        exact allowed
      exact ⟨bracket t effect, exit t ready, still⟩

theorem ensures_inFile {file : Option Text} {step : Eval α} {good : State → α → Prop}
    (ensured : Ensures d base { s with file := file } step good)
    (still : ∀ t a, good t a → good { t with file := s.file } a) :
    Ensures d base s (Eval.inFile file step) good :=
  ends_finally (fun s => { s with file := file }) (fun t => { t with file := s.file }) ensured
    (fun t effect => .inFile s t file effect)
    (fun ready => ready.of_same rfl rfl rfl rfl rfl rfl rfl)
    (fun _ ready => ready.of_same rfl rfl rfl rfl rfl rfl rfl) (fun _ => rfl) still

theorem ensures_inCall {limit : Nat} {step : Eval α} {good : State → α → Prop}
    (room : s.depth < limit)
    (ensured : Ensures (d.inCall limit) base { s with depth := s.depth + 1 } step good)
    (still : ∀ t a, good t a → good { t with depth := t.depth - 1 } a) :
    Ensures d base s (Eval.inCall step) good :=
  ends_finally (fun s => { s with depth := s.depth + 1 })
    (fun t => { t with depth := t.depth - 1 }) ensured (fun t effect => .inCall s t effect)
    (fun ready => ready.enter room) (fun _ ready => ready.leave) (fun _ => rfl) still

theorem Ready.setRunning {t : State} (ready : d.Ready base t) (loop : Nat) (running : Bool) :
    d.Ready base (Eval.setRunning loop running t) :=
  ⟨ready.held.setRunning loop running, ready.room, ready.depth⟩

/-- What is done while a loop runs is the loop's part of the run. -/
theorem ensures_whileRunning {loop : Nat} {step : Eval α} {good : State → α → Prop}
    (idle : s.isRunning loop = false) (allowed : d.terms.starts s.history loop)
    (ensured : d.Ready base (Eval.setRunning loop true s) →
      EndsIn d (.delivery loop) base (Eval.setRunning loop true s) good
        (step (Eval.setRunning loop true s)))
    (still : ∀ t a, good t a → good (Eval.setRunning loop false t) a) :
    Ensures d base s (Eval.whileRunning loop step) good :=
  ends_finally (Eval.setRunning loop true) (Eval.setRunning loop false) ensured
    (fun t effect => .whileRunning s t loop idle allowed effect)
      (fun ready => ready.setRunning loop true)
    (fun _ ready => ready.setRunning loop false) (fun _ => rfl) still

theorem ensures_located {loc : Location} {step : Eval α} {good : State → α → Prop}
    (ensured : Ensures d base s step good) : Ensures d base s (Eval.located loc step) good := by
  intro ready
  have ends := ensured ready
  unfold Eval.located
  cases outcome : step s with
  | ok a t =>
      rw [outcome] at ends
      exact ends
  | error e t =>
      rw [outcome] at ends
      cases e with
      | failed failure => exact ⟨ends.1, ends.2.1, d.located ends.2.2⟩
      | outOfFuel => exact ends

/-- Which statements are being carried out is no part of what is kept. -/
theorem Ready.withUnderway {t : State} (ready : d.Ready base t) (frames : List Frame) :
    d.Ready base { t with underway := frames } :=
  ready.of_same rfl rfl rfl rfl rfl rfl rfl

theorem ensures_nothingUnderway :
    Ensures d base s Eval.nothingUnderway (fun _ _ => True) := fun ready =>
  ⟨effect_of_same rfl rfl rfl rfl rfl rfl rfl rfl rfl rfl rfl rfl, ready.withUnderway [], trivial⟩

theorem ensures_during {statement : Stmt} {step : Eval α} {good : State → α → Prop}
    (ensured : Ensures d base { s with underway := ⟨statement, s.file⟩ :: s.underway } step good)
    (still : ∀ t a, good t a → good { t with underway := s.underway } a) :
    Ensures d base s (Eval.during statement step) good := by
  intro ready
  have ends := ensured (ready.withUnderway (⟨statement, s.file⟩ :: s.underway))
  have entered : Effect d.terms base s
      { s with underway := ⟨statement, s.file⟩ :: s.underway } :=
    effect_of_same rfl rfl rfl rfl rfl rfl rfl rfl rfl rfl rfl rfl
  unfold Eval.during
  cases outcome : step { s with underway := ⟨statement, s.file⟩ :: s.underway } with
  | ok a t =>
      rw [outcome] at ends
      have left : Effect d.terms base t { t with underway := s.underway } :=
        effect_of_same rfl rfl rfl rfl rfl rfl rfl rfl rfl rfl rfl rfl
      exact ⟨.andThen entered (.andThen ends.1 left), ends.2.1.withUnderway s.underway,
        still t a ends.2.2⟩
  | error e t =>
      rw [outcome] at ends
      exact ⟨.andThen entered ends.1, ends.2⟩

end Discipline

end Loom
