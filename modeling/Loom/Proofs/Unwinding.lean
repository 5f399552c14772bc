import Loom.Grammar.Statement
import Loom.Proofs.Steps

/-!
How a failure gets its place. Where it arises it has none, except that what is wrong
with the text of a module has the place in that text; on its way out it passes the
statements that are being carried out, innermost first, and each gives it what it has
not got. So a failure tells of the statements that it came out of, and those are the
ones that were being carried out when it arose.

The rules here are about steps in general: what is told by a step that is made of
others follows from what these tell.
-/

namespace Loom

namespace Diagnostic

/-- What a diagnostic becomes on its way out of statements, innermost one first. -/
def through (d : Diagnostic) (frames : List Frame) : Diagnostic :=
  frames.foldl (fun d frame => d.locate frame.statement.loc frame.file) d

@[simp] theorem through_nil (d : Diagnostic) : d.through [] = d := rfl

theorem through_concat (d : Diagnostic) (frames : List Frame) (frame : Frame) :
    d.through (frames ++ [frame]) =
      (d.through frames).locate frame.statement.loc frame.file := by
  simp only [through, List.foldl_append, List.foldl_cons, List.foldl_nil]

/-- No statement changes what is wrong. -/
theorem fault_through (d : Diagnostic) (frames : List Frame) :
    (d.through frames).fault = d.fault := by
  induction frames generalizing d with
  | nil => rfl
  | cons frame rest ih => exact ih (d.locate frame.statement.loc frame.file)

/-- The first place on the way out counts. -/
theorem loc_through (d : Diagnostic) (frames : List Frame) :
    (d.through frames).loc = d.loc.or (frames.head?.map (·.statement.loc)) := by
  induction frames generalizing d with
  | nil => simp
  | cons frame rest ih =>
      have behind := ih (d.locate frame.statement.loc frame.file)
      -- behind the innermost statement there is a place, and it stays
      cases placed : d.loc with
      | none => simpa [through, locate, placed] using behind
      | some loc => simpa [through, locate, placed] using behind

/-- The first file on the way out counts, wherever the place came from. -/
theorem file_through (d : Diagnostic) (frames : List Frame) :
    (d.through frames).file = d.file.or (frames.findSome? Frame.file) := by
  induction frames generalizing d with
  | nil => simp
  | cons frame rest ih =>
      have behind := ih (d.locate frame.statement.loc frame.file)
      cases named : d.file with
      | none => cases named' : frame.file <;> simpa [through, locate, named, named'] using behind
      | some file => simpa [through, locate, named] using behind

end Diagnostic

/-- A diagnostic before any statement has given it a place: a fault of a step, or
what is wrong with the text of a module that a host has. -/
inductive Raised (host : Host) : Diagnostic → Prop where
  | fault {cause : Fault} (sound : ∀ issue, cause ≠ .malformed issue) :
      Raised host ⟨cause, none, none⟩
  | module {name : Text} {file : Option Text} {found : ModuleSource} {cause : Diagnostic}
      (there : host.resolver.resolve name file = .ok (some found))
      (wrong : parse found.source = .error cause) :
      Raised host (cause.locate .origin (some found.path))

namespace Eval

variable {host : Host} {α β : Type}

/-- How a step from a state ended tells of the statements that it came out of: none
if it came to its end; after a failure those that had begun since. -/
def Told (host : Host) (s : State) : EStateM.Result Stop State α → Prop
  | .ok _ t => t.file = s.file ∧ t.underway = s.underway
  | .error (.failed (.program d)) t =>
      t.file = s.file ∧
        ∃ raw frames, Raised host raw ∧ t.underway = frames ++ s.underway ∧ d = raw.through frames
  | .error _ t => t.file = s.file

def Tells (host : Host) (step : Eval α) : Prop := ∀ s, Told host s (step s)

/-- What is told from a state is told from one with the same file and the same
statements being carried out. -/
theorem told_of_same {s t : State} {result : EStateM.Result Stop State α}
    (told : Told host t result) (file : t.file = s.file) (underway : t.underway = s.underway) :
    Told host s result := by
  unfold Told at told ⊢
  rwa [file, underway] at told

theorem tells_pure (a : α) : Tells host (pure a : Eval α) := fun _ => ⟨rfl, rfl⟩

theorem tells_bind {x : Eval α} {f : α → Eval β} (first : Tells host x)
    (rest : ∀ a, Tells host (f a)) : Tells host (x >>= f) := by
  intro s
  have told := first s
  cases outcome : x s with
  | ok a t =>
      rw [bind_ok outcome]
      rw [outcome] at told
      exact told_of_same (rest a t) told.1 told.2
  | error e t =>
      rw [bind_error outcome]
      rw [outcome] at told
      cases e with
      | failed failure => cases failure <;> exact told
      | outOfFuel => exact told

/-- A step that looks at the state and goes on. -/
theorem tells_get {f : State → Eval β} (rest : ∀ s, Tells host (f s)) : Tells host (get >>= f) :=
  fun s => rest s s

theorem tells_modify {change : State → State} (file : ∀ s, (change s).file = s.file)
    (underway : ∀ s, (change s).underway = s.underway) : Tells host (modify change) :=
  fun s => ⟨file s, underway s⟩

theorem tells_modifyGet {change : State → α × State} (file : ∀ s, (change s).2.file = s.file)
    (underway : ∀ s, (change s).2.underway = s.underway) : Tells host (modifyGet change) :=
  fun s => ⟨file s, underway s⟩

/-- Where a failure arises, no statement has been passed. -/
theorem tells_raised {d : Diagnostic} (raised : Raised host d) :
    Tells host (failWith (.program d) : Eval α) := fun _ => ⟨rfl, d, [], raised, rfl, rfl⟩

theorem tells_fault {cause : Fault} (sound : ∀ issue, cause ≠ .malformed issue) :
    Tells host (fault cause : Eval α) := tells_raised (.fault sound)

theorem tells_typeFault (cause : TypeFault) : Tells host (typeFault cause : Eval α) :=
  tells_fault (fun _ => nofun)

theorem tells_runtimeFault (cause : RuntimeFault) : Tells host (runtimeFault cause : Eval α) :=
  tells_fault (fun _ => nofun)

theorem tells_hostFault (cause : HostFault) : Tells host (failWith (.host cause) : Eval α) :=
  fun _ => rfl

theorem tells_outOfFuel : Tells host (outOfFuel : Eval α) := fun _ => rfl

theorem tells_present (result : Option α) : Tells host (present result) := by
  cases result with
  | none => exact tells_hostFault _
  | some a => exact tells_pure a

/-! Control. -/

/-- A change that is undone, if the undoing brings the file back and neither touches the
statements that are being carried out. -/
theorem tells_finally {step : Eval α} (tells : Tells host step) (s begun : State)
    {undo : State → State} (entered : begun.underway = s.underway)
    (file : ∀ t, t.file = begun.file → (undo t).file = s.file)
    (underway : ∀ t, (undo t).underway = t.underway) : Told host s (finally_ step undo begun) := by
  have told := tells begun
  cases outcome : step begun with
  | ok a t =>
      rw [finally_ok outcome]
      rw [outcome] at told
      exact ⟨file t told.1, (underway t).trans (told.2.trans entered)⟩
  | error e t =>
      rw [finally_error outcome]
      rw [outcome] at told
      cases e with
      | outOfFuel => exact file t told
      | failed failure =>
          cases failure with
          | host cause => exact file t told
          | program d =>
              obtain ⟨kept, raw, frames, raised, passed, same⟩ := told
              refine ⟨file t kept, raw, frames, raised, ?_, same⟩
              rw [underway, passed, entered]

theorem tells_inFile (file : Option Text) {step : Eval α} (tells : Tells host step) :
    Tells host (inFile file step) :=
  fun s => tells_finally tells s _ rfl (fun _ _ => rfl) (fun _ => rfl)

theorem tells_inCall {step : Eval α} (tells : Tells host step) : Tells host (inCall step) :=
  fun s => tells_finally tells s _ rfl (fun _ kept => kept) (fun _ => rfl)

theorem tells_whileLoading (path : Text) {step : Eval α} (tells : Tells host step) :
    Tells host (whileLoading path step) :=
  fun s => tells_finally tells s _ rfl (fun _ kept => kept) (fun _ => rfl)

theorem tells_whileRunning (loop : Nat) {step : Eval α} (tells : Tells host step) :
    Tells host (whileRunning loop step) :=
  fun s => tells_finally tells s _ rfl (fun _ kept => kept) (fun _ => rfl)

/-- A statement is one of those that a failure of it came out of, and what it gives the
failure comes after what the statements inside have given it. -/
theorem tells_statement (statement : Stmt) {step : Eval α} (tells : Tells host step) :
    Tells host (located statement.loc (during statement step)) := by
  intro s
  have told := tells { s with underway := ⟨statement, s.file⟩ :: s.underway }
  unfold located during
  cases outcome : step { s with underway := ⟨statement, s.file⟩ :: s.underway } with
  | ok a t =>
      rw [outcome] at told
      exact ⟨told.1, rfl⟩
  | error e t =>
      rw [outcome] at told
      cases e with
      | outOfFuel => exact told
      | failed failure =>
          cases failure with
          | host cause => exact told
          | program d =>
              obtain ⟨kept, raw, frames, raised, passed, same⟩ := told
              refine ⟨kept, raw, frames ++ [⟨statement, s.file⟩], raised, ?_, ?_⟩
              · rw [passed, List.append_assoc]
                rfl
              · rw [Diagnostic.through_concat, ← same, kept]

/-! Values. -/

theorem tells_typeOf (v : Value) : Tells host (typeOf v) := tells_present _

theorem tells_truthy (v : Value) : Tells host (truthy v) := tells_get fun _ => tells_present _

theorem tells_textOf (v : Value) : Tells host (textOf v) := tells_get fun _ => tells_present _

theorem tells_equal (a b : Value) : Tells host (equal a b) := tells_get fun _ => tells_present _

/-- A value is refused with its type. -/
theorem tells_refused (v : Value) (cause : TypeName → TypeFault) :
    Tells host (do typeFault (cause (← typeOf v)) : Eval α) :=
  tells_bind (tells_typeOf v) (fun _ => tells_typeFault _)

theorem tells_expectNumber (v : Value) (operation : Text) :
    Tells host (expectNumber v operation) := by
  unfold expectNumber
  split
  · exact tells_pure _
  · exact tells_refused _ _

theorem tells_expectString (v : Value) (operation : Text) :
    Tells host (expectString v operation) := by
  unfold expectString
  split
  · exact tells_pure _
  · exact tells_refused _ _

theorem tells_stamp : Tells host stamp := tells_modifyGet (fun _ => rfl) (fun _ => rfl)

theorem tells_number (x : Float) : Tells host (number x) := by
  unfold number
  split
  · exact tells_bind tells_stamp (fun _ => tells_pure _)
  · exact tells_pure _

/-! The heap. -/

theorem tells_newArray (elements : Array Slot) : Tells host (newArray elements) :=
  tells_modifyGet (fun _ => rfl) (fun _ => rfl)

theorem tells_newHash (entries : Table Value) : Tells host (newHash entries) :=
  tells_modifyGet (fun _ => rfl) (fun _ => rfl)

theorem tells_ofJson (data : Json) : Tells host (ofJson data) :=
  tells_modifyGet (fun _ => rfl) (fun _ => rfl)

theorem tells_array (ref : Nat) : Tells host (array ref) := tells_get fun _ => tells_pure _

theorem tells_hash (ref : Nat) : Tells host (hash ref) := tells_get fun _ => tells_pure _

theorem tells_entry (ref : Nat) (key : Text) : Tells host (entry ref key) :=
  tells_get fun _ => tells_pure _

theorem tells_modifyArray (ref : Nat) (f : Array Slot → Array Slot) :
    Tells host (modifyArray ref f) := tells_modify (fun _ => rfl) (fun _ => rfl)

theorem tells_modifyHash (ref : Nat) (f : Table Value → Table Value) :
    Tells host (modifyHash ref f) := tells_modify (fun _ => rfl) (fun _ => rfl)

/-! Scopes. -/

theorem tells_newScope (parent : Nat) (kind : ScopeKind) : Tells host (newScope parent kind) :=
  tells_modifyGet (fun _ => rfl) (fun _ => rfl)

theorem tells_lookup (scope : Nat) (name : Text) : Tells host (lookup scope name) := by
  apply tells_get
  intro s
  split
  · exact tells_pure _
  · exact tells_fault (fun _ => nofun)

theorem tells_define (scope : Nat) (name : Text) (v : Value) :
    Tells host (define scope name v) := tells_modify (fun _ => rfl) (fun _ => rfl)

theorem tells_assign (scope : Nat) (name : Text) (v : Value) :
    Tells host (assign scope name v) := tells_modify (fun _ => rfl) (fun _ => rfl)

theorem tells_mark (m : Mark) : Tells host (mark m) :=
  tells_modify (fun _ => rfl) (fun _ => rfl)

theorem tells_note (b : Binding) : Tells host (note b) :=
  tells_modify (fun _ => rfl) (fun _ => rfl)

theorem tells_rebind (scope : Nat) (name : Text) (v : Value) (b : Binding) :
    Tells host (rebind scope name v b) :=
  tells_bind (tells_define scope name v) (fun _ => tells_note b)

theorem tells_shareOuter (scope : Nat) (name : Text) : Tells host (shareOuter scope name) := by
  rw [shareOuter_eq]
  apply tells_bind (tells_mark _)
  intro _
  apply tells_get
  intro s
  split
  · exact tells_runtimeFault _
  · exact tells_modify (fun _ => rfl) (fun _ => rfl)

theorem tells_emit (line : Text) (key : Option Text) : Tells host (emit line key) :=
  tells_modify (fun _ => rfl) (fun _ => rfl)

end Eval

end Loom
