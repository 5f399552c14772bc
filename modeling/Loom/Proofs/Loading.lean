import Mathlib.Data.List.Dedup
import Loom.Proofs.Control

/-!
Script modules are loaded once. As long as the modules that are kept are not
forgotten, a module is never kept and being loaded at the same time; so a load that
begins is of a module that has not come to its end before, and an import of a module
that is being loaded is told from one of a module that is kept. A run may fail at any
point in between without disturbing this.
-/

namespace Loom

open Eval Interpreter

/-- The paths of the modules that a resolver has. -/
def Resolver.paths : Resolver → List Text
  | .table modules => Table.keys modules
  | .files fs => Table.keys fs.files

theorem FileSystem.mem_keys_of_read? {fs : FileSystem} {path text : Text}
    (read : fs.read? path = .ok (some text)) : path ∈ Table.keys fs.files := by
  unfold FileSystem.read? at read
  cases hit : Table.find? path fs.files with
  | some found => exact Table.mem_keys_of_find? hit
  | none =>
      cases directory : fs.isDirectory path with
      | true => simp [hit, directory] at read
      | false => simp [hit, directory] at read

theorem Resolver.mem_paths_of_resolve {resolver : Resolver} {name : Text} {file : Option Text}
    {found : ModuleSource} (there : resolver.resolve name file = .ok (some found)) :
    found.path ∈ resolver.paths := by
  cases resolver with
  | table modules =>
      simp only [Resolver.resolve, Except.ok.injEq, Option.map_eq_some_iff] at there
      obtain ⟨source, hit, rfl⟩ := there
      exact Table.mem_keys_of_find? hit
  | files fs =>
      simp only [Resolver.resolve, bind, Except.bind, pure, Except.pure] at there
      split at there
      · cases there
      · rename_i read outcome
        simp only [Except.ok.injEq, Option.map_eq_some_iff] at there
        obtain ⟨source, rfl, rfl⟩ := there
        exact FileSystem.mem_keys_of_read? outcome

/-- Marks that tell of script modules. -/
def Mark.IsOfModule : Mark → Prop
  | .began _ _ | .ended _ | .imported _ _ _ => True
  | _ => False

theorem Mark.not_of_module_of_quiet {m : Mark} (quiet : m.IsQuiet) : ¬ m.IsOfModule := by
  cases m <;> simp_all [Mark.IsQuiet, Mark.IsOfModule]

namespace State

/-- The modules kept, those being loaded and the marks that loads have left agree. -/
structure Orderly (path : Text → Prop) (s : State) : Prop where
  /-- What is being loaded is not kept. -/
  fresh : ∀ p ∈ s.loading, Table.find? p s.moduleCache = none
  known : ∀ p ∈ s.loading, path p
  distinct : s.loading.Nodup
  /-- What is kept has come to its end, once, and nothing else has. -/
  ended : ∀ p, s.history.count (.ended p) = if (Table.find? p s.moduleCache).isSome then 1 else 0
  isHash : ∀ p v, Table.find? p s.moduleCache = some v → ∃ place, v = .hash place
  imported : ∀ p place within, .imported p place within ∈ s.history →
    p ∉ within ∧ ∃ ref, place = some ref ∧ Table.find? p s.moduleCache = some (.hash ref)
  began : ∀ p within, .began p within ∈ s.history →
    (p :: within).Nodup ∧ ∀ q ∈ p :: within, path q
  /-- Nothing begins again after its end. -/
  ordered : s.history.Pairwise (fun later earlier =>
    ∀ p within, later = .began p within → earlier ≠ .ended p)

variable {path : Text → Prop} {s t : State}

theorem Orderly.of_same (orderly : s.Orderly path) (loading : t.loading = s.loading)
    (modules : t.moduleCache = s.moduleCache) (history : t.history = s.history) :
    t.Orderly path := by
  constructor
  · rw [loading, modules]; exact orderly.fresh
  · rw [loading]; exact orderly.known
  · rw [loading]; exact orderly.distinct
  · rw [modules, history]; exact orderly.ended
  · rw [modules]; exact orderly.isHash
  · rw [modules, history]; exact orderly.imported
  · rw [history]; exact orderly.began
  · rw [history]; exact orderly.ordered

theorem Orderly.imp {wider : Text → Prop} (orderly : s.Orderly path)
    (more : ∀ p, path p → wider p) : s.Orderly wider :=
  ⟨orderly.fresh, fun p member => more p (orderly.known p member), orderly.distinct,
    orderly.ended, orderly.isHash, orderly.imported,
    fun p within hit => ⟨(orderly.began p within hit).1,
      fun q member => more q ((orderly.began p within hit).2 q member)⟩, orderly.ordered⟩

/-- What is kept is what has come to its end. -/
theorem Orderly.ended_mem_iff (orderly : s.Orderly path) (p : Text) :
    .ended p ∈ s.history ↔ (Table.find? p s.moduleCache).isSome = true := by
  rw [← List.count_pos_iff, orderly.ended p]
  by_cases kept : (Table.find? p s.moduleCache).isSome = true
  · simp [kept]
  · simp [kept]

theorem Orderly.marked (orderly : s.Orderly path) {m : Mark} (other : ¬ m.IsOfModule)
    (loading : t.loading = s.loading) (modules : t.moduleCache = s.moduleCache)
    (history : t.history = m :: s.history) : t.Orderly path := by
  constructor
  case fresh => rw [loading, modules]; exact orderly.fresh
  case known => rw [loading]; exact orderly.known
  case distinct => rw [loading]; exact orderly.distinct
  case ended =>
    intro p
    have differ : m ≠ .ended p := by
      rintro rfl
      exact other trivial
    rw [modules, history, List.count_cons_of_ne differ]
    exact orderly.ended p
  case isHash => rw [modules]; exact orderly.isHash
  case imported =>
    intro p place within hit
    rw [history] at hit
    rw [modules]
    rcases List.mem_cons.mp hit with rfl | earlier
    · exact absurd trivial other
    · exact orderly.imported p place within earlier
  case began =>
    intro p within hit
    rw [history] at hit
    rcases List.mem_cons.mp hit with rfl | earlier
    · exact absurd trivial other
    · exact orderly.began p within earlier
  case ordered =>
    rw [history]
    refine List.pairwise_cons.mpr ⟨?_, orderly.ordered⟩
    rintro earlier _ p within rfl
    exact absurd trivial other

/-- A module that is neither kept nor being loaded may begin. -/
theorem Orderly.begun (orderly : s.Orderly path) {p : Text} (known : path p)
    (idle : p ∉ s.loading) (new : Table.find? p s.moduleCache = none) :
    (s.begun p).Orderly path := by
  have distinct : (p :: s.loading).Nodup := List.nodup_cons.mpr ⟨idle, orderly.distinct⟩
  have all : ∀ q ∈ p :: s.loading, path q := List.forall_mem_cons.mpr ⟨known, orderly.known⟩
  constructor
  case fresh => exact List.forall_mem_cons.mpr ⟨new, orderly.fresh⟩
  case known => exact all
  case distinct => exact distinct
  case ended =>
    intro q
    have differ : Mark.began p s.loading ≠ .ended q := by simp
    exact (List.count_cons_of_ne differ).trans (orderly.ended q)
  case isHash => exact orderly.isHash
  case imported =>
    intro q place within hit
    rcases List.mem_cons.mp hit with same | earlier
    · cases same
    · exact orderly.imported q place within earlier
  case began =>
    intro q within hit
    rcases List.mem_cons.mp hit with same | earlier
    · cases same
      exact ⟨distinct, all⟩
    · exact orderly.began q within earlier
  case ordered =>
    refine List.pairwise_cons.mpr ⟨?_, orderly.ordered⟩
    intro earlier member q within same
    cases same
    rintro rfl
    -- what has come to its end is kept, and this module is not
    have kept := (orderly.ended_mem_iff p).mp member
    simp [new] at kept

/-- A load that fails leaves nothing behind. -/
theorem Orderly.broken (orderly : t.Orderly path) (p : Text) : (t.broken p).Orderly path :=
  ⟨fun q member => orderly.fresh q (List.mem_of_mem_erase member),
    fun q member => orderly.known q (List.mem_of_mem_erase member),
    orderly.distinct.erase p, orderly.ended, orderly.isHash, orderly.imported, orderly.began,
    orderly.ordered⟩

/-- A load that comes to its end is of a module that was not kept meanwhile. -/
theorem Orderly.keeping (orderly : t.Orderly path) {p : Text} (inside : p ∈ t.loading)
    (heap : Heap) (place : Nat) : (t.keeping p heap place).Orderly path := by
  have new := orderly.fresh p inside
  have kept : ∀ q, Table.find? q (t.keeping p heap place).moduleCache =
      if p = q then some (.hash place) else Table.find? q t.moduleCache :=
    fun q => Table.find?_insert p q _ _
  have others : ∀ q v, Table.find? q t.moduleCache = some v →
      Table.find? q (t.keeping p heap place).moduleCache = some v := by
    intro q v hit
    have differ : p ≠ q := by
      rintro rfl
      simp [new] at hit
    rw [kept, if_neg differ]
    exact hit
  constructor
  case fresh =>
    intro q member
    have left := (orderly.distinct.mem_erase_iff).mp member
    rw [kept, if_neg (Ne.symm left.1)]
    exact orderly.fresh q left.2
  case known => exact fun q member => orderly.known q (List.mem_of_mem_erase member)
  case distinct => exact orderly.distinct.erase p
  case ended =>
    intro q
    rw [kept]
    by_cases same : p = q
    · subst same
      have before : t.history.count (.ended p) = 0 := by simpa [new] using orderly.ended p
      simp [State.keeping, before]
    · have differ : Mark.ended p ≠ .ended q := by simpa using same
      rw [if_neg same, ← orderly.ended q]
      exact List.count_cons_of_ne differ
  case isHash =>
    intro q v hit
    rw [kept] at hit
    by_cases same : p = q
    · rw [if_pos same] at hit
      cases hit
      exact ⟨place, rfl⟩
    · rw [if_neg same] at hit
      exact orderly.isHash q v hit
  case imported =>
    intro q place' within hit
    rcases List.mem_cons.mp hit with same | earlier
    · cases same
    · obtain ⟨outside, ref, here, hit⟩ := orderly.imported q place' within earlier
      exact ⟨outside, ref, here, others q _ hit⟩
  case began =>
    intro q within hit
    rcases List.mem_cons.mp hit with same | earlier
    · cases same
    · exact orderly.began q within earlier
  case ordered =>
    refine List.pairwise_cons.mpr ⟨?_, orderly.ordered⟩
    intro earlier _ q within same
    cases same

/-- An import that gives what is kept is not inside a load of it. -/
theorem Orderly.given (orderly : s.Orderly path) {p : Text} {v : Value}
    (kept : Table.find? p s.moduleCache = some v) :
    ({ s with history := .imported p (placeOf v) s.loading :: s.history } : State).Orderly
      path := by
  constructor
  case fresh => exact orderly.fresh
  case known => exact orderly.known
  case distinct => exact orderly.distinct
  case ended =>
    intro q
    have differ : Mark.imported p (placeOf v) s.loading ≠ .ended q := by simp
    exact (List.count_cons_of_ne differ).trans (orderly.ended q)
  case isHash => exact orderly.isHash
  case imported =>
    intro q place within hit
    rcases List.mem_cons.mp hit with same | earlier
    · cases same
      obtain ⟨ref, rfl⟩ := orderly.isHash p v kept
      refine ⟨?_, ref, rfl, kept⟩
      intro inside
      have new := orderly.fresh p inside
      rw [kept] at new
      cases new
    · exact orderly.imported q place within earlier
  case began =>
    intro q within hit
    rcases List.mem_cons.mp hit with same | earlier
    · cases same
    · exact orderly.began q within earlier
  case ordered =>
    refine List.pairwise_cons.mpr ⟨?_, orderly.ordered⟩
    intro earlier _ q within same
    cases same

end State

/-- Whatever evaluated code and event loops do leaves the modules in order. -/
theorem orderly_of_chain {terms : Terms} {base : Nat} {part : Part} {s t : State}
    (chain : Chain terms base part s t) (orderly : s.Orderly terms.path) :
    t.Orderly terms.path := by
  induction chain with
  | none s => exact orderly
  | andThen _ _ first second => exact second (first orderly)
  | data _ history control sources =>
      exact orderly.of_same control.loading sources.modules history
  | root s _ => exact orderly.of_same rfl rfl rfl
  | child s _ _ _ _ _ => exact orderly.of_same rfl rfl rfl
  | rebound s _ _ _ _ _ => exact orderly.of_same rfl rfl rfl
  | assign s _ _ _ _ => exact orderly.of_same rfl rfl rfl
  | marked s m quiet => exact orderly.marked (Mark.not_of_module_of_quiet quiet) rfl rfl rfl
  | share s _ name _ _ => exact orderly.marked (m := .used name) id rfl rfl rfl
  | declare s _ name _ _ _ => exact orderly.marked (m := .used name) id rfl rfl rfl
  | inFile s t file _ inner => exact (inner (orderly.of_same rfl rfl rfl)).of_same rfl rfl rfl
  | inCall s t _ inner => exact (inner (orderly.of_same rfl rfl rfl)).of_same rfl rfl rfl
  | broken s t p known idle new _ inner =>
      exact (inner (orderly.begun known idle new)).broken p
  | loaded s t p known idle new heap place top inner =>
      -- control is restored, so the module is still marked as being loaded
      have loading : t.loading = p :: s.loading := (effect_same_control top).loading
      have inside : p ∈ t.loading := by simp [loading]
      exact (inner (orderly.begun known idle new)).keeping inside heap place
  | imported s p v kept => exact orderly.given kept
  | native s _ _ => exact orderly.of_same rfl rfl rfl
  | opened s _ _ _ _ _ => exact orderly.marked (m := .opened s.loops.size) id rfl rfl rfl
  | took s loop _ _ _ => exact orderly.marked (m := .took loop) id rfl rfl rfl
  | handled _ _ inner => exact inner orderly
  | whileRunning s t _ _ _ _ inner =>
      exact (inner (orderly.of_same rfl rfl rfl)).of_same rfl rfl rfl

namespace Discipline

/-- The discipline that asks nothing, on hosts with the modules of a host. -/
abbrev offering (host : Host) : Discipline := freeOn (· ∈ host.resolver.paths) (fun _ => True)

theorem obeys_offering (host : Host) (fuel : Nat) :
    (Machine.of host fuel).Obeys (offering host) 0 :=
  obeys_of ⟨fun _ _ _ _ _ => trivial, fun _ _ => trivial,
    fun _ _ _ there => Resolver.mem_paths_of_resolve there⟩ (Nat.le_refl 0) fuel

end Discipline

open Discipline

theorem orderly_after {α : Type} {host : Host} {s : State} {step : Eval α} {good : State → α → Prop}
    (orderly : s.Orderly (· ∈ host.resolver.paths))
    (ensured : (offering host).Ensures 0 s step good) :
    (Eval.after step s).Orderly (· ∈ host.resolver.paths) :=
  orderly_of_chain (effect_of_ensures ensured (Nat.zero_le _)) orderly

/-! Imports. -/

/-- How an import of a module may end: with what is kept of it then, or with nothing
kept. -/
def Settled (path : Text) : EStateM.Result Stop State Value → Prop
  | .ok v t => Table.find? path t.moduleCache = some v
  | .error _ t => Table.find? path t.moduleCache = none

variable {m : Machine} {s : State}

theorem settled_load (obeys : m.Obeys (offering m.host) 0) {path : Text} {program : Program}
    {scope : Nat} (orderly : s.Orderly (· ∈ m.host.resolver.paths))
    (known : path ∈ m.host.resolver.paths) (idle : path ∉ s.loading)
    (new : Table.find? path s.moduleCache = none) : Settled path (load m path program scope s) := by
  have top : (offering m.host).Ensures 0 (s.begun path)
      (inFile (some path) (topLevel m program scope)) (fun _ _ => True) :=
    ensures_inFile
      (ensures_topLevel obeys program.placed_of_lenient (Nat.zero_le _) False.elim)
      (fun _ _ _ => trivial)
  have settled := orderly_after (orderly.begun known idle new) top
  have control := effect_same_control (effect_of_ensures top (Nat.zero_le _))
  rw [load_eq]
  unfold Eval.after at settled control
  cases outcome : inFile (some path) (topLevel m program scope) (s.begun path) with
  | ok a t => exact (Table.find?_insert path path _ _).trans (if_pos rfl)
  | error e t =>
      simp only [outcome] at settled control
      have loading : t.loading = path :: s.loading := control.loading
      exact settled.fresh path (by simp [loading])

theorem settled_runModule (obeys : m.Obeys (offering m.host) 0) {path : Text} (source : Text)
    (orderly : s.Orderly (· ∈ m.host.resolver.paths)) (known : path ∈ m.host.resolver.paths)
    (idle : path ∉ s.loading) (new : Table.find? path s.moduleCache = none) :
    Settled path (runModule m path source s) := by
  unfold runModule
  cases parse source with
  | error cause => exact new
  | ok program =>
      obtain ⟨scope, scopes, made⟩ := newGlobals_eq s
      simp only
      rw [bind_ok made]
      exact settled_load obeys (orderly.of_same rfl rfl rfl) known idle new

/-- What is kept is given, and nothing is run. -/
theorem loadScript_kept {name : Text} {found : ModuleSource} {v : Value}
    (there : m.host.resolver.resolve name s.file = .ok (some found))
    (kept : Table.find? found.path s.moduleCache = some v) :
    loadScript m name s =
      .ok v { s with history := .imported found.path (placeOf v) s.loading :: s.history } := by
  simp only [loadScript, get_bind_run, there, kept]
  rfl

theorem loadScript_circular {name : Text} {found : ModuleSource}
    (there : m.host.resolver.resolve name s.file = .ok (some found))
    (new : Table.find? found.path s.moduleCache = none) (inside : found.path ∈ s.loading) :
    loadScript m name s = .error (.failed (.of (.runtime (.circularImport name)))) s := by
  simp only [loadScript, get_bind_run, there, new]
  simp only [List.contains_eq_mem, inside, decide_true, if_true]
  rfl

theorem loadScript_new {name : Text} {found : ModuleSource}
    (there : m.host.resolver.resolve name s.file = .ok (some found))
    (new : Table.find? found.path s.moduleCache = none) (idle : found.path ∉ s.loading) :
    loadScript m name s =
      (runModule m found.path found.source >>= fun v => given found.path v) s := by
  simp only [loadScript, get_bind_run, there, new]
  simp only [List.contains_eq_mem, idle, decide_false, Bool.false_eq_true, if_false]

theorem settled_loadScript (obeys : m.Obeys (offering m.host) 0) {name : Text}
    {found : ModuleSource} (orderly : s.Orderly (· ∈ m.host.resolver.paths))
    (there : m.host.resolver.resolve name s.file = .ok (some found)) :
    Settled found.path (loadScript m name s) := by
  cases kept : Table.find? found.path s.moduleCache with
  | some v =>
      rw [loadScript_kept there kept]
      exact kept
  | none =>
      by_cases inside : found.path ∈ s.loading
      · rw [loadScript_circular there kept inside]
        exact kept
      · have known := Resolver.mem_paths_of_resolve there
        have ran := settled_runModule obeys found.source orderly known inside kept
        rw [loadScript_new there kept inside]
        cases outcome : runModule m found.path found.source s with
        | ok v t =>
            rw [outcome] at ran
            rw [bind_ok outcome]
            exact ran
        | error e t =>
            rw [outcome] at ran
            rw [bind_error outcome]
            exact ran

/-- An import of a module that is kept binds what is kept, and runs nothing. -/
theorem import_kept {name : Text} {found : ModuleSource} {v : Value} {scope : Nat}
    {rest : List Text} (there : m.host.resolver.resolve name s.file = .ok (some found))
    (kept : Table.find? found.path s.moduleCache = some v) :
    importAll m false scope (name :: rest) s =
      importAll m false scope rest
        { s with
          scopes := s.scopes.define scope name v
          history := .imported found.path (placeOf v) s.loading :: s.history } := by
  have loaded := loadScript_kept there kept
  rw [importAll, loadModule, if_neg (by simp), bind_ok loaded]
  rfl

/-- An import of a module that is being loaded fails, and changes nothing. -/
theorem import_circular {name : Text} {found : ModuleSource} {scope : Nat} {rest : List Text}
    {path : Text → Prop} (orderly : s.Orderly path)
    (there : m.host.resolver.resolve name s.file = .ok (some found))
    (inside : found.path ∈ s.loading) :
    importAll m false scope (name :: rest) s =
      .error (.failed (.of (.runtime (.circularImport name)))) s := by
  have failed := loadScript_circular there (orderly.fresh found.path inside) inside
  rw [importAll, loadModule, if_neg (by simp), bind_error failed]

/-! Sessions. -/

namespace Interpreter

theorem orderly_of_served {terms : Terms} {events : List HostEvent} {s t : State}
    (served : Served terms events s t) (orderly : s.Orderly terms.path) : t.Orderly terms.path := by
  cases served with
  | ran effect => exact orderly_of_chain effect orderly
  | pushed => exact orderly.of_same rfl rfl rfl

/-- An interpreter whose modules are in order. -/
def Orderly (i : Interpreter) : Prop := i.state.Orderly (· ∈ i.host.resolver.paths)

/-- A host that is given another module still has those that it had. -/
theorem orderly_addModule {i : Interpreter} (orderly : i.Orderly) (name source : Text) :
    (i.addModule name source).Orderly := by
  unfold Interpreter.Orderly at orderly ⊢
  rw [addModule_state]
  apply orderly.imp
  intro path known
  cases resolver : i.host.resolver with
  | table modules =>
      rw [resolver] at known
      simpa [Interpreter.addModule, resolver, Resolver.paths] using
        (Table.mem_keys_insert name path source modules).mpr (.inr known)
  | files fs => simpa [Interpreter.addModule, resolver] using known

theorem orderly_serve (fuel : Nat) {i : Interpreter} (orderly : i.Orderly) {request : Request}
    (keeps : request ≠ .reset) : (i.serve (fun host => .of host fuel) request).2.Orderly := by
  by_cases adds : ∃ name source, request = .addModule name source
  · obtain ⟨name, source, rfl⟩ := adds
    exact orderly_addModule orderly name source
  · have other : ∀ name source, request ≠ .addModule name source :=
      fun name source same => adds ⟨name, source, same⟩
    have serving : (offering i.host).Serving request.pushes i.state
        (i.serve (fun host => .of host fuel) request) :=
      serving_serve (obeys_offering i.host fuel) (ready_free i.state (Nat.zero_le _)) False.elim
        request request.placed_of_lenient keeps
    unfold Interpreter.Orderly
    rw [serve_host i other]
    exact orderly_of_served serving.served orderly

theorem orderly_serveAll (fuel : Nat) (requests : List Request) {i : Interpreter}
    (orderly : i.Orderly) (keeps : .reset ∉ requests) :
    (i.serveAll (fun host => .of host fuel) requests).2.Orderly := by
  induction requests generalizing i with
  | nil => exact orderly
  | cons request rest ih =>
      have differ : request ≠ .reset := by
        rintro rfl
        exact keeps (.head _)
      exact ih (orderly_serve fuel orderly differ) (fun later => keeps (.tail _ later))

theorem orderly_new (host : Host) (events : List HostEvent) : (new host events).Orderly := by
  have blank : (blankState events).Orderly (· ∈ host.resolver.paths) := by
    constructor <;> simp [blankState, Table.find?]
  have made : (new host events).state.Orderly (· ∈ host.resolver.paths) := by
    obtain ⟨globals, scopes, outcome⟩ := withNewGlobals_eq (blankState events)
    rw [new, outcome]
    exact blank.of_same rfl rfl rfl
  exact made

end Interpreter

theorem State.Orderly.nested_le {modules : List Text} (orderly : s.Orderly (· ∈ modules))
    {path : Text} {within : List Text} (began : .began path within ∈ s.history) :
    (path :: within).length ≤ modules.dedup.length := by
  obtain ⟨distinct, known⟩ := orderly.began path within began
  apply List.Subperm.length_le
  apply List.subperm_of_subset distinct
  intro q member
  exact List.mem_dedup.mpr (known q member)

/-- In a session that forgets no module, after any requests and whatever they came to:
nothing is being loaded; the top level of a module has come to its end at most once,
and exactly if the module is kept; it has not begun again after that; every import of
the module has given the one hash that is kept, and none has been inside its own load;
and nested loads are of different modules.

At every point of a run, from which every statement goes on: an import of what is kept
binds what is kept and runs nothing; an import of what is being loaded fails; and any
other leaves the module kept if it succeeds and not kept if it fails, with nothing more
being loaded than before. -/
theorem modules_load_once (fuel : Nat) :
    (∀ host events requests, .reset ∉ requests →
      let i := ((Interpreter.new host events).serveAll (fun host => .of host fuel) requests).2
      i.Orderly ∧ i.state.loading = [] ∧
      (∀ path, i.state.history.count (.ended path) ≤ 1) ∧
      (∀ path, .ended path ∈ i.state.history ↔
        (Table.find? path i.state.moduleCache).isSome = true) ∧
      i.state.history.Pairwise (fun later earlier =>
        ∀ path within, later = .began path within → earlier ≠ .ended path) ∧
      (∀ path place within, .imported path place within ∈ i.state.history →
        path ∉ within ∧ ∃ ref, place = some ref ∧
          Table.find? path i.state.moduleCache = some (.hash ref)) ∧
      (∀ path within, .began path within ∈ i.state.history →
        (path :: within).Nodup ∧
          (path :: within).length ≤ i.host.resolver.paths.dedup.length)) ∧
    (∀ (host : Host) (s : State), s.Orderly (· ∈ host.resolver.paths) →
      (∀ st scope, (after (execStmt (.of host fuel) st scope) s).Orderly
        (· ∈ host.resolver.paths)) ∧
      ∀ name found, host.resolver.resolve name s.file = .ok (some found) →
        (∀ scope rest v, Table.find? found.path s.moduleCache = some v →
          importAll (.of host fuel) false scope (name :: rest) s =
            importAll (.of host fuel) false scope rest
              { s with
                scopes := s.scopes.define scope name v
                history := .imported found.path (placeOf v) s.loading :: s.history }) ∧
        (∀ scope rest, found.path ∈ s.loading →
          importAll (.of host fuel) false scope (name :: rest) s =
            .error (.failed (.of (.runtime (.circularImport name)))) s) ∧
        (∀ v t, loadScript (.of host fuel) name s = .ok v t →
          t.Orderly (· ∈ host.resolver.paths) ∧ t.loading = s.loading ∧
            Table.find? found.path t.moduleCache = some v) ∧
        ∀ e t, loadScript (.of host fuel) name s = .error e t →
          t.Orderly (· ∈ host.resolver.paths) ∧ t.loading = s.loading ∧
            Table.find? found.path t.moduleCache = none) := by
  have host_of : ∀ host, (Machine.of host fuel).host = host := by
    intro host
    cases fuel <;> rfl
  constructor
  · intro host events requests keeps i
    have orderly : i.Orderly :=
      Interpreter.orderly_serveAll fuel requests (Interpreter.orderly_new host events) keeps
    refine ⟨orderly, (at_rest_serveAll host events fuel requests).loading, ?_,
      orderly.ended_mem_iff, orderly.ordered, orderly.imported, ?_⟩
    · intro path
      rw [orderly.ended path]
      split <;> omega
    · intro path within began
      exact ⟨(orderly.began path within began).1, orderly.nested_le began⟩
  · intro host s orderly
    have obeys := obeys_offering host fuel
    constructor
    · intro st scope
      exact orderly_after orderly
        (ensures_execStmt obeys (Nat.zero_le _) st (st.placed_of_lenient .function)
          (top_of_inner rfl))
    · intro name found there
      have there' :
        (Machine.of host fuel).host.resolver.resolve name s.file = .ok (some found) := by
        rw [host_of]
        exact there
      have ensured := ensures_loadScript obeys (s := s) name
      have kept := orderly_after orderly ensured
      have control := effect_same_control (effect_of_ensures ensured (Nat.zero_le _))
      have settled := settled_loadScript (m := .of host fuel) (by rw [host_of]; exact obeys)
        (by rw [host_of]; exact orderly) there'
      unfold Eval.after at kept control
      refine ⟨?_, ?_, ?_, ?_⟩
      · intro scope rest v hit
        exact import_kept there' hit
      · intro scope rest inside
        exact import_circular orderly there' inside
      · intro v t outcome
        rw [outcome] at settled
        simp only [outcome] at kept control
        exact ⟨kept, control.loading, settled⟩
      · intro e t outcome
        rw [outcome] at settled
        simp only [outcome] at kept control
        exact ⟨kept, control.loading, settled⟩

/-- Modules of which one imports another, and two import each other. -/
def graphHost : Host :=
  { Host.plain with
    resolver := .table
      [("a", "import b\n"), ("b", "x = true\n"), ("c", "import d\n"), ("d", "import b, c\n")] }

def graphRequests : List Request :=
  [.runSource "import a\nimport b\n" none, .runSource "import c\n" none,
    .runSource "import a\n" none]

def graphSession : Interpreter :=
  ((Interpreter.new graphHost []).serveAll (fun host => .of host 12) graphRequests).2

/-- A state in which a module is being loaded. -/
def insideModule : State := (Interpreter.new graphHost []).state.begun "a"

theorem orderly_insideModule : insideModule.Orderly (· ∈ graphHost.resolver.paths) := by
  have start : (Interpreter.new graphHost []).state.Orderly (· ∈ graphHost.resolver.paths) :=
    Interpreter.orderly_new graphHost []
  exact start.begun (by decide) (by decide +kernel) (by decide +kernel)

/-- Of four modules, two come to their end; the other two begin, and end in a circle.
A module that imports itself does not get that far. -/
theorem circle_left_out :
    .reset ∉ graphRequests ∧ graphSession.Orderly ∧
      graphSession.state.history =
        [.imported "a" (some 1) [], .imported "b" (some 0) ["d", "c"], .began "d" ["c"],
          .began "c" [], .imported "b" (some 0) [], .imported "a" (some 1) [], .ended "a",
          .imported "b" (some 0) ["a"], .ended "b", .began "b" ["a"], .began "a" []] ∧
      importAll (.of graphHost 12) false 0 ["a"] insideModule =
        .error (.failed (.of (.runtime (.circularImport "a")))) insideModule := by
  have keeps : .reset ∉ graphRequests := by simp [graphRequests]
  have settled := (modules_load_once 12).1 graphHost [] graphRequests keeps
  have marks : graphSession.state.history =
      [.imported "a" (some 1) [], .imported "b" (some 0) ["d", "c"], .began "d" ["c"],
        .began "c" [], .imported "b" (some 0) [], .imported "a" (some 1) [], .ended "a",
        .imported "b" (some 0) ["a"], .ended "b", .began "b" ["a"], .began "a" []] := by
    decide +kernel
  have imports := ((modules_load_once 12).2 graphHost insideModule orderly_insideModule).2
    "a" ⟨"a", "import b\n"⟩ rfl
  exact ⟨keeps, settled.1, marks, imports.2.1 0 [] (.head _)⟩

end Loom
