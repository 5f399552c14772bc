import Loom.Eval.Import
import Loom.Proofs.Discipline.Call
import Loom.Proofs.Reading.Placed

/-!
What is ensured of imports. A module's text is read before it is run, so what is
run of it is placed; its top level runs in a scope of its own, marked as being
loaded, which it was not before.
-/

namespace Loom

open Grammar (Context)

theorem Program.placed_of_text (strict : Bool) (source : Text) (program : Program)
    (found : parse source = .ok program) : program.Placed strict := by
  cases strict with
  | true => exact placed_of_parse source program found
  | false => exact program.placed_of_lenient

theorem not_exit_of_is_syntax {cause : Diagnostic} (malformed : cause.IsSyntax) :
    ¬ cause.fault.IsExit := by
  obtain ⟨fault, same⟩ := malformed
  simp [same, Fault.IsExit]

/-- Reading a file fails only at a directory. -/
theorem FileSystem.read?_error (fs : FileSystem) (path : Text) (cause : HostFault)
    (failed : fs.read? path = .error cause) : cause = .directoryRead := by
  unfold FileSystem.read? at failed
  cases found : Table.find? path fs.files with
  | some text => simp [found] at failed
  | none =>
      cases directory : fs.isDirectory path with
      | true =>
          simp [found, directory] at failed
          exact failed.symm
      | false => simp [found, directory] at failed

theorem Resolver.resolve_error (resolver : Resolver) (name : Text) (file : Option Text)
    (cause : HostFault) (failed : resolver.resolve name file = .error cause) :
    cause = .directoryRead := by
  cases resolver with
  | table modules => simp [Resolver.resolve] at failed
  | files fs =>
      simp only [Resolver.resolve, bind, Except.bind, pure, Except.pure] at failed
      split at failed
      · rename_i cause' failed'
        cases failed
        exact fs.read?_error _ _ failed'
      · cases failed

namespace Discipline

open Eval

variable {d : Discipline} {base : Nat} {s : State} {m : Machine}

/-- What is bound in a new global scope. -/
def builtinEntries (scope : Nat) : List (Text × Value) :=
  Builtin.all.map (fun b => (b.name, .native ⟨.builtin b, scope⟩ false))

theorem defineBuiltins_run (scope : Nat) (list : List Builtin) (t : State) :
    defineBuiltins scope list t =
      .ok () { t with
        scopes := t.scopes.defineAll scope
          (list.map (fun b => (b.name, .native ⟨.builtin b, scope⟩ false))) } := by
  induction list generalizing t with
  | nil => rfl
  | cons b rest ih => exact ih _

/-- New globals are a new scope with the built-in functions and nothing else. -/
theorem newGlobals_run (s : State) :
    newGlobals s =
      .ok s.scopes.scopes.size (s.rooted (builtinEntries s.scopes.scopes.size)) := by
  simp only [newGlobals, modifyGet_bind_run]
  rw [bind_ok (defineBuiltins_run _ _ _)]
  rfl

/-- New globals are new variables and nothing else. -/
theorem newGlobals_eq (s : State) :
    ∃ scope scopes, newGlobals s = .ok scope { s with scopes := scopes } := by
  have made : ∀ entries, s.rooted entries = { s with scopes := (s.rooted entries).scopes } :=
    fun _ => rfl
  exact ⟨_, _, (newGlobals_run s).trans (congrArg _ (made _))⟩

/-- A new root adds what is bound in it and nothing else. -/
theorem Ready.rooted (ready : d.Ready base s) {entries : List (Text × Value)}
    (fine : ∀ entry ∈ entries, d.Fine s entry.2) : d.Ready base (s.rooted entries) := by
  apply ready.after (s.grows_rooted entries) rfl
  intro all
  have cells : s.scopes.newRoot.2.All (d.value s.history) := all.cells
  exact all.withScopes (cells.defineAll _ entries fine)

theorem ensures_newGlobals : Ensures d base s newGlobals
    (fun t scope => base ≤ scope ∧ (t.scopes.scope scope).kind = .global) := by
  intro ready
  have effect : Effect d.terms base s (s.rooted (builtinEntries s.scopes.scopes.size)) :=
    .root s _
  have native : ∀ entry ∈ builtinEntries s.scopes.scopes.size, d.Fine s entry.2 := by
    intro entry member
    obtain ⟨b, _, same⟩ := List.mem_map.mp member
    rw [← same]
    exact d.native (by simp) (by simp)
  rw [newGlobals_run]
  exact ⟨effect, ready.rooted native, ready.room, s.global_rooted _⟩

theorem ensures_numbered {program : Program} (placed : program.Placed d.strict) :
    Ensures d base s (numbered program) (fun _ p => p.Placed d.strict) :=
  ensures_counted s.emitted s.stamps _ rfl
    (program.placed_withSites d.strict _ placed)

/-- The top level of a program stands in no function and in no loop. -/
theorem ensures_topLevel (obeys : m.Obeys d base) {program : Program} {scope : Nat}
    (placed : program.Placed d.strict) (inside : base ≤ scope)
    (top : d.Top .program s scope) :
    Ensures d base s (topLevel m program scope) (fun _ _ => True) := by
  apply ensures_bind (obeys.block placed inside top)
  intro flow t _ _ flows
  cases flow with
  | normal => exact ensures_pure trivial
  | returned v =>
      apply ensures_throw
      apply d.fault
      intro strict
      exact absurd (flows.2 strict) (by simp [Context.program])
  | broke depth =>
      apply ensures_throw
      apply d.fault
      intro strict
      have bound := flows strict
      simp only [Context.program] at bound
      omega
  | continued depth =>
      apply ensures_throw
      apply d.fault
      intro strict
      have bound := flows strict
      simp only [Context.program] at bound
      omega

/-- The hash of a new module for events, whose loop has a number. -/
def eventsEntries (loop : Nat) : Table Value :=
  [("Start", .string "start"),
    ("SetHandler", .native ⟨.setHandler, loop⟩ false),
    ("StartLoop", .native ⟨.startLoop, loop⟩ false)]

/-- A module for events is made and kept as one change, which nothing stops. -/
theorem ensures_loadEvents (obeys : m.Obeys d base) {name : Text}
    (new : Table.find? name s.nativeCache = none)
    (found : Table.find? name m.host.natives = some .events) :
    Ensures d base s (loadNative m name) d.Fine := by
  intro ready
  let made := s.heap.newHash (eventsEntries s.loops.size)
  let t : State :=
    { s with
      loops := s.loops.push ⟨[], false⟩
      heap := made.2
      history := .opened s.loops.size :: s.history
      nativeCache := Table.insert name made.1 s.nativeCache }
  have outcome : loadNative m name s = .ok made.1 t := by
    simp only [loadNative, get_bind_run, new, found]
    rfl
  have effect : Effect d.terms base s t :=
    .opened s name (obeys.admitted.events name found) new made.2 made.1
  have later {v : Value} (fine : d.Fine s v) : d.Fine t v :=
    d.value_later (List.suffix_cons _ _) fine
  have all := ready.held.imp (fun _ fine => later fine)
  have entries : ∀ entry ∈ eventsEntries s.loops.size, d.Fine t entry.2 := by
    intro entry member
    simp only [eventsEntries, List.mem_cons, List.not_mem_nil, or_false] at member
    rcases member with rfl | rfl | rfl
    · exact d.data rfl
    · exact d.native (by simp) (by simp)
    · exact d.loop (.head _)
  have handlers : ∀ l ∈ t.loops, ∀ entry ∈ l.handlers, d.Fine t entry.2 := by
    intro l member
    rcases Array.mem_push.mp member with old | rfl
    · exact all.handlers l old
    · simp
  have fine : d.Fine t made.1 := d.data rfl
  rw [outcome]
  exact ⟨effect, ⟨⟨all.cells, all.heap.newHash _ entries, handlers,
    Table.forall_insert name made.1 _ all.natives fine, all.modules⟩, ready.room, ready.depth⟩,
      fine⟩

theorem ensures_createNative (obeys : m.Obeys d base) {name : Text} {native : NativeModule}
    (found : Table.find? name m.host.natives = some native) (other : native ≠ .events) :
    Ensures d base s (createNative native) d.Fine := by
  cases native with
  | events => exact absurd rfl other
  | callBacks =>
      apply ensures_then (ensures_of_imp ensures_stamp (fun _ _ _ => trivial))
      intro owner t _ _
      apply ensures_newHash
      intro entry member
      simp only [List.mem_cons, List.not_mem_nil, or_false] at member
      rcases member with rfl | rfl
      · -- only a host with such a module makes a call back
        exact obeys.admitted.callBacks name found _ owner false
      · exact d.native (by simp) (by simp)
  | data value => exact ensures_ofJson value

theorem ensures_loadNative (obeys : m.Obeys d base) (name : Text) :
    Ensures d base s (loadNative m name) d.Fine := by
  intro ready
  cases new : Table.find? name s.nativeCache with
  | some v =>
      have outcome : loadNative m name s = .ok v s := by
        simp only [loadNative, get_bind_run, new, pure_run]
      rw [outcome]
      exact ⟨.none s, ready, Table.holds_of_find? name v _ ready.held.natives new⟩
  | none =>
      by_cases events : Table.find? name m.host.natives = some .events
      · exact ensures_loadEvents obeys new events ready
      · refine ensures_get (fun _ => ?_) ready
        simp only [new]
        split
        · exact ensures_fault (by simp [Fault.IsExit])
        · rename_i native found
          have other : native ≠ .events := by
            rintro rfl
            exact events found
          apply ensures_bind (ensures_createNative obeys found other)
          intro v t _ ready fine
          apply ensures_then (ensures_modify (.native t name v)
            (fun all => ⟨all.cells, all.heap, all.handlers,
              Table.forall_insert name v _ all.natives fine, all.modules⟩) trivial)
          intro _ u effect _
          exact ensures_pure (Fine.after effect fine)

theorem forall_exportsOf (ready : d.Ready base s) (scope : Nat) :
    ∀ entry ∈ exportsOf s.scopes scope, d.Fine s entry.2 := by
  intro entry member
  obtain ⟨name, _, exported⟩ := List.mem_filterMap.mp member
  cases found : s.scopes.get? scope name with
  | none => simp [found] at exported
  | some v =>
      simp only [found] at exported
      split at exported
      · cases exported
      · cases exported
        exact ready.held.cells.get? (d.data rfl) scope name v found

/-- How a load ends: with the top level, and if that comes to its end, with the module
kept. Nothing in between fails. -/
theorem load_eq (path : Text) (program : Program) (scope : Nat) :
    load m path program scope s =
      match inFile (some path) (topLevel m program scope) (s.begun path) with
      | .ok _ t =>
          let place := t.heap.hashes.size
          .ok (.hash place)
            (t.keeping path (t.heap.newHash (exportsOf t.scopes scope)).2 place)
      | .error e t => .error e (t.broken path) := by
  simp only [load, mark, get_bind_run, modify_bind_run]
  cases outcome : inFile (some path) (topLevel m program scope) (s.begun path) with
  | ok a t =>
      have top : whileLoading path (inFile (some path) (topLevel m program scope))
          { s with history := .began path s.loading :: s.history } = .ok a (t.broken path) :=
        finally_ok outcome
      rw [bind_ok top]
      rfl
  | error e t =>
      have top : whileLoading path (inFile (some path) (topLevel m program scope))
          { s with history := .began path s.loading :: s.history } = .error e (t.broken path) :=
        finally_error outcome
      rw [bind_error top]

/-- A module that was loaded is kept. -/
abbrev IsKept (d : Discipline) (path : Text) (t : State) (v : Value) : Prop :=
  d.Fine t v ∧ Table.find? path t.moduleCache = some v

theorem ensures_load (obeys : m.Obeys d base) {path : Text} {program : Program} {scope : Nat}
    (placed : program.Placed d.strict) (inside : base ≤ scope)
    (top : d.Top .program s scope) (known : d.terms.path path)
    (idle : path ∉ s.loading) (new : Table.find? path s.moduleCache = none) :
    Ensures d base s (load m path program scope) (d.IsKept path) := by
  intro ready
  have begun : d.Ready base (s.begun path) :=
    ready.after (s.grows_begun path) rfl (fun all => all.of_same rfl rfl rfl rfl rfl)
  have top : Ends d base (s.begun path) (fun _ _ => True)
      (inFile (some path) (topLevel m program scope) (s.begun path)) :=
    ensures_inFile (ensures_topLevel obeys placed inside top) (fun _ _ _ => trivial) begun
  rw [load_eq]
  cases outcome : inFile (some path) (topLevel m program scope) (s.begun path) with
  | error e t =>
      rw [outcome] at top
      obtain ⟨effect, ready, allowed⟩ := top
      exact ⟨.broken s t path known idle new effect, ready.of_same rfl rfl rfl rfl rfl rfl rfl,
        allowed⟩
  | ok a t =>
      rw [outcome] at top
      obtain ⟨effect, ready, _⟩ := top
      let place := t.heap.hashes.size
      let heap := (t.heap.newHash (exportsOf t.scopes scope)).2
      have fine : d.Fine t (.hash place) := d.data rfl
      have keeps (all : t.All (d.value t.history)) :
          (t.keeping path heap place).All (d.value t.history) :=
        ⟨all.cells, all.heap.newHash _ (forall_exportsOf ready scope), all.handlers, all.natives,
          Table.forall_insert path _ _ all.modules fine⟩
      have kept := ready.after (t.grows_keeping path heap place) rfl keeps
      exact ⟨.loaded s t path known idle new heap place effect, kept,
        d.value_later (List.suffix_cons _ _) fine, by simp [State.keeping, Table.find?_insert]⟩

theorem ensures_runModule (obeys : m.Obeys d base) {path source : Text}
    (known : d.terms.path path) (idle : path ∉ s.loading)
    (new : Table.find? path s.moduleCache = none) :
    Ensures d base s (runModule m path source) (d.IsKept path) := by
  unfold runModule
  split
  · rename_i cause failed
    have malformed := is_syntax_of_parse source cause failed
    exact ensures_throw (d.fault fun _ => not_exit_of_is_syntax malformed)
  · rename_i program found
    have placed := program.placed_of_text d.strict source found
    -- nothing is loaded in between, so the module still is not
    have still : ∀ scope t, newGlobals s = .ok scope t →
        path ∉ t.loading ∧ Table.find? path t.moduleCache = none := by
      obtain ⟨scope, scopes, outcome⟩ := newGlobals_eq s
      intro _ _ same
      rw [outcome] at same
      cases same
      exact ⟨idle, new⟩
    apply ensures_bind (ensures_also ensures_newGlobals still)
    rintro scope t _ _ ⟨⟨inside, global⟩, idle, new⟩
    have still : ∀ program' u, numbered program t = .ok program' u →
        path ∉ u.loading ∧ Table.find? path u.moduleCache = none := by
      intro _ _ same
      cases same
      exact ⟨idle, new⟩
    apply ensures_bind (ensures_also (ensures_numbered placed) still)
    rintro program u effect _ ⟨placed, idle, new⟩
    have top : d.Top .program u scope := fun _ _ => (effect_grows effect).scopes.global global
    exact ensures_load obeys placed inside top known idle new

theorem ensures_given {path : Text} {v : Value} (fine : d.Fine s v)
    (kept : Table.find? path s.moduleCache = some v) :
    Ensures d base s (given path v) d.Fine := by
  apply ensures_get
  intro _
  apply ensures_then (ensures_modify (.imported s path v kept)
    (fun all => all.of_same rfl rfl rfl rfl rfl) trivial)
  intro _ u effect _
  exact ensures_pure (Fine.after effect fine)

theorem ensures_loadScript (obeys : m.Obeys d base) (name : Text) :
    Ensures d base s (loadScript m name) d.Fine := by
  apply ensures_get
  intro _
  split
  · rename_i cause failed
    obtain rfl := Resolver.resolve_error _ _ _ cause failed
    exact ensures_throw d.directory
  · exact ensures_fault (by simp [Fault.IsExit])
  · rename_i found there
    have known := obeys.admitted.paths _ _ _ there
    apply ensures_get
    intro ready
    split
    · rename_i v hit
      exact ensures_given (Table.holds_of_find? found.path v _ ready.held.modules hit) hit
    · rename_i new
      apply ensures_get
      intro _
      split
      · exact ensures_fault (by simp [Fault.IsExit])
      · rename_i idle
        -- past the check for circular imports, so the module is not being loaded
        have idle : found.path ∉ s.loading := by simpa using idle
        apply ensures_bind (ensures_runModule obeys known idle new)
        rintro v t _ _ ⟨fine, kept⟩
        exact ensures_given fine kept

theorem ensures_loadModule (obeys : m.Obeys d base) (native : Bool) (name : Text) :
    Ensures d base s (loadModule m native name) d.Fine := by
  unfold loadModule
  split
  · exact ensures_loadNative obeys name
  · exact ensures_loadScript obeys name

theorem ensures_importOne (obeys : m.Obeys d base) (native : Bool) {scope : Nat}
    (inside : base ≤ scope) (name : Text)
    (top : d.terms.atTop → (s.scopes.scope scope).kind = .global) :
    Ensures d base s (importOne m native scope name) (fun _ _ => True) := by
  intro ready
  have loaded := ensures_loadModule obeys native name ready
  cases outcome : loadModule m native name s with
  | ok v t =>
      rw [outcome] at loaded
      obtain ⟨effect, ready, fine⟩ := loaded
      have global : d.terms.atTop → (t.scopes.scope scope).kind = .global :=
        fun asked => (effect_grows effect).scopes.global (top asked)
      -- the name is bound and noted from the state in which the module is loaded
      have bound :
        Ensures d base t (rebind scope name v (.imported scope name)) (fun _ _ => True) :=
        ensures_rebind inside (.imported global) fine
      have ran : importAll m native scope [name] s =
          .ok () { t with scopes := t.scopes.define scope name v } := bind_ok outcome
      rw [importOne, bind_ok ran]
      exact ends_after effect (bound ready)
  | error e t =>
      rw [outcome] at loaded
      have failed : importAll m native scope [name] s = .error e t := bind_error outcome
      rw [importOne, bind_error failed]
      exact loaded

theorem ensures_importEach (obeys : m.Obeys d base) (native : Bool) {scope : Nat}
    (inside : base ≤ scope) (names : List Text)
    (top : d.terms.atTop → (s.scopes.scope scope).kind = .global) :
    Ensures d base s (importEach m native scope names) (fun _ _ => True) := by
  induction names generalizing s with
  | nil => exact ensures_pure trivial
  | cons name rest ih =>
      apply ensures_then (ensures_importOne obeys native inside name top)
      intro _ t effect _
      exact ih (fun asked => (effect_grows effect).scopes.global (top asked))

end Discipline

end Loom
