import Loom.Eval.Import
import Loom.Proofs.Veil.Call

/-!
Imports overlook hidden variables if the modules of the host speak of none. A module runs
in a scope of its own, which is new and so not the one that binds the hidden names; what it
gives to those that import it is the same in both runs.
-/

namespace Loom

/-- A host of which no module speaks of a hidden name, when no built-in function goes by
one either. -/
structure Host.Avoids (host : Host) (hidden : List Text) : Prop where
  builtins : ∀ b ∈ Builtin.all, b.name ∉ hidden
  modules : ∀ name file found program, host.resolver.resolve name file = .ok (some found) →
    parse found.source = .ok program → Clear hidden program.names

/-- Where no name is hidden, every host avoids them all. -/
theorem Host.avoids_none (host : Host) : host.Avoids [] :=
  ⟨fun _ _ => List.not_mem_nil, fun _ _ _ program _ _ => clear_of_none program.names⟩

namespace Eval

variable {veil : Veil}

/-- What a module gives is the same unless it is the one that binds the hidden names. -/
theorem exportsOf_veiled {scopes scopes' : ScopeTree} (same : scopes.Veiled veil scopes')
    {scope : Nat} (away : scope ≠ veil.home) :
    exportsOf scopes' scope = exportsOf scopes scope := by
  unfold exportsOf
  rw [same.localNames scope away]
  apply List.filterMap_congr
  intro name bound
  rw [same.get?_eq (same.spoken_of_local bound)]

theorem avoids_of_exported {hidden : List Text} {scopes : ScopeTree}
    (held : scopes.All (Value.Avoids hidden)) (scope : Nat) :
    ∀ entry ∈ exportsOf scopes scope, entry.2.Avoids hidden := by
  intro entry member
  obtain ⟨name, _, gives⟩ := List.mem_filterMap.mp member
  split at gives
  · rename_i v found
    split at gives
    · cases gives
    · cases gives
      exact held.get? trivial scope name v found
  · cases gives

theorem overlooks_defineBuiltins (scope : Nat) {builtins : List Builtin}
    (spoken : ∀ b ∈ builtins, b.name ∉ veil.names) :
    Overlooks veil (fun _ => True) (defineBuiltins scope builtins) := by
  induction builtins with
  | nil => exact overlooks_pure trivial
  | cons b rest ih =>
      obtain ⟨first, others⟩ := List.forall_mem_cons.mp spoken
      exact overlooks_then (overlooks_define scope first trivial) (fun _ => ih others)

/-- A new global scope is not the one that binds the hidden names. -/
theorem overlooks_newGlobals (spoken : ∀ b ∈ Builtin.all, b.name ∉ veil.names) :
    Overlooks veil (· ≠ veil.home) newGlobals := by
  have added : Overlooks veil (· ≠ veil.home) (modifyGet fun s : State =>
      (s.scopes.newRoot.1, { s with scopes := s.scopes.newRoot.2 })) := by
    apply overlooks_modifyGet
    intro s t states
    obtain ⟨number, away, veiled⟩ := states.scopes.newRoot
    exact ⟨number, away, states.withScopes veiled states.held.cells⟩
  apply overlooks_bind added
  intro scope away
  exact overlooks_then (overlooks_defineBuiltins scope spoken) (fun _ => overlooks_pure away)

theorem overlooks_numbered {program : Program} (clear : Clear veil.names program.names) :
    Overlooks veil (fun p => Clear veil.names p.names) (numbered program) := by
  apply overlooks_modifyGet
  intro s t states
  rw [states.programs]
  have after : Clear veil.names (program.withSites (.read s.programs)).names := by
    rw [program.names_withSites]
    exact clear
  exact ⟨rfl, after,
    { states with programs := rfl, held := states.held.of_same rfl rfl rfl rfl rfl }⟩

theorem overlooks_createNative (native : NativeModule) :
    Overlooks veil (Value.Avoids veil.names) (createNative native) := by
  cases native with
  | events =>
      have opened : Overlooks veil (fun _ => True) (modifyGet fun s : State =>
          (s.loops.size,
            { s with
              loops := s.loops.push ⟨[], false⟩
              history := .opened s.loops.size :: s.history })) := by
        apply overlooks_modifyGet
        intro s t states
        have pushed := states.pushLoop
        exact ⟨states.loopCount, trivial,
          { pushed with held := pushed.held.of_same rfl rfl rfl rfl rfl }⟩
      exact overlooks_then opened (fun _ => overlooks_newHash (by simp [Value.Avoids]))
  | callBacks =>
      exact overlooks_then overlooks_stamp (fun _ => overlooks_newHash (by simp [Value.Avoids]))
  | data value => exact overlooks_ofJson value

theorem overlooks_given (path : Text) {v : Value} (avoids : v.Avoids veil.names) :
    Overlooks veil (Value.Avoids veil.names) (given path v) := by
  apply overlooks_get
  intro s t states
  rw [states.loading]
  exact ⟨rfl, overlooks_then (overlooks_mark _) (fun _ => overlooks_pure avoids)⟩

theorem overlooks_loadNative (m : Machine) (name : Text) :
    Overlooks veil (Value.Avoids veil.names) (loadNative m name) := by
  apply overlooks_get
  intro s t states
  rw [states.nativeCache]
  refine ⟨rfl, ?_⟩
  split
  · rename_i v found
    exact overlooks_pure (Table.holds_of_find? name v _ states.held.natives found)
  · split
    · exact overlooks_runtimeFault _
    · apply overlooks_bind (overlooks_createNative _)
      intro v avoids
      have kept : Overlooks veil (fun _ => True) (modify fun s : State =>
          { s with nativeCache := Table.insert name v s.nativeCache }) :=
        overlooks_modify fun s t states =>
          { states with
            nativeCache := congrArg (Table.insert name v) states.nativeCache
            held := ⟨states.held.cells, states.held.heap, states.held.handlers,
              Table.forall_insert name v _ states.held.natives avoids, states.held.modules⟩ }
      exact overlooks_then kept (fun _ => overlooks_pure avoids)

variable {m : Machine} (overlooks : m.Overlooks veil)
include overlooks

theorem overlooks_topLevel {program : Program} (clear : Clear veil.names program.names)
    (scope : Nat) : Overlooks veil (fun _ => True) (topLevel m program scope) := by
  apply overlooks_then (overlooks.block program.statements scope clear)
  intro flow
  cases flow with
  | normal => exact overlooks_pure trivial
  | _ => exact overlooks_runtimeFault _

theorem overlooks_load (path : Text) {program : Program} (clear : Clear veil.names program.names)
    {scope : Nat} (away : scope ≠ veil.home) :
    Overlooks veil (Value.Avoids veil.names) (load m path program scope) := by
  apply overlooks_get
  intro s t states
  rw [states.loading]
  refine ⟨rfl, ?_⟩
  apply overlooks_then (overlooks_mark _)
  intro _
  have top := overlooks_topLevel overlooks clear scope
  apply overlooks_then (overlooks_whileLoading path (overlooks_inFile (some path) top))
  intro _
  apply overlooks_then (overlooks_mark _)
  intro _
  apply overlooks_get
  intro s t states
  rw [exportsOf_veiled states.scopes away]
  refine ⟨rfl, ?_⟩
  apply overlooks_bind (overlooks_newHash (avoids_of_exported states.held.cells scope))
  intro v avoids
  have kept : Overlooks veil (fun _ => True) (modify fun s : State =>
      { s with moduleCache := Table.insert path v s.moduleCache }) :=
    overlooks_modify fun s t states =>
      { states with
        moduleCache := congrArg (Table.insert path v) states.moduleCache
        held := ⟨states.held.cells, states.held.heap, states.held.handlers,
          states.held.natives, Table.forall_insert path v _ states.held.modules avoids⟩ }
  exact overlooks_then kept (fun _ => overlooks_pure avoids)

variable (host : m.host.Avoids veil.names)
include host

theorem overlooks_runModule (path source : Text)
    (clear : ∀ program, parse source = .ok program → Clear veil.names program.names) :
    Overlooks veil (Value.Avoids veil.names) (runModule m path source) := by
  unfold runModule
  split
  · exact overlooks_failWith _
  · rename_i program read
    apply overlooks_bind (overlooks_newGlobals host.builtins)
    intro scope away
    apply overlooks_bind (overlooks_numbered (clear program read))
    intro program clear
    exact overlooks_load overlooks path clear away

theorem overlooks_loadScript (name : Text) :
    Overlooks veil (Value.Avoids veil.names) (loadScript m name) := by
  apply overlooks_get
  intro s t states
  rw [states.file]
  refine ⟨rfl, ?_⟩
  split
  · exact overlooks_failWith _
  · exact overlooks_runtimeFault _
  · rename_i found resolved
    apply overlooks_get
    intro s' t' states
    rw [states.moduleCache]
    refine ⟨rfl, ?_⟩
    split
    · rename_i v cached
      exact overlooks_given found.path
        (Table.holds_of_find? found.path v _ states.held.modules cached)
    · apply overlooks_get
      intro s' t' states
      rw [states.loading]
      refine ⟨rfl, ?_⟩
      split
      · exact overlooks_runtimeFault _
      · have clear := fun program => host.modules name s.file found program resolved
        exact overlooks_bind (overlooks_runModule overlooks host found.path found.source clear)
          (fun _ avoids => overlooks_given found.path avoids)

theorem overlooks_importAll (native : Bool) (scope : Nat) {names : List Text}
    (clear : Clear veil.names names) :
    Overlooks veil (fun _ => True) (importAll m native scope names) := by
  have loaded : ∀ name, Overlooks veil (Value.Avoids veil.names) (loadModule m native name) := by
    intro name
    cases native with
    | true => exact overlooks_loadNative m name
    | false => exact overlooks_loadScript overlooks host name
  induction names with
  | nil => exact overlooks_pure trivial
  | cons name rest ih =>
      obtain ⟨spoken, clear⟩ := clear_cons.mp clear
      apply overlooks_bind (loaded name)
      intro v avoids
      exact overlooks_then (overlooks_define scope spoken avoids) (fun _ => ih clear)

theorem overlooks_importEach (native : Bool) (scope : Nat) {names : List Text}
    (clear : Clear veil.names names) :
    Overlooks veil (fun _ => True) (importEach m native scope names) := by
  induction names with
  | nil => exact overlooks_pure trivial
  | cons name rest ih =>
      obtain ⟨spoken, clear⟩ := clear_cons.mp clear
      have one : Overlooks veil (fun _ => True) (importOne m native scope name) :=
        overlooks_then (overlooks_importAll overlooks host native scope
          (clear_singleton.mpr spoken)) (fun _ => overlooks_note _)
      exact overlooks_then one (fun _ => ih clear)

end Eval

end Loom
