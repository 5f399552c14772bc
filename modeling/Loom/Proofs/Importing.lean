import Loom.Proofs.Worlds

/-!
What imports leave behind. A program begins with its imports; on a fresh interpreter no
function has been made in the global scope of the program by then, so whatever the modules
do, that scope holds the built-in functions and what the imports bind.
-/

namespace Loom

open Eval Interpreter

namespace Table

variable {α β : Type}

theorem ofEntries_concat (entries : List (Text × α)) (key : Text) (value : α) :
    ofEntries (entries ++ [(key, value)]) = insert key value (ofEntries entries) := by
  simp [ofEntries]

theorem map_insert (f : α → β) (key : Text) (value : α) (table : Table α) :
    (insert key value table).map (fun entry => (entry.1, f entry.2)) =
      insert key (f value) (table.map (fun entry => (entry.1, f entry.2))) := by
  induction table with
  | nil => rfl
  | cons entry rest ih =>
      simp only [insert, List.map_cons]
      split
      · rfl
      · rw [List.map_cons, ih]

end Table

namespace ScopeTree

variable {tree after : ScopeTree} {id : Nat}

def contents (tree : ScopeTree) (id : Nat) : Table Value :=
  (tree.scope id).cells.map (fun entry => (entry.1, tree.read entry.2))

theorem keys_contents (tree : ScopeTree) (id : Nat) :
    (tree.contents id).keys = tree.localNames id := by
  simp [contents, localNames, Table.keys]

theorem contents_congr (cells : (after.scope id).cells = (tree.scope id).cells)
    (distinct : (tree.contents id).keys.Nodup)
    (reads : ∀ name cell, tree.localCell? id name = some cell → after.read cell = tree.read cell) :
    after.contents id = tree.contents id := by
  rw [keys_contents] at distinct
  unfold contents
  rw [cells]
  apply List.map_congr_left
  intro entry member
  have bound : tree.localCell? id entry.1 = some entry.2 := Table.find?_of_mem distinct member
  rw [reads entry.1 entry.2 bound]

theorem SameWorld.contents (same : SameWorld id tree after) (there : id < tree.scopes.size)
    (highest : tree.root id = id) (distinct : (tree.contents id).keys.Nodup) :
    after.contents id = tree.contents id := by
  have scope := same.scope id there highest
  exact contents_congr (by rw [scope]) distinct (fun name cell => same.value id name cell highest)

theorem read_define (tree : ScopeTree) (id : Nat) (name : Text) (v : Value) :
    (tree.define id name v).read tree.cells.size = v := by
  simp [define, bind, pushCell, read]

theorem contents_define (name : Text) (v : Value) (there : id < tree.scopes.size)
    (distinct : (tree.contents id).keys.Nodup) :
    (tree.define id name v).contents id = Table.insert name v (tree.contents id) := by
  have cells : ((tree.define id name v).scope id).cells =
      Table.insert name tree.cells.size (tree.scope id).cells := by
    simp only [define, bind, pushCell, scope, Scope.at, getD_modify]
    rw [if_pos ⟨trivial, there⟩]
  have old : (tree.pushCell v).contents id = tree.contents id :=
    contents_congr rfl distinct fun label cell bound =>
      tree.read_pushCell v cell (tree.bound id label cell bound)
  calc (tree.define id name v).contents id
      = (Table.insert name tree.cells.size (tree.scope id).cells).map
          (fun entry => (entry.1, (tree.define id name v).read entry.2)) := by
        rw [ScopeTree.contents, cells]
    _ = Table.insert name v ((tree.pushCell v).contents id) := by
        rw [Table.map_insert, tree.read_define id name v]
        rfl
    _ = Table.insert name v (tree.contents id) := by rw [old]

theorem contents_defineAll (entries : List (Text × Value)) (there : id < tree.scopes.size)
    {old : List (Text × Value)} (held : tree.contents id = Table.ofEntries old) :
    (tree.defineAll id entries).contents id = Table.ofEntries (old ++ entries) := by
  induction entries generalizing tree old with
  | nil => rw [List.append_nil]; exact held
  | cons entry rest ih =>
      obtain ⟨name, v⟩ := entry
      have first : (tree.define id name v).contents id = Table.ofEntries (old ++ [(name, v)]) := by
        rw [contents_define name v there (held ▸ Table.nodup_ofEntries old), held,
          Table.ofEntries_concat]
      have shape := tree.same_shape_define id name v
      rw [List.append_cons]
      exact ih (shape.size ▸ there) first

end ScopeTree

/-! The imports of a program. -/

def Stmt.imported : Stmt → List (Bool × Text)
  | .imports native modules _ => modules.map (fun name => (native, name))
  | _ => []

namespace Program

def imported (program : Program) : List (Bool × Text) := program.statements.flatMap Stmt.imported

def withoutImports (program : Program) : Program :=
  { program with statements := program.statements.filter (fun s => !s.isImport) }

end Program

namespace Interpreter

/-- The beginning of a run: the imports of the program. -/
def importsOn (m : Machine) (program : Program) (file : Option Text) : Eval Flow := do
  nothingUnderway
  let globals := (← get).globals
  modify (fun s => { s with file := file })
  execAll m globals (program.statements.filter Stmt.isImport)

end Interpreter

theorem execAll_append (m : Machine) (scope : Nat) (first second : List Stmt) :
    execAll m scope (first ++ second) = (do
      match ← execAll m scope first with
      | .normal => execAll m scope second
      | flow => pure flow) := by
  induction first with
  | nil => rfl
  | cons s rest ih =>
      simp only [List.cons_append, execAll, bind_assoc]
      apply bind_congr
      intro flow
      cases flow <;> simp only [pure_bind, ih]

theorem inOrder_eq (statements : List Stmt) :
    inOrder statements =
      statements.filter Stmt.isImport ++ inOrder (statements.filter (fun s => !s.isImport)) := by
  have definitions : ∀ s : Stmt, (s.isDefinition && !s.isImport) = s.isDefinition := by
    intro s
    cases s <;> rfl
  have others : ∀ s : Stmt, (!s.isImport && !s.isDefinition && !s.isImport) =
      (!s.isImport && !s.isDefinition) := by
    intro s
    cases s <;> rfl
  have none : ∀ s : Stmt, (s.isImport && !s.isImport) = false := by
    intro s
    cases s <;> rfl
  simp [inOrder, List.filter_filter, definitions, others, none]

/-- When its imports have succeeded, the rest of a program runs from where they left off. -/
theorem runOn_of_imports {host : Host} {fuel : Nat} {program : Program} {file : Option Text}
    {s t : State} (imports : importsOn (.of host fuel) program file s = .ok .normal t) :
    runOn (.of host (fuel + 1)) program file s =
      finally_ (topLevel (.of host (fuel + 1)) program.withoutImports s.globals)
        (fun u => { u with file := s.file }) t := by
  let begun : State := { s with underway := [], file := file }
  have phase : execAll (.of host fuel) s.globals (program.statements.filter Stmt.isImport) begun =
      .ok .normal t := imports
  have block : (Machine.of host (fuel + 1)).block program.statements s.globals begun =
      (Machine.of host (fuel + 1)).block program.withoutImports.statements s.globals t := by
    show execAll (.of host fuel) s.globals (inOrder program.statements) begun = _
    rw [inOrder_eq, execAll_append, bind_ok phase]
    rfl
  have whole : topLevel (.of host (fuel + 1)) program s.globals begun =
      topLevel (.of host (fuel + 1)) program.withoutImports s.globals t := by
    show EStateM.bind _ _ begun = EStateM.bind _ _ t
    simp only [EStateM.bind, block]
  show finally_ (topLevel (.of host (fuel + 1)) program s.globals)
    (fun u => { u with file := s.file }) begun = _
  unfold finally_
  rw [whole]

/-! Before anything but imports has run. -/

namespace Discipline

/-- No function is about that was made in the first global scope. -/
def abroad : Discipline where
  terms := { Terms.any with home := 1 }
  strict := false
  value := fun _ v => ∀ f method, v = .function f method → 1 ≤ f.scope
  stop := fun _ _ => True
  value_later := fun _ away => away
  stop_later := fun _ _ => trivial
  data := by
    rintro _ v data f method rfl
    cases data
  native := by
    rintro _ n method _ _ f method' same
    cases same
  loop := by
    rintro _ owner method _ f method' same
    cases same
  starts := fun _ => trivial
  method := by
    rintro _ v away f method same
    cases v with
    | function g method' =>
        cases same
        exact away _ method' rfl
    | _ => cases same
  closure := by
    intro _ f method
    constructor
    · exact fun away => ⟨f.procedure.placed_of_lenient, away f method rfl⟩
    · rintro ⟨_, away⟩ g method' same
      cases same
      exact away
  vanished := by
    rintro _ ref position _ f method same
    cases same
  atTop := fun _ => not_false
  missing := fun _ => trivial
  bare := fun _ => trivial
  outOfFuel := trivial
  fault := fun _ => trivial
  directory := trivial
  located := fun _ => trivial

theorem admits_abroad (host : Host) : abroad.Admits host where
  callBacks := by
    rintro _ _ _ _ _ f method same
    cases same
  events := fun _ _ => trivial
  paths := fun _ _ _ _ => trivial

theorem obeys_abroad (host : Host) (fuel : Nat) : (Machine.of host fuel).Obeys abroad 1 :=
  obeys_of (admits_abroad host) (Nat.le_refl 1) fuel

end Discipline

open Discipline

/-- A state in which the first global scope is that of the main program and binds some
entries, and nothing has been done there but that. -/
structure Importing (entries : List (Text × Value)) (s : State) : Prop where
  main : s.globals = 0
  ready : abroad.Ready 1 s
  apart : s.scopes.Apart
  hangs : s.scopes.HangsByCalls 1 1
  contents : s.scopes.contents 0 = Table.ofEntries entries

namespace Importing

variable {entries : List (Text × Value)} {s t : State} {m : Machine}

theorem of_same (importing : Importing entries s) (scopes : t.scopes = s.scopes)
    (heap : t.heap = s.heap) (loops : t.loops = s.loops) (natives : t.nativeCache = s.nativeCache)
    (modules : t.moduleCache = s.moduleCache) (history : t.history = s.history)
    (depth : t.depth = s.depth) (globals : t.globals = s.globals) : Importing entries t :=
  ⟨globals.trans importing.main, importing.ready.of_same scopes heap loops natives modules history
    depth,
    scopes ▸ importing.apart, scopes ▸ importing.hangs, scopes ▸ importing.contents⟩

theorem load (importing : Importing entries s) (obeys : m.Obeys abroad 1) {native : Bool}
    {name : Text} {v : Value} (loaded : loadModule m native name s = .ok v t) :
    Importing entries t ∧ abroad.Fine t v := by
  have ends := ensures_loadModule obeys native name importing.ready
  rw [loaded] at ends
  obtain ⟨chain, ready, fine⟩ := ends
  have hangs := hangs_by_calls_of_chain chain importing.hangs
  have changes : ScopeTree.Changes 1 0 s.scopes t.scopes :=
    changes_of_chain chain importing.apart importing.ready.room
  -- nothing can hang in the first scope, so no function that was made there is called
  have uncalled : ¬ t.scopes.Calls 1 0 := by
    rintro ⟨id, p, new, _, above, old, _⟩
    exact Nat.not_lt.mpr (hangs id p new above).1 old
  have same := (changes.calls_or_same hangs Nat.one_pos).resolve_left uncalled
  have highest : s.scopes.root 0 = 0 := Nat.le_zero.mp (s.scopes.root_le 0)
  have main : t.globals = 0 := (effect_globals chain).trans importing.main
  refine ⟨⟨main, ready, apart_of_chain chain importing.apart, hangs, ?_⟩, fine⟩
  rw [same.contents importing.ready.room highest
    (importing.contents ▸ Table.nodup_ofEntries entries)]
  exact importing.contents

theorem bind (importing : Importing entries s) (name : Text) {v : Value} (fine : abroad.Fine s v)
    (b : Binding) : Importing (entries ++ [(name, v)]) (s.rebinding 0 name v b) := by
  have shape := s.scopes.same_shape_define 0 name v
  constructor
  · exact importing.main
  · exact importing.ready.after (s.grows_rebinding 0 name v b) rfl fun all =>
      ⟨all.cells.define 0 name v fine, all.heap, all.handlers, all.natives, all.modules⟩
  · exact importing.apart.define 0 name v
  · exact importing.hangs.of_same_shape shape
  · exact s.scopes.contents_defineAll [(name, v)] importing.ready.room importing.contents

end Importing

def Gives (m : Machine) (module : Bool × Text) (v : Value) : Prop :=
  ∃ s t, loadModule m module.1 module.2 s = .ok v t

namespace Importing

variable {entries : List (Text × Value)} {s t : State} {m : Machine}

theorem importOne (importing : Importing entries s) (obeys : m.Obeys abroad 1) {native : Bool}
    {name : Text} (ran : Eval.importOne m native 0 name s = .ok () t) :
    ∃ v, Gives m (native, name) v ∧ Importing (entries ++ [(name, v)]) t := by
  obtain ⟨_, u, all, noted⟩ := bind_eq_ok ran
  obtain ⟨v, loaded, gives, defined⟩ := bind_eq_ok all
  obtain ⟨importing, fine⟩ := importing.load obeys gives
  cases defined
  cases noted
  exact ⟨v, ⟨s, loaded, gives⟩, importing.bind name fine (.imported 0 name)⟩

theorem importEach (importing : Importing entries s) (obeys : m.Obeys abroad 1) {native : Bool}
    (names : List Text) (ran : Eval.importEach m native 0 names s = .ok () t) :
    ∃ values, List.Forall₂ (Gives m) (names.map (fun name => (native, name))) values ∧
      Importing (entries ++ names.zip values) t := by
  induction names generalizing s entries with
  | nil =>
      cases ran
      exact ⟨[], .nil, by simpa using importing⟩
  | cons name rest ih =>
      obtain ⟨_, u, first, later⟩ := bind_eq_ok ran
      obtain ⟨v, gives, importing⟩ := importing.importOne obeys first
      obtain ⟨values, each, importing⟩ := ih importing later
      refine ⟨v :: values, .cons gives each, ?_⟩
      simpa using importing

theorem imports (importing : Importing entries s) (obeys : m.Obeys abroad 1)
    (statements : List Stmt) {flow : Flow}
    (ran : execAll m 0 (statements.filter Stmt.isImport) s = .ok flow t) :
    flow = .normal ∧ ∃ values,
      List.Forall₂ (Gives m) (statements.flatMap Stmt.imported) values ∧
        Importing (entries ++ ((statements.flatMap Stmt.imported).map Prod.snd).zip values) t := by
  induction statements generalizing s entries with
  | nil =>
      cases ran
      exact ⟨rfl, [], .nil, by simpa using importing⟩
  | cons statement rest ih =>
      cases statement with
      | imports native modules loc =>
          obtain ⟨first, u, located, later⟩ := bind_eq_ok ran
          obtain ⟨w, carried, rfl⟩ := located_during_eq_ok located
          obtain ⟨_, x, each, normal⟩ := bind_eq_ok carried
          cases normal
          have begun := importing.of_same (t := { s with
            underway :=
              ⟨.imports native modules loc, s.file⟩ :: s.underway }) rfl rfl rfl rfl rfl rfl rfl rfl
          obtain ⟨values, gives, importing⟩ := begun.importEach obeys modules each
          have ended := importing.of_same (t := { w with underway := s.underway })
            rfl rfl rfl rfl rfl rfl rfl rfl
          obtain ⟨normal, others, gives', importing⟩ := ih ended later
          refine ⟨normal, values ++ others, List.rel_append gives gives', ?_⟩
          have lengths : modules.length = values.length := by
            simpa using gives.length_eq
          have names : (((Stmt.imports native modules loc :: rest).flatMap Stmt.imported).map
              Prod.snd).zip (values ++ others) =
              modules.zip values ++ ((rest.flatMap Stmt.imported).map Prod.snd).zip others := by
            simp [Stmt.imported, List.zip_append lengths, Function.comp_def]
          rw [names, ← List.append_assoc]
          exact importing
      | _ => exact ih importing ran

end Importing

theorem withNewGlobals_rooted (s : State) :
    withNewGlobals s =
      { s.rooted (builtinEntries s.scopes.scopes.size) with globals := s.scopes.scopes.size } := by
  simp only [withNewGlobals, newGlobals_run]

theorem contents_rooted (s : State) (entries : List (Text × Value)) :
    (s.rooted entries).scopes.contents s.scopes.scopes.size = Table.ofEntries entries := by
  have there : s.scopes.scopes.size < s.scopes.newRoot.2.scopes.size := by
    simp [ScopeTree.newRoot]
  have empty : s.scopes.newRoot.2.contents s.scopes.scopes.size = Table.ofEntries [] := by
    simp [ScopeTree.contents, ScopeTree.newRoot, ScopeTree.scope_pushScope, Table.ofEntries]
  exact ScopeTree.contents_defineAll entries there empty

theorem importing_new (host : Host) (events : List HostEvent) :
    Importing (builtinEntries 0) (Interpreter.new host events).state := by
  have ready : abroad.Ready 0 (Interpreter.new host events).state :=
    (kept_new (admits_abroad host) (fun _ => trivial) events).ready
  have apart := (State.sharing_new host events).apart
  have contents := contents_rooted (blankState events) (builtinEntries 0)
  have made : (Interpreter.new host events).state =
      { (blankState events).rooted (builtinEntries 0) with globals := 0 } :=
    withNewGlobals_rooted (blankState events)
  generalize (Interpreter.new host events).state = s at ready apart made
  have size : s.scopes.scopes.size = 1 := by
    rw [made]
    exact ScopeTree.defineAll_size _ _ _
  have hangs := s.scopes.hangs_by_calls_size 1
  rw [size] at hangs
  refine ⟨made ▸ rfl, ⟨ready.held, Nat.le_of_eq size.symm, ready.depth⟩, apart, hangs, ?_⟩
  rw [made]
  exact contents

theorem apart_reset {i : Interpreter} (apart : i.state.scopes.Apart) :
    i.reset.state.scopes.Apart := by
  simp only [Interpreter.reset, withNewGlobals_rooted]
  exact (apart.pushScope none .global (by simp)).defineAll _ _

def rebindingHost : Host :=
  { Host.plain with resolver := .table [("m", "Count = 1\nuse Add\nAdd = 2\n")] }

def importer : Program := ⟨[.imports false ["m"] .origin], .origin⟩

def importerImported : EStateM.Result Stop State Flow :=
  importsOn (.of rebindingHost 12) importer none
    { (Interpreter.new rebindingHost []).state with programs := 1 }

def reboundInModule (name : Text) : EStateM.Result Stop State Flow → Bool
  | .ok .normal t => (t.scopes.get? 1 name).any fun v => v.type? == some .number
  | _ => false

end Loom
