import Loom.Interpreter
import Loom.Proofs.Scoping

/-!
What the steps of a run do to variables and to control. A run is a chain of
changes: each makes or binds variables in one scope, or touches neither
variables nor control, or puts a part of the run between a change of control
and its undoing. Modules and events come into it where a module is kept or an
event is taken. The values that are stored do not matter here.

Statements are carried out in scopes from `base` on, so a chain says which
scopes a run left alone.
-/

namespace Loom

namespace State

def isRunning (s : State) (loop : Nat) : Bool :=
  (s.loops[loop]?.map EventLoop.running).getD false

theorem lt_size_of_running {s : State} {loop : Nat} (running : s.isRunning loop = true) :
    loop < s.loops.size := by
  by_cases inside : loop < s.loops.size
  · exact inside
  · simp [isRunning, inside] at running

theorem isRunning_setRunning (s : State) (loop : Nat) (running : Bool) (other : Nat) :
    (Eval.setRunning loop running s).isRunning other =
      if other = loop ∧ loop < s.loops.size then running else s.isRunning other := by
  by_cases inside : other < s.loops.size
  · by_cases same : loop = other
    · simp [isRunning, Eval.setRunning, Array.getElem_modify, inside, same]
    · simp [isRunning, Eval.setRunning, Array.getElem?_modify, same, Ne.symm same]
  · have outside : ¬ (other = loop ∧ loop < s.loops.size) := by
      rintro ⟨rfl, present⟩
      exact inside present
    simp [isRunning, Eval.setRunning, inside, outside]

theorem isRunning_modify (s : State) (loop : Nat) (f : EventLoop → EventLoop)
    (same : ∀ l, (f l).running = l.running) (other : Nat) :
    ({ s with loops := s.loops.modify loop f } : State).isRunning other = s.isRunning other := by
  simp only [isRunning, Array.getElem?_modify]
  split
  · cases s.loops[other]? with
    | none => rfl
    | some l => exact same l
  · rfl

/-- Two states with the same active calls, the same file, the same modules being
loaded and the same loops running. -/
structure SameControl (s t : State) : Prop where
  depth : t.depth = s.depth
  file : t.file = s.file
  loading : t.loading = s.loading
  running : ∀ loop, t.isRunning loop = s.isRunning loop

theorem same_control_of {s t : State} (depth : t.depth = s.depth) (file : t.file = s.file)
    (loading : t.loading = s.loading) (loops : t.loops = s.loops) : s.SameControl t :=
  ⟨depth, file, loading, fun loop => by simp [isRunning, loops]⟩

theorem SameControl.trans {s t u : State} (first : s.SameControl t) (second : t.SameControl u) :
    s.SameControl u :=
  ⟨second.depth.trans first.depth, second.file.trans first.file,
    second.loading.trans first.loading,
    fun loop => (second.running loop).trans (first.running loop)⟩

/-- What only becomes more: marks, what is known of names, and scopes. -/
structure Grows (s t : State) : Prop where
  history : s.history <:+ t.history
  bindings : s.bindings <:+ t.bindings
  scopes : s.scopes.Extends t.scopes

theorem grows_refl (s : State) : s.Grows s :=
  ⟨List.suffix_refl _, List.suffix_refl _, s.scopes.extends_refl⟩

theorem Grows.trans {s t u : State} (first : s.Grows t) (second : t.Grows u) : s.Grows u :=
  ⟨first.history.trans second.history, first.bindings.trans second.bindings,
    first.scopes.trans second.scopes⟩

theorem grows_of_same {s t : State} (scopes : t.scopes = s.scopes)
    (history : t.history = s.history) (bindings : t.bindings = s.bindings) : s.Grows t :=
  ⟨history ▸ List.suffix_refl _, bindings ▸ List.suffix_refl _, scopes ▸ s.scopes.extends_refl⟩

/-- The marks that were left since a state, last one first. -/
def marksSince (s t : State) : List Mark :=
  t.history.take (t.history.length - s.history.length)

theorem marksSince_of_append {s t : State} {new : List Mark}
    (more : t.history = new ++ s.history) : s.marksSince t = new := by
  simp [marksSince, more]

theorem marksSince_cons {s t : State} {m : Mark} (more : t.history = m :: s.history) :
    s.marksSince t = [m] := marksSince_of_append more

theorem marksSince_trans {s t u : State} (first : s.Grows t) (second : t.Grows u) :
    s.marksSince u = t.marksSince u ++ s.marksSince t := by
  obtain ⟨new, more⟩ := first.history
  obtain ⟨newer, more'⟩ := second.history
  rw [marksSince_of_append more.symm, marksSince_of_append more'.symm]
  exact marksSince_of_append (by rw [← more', ← more, List.append_assoc])

theorem mem_marksSince_of_later {s t u : State} {m : Mark} (first : s.Grows t)
    (second : t.Grows u) (hit : m ∈ t.marksSince u) : m ∈ s.marksSince u := by
  rw [marksSince_trans first second]
  exact List.mem_append_left _ hit

theorem mem_marksSince_of_earlier {s t u : State} {m : Mark} (first : s.Grows t)
    (second : t.Grows u) (hit : m ∈ s.marksSince t) : m ∈ s.marksSince u := by
  rw [marksSince_trans first second]
  exact List.mem_append_right _ hit

def begun (s : State) (path : Text) : State :=
  { s with loading := path :: s.loading, history := .began path s.loading :: s.history }

def broken (t : State) (path : Text) : State := { t with loading := t.loading.erase path }

def keeping (t : State) (path : Text) (heap : Heap) (place : Nat) : State :=
  { t with
    loading := t.loading.erase path
    heap := heap
    history := .ended path :: t.history
    moduleCache := Table.insert path (.hash place) t.moduleCache }

def taking (s : State) (loop : Nat) (rest : List HostEvent) : State :=
  { s with queue := rest, history := .took loop :: s.history }

def rooted (s : State) (entries : List (Text × Value)) : State :=
  { s with scopes := s.scopes.newRoot.2.defineAll s.scopes.scopes.size entries }

def nested (s : State) (parent : Nat) (kind : ScopeKind) (entries : List (Text × Value)) : State :=
  { s with scopes := (s.scopes.child parent kind).2.defineAll s.scopes.scopes.size entries }

def rebinding (s : State) (scope : Nat) (name : Text) (v : Value) (b : Binding) : State :=
  { s with scopes := s.scopes.define scope name v, bindings := b :: s.bindings }

def sharing (s : State) (scope : Nat) (name : Text) : State :=
  { s with
    scopes := s.scopes.share scope name
    history := .used name :: s.history
    bindings :=
      (s.scopes.known? (s.scopes.owner scope)).toList.map (.aliased · name) ++ s.bindings }

def declaring (s : State) (scope : Nat) (name : Text) (first? : Option Value) : State :=
  { s with
    scopes := (s.scopes.declare (s.scopes.owner scope) name first?).2
    shared := Table.insert name (s.scopes.declare (s.scopes.owner scope) name first?).1 s.shared
    history := .used name :: s.history
    bindings := .declared (s.scopes.owner scope) name :: s.bindings }

theorem grows_of_mark {s t : State} {m : Mark} (scopes : t.scopes = s.scopes)
    (history : t.history = m :: s.history) (bindings : t.bindings = s.bindings) : s.Grows t :=
  ⟨history ▸ List.suffix_cons _ _, bindings ▸ List.suffix_refl _, scopes ▸ s.scopes.extends_refl⟩

theorem grows_begun (s : State) (path : Text) : s.Grows (s.begun path) :=
  grows_of_mark rfl rfl rfl

theorem grows_broken (t : State) (path : Text) : t.Grows (t.broken path) :=
  grows_of_same rfl rfl rfl

theorem grows_keeping (t : State) (path : Text) (heap : Heap) (place : Nat) :
    t.Grows (t.keeping path heap place) := grows_of_mark rfl rfl rfl

theorem marksSince_broken {s t : State} {path : Text} (top : (s.begun path).Grows t) :
    s.marksSince (t.broken path) =
      (s.begun path).marksSince t ++ [.began path s.loading] := by
  have first : s.marksSince (s.begun path) = [.began path s.loading] := marksSince_cons rfl
  rw [← first]
  exact marksSince_trans (s.grows_begun path) (top.trans (t.grows_broken path))

theorem marksSince_keeping {s t : State} {path : Text} (top : (s.begun path).Grows t)
    (heap : Heap) (place : Nat) :
    s.marksSince (t.keeping path heap place) =
      .ended path :: ((s.begun path).marksSince t ++ [.began path s.loading]) := by
  have last : t.marksSince (t.keeping path heap place) = [.ended path] := marksSince_cons rfl
  rw [marksSince_trans ((s.grows_begun path).trans top) (t.grows_keeping path heap place), last,
    ← marksSince_broken top]
  rfl

theorem grows_taking (s : State) (loop : Nat) (rest : List HostEvent) :
    s.Grows (s.taking loop rest) := grows_of_mark rfl rfl rfl

theorem grows_rooted (s : State) (entries : List (Text × Value)) : s.Grows (s.rooted entries) :=
  ⟨List.suffix_refl _, List.suffix_refl _,
    (s.scopes.extends_pushScope none .global (by simp)).trans
      (ScopeTree.same_shape_defineAll _ _ entries).extends⟩

theorem global_rooted (s : State) (entries : List (Text × Value)) :
    ((s.rooted entries).scopes.scope s.scopes.scopes.size).kind = .global := by
  have shape := s.scopes.newRoot.2.same_shape_defineAll s.scopes.scopes.size entries
  exact (shape.kind _).trans (by simp [ScopeTree.newRoot, ScopeTree.scope_pushScope])

/-- A scope that is made hangs where it is asked for, if that is there. -/
theorem scope_nested (s : State) (parent : Nat) (kind : ScopeKind)
    (entries : List (Text × Value)) :
    ((s.nested parent kind entries).scopes.scope s.scopes.scopes.size).kind = kind ∧
      ((s.nested parent kind entries).scopes.scope s.scopes.scopes.size).parent =
        s.scopes.known? parent := by
  have shape :=
    (s.scopes.child parent kind).2.same_shape_defineAll s.scopes.scopes.size entries
  constructor
  · exact (shape.kind _).trans (by simp [ScopeTree.child, ScopeTree.scope_pushScope])
  · exact (shape.parent _).trans (by simp [ScopeTree.child, ScopeTree.scope_pushScope])

theorem grows_nested (s : State) (parent : Nat) (kind : ScopeKind)
    (entries : List (Text × Value)) : s.Grows (s.nested parent kind entries) :=
  ⟨List.suffix_refl _, List.suffix_refl _,
    (s.scopes.extends_pushScope _ kind (s.scopes.lt_size_of_known parent)).trans
      (ScopeTree.same_shape_defineAll _ _ entries).extends⟩

theorem grows_rebinding (s : State) (scope : Nat) (name : Text) (v : Value) (b : Binding) :
    s.Grows (s.rebinding scope name v b) :=
  ⟨List.suffix_refl _, List.suffix_cons _ _, (s.scopes.same_shape_define scope name v).extends⟩

theorem grows_sharing (s : State) (scope : Nat) (name : Text) : s.Grows (s.sharing scope name) :=
  ⟨List.suffix_cons _ _, List.suffix_append _ _, (s.scopes.same_shape_share scope name).extends⟩

theorem grows_declaring (s : State) (scope : Nat) (name : Text) (first? : Option Value) :
    s.Grows (s.declaring scope name first?) :=
  ⟨List.suffix_cons _ _, List.suffix_cons _ _,
    (s.scopes.same_shape_declare _ name first?).extends⟩

/-- Two states with the same events waiting, the same modules kept, as many event
loops, the same variables of the main program and of the host, and the same known of
names. -/
structure SameSources (s t : State) : Prop where
  queue : t.queue = s.queue
  natives : t.nativeCache = s.nativeCache
  modules : t.moduleCache = s.moduleCache
  loops : t.loops.size = s.loops.size
  globals : t.globals = s.globals
  shared : t.shared = s.shared
  bindings : t.bindings = s.bindings

end State

/-- Marks that tell of neither modules nor event loops. -/
def Mark.IsQuiet : Mark → Prop
  | .used _ | .vanished _ _ => True
  | _ => False

/-- How a statement may bind a name of a scope anew. -/
inductive Rebinds (atTop : Prop) (s : State) (scope : Nat) (name : Text) : Binding → Prop where
  | defined : Rebinds atTop s scope name (.defined scope name)
  /-- Where imports stand at the top of programs only, a global scope is bound in. -/
  | imported (top : atTop → (s.scopes.scope scope).kind = .global) :
      Rebinds atTop s scope name (.imported scope name)

/-- What a run is given to work with: the modules that there are, the names under
which event loops are made, the loops that may be started after the marks that
have been left, whether imports stand at the top of programs only, and the first of
the scopes that functions are made in. -/
structure Terms where
  path : Text → Prop
  events : Text → Prop
  starts : List Mark → Nat → Prop
  atTop : Prop
  home : Nat

def Terms.any : Terms := ⟨fun _ => True, fun _ => True, fun _ _ => True, False, 0⟩

/-- Whose part of a run it is: that of evaluated code, or that of an event loop, which
alone takes events off the queue. -/
inductive Part where
  | code
  | delivery (loop : Nat)

/-- A chain of changes from one state to another, in which statements are
carried out in scopes from `base` on. -/
inductive Chain (terms : Terms) (base : Nat) : Part → State → State → Prop where
  | none {part : Part} (s : State) : Chain terms base part s s
  | andThen {part : Part} {s t u : State} :
      Chain terms base part s t → Chain terms base part t u → Chain terms base part s u
  /-- A change of anything but variables, control, marks, the queue and the modules. -/
  | data {s t : State} (scopes : t.scopes = s.scopes) (history : t.history = s.history)
      (control : s.SameControl t) (sources : s.SameSources t) : Chain terms base .code s t
  | root (s : State) (entries : List (Text × Value)) :
      Chain terms base .code s (s.rooted entries)
  /-- A block hangs below the scope that its statement is carried out in. -/
  | child (s : State) (parent : Nat) (kind : ScopeKind) (entries : List (Text × Value))
      (inside : kind = .block → base ≤ parent) (inner : kind ≠ .global)
      (hung : terms.home ≤ parent) :
      Chain terms base .code s (s.nested parent kind entries)
  | rebound (s : State) (scope : Nat) (name : Text) (v : Value) {b : Binding}
      (inside : base ≤ scope) (how : Rebinds terms.atTop s scope name b) :
      Chain terms base .code s (s.rebinding scope name v b)
  | assign (s : State) (scope : Nat) (name : Text) (v : Value) (inside : base ≤ scope) :
      Chain terms base .code s { s with scopes := s.scopes.assign scope name v }
  | marked (s : State) (m : Mark) (quiet : m.IsQuiet) :
      Chain terms base .code s { s with history := m :: s.history }
  | share (s : State) (scope : Nat) (name : Text) (inside : base ≤ scope)
      (free : s.scopes.hidesOuter scope name = false) :
      Chain terms base .code s (s.sharing scope name)
  | declare (s : State) (scope : Nat) (name : Text) (first? : Option Value)
      (inside : base ≤ scope)
      (global : (s.scopes.scope (s.scopes.owner scope)).kind = .global) :
      Chain terms base .code s (s.declaring scope name first?)
  | inFile (s t : State) (file : Option Text) :
      Chain terms base .code { s with file := file } t →
      Chain terms base .code s { t with file := s.file }
  | inCall (s t : State) :
      Chain terms base .code { s with depth := s.depth + 1 } t →
      Chain terms base .code s { t with depth := t.depth - 1 }
  /-- The top level of a module that is neither kept nor being loaded, as far as it
  came. -/
  | broken (s t : State) (path : Text) (known : terms.path path) (idle : path ∉ s.loading)
      (new : Table.find? path s.moduleCache = Option.none) :
      Chain terms base .code (s.begun path) t → Chain terms base .code s (t.broken path)
  /-- The top level of such a module up to its end, after which the module is kept. -/
  | loaded (s t : State) (path : Text) (known : terms.path path) (idle : path ∉ s.loading)
      (new : Table.find? path s.moduleCache = Option.none) (heap : Heap) (place : Nat) :
      Chain terms base .code (s.begun path) t →
      Chain terms base .code s (t.keeping path heap place)
  | imported (s : State) (path : Text) (v : Value)
      (kept : Table.find? path s.moduleCache = some v) :
      Chain terms base .code s
        { s with history := .imported path (Eval.placeOf v) s.loading :: s.history }
  | native (s : State) (name : Text) (v : Value) :
      Chain terms base .code s { s with nativeCache := Table.insert name v s.nativeCache }
  | opened (s : State) (name : Text) (allowed : terms.events name)
      (new : Table.find? name s.nativeCache = Option.none) (heap : Heap) (v : Value) :
      Chain terms base .code s
        { s with
          loops := s.loops.push ⟨[], false⟩
          heap := heap
          history := .opened s.loops.size :: s.history
          nativeCache := Table.insert name v s.nativeCache }
  | took (s : State) (loop : Nat) (event : HostEvent) (rest : List HostEvent)
      (first : s.queue = event :: rest) :
      Chain terms base (.delivery loop) s (s.taking loop rest)
  /-- What is done for an event that was taken. -/
  | handled {s t : State} (loop : Nat) :
      Chain terms base .code s t → Chain terms base (.delivery loop) s t
  | whileRunning (s t : State) (loop : Nat) (idle : s.isRunning loop = false)
      (allowed : terms.starts s.history loop) :
      Chain terms base (.delivery loop) (Eval.setRunning loop true s) t →
      Chain terms base .code s (Eval.setRunning loop false t)

/-- What evaluated code does. -/
abbrev Effect (terms : Terms) (base : Nat) : State → State → Prop := Chain terms base .code

/-- A change that touches neither variables nor marks nor any part of control, nor
the queue and the modules. -/
theorem effect_of_same {terms : Terms} {base : Nat} {s t : State} (scopes : t.scopes = s.scopes)
    (history : t.history = s.history) (depth : t.depth = s.depth) (file : t.file = s.file)
    (loading : t.loading = s.loading) (loops : t.loops = s.loops) (queue : t.queue = s.queue)
    (natives : t.nativeCache = s.nativeCache) (modules : t.moduleCache = s.moduleCache)
    (globals : t.globals = s.globals) (shared : t.shared = s.shared)
    (bindings : t.bindings = s.bindings) : Effect terms base s t :=
  .data scopes history (State.same_control_of depth file loading loops)
    ⟨queue, natives, modules, by rw [loops], globals, shared, bindings⟩

theorem effect_grows {terms : Terms} {base : Nat} {part : Part} {s t : State}
    (chain : Chain terms base part s t) : s.Grows t := by
  induction chain with
  | none s => exact s.grows_refl
  | andThen _ _ first second => exact first.trans second
  | data scopes history _ sources => exact State.grows_of_same scopes history sources.bindings
  | root s entries => exact s.grows_rooted entries
  | child s parent kind entries _ _ => exact s.grows_nested parent kind entries
  | rebound s scope name v _ how => exact s.grows_rebinding scope name v _
  | assign s scope name v _ =>
      exact ⟨List.suffix_refl _, List.suffix_refl _,
        (s.scopes.same_shape_assign scope name v).extends⟩
  | marked s m _ => exact State.grows_of_mark rfl rfl rfl
  | share s scope name _ _ => exact s.grows_sharing scope name
  | declare s scope name first? _ _ => exact s.grows_declaring scope name first?
  | inFile s t file _ inner => exact ⟨inner.history, inner.bindings, inner.scopes⟩
  | inCall s t _ inner => exact ⟨inner.history, inner.bindings, inner.scopes⟩
  | broken s t path _ _ _ _ inner =>
      exact (s.grows_begun path).trans (inner.trans (t.grows_broken path))
  | loaded s t path _ _ _ heap place _ inner =>
      exact (s.grows_begun path).trans (inner.trans (t.grows_keeping path heap place))
  | imported s path v _ => exact State.grows_of_mark rfl rfl rfl
  | native s name v => exact State.grows_of_same rfl rfl rfl
  | opened s name _ _ heap v => exact State.grows_of_mark rfl rfl rfl
  | took s loop event rest _ => exact s.grows_taking loop rest
  | handled loop _ inner => exact inner
  | whileRunning s t loop _ _ _ inner => exact ⟨inner.history, inner.bindings, inner.scopes⟩

theorem effect_globals {terms : Terms} {base : Nat} {part : Part} {s t : State}
    (chain : Chain terms base part s t) : t.globals = s.globals := by
  induction chain with
  | andThen _ _ first second => exact second.trans first
  | data _ _ _ sources => exact sources.globals
  | inFile _ _ _ _ inner | inCall _ _ _ inner | broken _ _ _ _ _ _ _ inner
  | loaded _ _ _ _ _ _ _ _ _ inner | handled _ _ inner
  | whileRunning _ _ _ _ _ _ inner => exact inner
  | _ => rfl

theorem State.isRunning_push (s : State) (other : Nat) :
    ({ s with loops := s.loops.push ⟨[], false⟩ } : State).isRunning other =
      s.isRunning other := by
  by_cases last : other = s.loops.size
  · simp [State.isRunning, last]
  · simp [State.isRunning, Array.getElem?_push, last]

theorem same_control_whileRunning {s t : State} (loop : Nat) (idle : s.isRunning loop = false)
    (inner : (Eval.setRunning loop true s).SameControl t) :
    s.SameControl (Eval.setRunning loop false t) := by
  have running : ∀ other, (Eval.setRunning loop false t).isRunning other = s.isRunning other := by
    intro other
    rw [State.isRunning_setRunning]
    by_cases same : other = loop
    · subst same
      rw [idle]
      -- a loop that is not there is not marked at all
      by_cases inside : other < t.loops.size
      · simp [inside]
      · simp [inside, State.isRunning]
    · have still := inner.running other
      rw [State.isRunning_setRunning] at still
      simpa [same] using still
  exact ⟨inner.depth, inner.file, inner.loading, running⟩

/-- A chain of changes leaves control as it found it: what a change of control
brackets leaves it alone, and so the undoing meets what the change made. -/
theorem effect_same_control {terms : Terms} {base : Nat} {part : Part} {s t : State}
    (chain : Chain terms base part s t) : s.SameControl t := by
  induction chain with
  | none s => exact State.same_control_of rfl rfl rfl rfl
  | andThen _ _ first second => exact first.trans second
  | data _ _ control _ => exact control
  | root s _ => exact State.same_control_of rfl rfl rfl rfl
  | child s _ _ _ _ _ => exact State.same_control_of rfl rfl rfl rfl
  | rebound s _ _ _ _ _ => exact State.same_control_of rfl rfl rfl rfl
  | assign s _ _ _ _ => exact State.same_control_of rfl rfl rfl rfl
  | marked s _ _ => exact State.same_control_of rfl rfl rfl rfl
  | share s _ _ _ _ => exact State.same_control_of rfl rfl rfl rfl
  | declare s _ _ _ _ _ => exact State.same_control_of rfl rfl rfl rfl
  | inFile s t file _ inner => exact ⟨inner.depth, rfl, inner.loading, inner.running⟩
  | inCall s t _ inner =>
      -- natural numbers are cut off at zero, but one was added before one is taken off
      have entered : t.depth = s.depth + 1 := inner.depth
      have left : t.depth - 1 = s.depth := by omega
      exact ⟨left, inner.file, inner.loading, inner.running⟩
  | broken s t path _ _ _ _ inner =>
      -- the module is loaded once at a time, so only its own entry is erased
      have loading : t.loading = path :: s.loading := inner.loading
      have erased : t.loading.erase path = s.loading := by simp [loading]
      exact ⟨inner.depth, inner.file, erased, inner.running⟩
  | loaded s t path _ _ _ heap place _ inner =>
      have loading : t.loading = path :: s.loading := inner.loading
      have erased : t.loading.erase path = s.loading := by simp [loading]
      exact ⟨inner.depth, inner.file, erased, inner.running⟩
  | imported s _ _ _ => exact State.same_control_of rfl rfl rfl rfl
  | native s _ _ => exact State.same_control_of rfl rfl rfl rfl
  | opened s _ _ _ _ _ => exact ⟨rfl, rfl, rfl, s.isRunning_push⟩
  | took s _ _ _ _ => exact State.same_control_of rfl rfl rfl rfl
  | handled _ _ inner => exact inner
  | whileRunning s t loop idle _ _ inner => exact same_control_whileRunning loop idle inner

end Loom
