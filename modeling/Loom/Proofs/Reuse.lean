import Loom.Proofs.Aliasing
import Loom.Proofs.Sharing

/-!
A `use` that comes again. In a function it finds the name bound to the variable outside
already and leaves everything as it is. At a top level it finds the variable that it
declared, hands it to the host once more, and leaves it as it is, unless the host has a
first value for it: the variable then gets that value again, whatever it was set to since.
-/

namespace Loom

theorem Table.insert_same {α : Type} {key : Text} {value : α} {table : Table α}
    (found : Table.find? key table = some value) : Table.insert key value table = table := by
  induction table with
  | nil => cases found
  | cons entry rest ih =>
      obtain ⟨k, a⟩ := entry
      by_cases same : k = key
      · rw [Table.find?, if_pos same] at found
        cases found
        rw [Table.insert, if_pos same]
      · rw [Table.find?, if_neg same] at found
        rw [Table.insert, if_neg same, ih found]

namespace ScopeTree

variable {tree after : ScopeTree}

theorem eq_of_same (scopes : tree.scopes = after.scopes) (cells : tree.cells = after.cells) :
    tree = after := by
  obtain ⟨scopes₁, cells₁, _, _, _⟩ := tree
  obtain ⟨scopes₂, cells₂, _, _, _⟩ := after
  cases scopes
  cases cells
  rfl

theorem bind_same {id cell : Nat} {name : Text} (takes : tree.Takes cell name)
    (bound : tree.localCell? id name = some cell) : tree.bind id name cell takes = tree := by
  refine eq_of_same (Array.ext ?_ ?_) rfl
  · exact tree.bind_size id name cell takes
  · intro other there there'
    simp only [bind, Array.getElem_modify]
    split
    · rename_i here
      subst here
      have found : Table.find? name tree.scopes[id].cells = some cell := by
        simpa [localCell?, Scope.cellAt?, Scope.at, Array.getD, there'] using bound
      rw [Table.insert_same found]
    · rfl

/-- A name that a scope has taken from outside is not in the way of being taken again. -/
theorem Aliased.outerCell? {id p cell : Nat} {name : Text}
    (aliased : tree.Aliased (tree.owner id) name cell)
    (above : (tree.scope (tree.owner id)).parent = some p) :
    tree.outerCell? id name = some cell := by
  rw [outerCell?_of_parent above]
  exact aliased.outer p above

theorem Aliased.free {id p cell : Nat} {name : Text}
    (aliased : tree.Aliased (tree.owner id) name cell)
    (above : (tree.scope (tree.owner id)).parent = some p) :
    tree.hidesOuter id name = false := by
  simp [hidesOuter, aliased.own, aliased.outerCell? above]

theorem Aliased.share_again {id p cell : Nat} {name : Text}
    (aliased : tree.Aliased (tree.owner id) name cell)
    (above : (tree.scope (tree.owner id)).parent = some p) : tree.share id name = tree := by
  have outer := aliased.outerCell? above
  unfold ScopeTree.share
  split
  · rename_i found
    rw [outer] at found
    cases found
    exact bind_same _ aliased.own
  · rename_i missing
    rw [outer] at missing
    cases missing

theorem declare_of_lookup? {id cell : Nat} {name : Text}
    (found : tree.lookup? id name = some cell) :
    tree.declare id name none = (cell, tree) ∧
      ∀ v, tree.declare id name (some v) = (cell, tree.write cell v) := by
  constructor
  · simp only [declare, found]
  · intro v
    simp only [declare, found]

theorem lookup?_declare (tree : ScopeTree) (id : Nat) (name : Text) (first? : Option Value)
    (there : id < tree.scopes.size) :
    ((tree.declare id name first?).2.lookup? id name).isSome := by
  cases found : tree.lookup? id name with
  | some cell =>
      exact (tree.keeps_declare id name first?).lookup? name id there (by rw [found]; rfl)
  | none =>
      have bound : (tree.declare id name first?).2.localCell? id name = some tree.cells.size := by
        rw [localCell?_declare, if_pos found, localCell?_define, if_pos ⟨rfl, there, rfl⟩]
      rw [lookup?_of_local _ bound]
      rfl

end ScopeTree

open ScopeTree Eval Interpreter

variable {terms : Terms} {base : Nat} {part : Part} {s t : State}

namespace State

/-- What is known of the uses that were carried out: those in functions took names of
scopes that are there, and those at top levels have declared variables there. -/
structure Used (s : State) : Prop where
  taken : s.Taken
  declared : ∀ scope name, .declared scope name ∈ s.bindings →
    (s.scopes.scope scope).kind = .global ∧ (s.scopes.lookup? scope name).isSome

def reused (s : State) (name : Text) (b : Binding) : State :=
  { s with history := .used name :: s.history, bindings := b :: s.bindings }

theorem declared_of_keeps {scope : Nat} {name : Text} (keeps : s.scopes.Keeps t.scopes)
    (known : (s.scopes.scope scope).kind = .global ∧ (s.scopes.lookup? scope name).isSome) :
    (t.scopes.scope scope).kind = .global ∧ (t.scopes.lookup? scope name).isSome :=
  ⟨keeps.grown.global known.1,
    keeps.lookup? name scope (s.scopes.lt_size_of_global known.1) known.2⟩

theorem Used.of_keeps (used : s.Used) (keeps : s.scopes.Keeps t.scopes)
    (same : t.bindings = s.bindings) : t.Used where
  taken := Taken.of_same used.taken keeps.grown same
  declared scope name known := declared_of_keeps keeps (used.declared scope name (same ▸ known))

theorem used_of_chain (chain : Chain terms base part s t) (used : s.Used) : t.Used := by
  refine ⟨taken_of_chain chain used.taken, ?_⟩
  apply noted_of_chain _ _ _ _ chain used.declared
  · intro s t keeps same declared scope name known
    exact declared_of_keeps keeps (declared scope name (same ▸ known))
  · intro s scope name v b how declared id label known
    apply declared_of_keeps (s.scopes.keeps_define scope name v)
    rcases List.mem_cons.mp known with new | old
    · subst new
      cases how
    · exact declared id label old
  · intro s scope name declared id label known
    apply declared_of_keeps (s.scopes.keeps_share scope name)
    rcases List.mem_append.mp known with new | old
    · simp at new
    · exact declared id label old
  · intro s scope name first? global declared id label known
    have there := s.scopes.lt_size_of_global global
    rcases List.mem_cons.mp known with new | old
    · cases new
      have shape := s.scopes.same_shape_declare (s.scopes.owner scope) name first?
      exact ⟨(shape.kind _).trans global, s.scopes.lookup?_declare _ name first? there⟩
    · exact declared_of_keeps (s.scopes.keeps_declare _ name first?) (declared id label old)

theorem Used.renewed (used : s.Used) : (withNewGlobals s).Used := by
  obtain ⟨entries, made⟩ := Discipline.withNewGlobals_run s
  rw [made]
  exact used.of_keeps ((s.scopes.keeps_pushScope none .global (by simp)).trans
    (keeps_defineAll _ _ entries)) rfl

end State

/-! A `use` that comes again. -/

theorem declareUse_aliased {m : Machine} {id p cell : Nat} {name : Text}
    (function : (s.scopes.scope (s.scopes.owner id)).kind = .function)
    (above : (s.scopes.scope (s.scopes.owner id)).parent = some p)
    (aliased : s.scopes.Aliased (s.scopes.owner id) name cell) :
    declareUse m id name s = .ok () (s.reused name (.aliased (s.scopes.owner id) name)) := by
  have there := lt_size_of_localCell? aliased.own
  have known : s.scopes.known? (s.scopes.owner id) = some (s.scopes.owner id) :=
    (s.scopes.known?_eq_some _ _).mpr ⟨there, rfl⟩
  have local' : (s.scopes.scope (s.scopes.owner id)).kind ≠ .global := by
    rw [function]
    decide
  simp only [declareUse, get_bind_run, local', if_true, shareOuter_eq, mark, modify_bind_run,
    aliased.free above, ne_eq, not_false_eq_true]
  show EStateM.Result.ok _ _ = _
  simp only [aliased.share_again above, known, State.reused]
  rfl

/-- At a top level that has declared the name already, on a host that has no first value
for it. -/
theorem declareUse_declared {m : Machine} {id cell : Nat} {name : Text}
    (global : (s.scopes.scope (s.scopes.owner id)).kind = .global)
    (found : s.scopes.lookup? (s.scopes.owner id) name = some cell)
    (plain : Table.find? name m.host.shared = none) :
    declareUse m id name s =
      .ok () ({ s with shared := Table.insert name cell s.shared }.reused name
        (.declared (s.scopes.owner id) name)) := by
  simp only [declareUse, get_bind_run, global, ne_eq, not_true_eq_false, if_false, plain,
    declareShared]
  show EStateM.Result.ok _ _ = _
  simp only [(declare_of_lookup? found).1, State.reused]

/-- At such a top level, on a host that has a first value. -/
theorem declareUse_first {m : Machine} {id cell : Nat} {name : Text} {data : Json}
    (global : (s.scopes.scope (s.scopes.owner id)).kind = .global)
    (found : s.scopes.lookup? (s.scopes.owner id) name = some cell)
    (first : Table.find? name m.host.shared = some data) :
    declareUse m id name s =
      .ok () ({ s with
        scopes := s.scopes.write cell (Value.ofHost data.host s.heap s.stamps).1
        heap := (Value.ofHost data.host s.heap s.stamps).2
        stamps := s.stamps + data.host.nans
        shared := Table.insert name cell s.shared }.reused name
          (.declared (s.scopes.owner id) name)) := by
  simp only [declareUse, get_bind_run, global, ne_eq, not_true_eq_false, if_false, first,
    ofJson, modifyGet_bind_run, declareShared]
  show EStateM.Result.ok _ _ = _
  simp only [(declare_of_lookup? found).2, State.reused]

theorem obeys_alarmed (watch : State → Bool) (alarm : HostFault) (host : Host) (fuel : Nat) :
    (Machine.watched watch (.failed (.host alarm)) host fuel).Obeys Discipline.free base :=
  Discipline.obeys_watched (Discipline.admits_free host) (Nat.zero_le _)
    (fun _ _ _ _ => trivial) fuel

theorem used_serveAll (watch : State → Bool) (alarm : HostFault) (host : Host) (fuel : Nat)
    (events : List HostEvent) (requests : List Request) :
    let s := ((Interpreter.new host events).serveAll
      (fun host => .watched watch (.failed (.host alarm)) host fuel) requests).2.state
    s.Used ∧ (.reset ∉ requests → s.Sharing) := by
  have blank : (blankState events).Used := by constructor <;> simp [blankState, State.Taken]
  have kept := Discipline.kept_new (Discipline.admits_free host) (fun _ => trivial) events
  have serves : Discipline.free.Serves
      (fun host => .watched watch (.failed (.host alarm)) host fuel) :=
    fun host _ => obeys_alarmed watch alarm host fuel
  have placed : ∀ request ∈ requests, request.Placed false :=
    fun request _ => request.placed_of_lenient
  constructor
  · apply Discipline.holds_serveAll serves (fun _ _ chain => State.used_of_chain chain)
      (fun _ _ used => used.of_keeps (keeps_refl _) rfl) requests _ kept placed blank.renewed
    -- what a reset forgets besides is nothing that is known of uses
    exact fun _ i _ used => used.renewed.of_keeps (keeps_refl _) rfl
  · intro keeps
    exact Discipline.holds_serveAll serves (fun _ _ chain => State.sharing_of_chain chain)
      (fun _ _ sharing => sharing.of_same rfl rfl rfl rfl) requests
      (fun resets => absurd resets keeps) kept placed (State.sharing_new host events)

/-- In the scope of a call, a name that a `use` has taken stays taken at every point of the
call, unless a definition or an import has bound it anew there. -/
theorem aliased_in_call (watch : State → Bool) (alarm : HostFault) (host : Host) (fuel : Nat)
    (used : s.Used) (f : Closure) (args : List Value) (name : Text) :
    let t := after (callFunction (.watched watch (.failed (.host alarm)) host fuel) f args name) s
    let scope := s.scopes.scopes.size
    t.Used ∧ ∀ n, .aliased scope n ∈ t.bindings → ¬ Binding.Rebound t.bindings scope n →
      (t.scopes.scope scope).kind = .function ∧
        (t.scopes.scope scope).parent = s.scopes.known? f.scope ∧
        ∃ cell, t.scopes.Aliased scope n cell := by
  have obeys : (Machine.watched watch (.failed (.host alarm)) host fuel).Obeys Discipline.free
      s.scopes.scopes.size := obeys_alarmed watch alarm host fuel
  have ready : Discipline.free.Ready s.scopes.scopes.size s :=
    Discipline.ready_free s (Nat.le_refl _)
  have placed : f.procedure.Placed Discipline.free.strict := f.procedure.placed_of_lenient
  have called : Discipline.free.Ensures s.scopes.scopes.size s
      (callFunction (.watched watch (.failed (.host alarm)) host fuel) f args name)
      Discipline.free.Fine :=
    Discipline.ensures_callFunction (Discipline.obeys_within (fun _ => trivial) obeys _)
      ⟨placed, Nat.zero_le _⟩ (fun _ _ => trivial)
  obtain ⟨effect, _⟩ := kept_of_ensures called ready
  have used' := State.used_of_chain effect used
  have aliasing := aliasing_of_chain effect used.taken used.taken.aliasing
  refine ⟨used', fun n taken unbound => ?_⟩
  obtain ⟨kind, parent⟩ :=
    scope_of_call name obeys placed ready (fun _ _ => trivial) (used'.taken _ n taken)
  exact ⟨kind, parent, aliasing.aliases n taken unbound⟩

/-- A `use` of a name that was used before. At every point of every session what is known of
uses is in order, and so it is at every point of a call. There a `use` of a name that the
function has taken, and that no definition and no import has bound anew, goes through and
changes nothing that a step reads. At a top level, a `use` of a name that was declared there
goes through, and the name keeps its variable, which the host is handed again; the variable
keeps its value as long as the host has no first value for it. Where it has one, the
variable is set to that once more. What the host was handed is the same as before as long as
the main program was the last to decide on the name. -/
theorem use_again_keeps_variable (watch : State → Bool) (alarm : HostFault) (host : Host)
    (fuel : Nat) :
    (∀ events requests,
      let s := ((Interpreter.new host events).serveAll
        (fun host => .watched watch (.failed (.host alarm)) host fuel) requests).2.state
      s.Used ∧ (.reset ∉ requests → s.Sharing)) ∧
    (∀ (s : State) (f : Closure) args name, s.Used → f.scope < s.scopes.scopes.size →
      let t := after (callFunction (.watched watch (.failed (.host alarm)) host fuel) f args name) s
      let scope := s.scopes.scopes.size
      t.Used ∧ ∀ n, .aliased scope n ∈ t.bindings → ¬ Binding.Rebound t.bindings scope n →
        ∃ cell, t.scopes.Aliased scope n cell ∧ ∀ (m : Machine) id, t.scopes.owner id = scope →
          declareUse m id n t = .ok () (t.reused n (.aliased scope n))) ∧
    ∀ (t : State) (m : Machine) id n, t.Used →
      let top := t.scopes.owner id
      .declared top n ∈ t.bindings →
        ∃ cell, t.scopes.lookup? top n = some cell ∧
          (Table.find? n m.host.shared = none →
            declareUse m id n t =
              .ok () ({ t with shared := Table.insert n cell t.shared }.reused n
                (.declared top n))) ∧
          (∀ data, Table.find? n m.host.shared = some data →
            declareUse m id n t =
              .ok () ({ t with
                scopes := t.scopes.write cell (Value.ofHost data.host t.heap t.stamps).1
                heap := (Value.ofHost data.host t.heap t.stamps).2
                stamps := t.stamps + data.host.nans
                shared := Table.insert n cell t.shared }.reused n (.declared top n))) ∧
          (t.Sharing → top = t.globals → t.decided n = some (.declared top n) →
            Table.insert n cell t.shared = t.shared) := by
  refine ⟨fun events requests => used_serveAll watch alarm host fuel events requests, ?_, ?_⟩
  · intro s f args name used there
    obtain ⟨used', kept⟩ := aliased_in_call watch alarm host fuel used f args name
    refine ⟨used', fun n taken unbound => ?_⟩
    obtain ⟨function, parent, cell, aliased⟩ := kept n taken unbound
    refine ⟨cell, aliased, fun m id owned => ?_⟩
    rw [(s.scopes.known?_eq_some f.scope f.scope).mpr ⟨there, rfl⟩] at parent
    rw [← owned] at function parent aliased ⊢
    exact declareUse_aliased function parent aliased
  · intro t m id n used
    dsimp only
    intro known
    obtain ⟨global, means⟩ := used.declared _ n known
    obtain ⟨cell, found⟩ := Option.isSome_iff_exists.mp means
    refine ⟨cell, found, declareUse_declared global found,
      fun data first => declareUse_first global found first, ?_⟩
    intro sharing top last
    rw [top] at found last
    obtain ⟨cell', handed, bound⟩ := (sharing.shares n).mpr last
    -- nothing is above a top level, so the name means there what is bound there
    rw [lookup?_of_top sharing.highest, bound] at found
    cases found
    exact Table.insert_same handed

def takenState : State :=
  after (callFunction (.watched takenTwice (.failed (.host .missingValue)) .plain 8) callsSetter []
    [102]) bareGlobals

def declaredState : State :=
  ((Interpreter.new .plain []).serveAll (fun host => .of host 15)
    [.runSource "use n\nn = false\n" none]).2.state

/-- The outer call takes `x` again and finds its variable, and a program declares `n` again,
which keeps its value. -/
theorem used_twice :
    bareGlobals.Used ∧ .aliased 1 [120] ∈ takenState.bindings ∧
      takenState.scopes.owner 1 = 1 ∧
      declareUse (.of .plain 8) 1 [120] takenState =
        .ok () (takenState.reused [120] (.aliased 1 [120])) ∧
      .declared (declaredState.scopes.owner 0) "n" ∈ declaredState.bindings ∧
      ∃ cell, declaredState.scopes.lookup? (declaredState.scopes.owner 0) "n" = some cell ∧
        declareUse (.of .plain 8) 0 "n" declaredState =
          .ok () ({ declaredState with
            shared := Table.insert "n" cell declaredState.shared }.reused "n"
              (.declared (declaredState.scopes.owner 0) "n")) := by
  have bare : bareGlobals.Used := by
    constructor <;> simp [bareGlobals, blankState, State.Taken]
  have taken : .aliased 1 [120] ∈ takenState.bindings := by decide +kernel
  have owned : takenState.scopes.owner 1 = 1 := by decide +kernel
  have unbound : ¬ Binding.Rebound takenState.bindings 1 [120] := by
    unfold Binding.Rebound
    decide +kernel
  have kept := (use_again_keeps_variable takenTwice .missingValue .plain 8).2.1 bareGlobals
    callsSetter [] [102] bare (by decide)
  obtain ⟨_, _, again⟩ := kept.2 [120] taken unbound
  have known : .declared (declaredState.scopes.owner 0) "n" ∈ declaredState.bindings := by
    decide +kernel
  obtain ⟨inSession, _, declared⟩ :=
    use_again_keeps_variable (fun _ => false) .missingValue .plain 15
  simp only [watched_never] at inSession
  have used : declaredState.Used := (inSession [] _).1
  obtain ⟨cell, found, redeclared, _⟩ := declared declaredState (.of .plain 8) 0 "n" used known
  exact ⟨bare, taken, owned, again (.of .plain 8) 1 owned, known, cell, found, redeclared rfl⟩

/-- A host whose first value for `n` is true. -/
def firstHost : Host := { Host.plain with shared := [("n", .bool true)] }

def firstAfter (sources : List Text) : Interpreter :=
  ((Interpreter.new firstHost []).serveAll (fun host => .of host 15)
    (sources.map (.runSource · none))).2

/-- A program declares `n` and sets it to false; the `use` of the next one sets it to the
first value of the host again. -/
theorem first_value_set_again :
    let before := firstAfter ["use n\nn = false\n"]
    let after := firstAfter ["use n\nn = false\n", "use n\n"]
    .declared before.state.globals "n" ∈ before.state.bindings ∧
      before.state.scopes.get? before.state.globals "n" = some (.bool false) ∧
      after.state.globals = before.state.globals ∧
      after.state.scopes.get? after.state.globals "n" = some (.bool true) := by
  have set : truthsOf (firstAfter ["use n\nn = false\n"]) "n" = some (false, false) := by
    decide +kernel
  have again : truthsOf (firstAfter ["use n\nn = false\n", "use n\n"]) "n" =
      some (true, true) := by
    decide +kernel
  exact ⟨by decide +kernel, (values_of_truthsOf set).2, by decide +kernel,
    (values_of_truthsOf again).2⟩

end Loom
