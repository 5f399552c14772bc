import Loom.Proofs.Confinement

/-!
What a loop over a collection visits. The items are those that the collection had when the
loop started, whatever the passes do to it. Each pass has a variable of its own, in a block
of its own, so that what is made in one pass never sees an assignment to the variable of
another.
-/

namespace Loom

open Eval ScopeTree

/-- The items of a collection: elements, keys in the order in which they came, or characters. -/
inductive Collects (heap : Heap) : Value → List Value → Prop
  | elements (ref : Nat) : Collects heap (.array ref) ((heap.array ref).toList.map Slot.read)
  | keys (ref : Nat) : Collects heap (.hash ref) ((Table.keys (heap.hash ref)).map .string)
  | characters (text : Text) : Collects heap (.string text) (text.characters.map .string)

theorem itemsOf_of_collects {v : Value} {items : List Value} {t : State}
    (collects : Collects t.heap v items) : itemsOf v t = .ok items t := by
  cases collects <;> rfl

/-- A pass of a loop: the item that it is for, and the state that it starts from. -/
structure Visit where
  item : Value
  before : State

def Visit.scope (p : Visit) : Nat := p.before.scopes.scopes.size

def Visit.cell (p : Visit) : Nat := p.before.scopes.cells.size

structure ForEach where
  machine : Machine
  name : Text
  body : Block
  scope : Nat

inductive EndsLoop : EStateM.Result Stop State Flow → Prop
  | failed (e : Stop) (t : State) : EndsLoop (.error e t)
  | returned (v : Value) (t : State) : EndsLoop (.ok (.returned v) t)
  | broke (depth : Nat) (t : State) : EndsLoop (.ok (.broke depth) t)
  /-- A `continue` that goes on with a loop further out. -/
  | further (depth : Nat) (t : State) (many : 1 < depth) : EndsLoop (.ok (.continued depth) t)

theorem endsLoop_or_again (result : EStateM.Result Stop State Flow) :
    EndsLoop result ∨ ∃ flow t, result = .ok flow t ∧ Flow.afterPass flow = .again := by
  cases result with
  | error e t => exact .inl (.failed e t)
  | ok flow t =>
      cases flow with
      | normal => exact .inr ⟨_, t, rfl, rfl⟩
      | returned v => exact .inl (.returned v t)
      | broke depth => exact .inl (.broke depth t)
      | continued depth =>
          by_cases many : 1 < depth
          · exact .inl (.further depth t many)
          · exact .inr ⟨_, t, rfl, if_neg many⟩

theorem EndsLoop.not_again {flow : Flow} {t : State} (ends : EndsLoop (.ok flow t)) :
    Flow.afterPass flow ≠ .again := by
  cases ends with
  | returned v => simp [Flow.afterPass]
  | broke depth =>
      simp only [Flow.afterPass]
      split <;> simp
  | further depth _ many => simp [Flow.afterPass, many]

namespace ForEach

variable {loop : ForEach}

def opened (loop : ForEach) (p : Visit) : State :=
  p.before.nested loop.scope .block [(loop.name, p.item)]

def result (loop : ForEach) (p : Visit) : EStateM.Result Stop State Flow :=
  loop.machine.block loop.body.statements p.scope (loop.opened p)

def visits (loop : ForEach) : List Value → State → List Visit
  | [], _ => []
  | v :: rest, s =>
      ⟨v, s⟩ ::
        match loop.result ⟨v, s⟩ with
        | .ok flow t =>
            match Flow.afterPass flow with
            | .again => loop.visits rest t
            | .stop | .leave _ => []
        | .error _ _ => []

def conclude : EStateM.Result Stop State Flow → EStateM.Result Stop State Flow
  | .ok flow t =>
      match Flow.afterPass flow with
      | .again | .stop => .ok .normal t
      | .leave after => .ok after t
  | .error e t => .error e t

def ended (loop : ForEach) (visits : List Visit) (s : State) : EStateM.Result Stop State Flow :=
  match visits.getLast? with
  | some p => conclude (loop.result p)
  | none => .ok .normal s

theorem visits_of_again {v : Value} {rest : List Value} {s t : State} {flow : Flow}
    (ran : loop.result ⟨v, s⟩ = .ok flow t) (again : Flow.afterPass flow = .again) :
    loop.visits (v :: rest) s = ⟨v, s⟩ :: loop.visits rest t := by
  simp only [visits, ran, again]

theorem visits_of_ends {v : Value} {rest : List Value} {s : State}
    (ends : EndsLoop (loop.result ⟨v, s⟩)) : loop.visits (v :: rest) s = [⟨v, s⟩] := by
  rw [visits]
  cases outcome : loop.result ⟨v, s⟩ with
  | error e t => rfl
  | ok flow t =>
      cases after : Flow.afterPass flow with
      | again => exact absurd after (outcome ▸ ends).not_again
      | stop | leave => simp only [after]

theorem execForEach_eq (loop : ForEach) (items : List Value) (s : State) :
    execForEach loop.machine loop.name loop.body loop.scope items s =
      loop.ended (loop.visits items s) s := by
  induction items generalizing s with
  | nil => rfl
  | cons v rest ih =>
      have pass : execForEach loop.machine loop.name loop.body loop.scope (v :: rest) s =
          (loop.machine.block loop.body.statements (Visit.mk v s).scope >>= fun flow =>
            match Flow.afterPass flow with
            | .again => execForEach loop.machine loop.name loop.body loop.scope rest
            | .stop => pure .normal
            | .leave flow => pure flow) (loop.opened ⟨v, s⟩) := rfl
      rw [pass]
      rcases endsLoop_or_again (loop.result ⟨v, s⟩) with ends | ⟨flow, t, ran, again⟩
      · rw [visits_of_ends ends]
        show _ = conclude (loop.result ⟨v, s⟩)
        cases outcome : loop.result ⟨v, s⟩ with
        | error e t => rw [bind_error outcome, conclude]
        | ok flow t =>
            rw [bind_ok outcome, conclude]
            cases after : Flow.afterPass flow with
            | again => exact absurd after (outcome ▸ ends).not_again
            | stop | leave => rfl
      · rw [bind_ok ran, visits_of_again ran again, again]
        simp only [ih, ended, List.getLast?_cons]
        cases (loop.visits rest t).getLast? with
        | none => simp [ran, conclude, again]
        | some q => rfl

theorem visits_prefix (loop : ForEach) (items : List Value) (s : State) :
    (loop.visits items s).map Visit.item <+: items := by
  induction items generalizing s with
  | nil => exact List.prefix_refl []
  | cons v rest ih =>
      rcases endsLoop_or_again (loop.result ⟨v, s⟩) with ends | ⟨flow, t, ran, again⟩
      · rw [visits_of_ends ends]
        exact ⟨rest, rfl⟩
      · rw [visits_of_again ran again]
        exact List.prefix_cons_inj v |>.mpr (ih t)

/-- Only what ends a loop keeps it from an item. -/
theorem visits_all {items : List Value} {s : State}
    (on : ∀ p ∈ loop.visits items s, ¬ EndsLoop (loop.result p)) :
    (loop.visits items s).map Visit.item = items := by
  induction items generalizing s with
  | nil => rfl
  | cons v rest ih =>
      rcases endsLoop_or_again (loop.result ⟨v, s⟩) with ends | ⟨flow, t, ran, again⟩
      · exact absurd ends (on _ (visits_of_ends ends ▸ .head _))
      · rw [visits_of_again ran again] at on ⊢
        rw [List.map_cons, ih fun p member => on p (.tail _ member)]

/-! The scopes of the passes. -/

/-- What a pass binds its variable to: a new cell, in a block of its own below the scope of
the loop. However the run goes on, the cell is bound below that block only. -/
structure Fresh (loop : ForEach) (p : Visit) : Prop where
  unbound : ∀ id label, p.before.scopes.localCell? id label ≠ some p.cell
  parent : ((loop.opened p).scopes.scope p.scope).parent = some loop.scope
  bound : (loop.opened p).scopes.localCell? p.scope loop.name = some p.cell
  holds : (loop.opened p).scopes.get? p.scope loop.name = some p.item
  confined : ∀ tree, (loop.opened p).scopes.LeadsTo tree → tree.Confined p.scope p.cell

/-- What is assigned to the variable of one pass is not seen from the block of another. -/
def Unseen (tree : ScopeTree) (p q : Visit) : Prop :=
  ∀ reader writer name label v, p.scope ∈ tree.chain reader →
    tree.target? writer name = some q.cell →
    (tree.assign writer name v).get? reader label = tree.get? reader label

def Apart (loop : ForEach) (p q : Visit) : Prop :=
  p.cell ≠ q.cell ∧ ∀ tree, (loop.opened q).scopes.LeadsTo tree →
    Unseen tree p q ∧ Unseen tree q p

theorem opened_scopes (loop : ForEach) (p : Visit) :
    (loop.opened p).scopes =
      (p.before.scopes.child loop.scope .block).2.define p.scope loop.name p.item := rfl

theorem fresh {p : Visit} (there : loop.scope < p.before.scopes.scopes.size) : loop.Fresh p := by
  have here : p.scope < (p.before.scopes.child loop.scope .block).2.scopes.size := by
    simp [Visit.scope, child]
  have bound : (loop.opened p).scopes.localCell? p.scope loop.name = some p.cell := by
    rw [opened_scopes, localCell?_define, if_pos ⟨rfl, here, rfl⟩]
    rfl
  constructor
  · exact fun id label found => Nat.lt_irrefl _ (p.before.scopes.bound id label _ found)
  · exact (State.scope_nested ..).2.trans ((known?_eq_some ..).mpr ⟨there, rfl⟩)
  · exact bound
  · rw [get?, (loop.opened p).scopes.lookup?_of_local bound]
    exact congrArg some (read_define _ p.scope loop.name p.item)
  · exact fun tree leads => (confined_define _ p.scope here loop.name p.item).leadsTo leads

theorem unseen {tree : ScopeTree} {p q : Visit} (confined : tree.Confined q.scope q.cell)
    (differ : p.scope ≠ q.scope)
    (parent : (tree.scope p.scope).parent = some loop.scope)
    (parent' : (tree.scope q.scope).parent = some loop.scope) : Unseen tree p q := by
  intro reader writer name label v inside written
  have outside : q.scope ∉ tree.chain reader := fun both =>
    differ (eq_of_siblings inside both parent parent')
  exact confined.get?_assign v outside written

theorem apart {p q : Visit} (there : loop.scope < p.before.scopes.scopes.size)
    (later : (loop.opened p).scopes.LeadsTo q.before.scopes) : loop.Apart p q := by
  have first : loop.Fresh p := fresh there
  have grown := later.grown
  have made : p.cell < q.cell := (first.confined _ later).made
  have pushed : p.scope < q.scope := (first.confined _ later).there
  have second : loop.Fresh q := fresh (by
    exact Nat.lt_trans ((loop.opened p).scopes.below _ _ first.parent) pushed)
  refine ⟨Nat.ne_of_lt made, fun tree leads => ?_⟩
  have all : (loop.opened p).scopes.LeadsTo tree :=
    later.andThen ((leadsTo_nested q.before loop.scope .block _).andThen leads)
  have parent : (tree.scope p.scope).parent = some loop.scope := by
    rw [all.grown.parent _ (first.confined _ (.none _)).there, first.parent]
  have parent' : (tree.scope q.scope).parent = some loop.scope := by
    rw [leads.grown.parent _ (second.confined _ (.none _)).there, second.parent]
  exact ⟨unseen (second.confined tree leads) (Nat.ne_of_lt pushed) parent parent',
    unseen (first.confined tree all) (Nat.ne_of_gt pushed) parent' parent⟩

theorem leadsTo_of_again (leadsOn : loop.machine.LeadsOn) {p : Visit} {flow : Flow} {t : State}
    (ran : loop.result p = .ok flow t) : (loop.opened p).scopes.LeadsTo t.scopes := by
  have leads := leadsOn.block loop.body.statements p.scope (loop.opened p)
  -- what runs in the block of the pass is what the pass comes to
  have outcome : loop.machine.block loop.body.statements p.scope (loop.opened p) = .ok flow t := ran
  simpa only [Eval.after, outcome] using leads

theorem leadsTo_visit (loop : ForEach) (leadsOn : loop.machine.LeadsOn) {items : List Value}
    {s : State} :
    ∀ p ∈ loop.visits items s, s.scopes.LeadsTo p.before.scopes := by
  induction items generalizing s with
  | nil => exact nofun
  | cons v rest ih =>
      rcases endsLoop_or_again (loop.result ⟨v, s⟩) with ends | ⟨flow, t, ran, again⟩
      · rw [visits_of_ends ends]
        simpa using ScopeTree.LeadsTo.none s.scopes
      · rw [visits_of_again ran again]
        intro p member
        rcases List.mem_cons.mp member with rfl | later
        · exact .none _
        · exact (leadsTo_nested s loop.scope .block _).andThen
            ((leadsTo_of_again leadsOn ran).andThen (ih p later))

theorem pairwise_apart (loop : ForEach) (leadsOn : loop.machine.LeadsOn) {items : List Value}
    {s : State} (there : loop.scope < s.scopes.scopes.size) :
    (loop.visits items s).Pairwise loop.Apart := by
  induction items generalizing s with
  | nil => exact .nil
  | cons v rest ih =>
      rcases endsLoop_or_again (loop.result ⟨v, s⟩) with ends | ⟨flow, t, ran, again⟩
      · rw [visits_of_ends ends]
        exact List.pairwise_singleton ..
      · have through := leadsTo_of_again leadsOn ran
        have opened := leadsTo_nested s loop.scope .block [(loop.name, v)]
        rw [visits_of_again ran again]
        refine .cons (fun q later => apart there ?_) (ih ?_)
        · exact through.andThen (loop.leadsTo_visit leadsOn q later)
        · exact Nat.lt_of_lt_of_le there (opened.andThen through).grown.size

end ForEach

/-- A loop visits the collection as it was at its start. From every state and whatever its
body does, a loop over an array, a hash or a string is made of passes for the elements, keys
or characters that its subject had when it had been worked out: for some of the first of
them, in their order, and for all of them where none of the passes ends in a failure, by a
`return` or `break`, or by a `continue` of a loop further out. Each pass has a variable of
its own that holds its item at first, and whatever comes after that, in the passes, in what
is left of the program or in a session, what is assigned to the variable of one pass is not
seen from the block of another, nor from anything made there. -/
theorem loop_visits_collection (watch : State → Bool) (alarm : Stop) (host : Host) (fuel : Nat) :
    let m := Machine.watched watch alarm host fuel
    m.LeadsOn ∧
    (∀ requests (i : Interpreter), i.state.scopes.LeadsTo
      (i.serveAll (fun host => .watched watch alarm host fuel) requests).2.state.scopes) ∧
    ∀ name subject body loc scope (s t : State) v items, scope < s.scopes.scopes.size →
      m.eval subject scope s = .ok v t → Collects t.heap v items →
      let loop : ForEach := ⟨m, name, body, scope⟩
      let visits := loop.visits items t
      execStmt m (.forEach name subject body loc) scope s = loop.ended visits t ∧
      visits.map Visit.item <+: items ∧
      ((∀ p ∈ visits, ¬ EndsLoop (loop.result p)) → visits.map Visit.item = items) ∧
      (∀ p ∈ visits, loop.Fresh p) ∧
      visits.Pairwise loop.Apart := by
  intro m
  have leadsOn : m.LeadsOn := leadsOn_watched watch alarm host fuel
  refine ⟨leadsOn, leadsTo_serveAll watch alarm fuel, ?_⟩
  intro name subject body loc scope s t v items there worked collects loop visits
  have subjectLeads : s.scopes.LeadsTo t.scopes := by
    simpa only [Eval.after, worked] using leadsOn.eval subject scope s
  have there' : scope < t.scopes.scopes.size := Nat.lt_of_lt_of_le there subjectLeads.grown.size
  refine ⟨?_, loop.visits_prefix items t, ForEach.visits_all, ?_, ?_⟩
  · calc execStmt m (.forEach name subject body loc) scope s
        = (itemsOf v >>= execForEach m name body scope) t := bind_ok worked
      _ = execForEach m name body scope items t := bind_ok (itemsOf_of_collects collects)
      _ = loop.ended visits t := loop.execForEach_eq items t
  · intro p member
    have leads := loop.leadsTo_visit leadsOn p member
    exact ForEach.fresh (Nat.lt_of_lt_of_le there' leads.grown.size)
  · exact loop.pairwise_apart leadsOn there'

def skipping : ForEach where
  machine := .of .plain 6
  name := "x"
  body := ⟨[.emit (.string [.text "inner"] .origin) none .origin, .next 2 .origin], .origin⟩
  scope := 0

/-- A loop with such a loop in it, each over two elements. -/
def skippingInLoop : List Stmt :=
  let pair : Expr := .array [.bool true .origin, .bool false .origin] .origin
  [.forEach "y" pair ⟨[.forEach "x" pair skipping.body .origin], .origin⟩ .origin]

/-- A pass that neither breaks off nor fails can keep a loop from its other items. -/
theorem continue_leaves_items :
    let items : List Value := [.bool true, .bool false]
    (∀ p ∈ skipping.visits items freshState, ∃ t, skipping.result p = .ok (.continued 2) t) ∧
      (skipping.visits items freshState).map Visit.item ≠ items ∧
      putOut skippingInLoop = (["inner", "inner"] : List Text) := by
  intro items
  have ran : ∃ t, skipping.result ⟨.bool true, freshState⟩ = .ok (.continued 2) t := ⟨_, rfl⟩
  obtain ⟨t, ran⟩ := ran
  have visits : skipping.visits items freshState = [⟨.bool true, freshState⟩] := by
    apply ForEach.visits_of_ends
    rw [ran]
    exact .further 2 t (by decide)
  refine ⟨?_, ?_, by decide +kernel⟩
  · simpa [visits] using ⟨t, ran⟩
  · simp [visits, items]

def listed : State :=
  let loc : Location := .origin
  Eval.after ((Machine.of .plain 6).block
    [.assign (.ident "list" loc) .set (.array [.bool true loc, .bool false loc] loc) loc] 0)
    freshState

def appending : ForEach where
  machine := .watched (fun _ => false) .outOfFuel .plain 6
  name := "x"
  body :=
    let args : List Expr := [.ident "list" .origin, .ident "x" .origin]
    ⟨[.call (.ident "Add" .origin) args .origin .origin], .origin⟩
  scope := 0

theorem appending_visits_two : ∃ v t items,
    appending.machine.eval (.ident "list" .origin) 0 listed = .ok v t ∧
      Collects t.heap v items ∧ items.length = 2 ∧
      (appending.visits items t).map Visit.item = items ∧
      (appending.visits items t).Pairwise appending.Apart := by
  let elements := (listed.heap.array 0).toList.map Slot.read
  have two : elements.length = 2 := by decide +kernel
  have passes : (appending.visits elements listed).length = 2 := by decide +kernel
  have worked : appending.machine.eval (.ident "list" .origin) 0 listed =
      .ok (.array 0) listed := rfl
  obtain ⟨-, -, visited⟩ := loop_visits_collection (fun _ => false) .outOfFuel .plain 6
  obtain ⟨-, inOrder, -, -, apart⟩ := visited "x" (.ident "list" .origin) appending.body .origin 0
    listed listed _ elements (by decide +kernel) worked (.elements 0)
  refine ⟨_, _, elements, worked, .elements 0, two, inOrder.eq_of_length ?_, apart⟩
  rw [List.length_map]
  exact passes.trans two.symm

end Loom
