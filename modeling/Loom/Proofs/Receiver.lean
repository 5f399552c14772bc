import Loom.Proofs.Assignment
import Loom.Proofs.Method
import Loom.Proofs.Veil.Session

/-!
Field calls. A call of a field does what a call of a variable does that holds what the field
holds, with the receiver as first argument if that is a method. The receiver is worked out
once, and the field is read before the arguments are evaluated, which may store something
else under it; so the variables are set before them too. Apart from that a callable and the
method made of it are the same to every program.
-/

namespace Loom

namespace ScopeTree

/-- One more variable of a hidden name, in a cell behind all others. -/
theorem veiled_hide {veil : Veil} {tree other : ScopeTree} (same : tree.Veiled veil other)
    (last : veil.low = tree.cells.size) {name : Text} (hidden : name ∈ veil.names) (v : Value) :
    tree.Veiled { veil with more := veil.more + 1 } (other.define veil.home name v) where
  shape := same.shape.trans (other.same_shape_define veil.home name v)
  home := same.home
  low := same.low
  cells := by
    simp only [define, bind, pushCell, Array.size_push, same.cells]
    omega
  localCell? id label spoken := by
    have differ : label ≠ name := fun eq => spoken (eq ▸ hidden)
    rw [localCell?_define, if_neg (fun here => differ here.2.2), same.localCell? id label spoken]
    cases found : tree.localCell? id label with
    | none => rfl
    | some cell =>
        have old : cell < veil.low := last ▸ tree.bound id label cell found
        simp only [Option.map_some, Veil.cell, if_pos old]
  unbound := same.unbound
  localNames id away := by
    have elsewhere := other.scope_define veil.home name v id away
    rw [← same.localNames id away, localNames, elsewhere, localNames]
  read cell := by
    have old := same.read cell
    have size := same.cells
    by_cases low : cell < veil.low
    · simp only [Veil.cell, if_pos low] at old ⊢
      rw [other.read_define_old veil.home name v (by omega), old]
    · have outside : ¬ cell < tree.cells.size := by omega
      have outside' : ¬ cell + (veil.more + 1) < other.cells.size + 1 := by omega
      simp [Veil.cell, if_neg low, read, define, bind, pushCell, Array.getD, outside, outside']

/-- An assignment to a name that is bound nowhere makes a variable of the owner, which is
what the name means from then on. -/
theorem assign_unbound {tree : ScopeTree} {id : Nat} {name : Text} (v : Value)
    (there : id < tree.scopes.size) (unbound : ∀ other, tree.localCell? other name = none) :
    tree.assign id name v = tree.define (tree.owner id) name v ∧
      (tree.assign id name v).get? id name = some v ∧
      ∀ other label, label ≠ name →
        (tree.assign id name v).get? other label = tree.get? other label := by
  have missing : tree.target? id name = none :=
    List.findSome?_eq_none_iff.mpr (fun other _ => unbound other)
  have owned : tree.owner id < tree.scopes.size := Nat.lt_of_le_of_lt (tree.owner_le id) there
  have extended := extended_define v owned (unbound _)
  rw [assign_of_no_target v missing]
  exact ⟨rfl, extended.hidden id (looksPast_owner missing),
    fun other label differ => (extended.frame other label (fun same => differ same.1)).2⟩

theorem veiled_assign {tree : ScopeTree} {id : Nat} {left right : Text} (apart : left ≠ right)
    (there : id < tree.scopes.size)
    (unbound : ∀ other, ∀ name ∈ [left, right], tree.localCell? other name = none) (v w : Value) :
    tree.Veiled ⟨[left, right], tree.owner id, tree.cells.size, 2⟩
        ((tree.assign id left v).assign id right w) ∧
      ((tree.assign id left v).assign id right w).get? id left = some v ∧
      ((tree.assign id left v).assign id right w).get? id right = some w := by
  have owned : tree.owner id < tree.scopes.size := Nat.lt_of_le_of_lt (tree.owner_le id) there
  have none := veiled_self owned (Nat.le_refl tree.cells.size) unbound
  have one := veiled_hide none rfl List.mem_cons_self v
  obtain ⟨first, holds, -⟩ := assign_unbound v there (fun other => unbound other left (by simp))
  have still : ∀ other, (tree.define (tree.owner id) left v).localCell? other right = .none := by
    intro other
    rw [localCell?_define, if_neg (fun here => apart here.2.2.symm)]
    exact unbound other right (by simp)
  have there' : id < (tree.define (tree.owner id) left v).scopes.size := by
    rw [define_size]
    exact there
  obtain ⟨second, holds', kept⟩ := assign_unbound w there' still
  have owner := (tree.same_shape_define (tree.owner id) left v).owner_eq id
  have two := veiled_hide one rfl (by simp : right ∈ [left, right]) w
  rw [first] at holds ⊢
  refine ⟨?_, (kept id left apart).trans holds, holds'⟩
  rw [second, owner]
  exact two

end ScopeTree

/-- Names that nothing speaks of: no scope of a state binds them, and no code speaks of them,
be it code that the state holds, a module of the host or what is about to run. -/
structure State.Fresh (s : State) (host : Host) (names code : List Text) : Prop where
  host : host.Avoids names
  unbound : ∀ id, ∀ name ∈ names, s.scopes.localCell? id name = none
  held : s.All (Value.Avoids names)
  code : Clear names code

/-- States that look the same to a program that speaks of no hidden name. -/
structure State.LooksLike (hidden : List Text) (s t : State) : Prop where
  emitted : t.emitted = s.emitted
  heap : t.heap = s.heap
  values : ∀ id, ∀ name ∉ hidden, t.scopes.get? id name = s.scopes.get? id name

theorem State.Veiled.looksLike {veil : Veil} {s t : State} (states : s.Veiled veil t) :
    s.LooksLike veil.names t :=
  ⟨states.emitted, states.heap, fun id _ spoken => states.scopes.get?_eq spoken id⟩

theorem State.looksLike_refl (hidden : List Text) (s : State) : s.LooksLike hidden s :=
  ⟨rfl, rfl, fun _ _ _ => rfl⟩

namespace Eval

variable {α : Type} {hidden : List Text}

/-- How two runs end that come to the same: with one result, or with failures of one kind. -/
inductive SameEnd (hidden : List Text) :
    EStateM.Result Stop State α → EStateM.Result Stop State α → Prop
  | ok (a : α) {s t : State} (states : s.LooksLike hidden t) : SameEnd hidden (.ok a s) (.ok a t)
  | error {e e' : Stop} {s t : State} (kind : e.SameKind e') (states : s.LooksLike hidden t) :
      SameEnd hidden (.error e s) (.error e' t)

theorem Worded.sameEnd {r r' : EStateM.Result Stop State α} (worded : Worded r r') :
    SameEnd hidden r r' := by
  cases worded with
  | ok a s => exact .ok a (s.looksLike_refl hidden)
  | error s kind => exact .error kind (s.looksLike_refl hidden)

theorem Overlooked.sameEnd {veil : Veil} {good : α → Prop} {r r' r'' : EStateM.Result Stop State α}
    (overlooked : Overlooked veil good r r') (worded : Worded r' r'') :
    SameEnd veil.names r r'' := by
  cases overlooked with
  | ok result states =>
      cases worded with
      | ok => exact .ok _ states.looksLike
  | error states =>
      cases worded with
      | error _ kind => exact .error kind states.looksLike

/-! The two ways to call. -/

/-- Stores a receiver in a variable and its field in another, and calls the second; a method
is given the first. -/
def storedCall (m : Machine) (scope : Nat) (receiver called : Text) (object : Expr) (field : Text)
    (args : List Expr) (method : Bool) (loc : Location) : Eval Value := do
  execAssign m (.ident receiver loc) .set object scope
  execAssign m (.ident called loc) .set (.field (.ident receiver loc) field loc) scope
  evalExpr m
    (.call (.ident called loc) (if method then .ident receiver loc :: args else args) loc) scope

def callWith (m : Machine) (scope : Nat) (receiver callee : Value) (args : List Expr)
    (name : Text) : Eval Value := do
  let values ← evalAll m scope args
  m.call callee (if callee.isMethod then receiver :: values else values) name

theorem lookup_run (s : State) {scope : Nat} {name : Text} {v : Value}
    (bound : s.scopes.get? scope name = some v) : lookup scope name s = .ok v s := by
  rw [lookup, get_bind_run, bound]
  rfl

theorem namedCall_run {m : Machine} {scope : Nat} {name : Text} {v : Value} {s : State}
    (idents : ∀ loc, m.eval (.ident name loc) scope = lookup scope name)
    (bound : s.scopes.get? scope name = some v) (args : List Expr) (loc callLoc : Location) :
    evalExpr m (.call (.ident name loc) args callLoc) scope s =
      (evalAll m scope args >>= (m.call v · name)) s := by
  show (m.eval (.ident name loc) scope >>= fun f =>
    evalAll m scope args >>= (m.call f · name)) s = _
  rw [idents loc, bind_ok (lookup_run s bound)]

theorem evalAll_variable {m : Machine} {scope : Nat} {name : Text} {v : Value} {s : State}
    (idents : ∀ loc, m.eval (.ident name loc) scope = lookup scope name)
    (bound : s.scopes.get? scope name = some v) (args : List Expr) (loc : Location)
    (rest : List Value → Eval α) :
    (evalAll m scope (.ident name loc :: args) >>= rest) s =
      (evalAll m scope args >>= fun values => rest (v :: values)) s := by
  rw [evalAll, idents]
  cases ran : evalAll m scope args s with
  | ok values t =>
      have listed : (lookup scope name >>= fun v => do
          let values ← evalAll m scope args
          pure (v :: values)) s = .ok (v :: values) t := by
        rw [bind_ok (lookup_run s bound), bind_ok ran]
        rfl
      rw [bind_ok listed, bind_ok ran]
  | error e t =>
      have failed : (lookup scope name >>= fun v => do
          let values ← evalAll m scope args
          pure (v :: values)) s = .error e t := by
        rw [bind_ok (lookup_run s bound), bind_error ran]
      rw [bind_error failed, bind_error ran]

theorem readField_run {s : State} {ref : Nat} {field : Text} {v : Value}
    (stored : s.heap.entry? ref field = some v) : readField (.hash ref) field s = .ok v s := by
  show EStateM.Result.ok ((s.heap.entry? ref field).getD .null) s = _
  rw [stored, Option.getD_some]

section

variable {m : Machine} {scope ref : Nat} {object : Expr} {field : Text} {s u : State} {f : Value}
  (evaluated : m.eval object scope s = .ok (.hash ref) u)
  (stored : u.heap.entry? ref field = some f)
include evaluated stored

theorem fieldCall_run (args : List Expr) (loc callLoc : Location) :
    evalExpr m (.call (.field object field loc) args callLoc) scope s =
      callWith m scope (.hash ref) f args (Expr.field object field loc).calleeName u := by
  show evalFieldCall m scope object field args _ s = _
  rw [evalFieldCall, bind_ok evaluated, bind_ok (readField_run stored), callWith]

theorem storedCall_run {receiver called : Text} (args : List Expr) (loc : Location)
    (idents : ∀ name loc, m.eval (.ident name loc) scope = lookup scope name)
    (fields : ∀ name loc, m.eval (.field (.ident name loc) field loc) scope =
      lookup scope name >>= (readField · field))
    {tree : ScopeTree} (first : u.scopes.assign scope receiver (.hash ref) = tree)
    (holds : tree.get? scope receiver = some (.hash ref))
    (holds' : (tree.assign scope called f).get? scope receiver = some (.hash ref))
    (holds'' : (tree.assign scope called f).get? scope called = some f) :
    storedCall m scope receiver called object field args f.isMethod loc s =
      callWith m scope (.hash ref) f args called
        { u with scopes := tree.assign scope called f } := by
  have one : execAssign m (.ident receiver loc) .set object scope s =
      .ok ⟨⟩ { u with scopes := tree } := by
    rw [← first]
    exact bind_ok evaluated
  have read : (lookup scope receiver >>= (readField · field)) { u with scopes := tree } =
      .ok f { u with scopes := tree } :=
    (bind_ok (lookup_run { u with scopes := tree } holds)).trans (readField_run stored)
  have two : execAssign m (.ident called loc) .set (.field (.ident receiver loc) field loc) scope
      { u with scopes := tree } = .ok ⟨⟩ { u with scopes := tree.assign scope called f } := by
    rw [← fields receiver loc] at read
    exact bind_ok read
  refine (bind_ok one).trans ((bind_ok two).trans ?_)
  rw [namedCall_run (s := { u with scopes := tree.assign scope called f }) (idents called) holds'',
    callWith]
  cases f.isMethod with
  | false => rfl
  | true =>
      exact evalAll_variable (s := { u with scopes := tree.assign scope called f })
        (idents receiver) holds' args loc (m.call f · called)

end

theorem overlooks_callWith {veil : Veil} {m : Machine} (overlooks : m.Overlooks veil)
    (scope : Nat) (receiver : Value) {callee : Value} (given : receiver.Avoids veil.names)
    (called : callee.Avoids veil.names) {args : List Expr}
    (clear : Clear veil.names (Expr.allNames args)) (name : Text) :
    Overlooks veil (Value.Avoids veil.names) (callWith m scope receiver callee args name) := by
  apply overlooks_bind (overlooks_evalAll overlooks scope clear)
  intro values held
  apply overlooks.call callee _ name called
  split
  · exact List.forall_mem_cons.mpr ⟨given, held⟩
  · exact held

/-- The name that a call is made under is for messages alone. -/
theorem sameButWords_callWith (host : Host) (fuel scope : Nat) (receiver callee : Value)
    (args : List Expr) (name name' : Text) :
    SameButWords (callWith (Machine.of host (fuel + 1)) scope receiver callee args name)
      (callWith (Machine.of host (fuel + 1)) scope receiver callee args name') :=
  sameButWords_after _ (fun _ => sameButWords_callValue (Machine.of host fuel) callee _ name name')

/-- A field call against a call of variables that nothing speaks of. -/
theorem sameEnd_fieldCall {host : Host} {fuel scope ref : Nat} {s u : State}
    (there : scope < s.scopes.scopes.size) {receiver called : Text} (apart : receiver ≠ called)
    {object : Expr} {args : List Expr}
    (fresh : s.Fresh host [receiver, called] (object.names ++ Expr.allNames args))
    (evaluated : (Machine.of host (fuel + 2)).eval object scope s = .ok (.hash ref) u)
    {field : Text} {f : Value} (stored : u.heap.entry? ref field = some f)
    (loc callLoc otherLoc : Location) :
    SameEnd [receiver, called]
      (evalExpr (Machine.of host (fuel + 2)) (.call (.field object field loc) args callLoc) scope s)
      (storedCall (Machine.of host (fuel + 2)) scope receiver called object field args f.isMethod
        otherLoc s) := by
  obtain ⟨calls, given⟩ := clear_append.mp fresh.code
  -- the receiver is worked out in one and the same state, and the names are fresh after it too
  have before := State.veiled_self
    (ScopeTree.veiled_self there (Nat.zero_le _) fresh.unbound) fresh.held
  have respects : (Machine.of host (fuel + 2)).Overlooks ⟨[receiver, called], scope, 0, 0⟩ :=
    Machine.overlooks_of fresh.host _
  have ran := respects.eval object scope calls s s before
  rw [evaluated] at ran
  obtain ⟨-, states⟩ : True ∧ u.Veiled ⟨[receiver, called], scope, 0, 0⟩ u := by
    cases ran with
    | ok result states => exact ⟨trivial, states⟩
  have called' : f.Avoids [receiver, called] := avoids_of_stored states.held.heap stored
  have holds := (ScopeTree.assign_unbound (.hash ref) states.scopes.home
    (fun other => states.scopes.unbound other receiver List.mem_cons_self)).2.1
  obtain ⟨veiled, holds', holds''⟩ := ScopeTree.veiled_assign apart states.scopes.home
    states.scopes.unbound (.hash ref) f
  rw [fieldCall_run evaluated stored,
    storedCall_run evaluated stored args otherLoc (fun _ _ => rfl) (fun _ _ => rfl) rfl holds
      holds' holds'']
  have after : u.Veiled _ { u with scopes := _ } := { states with scopes := veiled }
  have overlooks : (Machine.of host (fuel + 2)).Overlooks
      ⟨[receiver, called], u.scopes.owner scope, u.scopes.cells.size, 2⟩ :=
    Machine.overlooks_of fresh.host _
  have tail := overlooks_callWith overlooks scope (.hash ref) trivial called' given
  exact (tail _ _ _ after).sameEnd (sameButWords_callWith host (fuel + 1) scope _ f args _ called _)

/-! What a callable and the method made of it have in common. -/

/-- States of a host that nothing tells apart: not the delivery of events, an expression or a
block, nor any requests of the host. -/
structure NotToldApart (host : Host) (fuel : Nat) (s t : State) : Prop where
  dispatch : ∀ loop rounds, SameEnd [] (dispatch (Machine.of host fuel) loop rounds s)
    (dispatch (Machine.of host fuel) loop rounds t)
  eval : ∀ e scope, SameEnd [] ((Machine.of host fuel).eval e scope s)
    ((Machine.of host fuel).eval e scope t)
  block : ∀ statements scope, SameEnd [] ((Machine.of host fuel).block statements scope s)
    ((Machine.of host fuel).block statements scope t)
  serve : ∀ requests,
    let served := (⟨host, s⟩ : Interpreter).serveAll (Machine.of · fuel) requests
    let served' := (⟨host, t⟩ : Interpreter).serveAll (Machine.of · fuel) requests
    served'.1 = served.1 ∧ served.2.state.LooksLike [] served'.2.state

/-- A callable and the method made of it, on a machine. -/
structure MethodActsAlike (host : Host) (fuel : Nat) (v : Value) : Prop where
  /-- `new` makes a method of the callable that a reference gives. -/
  made : ∀ (s u : State) (scope : Nat) (container? : Option Text) (name key : Text)
    (loc hashLoc newLoc : Location),
    (Machine.of host fuel).eval (.ref container? name loc) scope s = .ok v u →
      evalExpr (Machine.of host fuel) (.new [⟨key, .ref container? name loc⟩] hashLoc newLoc)
          scope s =
        .ok (.hash u.heap.hashes.size) { u with heap := (u.heap.newHash [(key, v.asMethod)]).2 }
  equal : ∀ s, binary .equal v.asMethod v s = .ok (.bool true) s ∧
    binary .equal v v.asMethod s = .ok (.bool true) s
  /-- No operator tells the two apart. -/
  operators : ∀ op w, binary op v.asMethod w = binary op v w ∧
    binary op w v.asMethod = binary op w v
  /-- Nor does a read of a field or an index, a condition, a negation or a loop. -/
  reads : (∀ field, readField v.asMethod field = readField v field) ∧
    ∀ w, readIndex v.asMethod w = readIndex v w ∧ readIndex w v.asMethod = readIndex w v
  asked : truthy v.asMethod = truthy v ∧ negate v.asMethod = negate v ∧
    itemsOf v.asMethod = itemsOf v
  text : textOf v.asMethod = textOf v
  json : ∀ heap, v.asMethod.toHost heap = v.toHost heap
  called : ∀ args name, (Machine.of host fuel).call v.asMethod args name =
    (Machine.of host fuel).call v args name
  named : ∀ (s : State) (scope : Nat) (name name' : Text) (args : List Expr)
    (loc callLoc loc' callLoc' : Location), s.scopes.get? scope name = some v →
      s.scopes.get? scope name' = some v.asMethod →
        SameEnd [] (evalExpr (Machine.of host fuel) (.call (.ident name loc) args callLoc) scope s)
          (evalExpr (Machine.of host fuel) (.call (.ident name' loc') args callLoc') scope s)
  /-- A native function that keeps nothing does the same with both. One that calls its first
  argument hands the others on as they are. -/
  taken : ∀ (n : Native) (front back : List Value) (name : Text), ¬ n.action.Stores →
    (n.action = .callBack → front = []) →
      callNative (Machine.of host fuel) n (front ++ v.asMethod :: back) name =
        callNative (Machine.of host fuel) n (front ++ v :: back) name
  /-- One that keeps what it is given keeps the method, and differs in nothing else. -/
  kept : ∀ (n : Native) (front back : List Value) (name : Text) (s : State), n.action.Stores →
    CopyEnds (callNative (Machine.of host fuel) n (front ++ v :: back) name s)
      (callNative (Machine.of host fuel) n (front ++ v.asMethod :: back) name s)
  /-- As the handler of an event the method does what the callable does. -/
  registered : ∀ (s : State) (scope loop : Nat) (event name : Text),
    scope < s.scopes.scopes.size → ∃ t t',
      callNative (Machine.of host fuel) ⟨.setHandler, loop⟩ [.string event, v] name s =
        .ok .null t ∧
      callNative (Machine.of host fuel) ⟨.setHandler, loop⟩ [.string event, v.asMethod] name s =
        .ok .null t' ∧
      NotToldApart host fuel t t'

theorem notToldApart_of_veiled (host : Host) (fuel : Nat) {home low more : Nat} {s t : State}
    (states : s.Veiled ⟨[], home, low, more⟩ t) : NotToldApart host fuel s t := by
  have overlooks : (Machine.of host fuel).Overlooks ⟨[], home, low, more⟩ :=
    Machine.overlooks_of host.avoids_none fuel
  have ends : ∀ {α : Type} {good : α → Prop} {x : Eval α},
      Overlooks ⟨[], home, low, more⟩ good x → SameEnd [] (x s) (x t) :=
    fun unseen => (unseen s t states).sameEnd (sameButWords_refl _ t)
  have interpreters : (⟨host, s⟩ : Interpreter).Veiled ⟨[], home, low, more⟩ ⟨host, t⟩ :=
    ⟨rfl, states⟩
  exact
    { dispatch := fun loop rounds => ends (overlooks_dispatch overlooks loop rounds)
      eval := fun e scope => ends (overlooks.eval e scope (clear_of_none _))
      block := fun statements scope => ends (overlooks.block statements scope (clear_of_none _))
      serve := fun requests =>
        have served := interpreters.serveAll fuel requests
        ⟨served.1, served.2.state.looksLike⟩ }

theorem sameEnd_named (host : Host) (fuel : Nat) {v : Value} {s : State} {scope : Nat}
    {name name' : Text} (holds : s.scopes.get? scope name = some v)
    (holds' : s.scopes.get? scope name' = some v.asMethod) (args : List Expr)
    (loc callLoc loc' callLoc' : Location) :
    SameEnd []
      (evalExpr (Machine.of host (fuel + 1)) (.call (.ident name loc) args callLoc) scope s)
      (evalExpr (Machine.of host (fuel + 1))
        (.call (.ident name' loc') args callLoc') scope s) := by
  rw [namedCall_run (fun _ => rfl) holds, namedCall_run (fun _ => rfl) holds']
  have worded : SameButWords
      (evalAll (Machine.of host (fuel + 1)) scope args >>= fun values =>
        (Machine.of host (fuel + 1)).call v values name)
      (evalAll (Machine.of host (fuel + 1)) scope args >>= fun values =>
        (Machine.of host (fuel + 1)).call v.asMethod values name') := by
    apply sameButWords_after
    intro values s
    have spoken := sameButWords_callValue (Machine.of host fuel) v values name name' s
    rwa [← callValue_asMethod (Machine.of host fuel) v values name'] at spoken
  exact (worded s).sameEnd

theorem registered_alike (host : Host) (fuel : Nat) {v : Value} (callable : v.isCallable = true)
    {s : State} {scope : Nat} (there : scope < s.scopes.scopes.size) (loop : Nat)
    (event name : Text) : ∃ t t',
      callNative (Machine.of host fuel) ⟨.setHandler, loop⟩ [.string event, v] name s =
        .ok .null t ∧
      callNative (Machine.of host fuel) ⟨.setHandler, loop⟩ [.string event, v.asMethod] name s =
        .ok .null t' ∧
      NotToldApart host fuel t t' := by
  have all : ∀ s : State, s.All (Value.Avoids []) := State.all_of_forall Value.avoids_none
  have alone := State.veiled_self
    (ScopeTree.veiled_self there (Nat.zero_le _) (fun _ _ none => by cases none)) (all s)
  have stored : ∀ w : Value, w.isCallable = true →
      callNative (Machine.of host fuel) ⟨.setHandler, loop⟩ [.string event, w] name s =
        .ok .null { s with loops := s.loops.modify loop (fun l =>
          { l with handlers := Table.insert event w l.handlers }) } := by
    intro w callable
    show setHandler loop (.string event) w s = _
    simp only [setHandler, expectString, pure_bind, callable, if_true]
    rfl
  have callable' : v.asMethod.isCallable = true := by
    cases v <;> exact callable
  have loops := loops_asMethod s.loops loop event v
  refine ⟨_, _, stored v callable, stored v.asMethod callable', ?_⟩
  exact notToldApart_of_veiled host fuel
    { alone with loopCount := by simp, loop := loops, held := all _ }

theorem method_acts_alike (host : Host) (fuel : Nat) {v : Value} (callable : v.isCallable = true) :
    MethodActsAlike host (fuel + 1) v where
  made s u scope container? name key loc hashLoc newLoc given := by
    have entries : evalEntries (Machine.of host (fuel + 1)) scope true []
        [⟨key, .ref container? name loc⟩] s = .ok [(key, v.asMethod)] u := bind_ok given
    exact bind_ok entries
  equal s := by
    have same : equal v v s = .ok true s := by
      show present (Value.equal? s.heap v v) s = _
      rw [Value.equal?_self callable]
      rfl
    obtain ⟨left, right⟩ := binary_asMethod .equal v v
    rw [left, right]
    exact ⟨bind_ok same, bind_ok same⟩
  operators op w := binary_asMethod op v w
  reads := ⟨readField_asMethod v, readIndex_asMethod v⟩
  asked := ⟨truthy_asMethod v, negate_asMethod v, itemsOf_asMethod v⟩
  text := textOf_asMethod v
  json := v.toHost_asMethod
  called := fun args name => funext fun s =>
    congrFun (callValue_asMethod (Machine.of host fuel) v args name) s
  named _ _ _ _ args loc callLoc loc' callLoc' holds holds' :=
    sameEnd_named host fuel holds holds' args loc callLoc loc' callLoc'
  taken n front back name keeps first :=
    callNative_asMethod (fun callee args name => funext fun s =>
      congrFun (callValue_asMethod (Machine.of host fuel) callee args name) s)
      keeps first back v name
  kept n front back name s keeps :=
    copyEnds_callNative keeps front back v name s
  registered _ _ loop event name there :=
    registered_alike host (fuel + 1) callable there loop event name

/-- A field call is a call with the receiver in front, and being a method means nothing else.
Where an expression gives a hash, calling a field of it comes to the same as storing the hash
and then the field in two variables that nothing speaks of, and calling the second: with the
first as first argument if the field holds a method, whatever the other arguments do to the
hash. The result or the kind of failure, the lines put out and the heap are the same. Apart
from that a callable and the method that `new` makes of it are equal, have the same text and
do the same, called by name, given to a native function or registered for an event. -/
theorem field_call_gives_receiver (host : Host) (fuel : Nat) {scope ref : Nat} {s u : State}
    (there : scope < s.scopes.scopes.size) {receiver called : Text} (apart : receiver ≠ called)
    {object : Expr} {args : List Expr}
    (fresh : s.Fresh host [receiver, called] (object.names ++ Expr.allNames args))
    (evaluated : (Machine.of host (fuel + 2)).eval object scope s = .ok (.hash ref) u)
    {field : Text} {f : Value} (stored : u.heap.entry? ref field = some f)
    (loc callLoc otherLoc : Location) :
    SameEnd [receiver, called]
      (evalExpr (Machine.of host (fuel + 2)) (.call (.field object field loc) args callLoc) scope s)
      (storedCall (Machine.of host (fuel + 2)) scope receiver called object field args f.isMethod
        otherLoc s) ∧
    ∀ v : Value, v.isCallable = true → MethodActsAlike host (fuel + 2) v :=
  ⟨sameEnd_fieldCall there apart fresh evaluated stored loc callLoc otherLoc,
    fun _ callable => method_acts_alike host (fuel + 1) callable⟩

def pick : Closure :=
  ⟨"pick", ⟨["self", "x"], [], ⟨[.giveBack (some (.ident "self" .origin)) .origin], .origin⟩,
    .unset⟩,
    0, none⟩

def oneMethod : State :=
  { Interpreter.blankState [] with
    scopes := (ScopeTree.empty.newRoot.2.define 0 "h" (.hash 0)).define 0 "Remove"
      (.native ⟨.builtin .remove, 0⟩ false)
    heap := ⟨#[], #[[("k", .function pick true)]]⟩ }

def removal : Expr :=
  .call (.ident "Remove" .origin) [.ident "h" .origin, .string [.text "k"] .origin] .origin

theorem fresh_in_oneMethod :
    oneMethod.Fresh .plain ["t", "g"]
      ((Expr.ident "h" .origin).names ++ Expr.allNames [removal]) where
  host := by
    constructor
    · decide
    · intro name file found program resolved
      simp [Host.plain, Resolver.resolve, Table.find?] at resolved
  unbound id name hidden := by
    have root : ScopeTree.empty.newRoot.2.localCell? id name = none := by
      rw [ScopeTree.newRoot, ScopeTree.localCell?_pushScope]
      simp [ScopeTree.localCell?, ScopeTree.empty, Scope.cellAt?, Scope.at, Table.find?]
    have named : name ≠ "h" ∧ name ≠ "Remove" := by
      rcases List.mem_pair.mp hidden with rfl | rfl <;> decide
    show ScopeTree.localCell? (ScopeTree.define _ 0 _ _) id name = none
    rw [ScopeTree.localCell?_define, if_neg (fun all => named.2 all.2.2),
      ScopeTree.localCell?_define, if_neg (fun all => named.1 all.2.2), root]
  held := by
    refine ⟨?_, ⟨fun ref slot member => ?_, fun ref entry member => ?_⟩, ?_, ?_, ?_⟩
    · have root : ScopeTree.empty.newRoot.2.All (Value.Avoids ["t", "g"]) :=
        fun v member => absurd member (Array.not_mem_empty v)
      exact (root.define 0 "h" (.hash 0) trivial).define 0 "Remove"
        (.native ⟨.builtin .remove, 0⟩ false) trivial
    · simp [oneMethod, Heap.array] at member
    · cases ref with
      | zero =>
          obtain rfl := List.mem_singleton.mp member
          show ∀ name ∈ _, name ∉ _
          decide
      | succ ref => simp [oneMethod, Heap.hash] at member
    · exact fun l member => absurd member (Array.not_mem_empty l)
    · exact fun _ member => by cases member
    · exact fun _ member => by cases member
  code := by
    show ∀ name ∈ _, name ∉ _
    decide

/-- `h.k(Remove(h, "k"))`, an argument of which takes the method out of the hash. -/
theorem picked_from_hash :
    (Machine.of .plain 8).eval (.ident "h" .origin) 0 oneMethod = .ok (.hash 0) oneMethod ∧
      oneMethod.heap.entry? 0 "k" = some (.function pick true) ∧
      SameEnd ["t", "g"]
        (evalExpr (Machine.of .plain 8)
          (.call (.field (.ident "h" .origin) "k" .origin) [removal] .origin) 0 oneMethod)
        (storedCall (Machine.of .plain 8) 0 "t" "g" (.ident "h" .origin) "k" [removal] true .origin
          oneMethod) ∧
      MethodActsAlike .plain 8 (.function pick false) := by
  have evaluated : (Machine.of .plain 8).eval (.ident "h" .origin) 0 oneMethod =
      .ok (.hash 0) oneMethod := lookup_run oneMethod rfl
  have stored : oneMethod.heap.entry? 0 "k" = some (.function pick true) := rfl
  obtain ⟨same, alike⟩ := field_call_gives_receiver .plain 6 (by decide) (by decide)
    fresh_in_oneMethod evaluated stored .origin .origin .origin
  exact ⟨evaluated, stored, same, alike (.function pick false) rfl⟩

end Eval

end Loom
