import Loom.Proofs.Discipline.Session

/-!
A step follows another when it does the same, or else fails with an excuse. The parts
of the evaluator only ever ask a machine to evaluate, to run and to call, and pass on
how that ended; so over two machines of which one follows the other they follow each
other, and that the machines of all fuels do is then shown by induction on the fuel.
Where a step fails without an excuse, or does not fail, the other has done the same.
-/

namespace Loom

namespace Eval

variable {excuse : Stop → State → Prop} {α β : Type}

/-- A step does what another does, or else fails with an excuse. -/
def Follows (excuse : Stop → State → Prop) (x y : Eval α) : Prop :=
  ∀ s, x s = y s ∨ ∃ e t, x s = .error e t ∧ excuse e t

/-- An excuse stays one on the way out of what it arose in: neither control nor the place
that a failure is given has to do with it. -/
structure Lasting (excuse : Stop → State → Prop) : Prop where
  control : ∀ {e s} depth file loading loops, excuse e s →
    excuse e { s with depth := depth, file := file, loading := loading, loops := loops }
  located : ∀ {failure s} loc file, excuse (.failed failure) s →
    excuse (.failed (failure.locate loc file)) s

theorem follows_refl (x : Eval α) : Follows excuse x x := fun _ => .inl rfl

theorem follows_bind {x y : Eval α} {f g : α → Eval β} (first : Follows excuse x y)
    (rest : ∀ a, Follows excuse (f a) (g a)) : Follows excuse (x >>= f) (y >>= g) := by
  intro s
  show EStateM.bind x f s = EStateM.bind y g s ∨
    ∃ e t, EStateM.bind x f s = .error e t ∧ excuse e t
  unfold EStateM.bind
  rcases first s with same | ⟨e, t, fails, excused⟩
  · rw [same]
    cases y s with
    | ok a t => exact rest a t
    | error e t => exact .inl rfl
  · rw [fails]
    exact .inr ⟨e, t, rfl, excused⟩

/-- After a step that both take. -/
theorem follows_after (x : Eval α) {f g : α → Eval β} (rest : ∀ a, Follows excuse (f a) (g a)) :
    Follows excuse (x >>= f) (x >>= g) :=
  follows_bind (follows_refl x) rest

/-- Before a step that both take. -/
theorem follows_before {x y : Eval α} {f : α → Eval β} (first : Follows excuse x y) :
    Follows excuse (x >>= f) (y >>= f) :=
  follows_bind first (fun a => follows_refl (f a))

/-- The undoing of a change of control keeps an excuse. -/
theorem follows_finally {x y : Eval α} {undo : State → State} (follows : Follows excuse x y)
    (still : ∀ e t, excuse e t → excuse e (undo t)) (s : State) :
    finally_ x undo s = finally_ y undo s ∨
      ∃ e t, finally_ x undo s = .error e t ∧ excuse e t := by
  unfold finally_
  rcases follows s with same | ⟨e, t, fails, excused⟩
  · rw [same]
    exact .inl rfl
  · rw [fails]
    exact .inr ⟨e, undo t, rfl, still e t excused⟩

section

variable (lasting : Lasting excuse) {x y : Eval α} (follows : Follows excuse x y)
include lasting follows

theorem follows_inFile (file : Option Text) :
    Follows excuse (inFile file x) (inFile file y) :=
  fun s => follows_finally follows
    (fun _ t => lasting.control t.depth s.file t.loading t.loops) _

theorem follows_inCall : Follows excuse (inCall x) (inCall y) :=
  fun _ => follows_finally follows
    (fun _ t => lasting.control (t.depth - 1) t.file t.loading t.loops) _

theorem follows_whileLoading (path : Text) :
    Follows excuse (whileLoading path x) (whileLoading path y) :=
  fun _ => follows_finally follows
    (fun _ t => lasting.control t.depth t.file (t.loading.erase path) t.loops) _

theorem follows_whileRunning (loop : Nat) :
    Follows excuse (whileRunning loop x) (whileRunning loop y) :=
  fun _ => follows_finally follows (fun _ t => lasting.control t.depth t.file t.loading _) _

theorem follows_located (loc : Location) :
    Follows excuse (located loc x) (located loc y) := by
  intro s
  unfold located
  rcases follows s with same | ⟨e, t, fails, excused⟩
  · rw [same]
    exact .inl rfl
  · rw [fails]
    cases e with
    | failed failure => exact .inr ⟨_, t, rfl, lasting.located loc t.file excused⟩
    | outOfFuel => exact .inr ⟨_, t, rfl, excused⟩

end

theorem follows_during (statement : Stmt) {x y : Eval α} (follows : Follows excuse x y) :
    Follows excuse (during statement x) (during statement y) := by
  intro s
  unfold during
  rcases follows { s with underway := ⟨statement, s.file⟩ :: s.underway } with
    same | ⟨e, t, fails, excused⟩
  · rw [same]
    exact .inl rfl
  · rw [fails]
    exact .inr ⟨e, t, rfl, excused⟩

end Eval

open Eval

/-- A machine with the same fuel as another one, and for a host that provides the same,
that follows it in everything; a call may be refused with an excuse. -/
structure Machine.Follows (excuse : Stop → State → Prop) (m m' : Machine) : Prop where
  natives : m.host.natives = m'.host.natives
  resolver : m.host.resolver = m'.host.resolver
  shared : m.host.shared = m'.host.shared
  fuel : m.fuel = m'.fuel
  depth : ∀ name, Eval.Follows excuse (checkDepth m.host.maxCallDepth name)
    (checkDepth m'.host.maxCallDepth name)
  eval : ∀ e scope, Eval.Follows excuse (m.eval e scope) (m'.eval e scope)
  block : ∀ statements scope,
    Eval.Follows excuse (m.block statements scope) (m'.block statements scope)
  call : ∀ callee args name,
    Eval.Follows excuse (m.call callee args name) (m'.call callee args name)

namespace Eval

variable {excuse : Stop → State → Prop} {m m' : Machine}

section

variable (follows : m.Follows excuse m')
include follows

/-! Expressions. -/

theorem follows_evalAll (scope : Nat) (list : List Expr) :
    Follows excuse (evalAll m scope list) (evalAll m' scope list) := by
  induction list with
  | nil => exact follows_refl _
  | cons e rest ih => exact follows_bind (follows.eval e scope) (fun _ => follows_before ih)

theorem follows_evalSegments (scope : Nat) (segments : List Segment) :
    Follows excuse (evalSegments m scope segments) (evalSegments m' scope segments) := by
  induction segments with
  | nil => exact follows_refl _
  | cons segment rest ih =>
      cases segment with
      | text value => exact follows_before ih
      | code value =>
          apply follows_bind (follows.eval value scope)
          intro v
          exact follows_after _ (fun _ => follows_before ih)

theorem follows_evalEntries (scope : Nat) (methods : Bool) (entries : List Entry)
    (table : Table Value) :
    Follows excuse (evalEntries m scope methods table entries)
      (evalEntries m' scope methods table entries) := by
  induction entries generalizing table with
  | nil => exact follows_refl _
  | cons entry rest ih =>
      obtain ⟨key, e⟩ := entry
      exact follows_bind (follows.eval e scope) (fun _ => ih _)

theorem follows_evalCall (scope : Nat) (callee : Expr) (args : List Expr) :
    Follows excuse (evalCall m scope callee args) (evalCall m' scope callee args) := by
  have called : ∀ callee : Expr, Follows excuse
      (do
        let f ← m.eval callee scope
        let values ← evalAll m scope args
        m.call f values callee.calleeName)
      (do
        let f ← m'.eval callee scope
        let values ← evalAll m' scope args
        m'.call f values callee.calleeName) := by
    intro callee
    apply follows_bind (follows.eval callee scope)
    intro f
    exact follows_bind (follows_evalAll follows scope args) (fun _ => follows.call _ _ _)
  cases callee with
  | field object field loc =>
      apply follows_bind (follows.eval object scope)
      intro receiver
      apply follows_after
      intro callee
      exact follows_bind (follows_evalAll follows scope args) (fun _ => follows.call _ _ _)
  | _ => exact called _

theorem follows_truth (e : Expr) (scope : Nat) (f : Bool → Value) :
    Follows excuse (do pure (f (← truthy (← m.eval e scope))))
      (do pure (f (← truthy (← m'.eval e scope)))) :=
  follows_before (follows.eval e scope)

theorem follows_evalBinary (scope : Nat) (op : BinaryOp) (left right : Expr) :
    Follows excuse (evalBinary m scope op left right)
      (evalBinary m' scope op left right) := by
  have both : ∀ op, Follows excuse
      (do binary op (← m.eval left scope) (← m.eval right scope))
      (do binary op (← m'.eval left scope) (← m'.eval right scope)) := fun op =>
    follows_bind (follows.eval left scope) (fun _ => follows_before (follows.eval right scope))
  cases op with
  | and =>
      apply follows_bind (follows.eval left scope)
      intro v
      apply follows_after
      intro b
      cases b with
      | true => exact follows_truth follows right scope .bool
      | false => exact follows_refl _
  | or =>
      apply follows_bind (follows.eval left scope)
      intro v
      apply follows_after
      intro b
      cases b with
      | true => exact follows_refl _
      | false => exact follows_truth follows right scope .bool
  | _ => exact both _

theorem follows_evalExpr (e : Expr) (scope : Nat) :
    Follows excuse (evalExpr m e scope) (evalExpr m' e scope) := by
  cases e with
  | string segments loc => exact follows_before (follows_evalSegments follows scope segments)
  | array elements loc => exact follows_before (follows_evalAll follows scope elements)
  | hash entries loc => exact follows_before (follows_evalEntries follows scope false entries [])
  | new entries loc _ => exact follows_before (follows_evalEntries follows scope true entries [])
  | call callee args loc => exact follows_evalCall follows scope callee args
  | field object name loc => exact follows_before (follows.eval object scope)
  | index object position loc =>
      apply follows_bind (follows.eval object scope)
      intro v
      exact follows_before (follows.eval position scope)
  | choice condition consequent alternate loc =>
      apply follows_bind (follows.eval condition scope)
      intro v
      apply follows_after
      intro b
      cases b with
      | true => exact follows.eval consequent scope
      | false => exact follows.eval alternate scope
  | unary op operand loc =>
      cases op with
      | not => exact follows_before (follows.eval operand scope)
      | negate => exact follows_before (follows.eval operand scope)
  | binary op left right loc => exact follows_evalBinary follows scope op left right
  | _ => exact follows_refl _

/-! Calls. -/

theorem follows_deliver (loop : Nat) (event : HostEvent) :
    Follows excuse (deliver m loop event) (deliver m' loop event) := by
  apply follows_after
  intro handler?
  cases handler? with
  | none => exact follows_refl _
  | some handler =>
      apply follows_after
      intro payload
      apply follows_after
      intro name
      exact follows_before (follows.call handler [payload] name)

theorem follows_dispatch (loop fuel : Nat) :
    Follows excuse (dispatch m loop fuel) (dispatch m' loop fuel) := by
  induction fuel with
  | zero => exact follows_refl _
  | succ fuel ih =>
      apply follows_after
      intro event?
      cases event? with
      | none => exact follows_refl _
      | some event => exact follows_bind (follows_deliver follows loop event) (fun _ => ih)

theorem follows_hostCall (callee : Value) (args : List Value) :
    Follows excuse (hostCall m callee args) (hostCall m' callee args) :=
  follows_after _ (fun name => follows.call callee args name)

section

variable (lasting : Lasting excuse)
include lasting

theorem follows_startLoop (loop : Nat) :
    Follows excuse (startLoop m loop) (startLoop m' loop) := by
  apply follows_after
  intro running
  cases running with
  | true => exact follows_refl _
  | false =>
      have dispatched := follows_dispatch follows loop m'.fuel
      simp only [follows.fuel]
      exact follows_before (follows_whileRunning lasting dispatched loop)

theorem follows_runNative (n : Native) (args : List Value) :
    Follows excuse (runNative m n args) (runNative m' n args) := by
  unfold runNative
  rw [follows.fuel]
  split
  · exact follows_refl _
  · exact follows_refl _
  · exact follows_startLoop follows lasting n.owner
  · exact follows_hostCall follows _ _
  · exact follows_refl _
  · exact follows_refl _
  · exact follows_refl _

theorem follows_callNative (n : Native) (args : List Value) (name : Text) :
    Follows excuse (callNative m n args name) (callNative m' n args name) := by
  unfold callNative
  split
  · split
    · exact follows_refl _
    · exact follows_runNative follows lasting n args
  · exact follows_runNative follows lasting n args

theorem follows_callFunction (f : Closure) (args : List Value) (name : Text) :
    Follows excuse (callFunction m f args name) (callFunction m' f args name) := by
  unfold callFunction activate
  dsimp only
  split
  · exact follows_refl _
  · apply follows_bind (follows.depth name)
    intro _
    apply follows_after
    intro scope
    apply follows_after
    intro _
    apply follows_after
    intro _
    -- up to here there is no difference; only the body is run on the machine
    have body := follows.block f.procedure.body.statements scope
    exact follows_inFile lasting (follows_inCall lasting (follows_before body)) f.file

theorem follows_callValue (callee : Value) (args : List Value) (name : Text) :
    Follows excuse (callValue m callee args name) (callValue m' callee args name) := by
  cases callee with
  | native n method => exact follows_callNative follows lasting n args name
  | function f method => exact follows_callFunction follows lasting f args name
  | _ => exact follows_refl _

/-! Imports. -/

omit lasting in
theorem follows_topLevel (program : Program) (scope : Nat) :
    Follows excuse (topLevel m program scope) (topLevel m' program scope) :=
  follows_before (follows.block program.statements scope)

theorem follows_runModule (path source : Text) :
    Follows excuse (runModule m path source) (runModule m' path source) := by
  unfold runModule
  split
  · exact follows_refl _
  · apply follows_after
    intro scope
    apply follows_after
    intro program
    apply follows_after
    intro s
    apply follows_after
    intro _
    have top := follows_topLevel follows program scope
    exact follows_before (follows_whileLoading lasting (follows_inFile lasting top (some path))
      path)

theorem follows_loadScript (name : Text) :
    Follows excuse (loadScript m name) (loadScript m' name) := by
  unfold loadScript
  rw [follows.resolver]
  apply follows_after
  intro s
  split
  · exact follows_refl _
  · exact follows_refl _
  · rename_i found _
    apply follows_after
    intro s
    split
    · exact follows_refl _
    · apply follows_after
      intro s
      split
      · exact follows_refl _
      · exact follows_before (follows_runModule follows lasting found.path found.source)

theorem follows_importAll (native : Bool) (scope : Nat) (names : List Text) :
    Follows excuse (importAll m native scope names) (importAll m' native scope names) := by
  have loaded : ∀ name, Follows excuse (loadModule m native name)
      (loadModule m' native name) := by
    intro name
    cases native with
    | true =>
        -- a native module asks nothing of a machine but its host
        simp only [loadModule, if_true, loadNative, follows.natives]
        exact follows_refl _
    | false => exact follows_loadScript follows lasting name
  induction names with
  | nil => exact follows_refl _
  | cons name rest ih =>
      exact follows_bind (loaded name) (fun _ => follows_after _ (fun _ => ih))

theorem follows_importEach (native : Bool) (scope : Nat) (names : List Text) :
    Follows excuse (importEach m native scope names) (importEach m' native scope names) := by
  induction names with
  | nil => exact follows_refl _
  | cons name rest ih =>
      have one := follows_before (f := fun _ => note (.imported scope name))
        (follows_importAll follows lasting native scope [name])
      exact follows_bind one (fun _ => ih)

/-! Statements. -/

omit lasting in
theorem follows_execForEach (item : Text) (body : Block) (scope : Nat) (items : List Value) :
    Follows excuse (execForEach m item body scope items)
      (execForEach m' item body scope items) := by
  induction items with
  | nil => exact follows_refl _
  | cons v rest ih =>
      apply follows_after
      intro inner
      apply follows_after
      intro _
      apply follows_bind (follows.block body.statements inner)
      intro flow
      cases Flow.afterPass flow with
      | again => exact ih
      | stop => exact follows_refl _
      | leave flow => exact follows_refl _

omit lasting in
theorem follows_execWhile (condition : Expr) (body : Block) (scope fuel : Nat) :
    Follows excuse (execWhile m condition body scope fuel)
      (execWhile m' condition body scope fuel) := by
  induction fuel with
  | zero => exact follows_refl _
  | succ fuel ih =>
      apply follows_bind (follows.eval condition scope)
      intro v
      apply follows_after
      intro b
      cases b with
      | false => exact follows_refl _
      | true =>
          apply follows_after
          intro inner
          apply follows_bind (follows.block body.statements inner)
          intro flow
          cases Flow.afterPass flow with
          | again => exact ih
          | stop => exact follows_refl _
          | leave flow => exact follows_refl _

omit lasting in
theorem follows_execBranches (alternate : Option Block) (scope : Nat) (branches : List Branch) :
    Follows excuse (execBranches m alternate scope branches)
      (execBranches m' alternate scope branches) := by
  induction branches with
  | nil =>
      cases alternate with
      | none => exact follows_refl _
      | some body => exact follows_after _ (fun inner => follows.block body.statements inner)
  | cons branch rest ih =>
      obtain ⟨condition, body⟩ := branch
      apply follows_bind (follows.eval condition scope)
      intro v
      apply follows_after
      intro b
      cases b with
      | true => exact follows_after _ (fun inner => follows.block body.statements inner)
      | false => exact ih

omit lasting in
theorem follows_declareAll (scope : Nat) (names : List Text) :
    Follows excuse (declareAll m scope names) (declareAll m' scope names) := by
  induction names with
  | nil => exact follows_refl _
  | cons name rest ih =>
      have declared : Follows excuse (declareUse m scope name) (declareUse m' scope name) := by
        simp only [declareUse, follows.shared]
        exact follows_refl _
      exact follows_bind declared (fun _ => ih)

omit lasting in
theorem follows_execAssign (target : Target) (op : AssignOp) (value : Expr) (scope : Nat) :
    Follows excuse (execAssign m target op value scope)
      (execAssign m' target op value scope) := by
  have valued := follows.eval value scope
  cases target with
  | ident name loc => exact follows_before valued
  | field object name loc =>
      apply follows_bind (follows.eval object scope)
      intro o
      cases o with
      | hash ref => exact follows_before valued
      | _ => exact follows_refl _
  | index object position loc =>
      apply follows_bind (follows.eval object scope)
      intro o
      apply follows_bind (follows.eval position scope)
      intro p
      cases o with
      | array ref => exact follows_after _ (fun i => follows_before valued)
      | hash ref => exact follows_after _ (fun key => follows_before valued)
      | _ => exact follows_refl _

theorem follows_execStmt (st : Stmt) (scope : Nat) :
    Follows excuse (execStmt m st scope) (execStmt m' st scope) := by
  cases st with
  | cond branches alternate loc => exact follows_execBranches follows alternate scope branches
  | forEach item subject body loc =>
      apply follows_bind (follows.eval subject scope)
      intro v
      apply follows_after
      intro items
      exact follows_execForEach follows item body scope items
  | whileLoop condition body loc =>
      have looped := follows_execWhile follows condition body scope m'.fuel
      simpa only [execStmt, follows.fuel] using looped
  | assign target op value loc =>
      exact follows_before (follows_execAssign follows target op value scope)
  | use names loc => exact follows_before (follows_declareAll follows scope names)
  | giveBack value? loc =>
      cases value? with
      | none => exact follows_refl _
      | some value => exact follows_before (follows.eval value scope)
  | emit value key loc => exact follows_before (follows.eval value scope)
  | imports native modules loc =>
      exact follows_before (follows_importEach follows lasting native scope modules)
  | call callee args site loc => exact follows_before (follows_evalCall follows scope callee args)
  | _ => exact follows_refl _

theorem follows_execBlock (statements : List Stmt) (scope : Nat) :
    Follows excuse (execBlock m statements scope) (execBlock m' statements scope) := by
  have inTurn : ∀ list, Follows excuse (execAll m scope list) (execAll m' scope list) := by
    intro list
    induction list with
    | nil => exact follows_refl _
    | cons st rest ih =>
        have carried := follows_during st (follows_execStmt follows lasting st scope)
        have first := follows_located lasting carried st.loc
        apply follows_bind first
        intro flow
        cases flow with
        | normal => exact ih
        | _ => exact follows_refl _
  exact inTurn (inOrder statements)

/-! Runs and calls of a host. -/

theorem follows_runOn (program : Program) (file : Option Text) :
    Follows excuse (Interpreter.runOn m program file)
      (Interpreter.runOn m' program file) := by
  apply follows_after
  intro _
  apply follows_after
  intro s
  exact follows_inFile lasting (follows_topLevel follows program s.globals) file

theorem follows_runRead (program : Program) (file : Option Text) :
    Follows excuse (Interpreter.runRead m program file)
      (Interpreter.runRead m' program file) :=
  follows_after _ (fun program => follows_runOn follows lasting program file)

omit lasting in
theorem follows_callOn (name : Text) (args : List Json) :
    Follows excuse (Interpreter.callOn m name args) (Interpreter.callOn m' name args) := by
  apply follows_after
  intro _
  apply follows_after
  intro s
  apply follows_after
  intro callee
  exact follows_after _ (fun values => follows_before (follows_hostCall follows callee values))

end

end

end Eval

/-! Sessions. -/

/-- A host that sets another limit to the calls that are active at once. -/
def Host.withCallDepth (host : Host) (limit : Nat) : Host := { host with maxCallDepth := limit }

namespace Interpreter

variable {excuse : Stop → State → Prop} {machine machine' : Host → Machine} {limit : Nat}

def withCallDepth (i : Interpreter) (limit : Nat) : Interpreter :=
  { i with host := i.host.withCallDepth limit }

theorem withCallDepth_self {i : Interpreter} (same : i.host.maxCallDepth = limit) :
    i.withCallDepth limit = i := by
  subst same
  rfl

/-- What an interpreter gives for a request is not excused. -/
def Unexcused {α : Type} (excuse : Stop → State → Prop) (outcome : Except Stop α × Interpreter) :
    Prop :=
  ∀ e, outcome.1 = .error e → ¬ excuse e outcome.2.state

theorem step_of_follows {α : Type} {x y : Eval α} (follows : Eval.Follows excuse x y)
    (i : Interpreter) (limit : Nat) (never : Unexcused excuse (i.step x)) :
    (i.withCallDepth limit).step y = ((i.step x).1, (i.step x).2.withCallDepth limit) := by
  have same : x i.state = y i.state := by
    rcases follows i.state with same | ⟨e, t, fails, excused⟩
    · exact same
    · have outcome : i.step x = (.error e, { i with state := t }) := by
        simp only [Interpreter.step, fails]
      rw [outcome] at never
      exact absurd excused (never e rfl)
  simp only [Interpreter.step, withCallDepth, ← same]
  cases x i.state with
  | ok a t => rfl
  | error e t => rfl

theorem addModule_withCallDepth (i : Interpreter) (name source : Text) (limit : Nat) :
    (i.withCallDepth limit).addModule name source =
      (i.addModule name source).withCallDepth limit := by
  obtain ⟨⟨natives, resolver, shared, depth⟩, s⟩ := i
  cases resolver with
  | table modules => rfl
  | files fs => rfl

theorem serve_of_follows (lasting : Eval.Lasting excuse) {i : Interpreter}
    (follows : (machine i.host).Follows excuse (machine' (i.host.withCallDepth limit)))
    (request : Request) (never : Unexcused excuse (i.serve machine request)) :
    (i.withCallDepth limit).serve machine' request =
      ((i.serve machine request).1, (i.serve machine request).2.withCallDepth limit) := by
  have ran : ∀ (program : Program) file,
      Unexcused excuse (i.step (runRead (machine i.host) program file)) →
      (i.withCallDepth limit).step (runRead (machine' (i.host.withCallDepth limit)) program file) =
        ((i.step (runRead (machine i.host) program file)).1,
          (i.step (runRead (machine i.host) program file)).2.withCallDepth limit) :=
    fun program file => step_of_follows (Eval.follows_runRead follows lasting program file) i limit
  cases request with
  | run made file =>
      exact step_of_follows (Eval.follows_runOn follows lasting made.numbered file) i limit never
  | runSource source file =>
      simp only [Interpreter.serve] at never ⊢
      cases found : parseFile source file with
      | ok program =>
          rw [found] at never
          exact ran program file never
      | error cause => rfl
  | runTree tree file =>
      simp only [Interpreter.serve] at never ⊢
      cases found : Program.ofTree tree with
      | ok program =>
          rw [found] at never
          exact ran program file never
      | error cause => rfl
  | call name args =>
      have unexcused : Unexcused excuse (i.step (callOn (machine i.host) name args)) := by
        intro e failed
        have failed : (i.serve machine (.call name args)).1 = .error e := by
          simp only [Interpreter.serve, failed, Except.map]
        exact never e failed
      have called :=
        step_of_follows (Eval.follows_callOn follows name args) i limit unexcused
      have given : (i.withCallDepth limit).host = i.host.withCallDepth limit := rfl
      simp only [Interpreter.serve, given, called]
  | push events => rfl
  | addModule name source =>
      simp only [Interpreter.serve, addModule_withCallDepth]
  | reset => rfl

/-- No request sets another limit. -/
theorem serve_callDepth (i : Interpreter) (request : Request) :
    (i.serve machine request).2.host.maxCallDepth = i.host.maxCallDepth := by
  cases request with
  | addModule name source =>
      simp only [Interpreter.serve, Interpreter.addModule]
      split <;> rfl
  | _ => rw [Discipline.serve_host i (by simp)]

theorem serveAll_callDepth (i : Interpreter) (requests : List Request) :
    (i.serveAll machine requests).2.host.maxCallDepth = i.host.maxCallDepth := by
  induction requests generalizing i with
  | nil => rfl
  | cons request rest ih => exact (ih _).trans (serve_callDepth i request)

/-- A session in which nothing fails with an excuse is the same on the machines that
are followed. -/
theorem serveAll_of_follows (lasting : Eval.Lasting excuse) {i : Interpreter}
    (follows : ∀ host : Host, host.maxCallDepth = i.host.maxCallDepth →
      (machine host).Follows excuse (machine' (host.withCallDepth limit)))
    (requests : List Request)
    (never : ∀ e, .error e ∈ (i.serveAll machine requests).1 → ∀ t, ¬ excuse e t) :
    (i.withCallDepth limit).serveAll machine' requests =
      ((i.serveAll machine requests).1,
        (i.serveAll machine requests).2.withCallDepth limit) := by
  induction requests generalizing i with
  | nil => rfl
  | cons request rest ih =>
      simp only [Interpreter.serveAll, List.mem_cons] at never
      have first := serve_of_follows lasting (follows i.host rfl) request
        (fun e failed => never e (.inl failed.symm) _)
      have later := ih (i := (i.serve machine request).2)
        (fun host same => follows host (same.trans (serve_callDepth i request)))
        (fun e member => never e (.inr member))
      simp only [Interpreter.serveAll, first, later]

/-! On the machines that are followed with the same limit, the same comes of requests. -/

theorem serve_eq_of_follows (lasting : Eval.Lasting excuse) {i : Interpreter}
    (follows : (machine i.host).Follows excuse (machine' i.host)) (request : Request)
    (never : Unexcused excuse (i.serve machine request)) :
    i.serve machine' request = i.serve machine request := by
  have same : (i.withCallDepth i.host.maxCallDepth).serve machine' request =
      ((i.serve machine request).1,
        (i.serve machine request).2.withCallDepth i.host.maxCallDepth) :=
    serve_of_follows lasting follows request never
  rw [withCallDepth_self rfl, withCallDepth_self (serve_callDepth i request)] at same
  exact same

theorem serveAll_eq_of_follows (lasting : Eval.Lasting excuse)
    (follows : ∀ host, (machine host).Follows excuse (machine' host)) (requests : List Request)
    {i : Interpreter}
    (never : ∀ e, .error e ∈ (i.serveAll machine requests).1 → ∀ t, ¬ excuse e t) :
    i.serveAll machine' requests = i.serveAll machine requests := by
  have within (host : Host) (limit : host.maxCallDepth = i.host.maxCallDepth) :
      (machine host).Follows excuse (machine' (host.withCallDepth i.host.maxCallDepth)) := by
    rw [← limit]
    exact follows host
  have same := serveAll_of_follows lasting within requests never
  rw [withCallDepth_self rfl, withCallDepth_self (serveAll_callDepth i requests)] at same
  exact same

end Interpreter

end Loom
