import Loom.Eval.Statement
import Loom.Proofs.Unwinding.Operator

/-!
What the evaluator tells. Over a machine that tells of the statements that failures
come out of, so does every part of it, and with it the machines of all fuels, by
induction on the fuel. Only a block carries out statements; all else passes on what
is told.
-/

namespace Loom

open Eval

/-- A machine that tells of the statements that its failures come out of. -/
structure Machine.Tells (host : Host) (m : Machine) : Prop where
  serves : m.host = host
  eval : ∀ e scope, Eval.Tells host (m.eval e scope)
  block : ∀ statements scope, Eval.Tells host (m.block statements scope)
  call : ∀ callee args name, Eval.Tells host (m.call callee args name)

namespace Eval

variable {host : Host} {m : Machine} (tells : m.Tells host)

/-! Expressions. -/

section

include tells

theorem tells_evalAll (scope : Nat) (list : List Expr) : Tells host (evalAll m scope list) := by
  induction list with
  | nil => exact tells_pure _
  | cons e rest ih =>
      apply tells_bind (tells.eval e scope)
      intro v
      exact tells_bind ih (fun _ => tells_pure _)

theorem tells_evalSegments (scope : Nat) (segments : List Segment) :
    Tells host (evalSegments m scope segments) := by
  induction segments with
  | nil => exact tells_pure _
  | cons segment rest ih =>
      cases segment with
      | text value => exact tells_bind ih (fun _ => tells_pure _)
      | code value =>
          apply tells_bind (tells.eval value scope)
          intro v
          apply tells_bind (tells_textOf v)
          intro text
          exact tells_bind ih (fun _ => tells_pure _)

theorem tells_evalEntries (scope : Nat) (methods : Bool) (entries : List Entry)
    (table : Table Value) : Tells host (evalEntries m scope methods table entries) := by
  induction entries generalizing table with
  | nil => exact tells_pure _
  | cons entry rest ih =>
      obtain ⟨key, e⟩ := entry
      exact tells_bind (tells.eval e scope) (fun v => ih _)

omit tells in
theorem tells_evalRef (scope : Nat) (container? : Option Text) (name : Text) :
    Tells host (evalRef scope container? name) := by
  have referred : Tells host (evalReferred scope container? name) := by
    cases container? with
    | none => exact tells_lookup _ _
    | some container =>
        apply tells_bind (tells_lookup _ _)
        intro v
        split
        · apply tells_get
          intro s
          split
          · exact tells_pure _
          · exact tells_fault (fun _ => nofun)
        · exact tells_refused _ _
  apply tells_bind referred
  intro v
  split
  · exact tells_pure _
  · exact tells_refused _ _

theorem tells_evalCall (scope : Nat) (callee : Expr) (args : List Expr) :
    Tells host (evalCall m scope callee args) := by
  unfold evalCall
  split
  · apply tells_bind (tells.eval _ scope)
    intro receiver
    apply tells_bind (tells_readField receiver _)
    intro callee
    exact tells_bind (tells_evalAll tells scope args) (fun _ => tells.call _ _ _)
  · apply tells_bind (tells.eval _ scope)
    intro f
    exact tells_bind (tells_evalAll tells scope args) (fun _ => tells.call _ _ _)

theorem tells_truth (e : Expr) (scope : Nat) (f : Bool → Value) :
    Tells host (do pure (f (← truthy (← m.eval e scope)))) := by
  apply tells_bind (tells.eval e scope)
  intro v
  exact tells_bind (tells_truthy v) (fun _ => tells_pure _)

theorem tells_evalBinary (scope : Nat) (op : BinaryOp) (left right : Expr) :
    Tells host (evalBinary m scope op left right) := by
  unfold evalBinary
  split
  · apply tells_bind (tells.eval left scope)
    intro v
    apply tells_bind (tells_truthy v)
    intro b
    cases b with
    | true => exact tells_truth tells right scope .bool
    | false => exact tells_pure _
  · apply tells_bind (tells.eval left scope)
    intro v
    apply tells_bind (tells_truthy v)
    intro b
    cases b with
    | true => exact tells_pure _
    | false => exact tells_truth tells right scope .bool
  · apply tells_bind (tells.eval left scope)
    intro a
    exact tells_bind (tells.eval right scope) (fun b => tells_binary _ a b)

theorem tells_evalExpr (e : Expr) (scope : Nat) : Tells host (evalExpr m e scope) := by
  cases e with
  | number value loc => exact tells_number value
  | bool value loc => exact tells_pure _
  | null loc => exact tells_pure _
  | string segments loc =>
      exact tells_bind (tells_evalSegments tells scope segments) (fun _ => tells_pure _)
  | ident name loc => exact tells_lookup scope name
  | array elements loc =>
      exact tells_bind (tells_evalAll tells scope elements) (fun _ => tells_newArray _)
  | hash entries loc =>
      exact tells_bind (tells_evalEntries tells scope false entries []) (fun _ => tells_newHash _)
  | new entries loc _ =>
      exact tells_bind (tells_evalEntries tells scope true entries []) (fun _ => tells_newHash _)
  | ref container name loc => exact tells_evalRef scope container name
  | lambda procedure loc => exact tells_get (fun _ => tells_pure _)
  | call callee args loc => exact tells_evalCall tells scope callee args
  | field object name loc =>
      exact tells_bind (tells.eval object scope) (fun v => tells_readField v name)
  | index object position loc =>
      apply tells_bind (tells.eval object scope)
      intro v
      exact tells_bind (tells.eval position scope) (fun i => tells_readIndex v i)
  | choice condition consequent alternate loc =>
      apply tells_bind (tells.eval condition scope)
      intro v
      apply tells_bind (tells_truthy v)
      intro b
      cases b with
      | true => exact tells.eval consequent scope
      | false => exact tells.eval alternate scope
  | unary op operand loc =>
      cases op with
      | not => exact tells_truth tells operand scope (fun b => .bool (!b))
      | negate => exact tells_bind (tells.eval operand scope) tells_negate
  | binary op left right loc => exact tells_evalBinary tells scope op left right

/-! Calls. -/

theorem tells_deliver (loop : Nat) (event : HostEvent) : Tells host (deliver m loop event) := by
  apply tells_bind
  · apply tells_get
    intro s
    split <;> exact tells_pure _
  · intro handler?
    cases handler? with
    | none => exact tells_pure _
    | some handler =>
        apply tells_bind (tells_ofJson _)
        intro payload
        apply tells_bind (tells_present _)
        intro name
        exact tells_bind (tells.call handler [payload] name) (fun _ => tells_pure _)

omit tells in
theorem tells_nextEvent (loop : Nat) : Tells host (nextEvent loop) := by
  apply tells_modifyGet
  · intro s
    cases s.queue <;> rfl
  · intro s
    cases s.queue <;> rfl

theorem tells_dispatch (loop fuel : Nat) : Tells host (dispatch m loop fuel) := by
  induction fuel with
  | zero => exact tells_outOfFuel
  | succ fuel ih =>
      apply tells_bind (tells_nextEvent loop)
      intro event?
      cases event? with
      | none => exact tells_pure _
      | some event => exact tells_bind (tells_deliver tells loop event) (fun _ => ih)

theorem tells_startLoop (loop : Nat) : Tells host (startLoop m loop) := by
  apply tells_bind (tells_get fun _ => tells_pure _)
  intro running
  cases running with
  | true => exact tells_runtimeFault _
  | false =>
      have dispatched := tells_whileRunning loop (tells_dispatch tells loop m.fuel)
      exact tells_bind dispatched (fun _ => tells_pure _)

omit tells in
theorem tells_setHandler (loop : Nat) (name handler : Value) :
    Tells host (setHandler loop name handler) := by
  apply tells_bind (tells_expectString _ _)
  intro event
  split
  · exact tells_bind (tells_modify (fun _ => rfl) (fun _ => rfl)) (fun _ => tells_pure _)
  · exact tells_refused _ _

theorem tells_hostCall (callee : Value) (args : List Value) :
    Tells host (hostCall m callee args) :=
  tells_bind (tells_present _) (fun name => tells.call callee args name)

theorem tells_runNative (n : Native) (args : List Value) :
    Tells host (runNative m n args) := by
  unfold runNative
  split
  · exact Builtin.tells_run _ _ _
  · exact tells_setHandler _ _ _
  · exact tells_startLoop tells _
  · exact tells_hostCall tells _ _
  · exact tells_newArray _
  · exact tells_pure _
  · exact tells_hostFault _

theorem tells_callNative (n : Native) (args : List Value) (name : Text) :
    Tells host (callNative m n args name) := by
  unfold callNative
  split
  · split
    · exact tells_fault (fun _ => nofun)
    · exact tells_runNative tells n args
  · exact tells_runNative tells n args

omit tells in
theorem tells_bindAll (scope : Nat) (params : List Text) (values : List Value) :
    Tells host (bindAll scope params values) := by
  induction params generalizing values with
  | nil => exact tells_pure _
  | cons param params ih =>
      cases values with
      | nil => exact tells_pure _
      | cons v values => exact tells_bind (tells_define _ _ _) (fun _ => ih values)

omit tells in
theorem tells_shareAll (scope : Nat) (names : List Text) :
    Tells host (shareAll scope names) := by
  induction names with
  | nil => exact tells_pure _
  | cons name rest ih => exact tells_bind (tells_shareOuter _ _) (fun _ => ih)

omit tells in
theorem tells_resultOf (name : Text) (flow : Flow) :
    Tells host (resultOf name flow) := by
  cases flow with
  | normal => exact tells_pure _
  | returned v => exact tells_pure _
  | broke depth => exact tells_runtimeFault _
  | continued depth => exact tells_runtimeFault _

omit tells in
theorem tells_checkDepth (limit : Nat) (name : Text) :
    Tells host (checkDepth limit name) := by
  apply tells_get
  intro s
  dsimp only
  split
  · exact tells_runtimeFault _
  · split
    · exact tells_runtimeFault _
    · exact tells_pure _

theorem tells_callFunction (f : Closure) (args : List Value) (name : Text) :
    Tells host (callFunction m f args name) := by
  unfold callFunction activate
  dsimp only
  split
  · exact tells_fault (fun _ => nofun)
  · apply tells_bind (tells_checkDepth _ _)
    intro _
    apply tells_bind (tells_newScope _ _)
    intro scope
    apply tells_bind (tells_bindAll _ _ _)
    intro _
    apply tells_bind (tells_shareAll _ _)
    intro _
    -- a signal that escapes becomes a failure when the body has ended
    have body := tells_bind (tells.block f.procedure.body.statements scope) (tells_resultOf name)
    exact tells_inFile _ (tells_inCall body)

theorem tells_callValue (callee : Value) (args : List Value) (name : Text) :
    Tells host (callValue m callee args name) := by
  unfold callValue
  split
  · exact tells_callNative tells _ _ _
  · exact tells_callFunction tells _ _ _
  · exact tells_bind (tells_typeOf _) (fun _ => tells_runtimeFault _)

/-! Imports. -/

omit tells in
theorem tells_newGlobals : Tells host newGlobals := by
  have defined : ∀ scope builtins, Tells host (defineBuiltins scope builtins) := by
    intro scope builtins
    induction builtins with
    | nil => exact tells_pure _
    | cons b rest ih => exact tells_bind (tells_define _ _ _) (fun _ => ih)
  apply tells_bind (tells_modifyGet (fun _ => rfl) (fun _ => rfl))
  intro scope
  exact tells_bind (defined scope _) (fun _ => tells_pure _)

omit tells in
theorem tells_numbered (program : Program) : Tells host (numbered program) :=
  tells_modifyGet (fun _ => rfl) (fun _ => rfl)

theorem tells_topLevel (program : Program) (scope : Nat) :
    Tells host (topLevel m program scope) := by
  apply tells_bind (tells.block program.statements scope)
  intro flow
  cases flow with
  | normal => exact tells_pure _
  | returned v => exact tells_runtimeFault _
  | broke depth => exact tells_runtimeFault _
  | continued depth => exact tells_runtimeFault _

omit tells in
theorem tells_loadNative (name : Text) : Tells host (loadNative m name) := by
  have created : ∀ native, Tells host (createNative native) := by
    intro native
    cases native with
    | events =>
        exact tells_bind (tells_modifyGet (fun _ => rfl) (fun _ => rfl)) (fun _ => tells_newHash _)
    | callBacks => exact tells_bind tells_stamp (fun _ => tells_newHash _)
    | data value => exact tells_ofJson value
  apply tells_get
  intro s
  split
  · exact tells_pure _
  · split
    · exact tells_runtimeFault _
    · apply tells_bind (created _)
      intro v
      exact tells_bind (tells_modify (fun _ => rfl) (fun _ => rfl)) (fun _ => tells_pure _)

theorem tells_load (path : Text) (program : Program) (scope : Nat) :
    Tells host (load m path program scope) := by
  apply tells_get
  intro s
  apply tells_bind (tells_mark _)
  intro _
  have top := tells_inFile (some path) (tells_topLevel tells program scope)
  apply tells_bind (tells_whileLoading path top)
  intro _
  apply tells_bind (tells_mark _)
  intro _
  apply tells_get
  intro s
  apply tells_bind (tells_newHash _)
  intro v
  exact tells_bind (tells_modify (fun _ => rfl) (fun _ => rfl)) (fun _ => tells_pure _)

theorem tells_loadScript (name : Text) : Tells host (loadScript m name) := by
  have gives : ∀ path v, Tells host (given path v) := fun path v =>
    tells_get fun _ => tells_bind (tells_mark _) (fun _ => tells_pure _)
  apply tells_get
  intro s
  cases there : m.host.resolver.resolve name s.file with
  | error cause => exact tells_hostFault cause
  | ok found? =>
      cases found? with
      | none => exact tells_runtimeFault _
      | some found =>
          -- the text that is read is the one that the name stands for
          have ran : Tells host (runModule m found.path found.source) := by
            unfold runModule
            cases read : parse found.source with
            | error cause => exact tells_raised (.module (tells.serves ▸ there) read)
            | ok program =>
                apply tells_bind tells_newGlobals
                intro scope
                exact tells_bind (tells_numbered _) (fun program => tells_load tells _ program _)
          apply tells_get
          intro s
          split
          · exact gives _ _
          · apply tells_get
            intro s
            split
            · exact tells_runtimeFault _
            · exact tells_bind ran (fun v => gives _ v)

theorem tells_importAll (native : Bool) (scope : Nat) (names : List Text) :
    Tells host (importAll m native scope names) := by
  induction names with
  | nil => exact tells_pure _
  | cons name rest ih =>
      have loaded : Tells host (loadModule m native name) := by
        cases native with
        | true => exact tells_loadNative name
        | false => exact tells_loadScript tells name
      apply tells_bind loaded
      intro v
      exact tells_bind (tells_define _ _ _) (fun _ => ih)

theorem tells_importEach (native : Bool) (scope : Nat) (names : List Text) :
    Tells host (importEach m native scope names) := by
  induction names with
  | nil => exact tells_pure _
  | cons name rest ih =>
      have one : Tells host (importOne m native scope name) :=
        tells_bind (tells_importAll tells native scope [name]) (fun _ => tells_note _)
      exact tells_bind one (fun _ => ih)

/-! Statements. -/

theorem tells_execForEach (item : Text) (body : Block) (scope : Nat) (items : List Value) :
    Tells host (execForEach m item body scope items) := by
  induction items with
  | nil => exact tells_pure _
  | cons v rest ih =>
      apply tells_bind (tells_newScope _ _)
      intro inner
      apply tells_bind (tells_define _ _ _)
      intro _
      apply tells_bind (tells.block body.statements inner)
      intro flow
      cases Flow.afterPass flow with
      | again => exact ih
      | stop => exact tells_pure _
      | leave flow => exact tells_pure _

theorem tells_execWhile (condition : Expr) (body : Block) (scope fuel : Nat) :
    Tells host (execWhile m condition body scope fuel) := by
  induction fuel with
  | zero => exact tells_outOfFuel
  | succ fuel ih =>
      apply tells_bind (tells.eval condition scope)
      intro v
      apply tells_bind (tells_truthy v)
      intro b
      cases b with
      | false => exact tells_pure _
      | true =>
          apply tells_bind (tells_newScope _ _)
          intro inner
          apply tells_bind (tells.block body.statements inner)
          intro flow
          cases Flow.afterPass flow with
          | again => exact ih
          | stop => exact tells_pure _
          | leave flow => exact tells_pure _

theorem tells_execBranches (alternate : Option Block) (scope : Nat) (branches : List Branch) :
    Tells host (execBranches m alternate scope branches) := by
  have entered : ∀ body : Block, Tells host (do
      let inner ← newScope scope .block
      m.block body.statements inner) := fun body =>
    tells_bind (tells_newScope _ _) (fun inner => tells.block body.statements inner)
  induction branches with
  | nil =>
      cases alternate with
      | none => exact tells_pure _
      | some body => exact entered body
  | cons branch rest ih =>
      obtain ⟨condition, body⟩ := branch
      apply tells_bind (tells.eval condition scope)
      intro v
      apply tells_bind (tells_truthy v)
      intro b
      cases b with
      | true => exact entered body
      | false => exact ih

omit tells in
theorem tells_declareUse (scope : Nat) (name : Text) : Tells host (declareUse m scope name) := by
  apply tells_get
  intro s
  dsimp only
  split
  · exact tells_shareOuter _ _
  · split
    · apply tells_bind (tells_ofJson _)
      intro v
      exact tells_modify (fun _ => rfl) (fun _ => rfl)
    · exact tells_modify (fun _ => rfl) (fun _ => rfl)

omit tells in
theorem tells_declareAll (scope : Nat) (names : List Text) :
    Tells host (declareAll m scope names) := by
  induction names with
  | nil => exact tells_pure _
  | cons name rest ih => exact tells_bind (tells_declareUse scope name) (fun _ => ih)

omit tells in
theorem tells_assigned (op : AssignOp) {old : Eval Value} (read : Tells host old)
    (v : Value) : Tells host (assigned op old v) := by
  unfold assigned
  split
  · exact tells_pure _
  · exact tells_bind read (fun w => tells_binary _ w v)

omit tells in
theorem tells_elementPosition (ref : Nat) (position : Value) :
    Tells host (elementPosition ref position) := by
  apply tells_bind (tells_expectNumber _ _)
  intro x
  apply tells_bind (tells_array _)
  intro elements
  dsimp only
  split
  · split
    · exact tells_pure _
    · exact tells_runtimeFault _
  · exact tells_runtimeFault _

omit tells in
theorem tells_storeElement (ref i : Nat) (op : AssignOp) (v : Value) :
    Tells host (storeElement ref i op v) := by
  have element : Tells host (element ref i) := tells_bind (tells_array _) (fun _ => tells_pure _)
  have stored : Tells host (do
      let v ← assigned op (Eval.element ref i) v
      modifyArray ref (fun elements => Heap.storeAt elements i v)) :=
    tells_bind (tells_assigned op element v) (fun _ => tells_modifyArray _ _)
  apply tells_bind (tells_array _)
  intro elements
  split
  · exact tells_bind (tells_mark _) (fun _ => stored)
  · exact stored

theorem tells_execAssign (target : Target) (op : AssignOp) (value : Expr) (scope : Nat) :
    Tells host (execAssign m target op value scope) := by
  have valued := tells.eval value scope
  cases target with
  | ident name loc =>
      apply tells_bind valued
      intro v
      exact tells_bind (tells_assigned op (tells_lookup _ _) v) (fun _ => tells_assign _ _ _)
  | field object name loc =>
      apply tells_bind (tells.eval object scope)
      intro o
      split
      · apply tells_bind valued
        intro v
        exact tells_bind (tells_assigned op (tells_entry _ _) v) (fun _ => tells_modifyHash _ _)
      · exact tells_refused _ _
  | index object position loc =>
      apply tells_bind (tells.eval object scope)
      intro o
      apply tells_bind (tells.eval position scope)
      intro p
      split
      · apply tells_bind (tells_elementPosition _ _)
        intro i
        exact tells_bind valued (fun v => tells_storeElement _ i op v)
      · apply tells_bind (tells_textOf p)
        intro key
        apply tells_bind valued
        intro v
        exact tells_bind (tells_assigned op (tells_entry _ _) v) (fun _ => tells_modifyHash _ _)
      · exact tells_refused _ _

theorem tells_execStmt (st : Stmt) (scope : Nat) : Tells host (execStmt m st scope) := by
  cases st with
  | define name procedure loc =>
      apply tells_get
      intro s
      exact tells_bind (tells_rebind _ _ _ _) (fun _ => tells_pure _)
  | cond branches alternate loc => exact tells_execBranches tells alternate scope branches
  | forEach item subject body loc =>
      apply tells_bind (tells.eval subject scope)
      intro v
      exact tells_bind (tells_itemsOf v) (tells_execForEach tells item body scope)
  | whileLoop condition body loc => exact tells_execWhile tells condition body scope m.fuel
  | assign target op value loc =>
      exact tells_bind (tells_execAssign tells target op value scope) (fun _ => tells_pure _)
  | use names loc => exact tells_bind (tells_declareAll scope names) (fun _ => tells_pure _)
  | giveBack value? loc =>
      cases value? with
      | none => exact tells_pure _
      | some value => exact tells_bind (tells.eval value scope) (fun _ => tells_pure _)
  | emit value key loc =>
      apply tells_bind (tells.eval value scope)
      intro v
      apply tells_bind (tells_textOf v)
      intro line
      exact tells_bind (tells_emit line key) (fun _ => tells_pure _)
  | imports native modules loc =>
      exact tells_bind (tells_importEach tells native scope modules) (fun _ => tells_pure _)
  | leave depth loc => exact tells_pure _
  | next depth loc => exact tells_pure _
  | call callee args site loc =>
      exact tells_bind (tells_evalCall tells scope callee args) (fun _ => tells_pure _)

theorem tells_execBlock (statements : List Stmt) (scope : Nat) :
    Tells host (execBlock m statements scope) := by
  have inTurn : ∀ list, Tells host (execAll m scope list) := by
    intro list
    induction list with
    | nil => exact tells_pure _
    | cons st rest ih =>
        apply tells_bind (tells_statement st (tells_execStmt tells st scope))
        intro flow
        cases flow with
        | normal => exact ih
        | _ => exact tells_pure _
  exact inTurn (inOrder statements)

end

/-- By induction on the fuel: every machine tells of the statements that its failures
come out of. -/
theorem tells_of (host : Host) (fuel : Nat) : (Machine.of host fuel).Tells host := by
  induction fuel with
  | zero =>
      exact
        { serves := rfl
          eval := fun _ _ => tells_outOfFuel
          block := fun _ _ => tells_outOfFuel
          call := fun _ _ _ => tells_outOfFuel }
  | succ fuel ih =>
      exact
        { serves := rfl
          eval := tells_evalExpr ih
          block := tells_execBlock ih
          call := tells_callValue ih }

end Eval

end Loom
