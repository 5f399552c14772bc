import Loom.Interpreter
import Loom.Proofs.Closed.Expression

/-!
Runs keep states closed: imports and statements do on every machine that does, so the machine
of each fuel does by induction, and with it whatever an interpreter is asked for.
-/

namespace Loom

open Eval

namespace Eval

variable {heap : Heap} {m : Machine}

/-! Imports. -/

theorem stays_defineBuiltins (scope : Nat) (builtins : List Builtin) :
    Stays Any heap (defineBuiltins scope builtins) := by
  induction builtins generalizing heap with
  | nil => exact stays_any (still_pure _)
  | cons b rest ih => exact stays_then (stays_define scope b.name trivial) fun _ _ _ => ih

theorem stays_newGlobals : Stays Any heap newGlobals := by
  have rooted : Stays Any heap (modifyGet fun s =>
      (s.scopes.newRoot.1, { s with scopes := s.scopes.newRoot.2 }) : Eval Nat) :=
    fun _ _ closed => ⟨Heap.spans_refl _, State.All.withScopes closed closed.cells, trivial⟩
  exact stays_then rooted fun scope _ _ =>
    stays_then (stays_defineBuiltins scope _) fun _ _ _ => stays_any (still_pure _)

theorem stays_numbered (program : Program) : Stays Any heap (numbered program) :=
  fun _ _ closed => ⟨Heap.spans_refl _, closed.of_same rfl rfl rfl rfl rfl, trivial⟩

theorem stays_createNative (native : NativeModule) :
    Stays Value.Within heap (createNative native) := by
  cases native with
  | events =>
      have opened : Stays Any heap (modifyGet fun s =>
          (s.loops.size, { s with
            loops := s.loops.push ⟨[], false⟩
            history := .opened s.loops.size :: s.history }) : Eval Nat) := by
        refine fun s _ closed => ⟨Heap.spans_refl _, ?_, trivial⟩
        have handlers : ∀ l ∈ s.loops.push ⟨[], false⟩, EntriesWithin s.heap l.handlers := by
          intro l member
          rcases Array.mem_push.mp member with old | rfl
          · exact closed.handlers l old
          · exact List.forall_mem_nil _
        exact ⟨closed.cells, closed.heap, handlers, closed.natives, closed.modules⟩
      refine stays_then opened fun loop later _ => stays_newHash ?_
      have within : EntriesWithin later [("Start", .string "start"),
          ("SetHandler", .native ⟨.setHandler, loop⟩ false),
          ("StartLoop", .native ⟨.startLoop, loop⟩ false)] := by
        simp only [List.forall_mem_cons]
        exact ⟨trivial, trivial, trivial, List.forall_mem_nil _⟩
      exact within
  | callBacks =>
      refine stays_then stays_stamp fun owner later _ => stays_newHash ?_
      have within : EntriesWithin later [("Call", .native ⟨.callBack, owner⟩ false),
          ("Args", .native ⟨.listArguments, owner⟩ false)] := by
        simp only [List.forall_mem_cons]
        exact ⟨trivial, trivial, List.forall_mem_nil _⟩
      exact within
  | data value => exact stays_ofJson value

theorem stays_loadNative (m : Machine) (name : Text) :
    Stays Value.Within heap (loadNative m name) := by
  refine stays_get fun s _ closed => ?_
  cases found : Table.find? name s.nativeCache with
  | some v => exact stays_value (Table.holds_of_find? name v _ closed.natives found)
  | none =>
      dsimp only
      split
      · exact stays_fault _
      · refine stays_bind (stays_createNative _) fun v _ _ within =>
          stays_then (stays_modify fun t inside closed => ⟨Heap.spans_refl _, ?_⟩)
            fun _ _ spans => stays_value (within.after spans)
        exact ⟨closed.cells, closed.heap, closed.handlers,
          Table.forall_insert name v _ closed.natives (within.after inside), closed.modules⟩

/-- What a module gives is what its variables hold. -/
theorem entries_exportsOf {s : State} (closed : s.Closed) (scope : Nat) :
    EntriesWithin s.heap (exportsOf s.scopes scope) := by
  intro entry member
  obtain ⟨name, _, given⟩ := List.mem_filterMap.mp member
  cases found : s.scopes.get? scope name with
  | none => simp [found] at given
  | some v =>
      simp only [found] at given
      split at given
      · cases given
      · cases given
        exact closed.cells.get? trivial scope name v found

section

variable (closes : m.Closes)
include closes

theorem stays_topLevel (program : Program) (scope : Nat) :
    Stays Any heap (topLevel m program scope) := by
  refine stays_then (closes.block program.statements scope heap) fun flow _ _ => ?_
  cases flow with
  | normal => exact stays_any (still_pure _)
  | returned v | broke depth | continued depth => exact stays_fault _

theorem stays_load (path : Text) (program : Program) (scope : Nat) :
    Stays Value.Within heap (load m path program scope) := by
  refine stays_get fun _ _ _ => stays_then (stays_mark _) fun _ _ _ =>
    stays_then (stays_whileLoading (stays_inFile (stays_topLevel closes program scope) _) path)
      fun _ _ _ => stays_then (stays_mark _) fun _ _ _ => stays_get fun s _ closed => ?_
  refine stays_bind (stays_newHash (entries_exportsOf closed scope)) fun v _ _ within =>
    stays_then (stays_modify fun t inside closed => ⟨Heap.spans_refl _, ?_⟩)
      fun _ _ spans => stays_value (within.after spans)
  exact ⟨closed.cells, closed.heap, closed.handlers, closed.natives,
    Table.forall_insert path v _ closed.modules (within.after inside)⟩

theorem stays_loadScript (name : Text) : Stays Value.Within heap (loadScript m name) := by
  have given : ∀ {heap : Heap} (path : Text) {v : Value}, v.Within heap →
      Stays Value.Within heap (given path v) := fun path v within =>
    stays_get fun s spans _ => stays_then (stays_mark _) fun _ _ spans' =>
      stays_value (within.after (spans.trans spans'))
  refine stays_get fun s _ _ => ?_
  split
  · exact stays_throw _
  · exact stays_fault _
  · rename_i found _
    refine stays_get fun t _ closed => ?_
    cases loaded : Table.find? found.path t.moduleCache with
    | some v => exact given _ (Table.holds_of_find? _ v _ closed.modules loaded)
    | none =>
        refine stays_get fun u _ _ => ?_
        split
        · exact stays_fault _
        · refine stays_bind ?_ fun v _ _ within => given _ within
          unfold runModule
          split
          · exact stays_throw _
          · exact stays_then stays_newGlobals fun scope _ _ =>
              stays_then (stays_numbered _) fun program _ _ => stays_load closes _ program scope

theorem stays_importAll (native : Bool) (scope : Nat) (names : List Text) :
    Stays Any heap (importAll m native scope names) := by
  induction names generalizing heap with
  | nil => exact stays_any (still_pure _)
  | cons name rest ih =>
      have loaded : Stays Value.Within heap (loadModule m native name) := by
        unfold loadModule
        split
        · exact stays_loadNative m name
        · exact stays_loadScript closes name
      exact stays_bind loaded fun v _ _ within =>
        stays_then (stays_define scope name within) fun _ _ _ => ih

theorem stays_importEach (native : Bool) (scope : Nat) (names : List Text) :
    Stays Any heap (importEach m native scope names) := by
  induction names generalizing heap with
  | nil => exact stays_any (still_pure _)
  | cons name rest ih =>
      exact stays_then (stays_then (stays_importAll closes native scope [name]) fun _ _ _ =>
        stays_note _) fun _ _ _ => ih

/-! Statements. -/

theorem stays_inner (statements : List Stmt) (scope : Nat) :
    Stays Flow.Within heap (do m.block statements (← newScope scope .block)) :=
  stays_then (stays_newScope scope .block) fun inner later _ => closes.block statements inner later

omit closes in
/-- A flow without a value is on every heap. -/
theorem stays_flow {flow : Flow} (within : flow.Within heap) :
    Stays Flow.Within heap (pure flow) :=
  stays_pure fun _ spans => within.after spans

omit closes in
/-- A loop hands nothing on that its body did not. -/
theorem within_leave {flow left : Flow} (within : flow.Within heap)
    (leaves : Flow.afterPass flow = .leave left) : left.Within heap := by
  cases flow with
  | normal => cases leaves
  | returned v =>
      cases leaves
      exact within
  | broke depth | continued depth =>
      simp only [Flow.afterPass] at leaves
      split at leaves
      · cases leaves
        trivial
      · cases leaves

theorem stays_execForEach (item : Text) (body : Block) (scope : Nat) (items : List Value)
    (within : AllWithin heap items) :
    Stays Flow.Within heap (execForEach m item body scope items) := by
  induction items generalizing heap with
  | nil => exact stays_flow trivial
  | cons v rest ih =>
      obtain ⟨first, others⟩ := List.forall_mem_cons.mp within
      refine stays_then (stays_newScope scope .block) fun inner _ spans =>
        stays_then (stays_define inner item (first.after spans)) fun _ later spans' =>
          stays_bind (closes.block body.statements inner later) fun flow _ spans'' within => ?_
      cases passed : Flow.afterPass flow with
      | again => exact ih (all_after others ((spans.trans spans').trans spans''))
      | stop => exact stays_flow trivial
      | leave left => exact stays_flow (within_leave within passed)

theorem stays_execWhile (condition : Expr) (body : Block) (scope fuel : Nat) :
    Stays Flow.Within heap (execWhile m condition body scope fuel) := by
  induction fuel generalizing heap with
  | zero => exact stays_throw _
  | succ fuel ih =>
      refine stays_then (closes.eval condition scope heap) fun v _ _ =>
        stays_after (still_truthy v) fun holds _ _ => ?_
      cases holds with
      | true =>
          refine stays_then (stays_newScope scope .block) fun inner later _ =>
            stays_bind (closes.block body.statements inner later) fun flow _ _ within => ?_
          cases passed : Flow.afterPass flow with
          | again => exact ih
          | stop => exact stays_flow trivial
          | leave left => exact stays_flow (within_leave within passed)
      | false => exact stays_flow trivial

theorem stays_execBranches (alternate : Option Block) (scope : Nat) (branches : List Branch) :
    Stays Flow.Within heap (execBranches m alternate scope branches) := by
  induction branches generalizing heap with
  | nil =>
      cases alternate with
      | some body => exact stays_inner closes body.statements scope
      | none => exact stays_flow trivial
  | cons branch rest ih =>
      obtain ⟨condition, body⟩ := branch
      refine stays_then (closes.eval condition scope heap) fun v _ _ =>
        stays_after (still_truthy v) fun holds _ _ => ?_
      cases holds with
      | true => exact stays_inner closes body.statements scope
      | false => exact ih

omit closes in
theorem stays_declareShared (scope : Nat) (name : Text) (first? : Option Value)
    (within : ∀ v ∈ first?, v.Within heap) :
    Stays Any heap (declareShared scope name first?) := by
  refine stays_modify fun s spans closed => ⟨Heap.spans_refl _, ?_⟩
  have declared := closed.cells.declare scope name first? trivial
    fun v given => (within v given).after spans
  exact ⟨declared, closed.heap, closed.handlers, closed.natives, closed.modules⟩

omit closes in
theorem stays_declareUse (m : Machine) (scope : Nat) (name : Text) :
    Stays Any heap (declareUse m scope name) := by
  refine stays_get fun s _ _ => ?_
  dsimp only
  split
  · exact stays_shareOuter scope name
  · split
    · exact stays_bind (stays_ofJson _) fun v _ _ within =>
        stays_declareShared _ name _ fun w given => Option.some.inj given ▸ within
    · exact stays_declareShared _ name none nofun

omit closes in
theorem stays_declareAll (m : Machine) (scope : Nat) (names : List Text) :
    Stays Any heap (declareAll m scope names) := by
  induction names generalizing heap with
  | nil => exact stays_any (still_pure _)
  | cons name rest ih => exact stays_then (stays_declareUse m scope name) fun _ _ _ => ih

omit closes in
theorem stays_assigned (op : AssignOp) {old : Eval Value} {v : Value}
    (read : Stays Value.Within heap old) (within : v.Within heap) :
    Stays Value.Within heap (assigned op old v) := by
  unfold assigned
  split
  · exact stays_value within
  · exact stays_then read fun w _ _ => stays_binary _ w v

omit closes in
theorem stays_storeElement (ref i : Nat) (op : AssignOp) {v : Value} (within : v.Within heap) :
    Stays Any heap (storeElement ref i op v) := by
  have old : ∀ {heap : Heap}, Stays Value.Within heap (element ref i) := fun {heap} => by
    refine stays_bind (stays_array ref) fun slots _ _ held => stays_value ?_
    cases found : slots[i]? with
    | none => trivial
    | some slot => exact held slot (Array.mem_of_getElem? found)
  have stores : ∀ {heap : Heap}, v.Within heap → Stays Any heap (do
      let v ← assigned op (element ref i) v
      modifyArray ref (fun elements => Heap.storeAt elements i v)) := fun within => by
    refine stays_bind (stays_assigned op old within) fun w _ _ within =>
      stays_modifyArray fun s spans closed => ?_
    exact Heap.forall_storeAt _ i w (closed.heap.slots ref) (within.after spans) fun _ => trivial
  refine stays_after (still_array ref) fun slots _ spans => ?_
  split
  · exact stays_then (stays_mark _) fun _ _ spans' => stores (within.after (spans.trans spans'))
  · exact stores (within.after spans)

theorem stays_execAssign (target : Target) (op : AssignOp) (value : Expr) (scope : Nat) :
    Stays Any heap (execAssign m target op value scope) := by
  have entered : ∀ {heap : Heap} (ref : Nat) (key : Text), Stays Any heap (do
      let v ← m.eval value scope
      let v ← assigned op (entry ref key) v
      modifyHash ref (Table.insert key v)) := fun {heap} ref key =>
    stays_bind (closes.eval value scope heap) fun v _ _ within =>
      stays_bind (stays_assigned op (stays_entry ref key) within) fun w _ _ within =>
        stays_insert within
  cases target with
  | ident name loc =>
      exact stays_bind (closes.eval value scope heap) fun v _ _ within =>
        stays_bind (stays_assigned op (stays_lookup scope name) within) fun w _ _ within =>
          stays_assign scope name within
  | field object name loc =>
      refine stays_then (closes.eval object scope heap) fun o _ _ => ?_
      cases o with
      | hash ref => exact entered ref name
      | _ => exact stays_typeFault _ _
  | index object position loc =>
      refine stays_then (closes.eval object scope heap) fun o later _ =>
        stays_then (closes.eval position scope later) fun p _ _ => ?_
      cases o with
      | array ref =>
          exact stays_after (still_elementPosition ref p) fun i later _ =>
            stays_bind (closes.eval value scope later) fun v _ _ within =>
              stays_storeElement ref i op within
      | hash ref => exact stays_after (still_textOf p) fun key _ _ => entered ref key
      | _ => exact stays_typeFault _ _

theorem stays_execStmt (s : Stmt) (scope : Nat) : Stays Flow.Within heap (execStmt m s scope) := by
  cases s with
  | define name procedure loc =>
      exact stays_get fun _ _ _ => stays_then (stays_rebind scope name _ trivial) fun _ _ _ =>
        stays_flow trivial
  | cond branches alternate loc => exact stays_execBranches closes alternate scope branches
  | forEach item subject body loc =>
      exact stays_then (closes.eval subject scope heap) fun v _ _ =>
        stays_bind (stays_itemsOf v) fun items _ _ within =>
          stays_execForEach closes item body scope items within
  | whileLoop condition body loc => exact stays_execWhile closes condition body scope m.fuel
  | assign target op value loc =>
      exact stays_then (stays_execAssign closes target op value scope) fun _ _ _ =>
        stays_flow trivial
  | use names loc =>
      exact stays_then (stays_declareAll m scope names) fun _ _ _ => stays_flow trivial
  | giveBack value? loc =>
      cases value? with
      | none => exact stays_flow trivial
      | some value =>
          exact stays_bind (closes.eval value scope heap) fun v _ _ within => stays_flow within
  | emit value key loc =>
      exact stays_then (closes.eval value scope heap) fun v _ _ =>
        stays_after (still_textOf v) fun text _ _ =>
          stays_then (stays_emit text key) fun _ _ _ => stays_flow trivial
  | imports native modules loc =>
      exact stays_then (stays_importEach closes native scope modules) fun _ _ _ =>
        stays_flow trivial
  | leave depth loc | next depth loc => exact stays_flow trivial
  | call callee args loc place =>
      exact stays_then (stays_evalCall closes scope callee args) fun _ _ _ => stays_flow trivial

theorem stays_execAll (scope : Nat) (statements : List Stmt) :
    Stays Flow.Within heap (execAll m scope statements) := by
  induction statements generalizing heap with
  | nil => exact stays_flow trivial
  | cons s rest ih =>
      have first : Stays Flow.Within heap (located s.loc (during s (execStmt m s scope))) :=
        stays_statement (stays_execStmt closes s scope) s
      refine stays_bind first fun flow _ _ within => ?_
      cases flow with
      | normal => exact ih
      | returned v => exact stays_flow within
      | broke depth | continued depth => exact stays_flow trivial

end

end Eval

/-- No machine makes anything dangle, whatever fuel it has. -/
theorem Machine.closes_of (host : Host) (fuel : Nat) : (Machine.of host fuel).Closes := by
  induction fuel with
  | zero =>
      exact ⟨fun _ _ _ => stays_throw _, fun _ _ _ => stays_throw _,
        fun _ _ _ _ _ => stays_throw _⟩
  | succ fuel ih =>
      exact ⟨fun e scope _ => stays_evalExpr ih e scope,
        fun statements scope _ => stays_execAll ih scope (inOrder statements),
        fun callee name _ _ within => stays_callValue ih callee name within⟩

/-! Interpreters. -/

namespace Interpreter

variable {machine : Host → Machine}

theorem closed_blank (events : List HostEvent) : (blankState events).Closed where
  cells := by simp [blankState, ScopeTree.empty, ScopeTree.All]
  heap := Heap.all_empty
  handlers := by simp [blankState]
  natives := by simp [blankState]
  modules := by simp [blankState]

theorem closed_withNewGlobals {s : State} (closed : s.Closed) : (withNewGlobals s).Closed := by
  have kept := stays_newGlobals s (Heap.spans_refl _) closed
  unfold withNewGlobals
  cases ran : newGlobals s with
  | ok globals t =>
      rw [ran] at kept
      exact kept.2.1.of_same rfl rfl rfl rfl rfl
  | error e t =>
      rw [ran] at kept
      exact kept.2

theorem closed_new (host : Host) (events : List HostEvent) :
    (Interpreter.new host events).state.Closed :=
  closed_withNewGlobals (closed_blank events)

theorem closed_step {α : Type} {good : Heap → α → Prop} {i : Interpreter} {action : Eval α}
    (closed : i.state.Closed) (stays : Stays good i.state.heap action) :
    (i.step action).2.state.Closed := by
  have kept := stays i.state (Heap.spans_refl _) closed
  unfold Interpreter.step
  cases ran : action i.state with
  | ok a t =>
      rw [ran] at kept
      exact kept.2.1
  | error e t =>
      rw [ran] at kept
      exact kept.2

theorem stays_runOn {heap : Heap} {m : Machine} (closes : m.Closes) (program : Program)
    (file : Option Text) : Stays Any heap (runOn m program file) :=
  stays_then stays_nothingUnderway fun _ _ _ => stays_get fun s _ _ =>
    stays_inFile (stays_topLevel closes program s.globals) file

theorem stays_runRead {heap : Heap} {m : Machine} (closes : m.Closes) (program : Program)
    (file : Option Text) : Stays Any heap (runRead m program file) :=
  stays_then (stays_numbered program) fun program _ _ => stays_runOn closes program file

theorem stays_allOfJson {heap : Heap} (args : List Json) :
    Stays AllWithin heap (Interpreter.allOfJson args) := by
  induction args generalizing heap with
  | nil => exact stays_pure fun _ _ => List.forall_mem_nil _
  | cons data rest ih =>
      exact stays_bind (stays_ofJson data) fun v _ _ first =>
        stays_bind ih fun _ _ spans others =>
          stays_pure fun _ spans' => all_cons first (spans.trans spans') (all_after others spans')

theorem stays_callOn {heap : Heap} {m : Machine} (closes : m.Closes) (name : Text)
    (args : List Json) : Stays Any heap (callOn m name args) :=
  stays_then stays_nothingUnderway fun _ _ _ => stays_get fun s _ _ =>
    stays_then (stays_lookup s.globals name) fun callee _ _ =>
      stays_bind (stays_allOfJson args) fun _ _ _ within =>
        stays_then (stays_hostCall closes callee within) fun v _ _ =>
          stays_after (still_typeOf v) fun _ _ _ =>
            stays_after (still_textOf v) fun _ _ _ => stays_any (still_pure _)

/-- Whatever is asked, an interpreter that holds only what is there still does. -/
theorem closed_serve (closes : ∀ host, (machine host).Closes) {i : Interpreter}
    (closed : i.state.Closed) (request : Request) :
    (i.serve machine request).2.state.Closed := by
  cases request with
  | run made file => exact closed_step closed (stays_runOn (closes i.host) made.numbered file)
  | runSource source file =>
      simp only [serve]
      cases parseFile source file with
      | ok program => exact closed_step closed (stays_runRead (closes i.host) program file)
      | error d => exact closed
  | runTree tree file =>
      simp only [serve]
      cases Program.ofTree tree with
      | ok program => exact closed_step closed (stays_runRead (closes i.host) program file)
      | error d => exact closed
  | call name args => exact closed_step closed (stays_callOn (closes i.host) name args)
  | push events => exact closed.of_same rfl rfl rfl rfl rfl
  | addModule name source =>
      show (i.addModule name source).state.Closed
      unfold addModule
      split <;> exact closed
  | reset =>
      have renewed := closed_withNewGlobals closed
      exact ⟨renewed.cells, renewed.heap, renewed.handlers, List.forall_mem_nil _,
        List.forall_mem_nil _⟩

/-- Every state that a session comes to is closed. -/
theorem closed_serveAll (host : Host) (events : List HostEvent) (fuel : Nat)
    (requests : List Request) :
    ((Interpreter.new host events).serveAll (.of · fuel) requests).2.state.Closed := by
  suffices kept : ∀ i : Interpreter, i.state.Closed →
      (i.serveAll (.of · fuel) requests).2.state.Closed from kept _ (closed_new host events)
  induction requests with
  | nil => exact fun i closed => closed
  | cons request rest ih =>
      exact fun i closed => ih _ (closed_serve (Machine.closes_of · fuel) closed request)

end Interpreter

end Loom
