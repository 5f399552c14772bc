import Loom.Eval.Import
import Loom.Proofs.Likeness.Call

/-!
Imports over a machine that respects a likeness. Both runs read the same sources, and what
a module defines in the one is like what it defines in the other.
-/

namespace Loom

variable {l : Likeness}

/-- Whether a global is as it was before any statement ran. -/
theorem Eval.isUntouched_like (scope : Nat) (name : Text) {v w : Value}
    (same : Value.Like l v w) :
    isUntouched (l.before.scopes + scope) name w = isUntouched scope name v := by
  unfold isUntouched
  cases Builtin.all.find? (fun b => b.name == name) with
  | none => cases same <;> rfl
  | some b =>
      cases same with
      | native n method =>
          have owned : (⟨.builtin b, l.before.scopes + scope⟩ : Native) =
              Native.behind l ⟨.builtin b, scope⟩ := rfl
          have natives : (n.behind l == ⟨.builtin b, l.before.scopes + scope⟩) =
              (n == ⟨.builtin b, scope⟩) := by
            rw [owned, Bool.eq_iff_iff, beq_iff_eq, beq_iff_eq, Native.behind_inj]
          simp only [natives]
      | _ => rfl

namespace Eval

theorem exportsOf_like {scopes scopes' : ScopeTree} (same : scopes.Like l scopes') (scope : Nat) :
    Table.Like l (exportsOf scopes scope) (exportsOf scopes' (l.before.scopes + scope)) := by
  unfold exportsOf
  rw [same.localNames_eq]
  induction scopes.localNames scope with
  | nil => exact .nil
  | cons name rest ih =>
      simp only [List.filterMap_cons]
      rcases related_cases (same.get? scope name) with
        ⟨none, none'⟩ | ⟨v, w, some, some', like⟩
      · simp only [none, none']
        exact ih
      · simp only [some, some', isUntouched_like scope name like]
        cases isUntouched scope name v with
        | true => exact ih
        | false => exact .cons ⟨rfl, like⟩ ih

theorem agree_defineBuiltins (scope : Nat) (builtins : List Builtin) :
    Agree l Eq (defineBuiltins scope builtins)
      (defineBuiltins (l.before.scopes + scope) builtins) := by
  induction builtins with
  | nil => exact agree_pure rfl
  | cons b rest ih =>
      exact agree_then (agree_define scope b.name (.native ⟨.builtin b, scope⟩ false))
        (fun _ => ih)

theorem agree_newGlobals :
    Agree l (fun id other => other = l.before.scopes + id) newGlobals newGlobals := by
  unfold newGlobals
  apply agree_bind (R := fun id other => other = l.before.scopes + id)
  · exact agree_modifyGet fun s t states =>
      ⟨states.scopes.newRoot.1, { states with scopes := states.scopes.newRoot.2 }⟩
  · rintro scope _ rfl
    exact agree_then (agree_defineBuiltins scope _) (fun _ => agree_pure rfl)

/-- Of a program and a revision of it the sites are given out in the same order. -/
theorem agree_numbered {r : Revision} (numbers : ∀ x, l.Same plainNumber x (r.number x))
    (program : Program) :
    Agree l (fun p q => ∃ r, l.Admits r ∧ q = p.revised r) (numbered program)
      (numbered (program.revised r)) := by
  apply agree_modifyGet
  intro s t states
  have start : l.renumbering.site ⟨.read s.programs, 0⟩ = ⟨.read t.programs, 0⟩ := by
    rw [states.programs]
    rfl
  rw [program.withSites_revised r l.renumbering start]
  refine ⟨⟨_, Likeness.admits_numbered numbers, rfl⟩, { states with programs := ?_ }⟩
  rw [states.programs, Nat.add_assoc]

theorem agree_createNative (native : NativeModule) :
    Agree l (Value.Like l) (createNative native) (createNative native) := by
  cases native with
  | events =>
      have fresh : EventLoop.Like l ⟨[], false⟩ ⟨[], false⟩ := ⟨.nil, rfl⟩
      apply agree_bind (R := fun loop other => other = l.before.loops + loop)
      · exact agree_modifyGet fun s t states =>
          ⟨states.loopCount, { states.pushLoop fresh with }⟩
      · rintro loop _ rfl
        exact agree_newHash (.cons ⟨rfl, .string _⟩
          (.cons ⟨rfl, .native ⟨.setHandler, loop⟩ false⟩
            (.cons ⟨rfl, .native ⟨.startLoop, loop⟩ false⟩ .nil)))
  | callBacks =>
      apply agree_bind agree_stamp
      rintro owner _ rfl
      exact agree_newHash (.cons ⟨rfl, .native ⟨.callBack, owner⟩ false⟩
        (.cons ⟨rfl, .native ⟨.listArguments, owner⟩ false⟩ .nil))
  | data value => exact agree_ofJson value

theorem agree_given (path : Text) {v w : Value} (same : Value.Like l v w) :
    Agree l (Value.Like l) (given path v) (given path w) :=
  agree_get fun _ _ _ => agree_then (agree_mark _ _) (fun _ => agree_pure same)

theorem agree_loadNative (m : Machine) (name : Text) :
    Agree l (Value.Like l) (loadNative m name) (loadNative m name) := by
  apply agree_get
  intro s t states
  rcases related_cases (states.nativeCache.find? name) with
    ⟨none, none'⟩ | ⟨v, w, some, some', like⟩
  · rw [none, none']
    dsimp only
    split
    · exact agree_runtimeFault (.refl _)
    · apply agree_bind (agree_createNative _)
      intro v w like
      exact agree_then (agree_modify fun _ _ states =>
        { states with nativeCache := states.nativeCache.insert name like })
        (fun _ => agree_pure like)
  · rw [some, some']
    exact agree_pure like

variable {m : Machine} (respects : m.Respects l)
include respects

theorem agree_topLevel {r : Revision} (admitted : l.Admits r) (program : Program) (scope : Nat) :
    Agree l Eq (topLevel m program scope)
      (topLevel m (program.revised r) (l.before.scopes + scope)) := by
  apply agree_bind (respects.block admitted program.statements scope)
  intro flow flow' same
  cases same with
  | normal => exact agree_pure rfl
  | _ => exact agree_runtimeFault (.refl _)

theorem agree_load (path : Text) {r : Revision} (admitted : l.Admits r) (program : Program)
    (scope : Nat) :
    Agree l (Value.Like l) (load m path program scope)
      (load m path (program.revised r) (l.before.scopes + scope)) := by
  apply agree_get
  intro s t states
  apply agree_then (agree_mark _ _)
  intro _
  have top := agree_topLevel respects admitted program scope
  apply agree_then (agree_whileLoading path (agree_inFile (some path) top))
  intro _
  apply agree_then (agree_mark _ _)
  intro _
  apply agree_get
  intro s t states
  apply agree_bind (agree_newHash (exportsOf_like states.scopes scope))
  intro v w like
  exact agree_then (agree_modify fun _ _ states =>
    { states with moduleCache := states.moduleCache.insert path like })
    (fun _ => agree_pure like)

theorem agree_runModule (path source : Text) :
    Agree l (Value.Like l) (runModule m path source) (runModule m path source) := by
  unfold runModule
  split
  · exact agree_failWith (.refl _)
  · rename_i program _
    apply agree_bind agree_newGlobals
    rintro scope _ rfl
    have numbered := agree_numbered (l := l) (r := .nothing) (fun x => .refl x) program
    rw [program.revised_nothing] at numbered
    apply agree_bind numbered
    rintro program _ ⟨r, admitted, rfl⟩
    exact agree_load respects path admitted program scope

theorem agree_loadScript (name : Text) :
    Agree l (Value.Like l) (loadScript m name) (loadScript m name) := by
  apply agree_get
  intro s t states
  rw [states.file]
  split
  · exact agree_failWith (.refl _)
  · exact agree_runtimeFault (.refl _)
  · rename_i found _
    apply agree_get
    intro s t states
    rcases related_cases (states.moduleCache.find? found.path) with
      ⟨none, none'⟩ | ⟨v, w, some, some', like⟩
    · rw [none, none']
      apply agree_get
      intro s t states
      rw [states.loading]
      split
      · exact agree_runtimeFault (.refl _)
      · exact agree_bind (agree_runModule respects found.path found.source)
          (fun _ _ like => agree_given found.path like)
    · rw [some, some']
      exact agree_given found.path like

theorem agree_importAll (native : Bool) (scope : Nat) (names : List Text) :
    Agree l Eq (importAll m native scope names)
      (importAll m native (l.before.scopes + scope) names) := by
  have loaded : ∀ name, Agree l (Value.Like l) (loadModule m native name)
      (loadModule m native name) := by
    intro name
    cases native with
    | true => exact agree_loadNative m name
    | false => exact agree_loadScript respects name
  induction names with
  | nil => exact agree_pure rfl
  | cons name rest ih =>
      apply agree_bind (loaded name)
      intro v w same
      exact agree_then (agree_define scope name same) (fun _ => ih)

theorem agree_importEach (native : Bool) (scope : Nat) (names : List Text) :
    Agree l Eq (importEach m native scope names)
      (importEach m native (l.before.scopes + scope) names) := by
  induction names with
  | nil => exact agree_pure rfl
  | cons name rest ih =>
      have one : Agree l Eq (importOne m native scope name)
          (importOne m native (l.before.scopes + scope) name) :=
        agree_then (agree_importAll respects native scope [name]) (fun _ => agree_note _ _)
      exact agree_then one (fun _ => ih)

end Eval

end Loom
