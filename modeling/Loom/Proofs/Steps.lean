import Loom.State

/-!
How steps are carried out: what a step that is made of others comes to from a state,
by what its parts come to.
-/

namespace Loom

namespace Eval

variable {α β : Type} {s t : State}

theorem bind_ok {x : Eval α} {f : α → Eval β} {a : α} (ran : x s = .ok a t) :
    (x >>= f) s = f a t := by
  show EStateM.bind x f s = f a t
  simp only [EStateM.bind, ran]

theorem bind_error {x : Eval α} {f : α → Eval β} {e : Stop} (ran : x s = .error e t) :
    (x >>= f) s = .error e t := by
  show EStateM.bind x f s = .error e t
  simp only [EStateM.bind, ran]

theorem bind_run (x : Eval α) (f : α → Eval β) (s : State) :
    (x >>= f) s = match x s with
      | .ok a t => f a t
      | .error e t => .error e t := by
  cases ran : x s with
  | ok a t => exact bind_ok ran
  | error e t => exact bind_error ran

/-- What a step made of two gives comes from what both give. -/
theorem bind_eq_ok {x : Eval α} {f : α → Eval β} {b : β} (ran : (x >>= f) s = .ok b t) :
    ∃ a u, x s = .ok a u ∧ f a u = .ok b t := by
  cases outcome : x s with
  | ok a u =>
      rw [bind_ok outcome] at ran
      exact ⟨a, u, rfl, ran⟩
  | error e u =>
      rw [bind_error outcome] at ran
      cases ran

theorem finally_ok {step : Eval α} {undo : State → State} {a : α} (ran : step s = .ok a t) :
    finally_ step undo s = .ok a (undo t) := by
  simp only [finally_, ran]

theorem finally_error {step : Eval α} {undo : State → State} {e : Stop}
    (ran : step s = .error e t) : finally_ step undo s = .error e (undo t) := by
  simp only [finally_, ran]

/-- What carries a statement out and places its failures gives what it gives. -/
theorem located_during_eq_ok {loc : Location} {statement : Stmt} {step : Eval α} {a : α}
    (ran : located loc (during statement step) s = .ok a t) :
    ∃ u, step { s with underway := ⟨statement, s.file⟩ :: s.underway } = .ok a u ∧
      t = { u with underway := s.underway } := by
  unfold located during at ran
  cases outcome : step { s with underway := ⟨statement, s.file⟩ :: s.underway } with
  | ok a u =>
      simp only [outcome] at ran
      cases ran
      exact ⟨u, rfl, rfl⟩
  | error e u =>
      simp only [outcome] at ran
      cases e <;> cases ran

@[simp] theorem pure_run (a : α) (s : State) : (pure a : Eval α) s = .ok a s := rfl

@[simp] theorem get_bind_run (f : State → Eval α) (s : State) : (get >>= f) s = f s s := rfl

@[simp] theorem modify_bind_run (change : State → State) (f : PUnit → Eval α) (s : State) :
    (modify change >>= f) s = f ⟨⟩ (change s) := rfl

@[simp] theorem modifyGet_bind_run (change : State → β × State) (f : β → Eval α) (s : State) :
    (modifyGet change >>= f) s = f (change s).1 (change s).2 := rfl

/-- Nothing happens between the look at the scopes and their change, so it is the scopes
of the same state that are shared. -/
theorem shareOuter_eq (scope : Nat) (name : Text) :
    shareOuter scope name = (do
      mark (.used name)
      if (← get).scopes.hidesOuter scope name then runtimeFault (.alreadyLocal name)
      else
        modify (fun s =>
          { s with
            scopes := s.scopes.share scope name
            bindings := (s.scopes.known? (s.scopes.owner scope)).toList.map (.aliased · name) ++
              s.bindings })) := by
  funext s
  simp only [shareOuter, mark, modify_bind_run, get_bind_run, ScopeTree.shareOuter]
  split <;> rfl

end Eval

end Loom
