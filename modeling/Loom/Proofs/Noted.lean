import Loom.Proofs.Effect

/-!
What a run leaves of names. Scopes stay where they are, and a name that a scope binds
stays bound there, if only to something else. So what is said of scopes and of what
statements have done to names outlasts a run as soon as it outlasts the three changes
that are noted.
-/

namespace Loom

namespace ScopeTree

/-- The scopes of a tree are still there, and what they bind is still bound. -/
structure Keeps (tree after : ScopeTree) : Prop where
  grown : tree.Extends after
  bound : ∀ id name, (tree.localCell? id name).isSome → (after.localCell? id name).isSome

variable {tree after : ScopeTree}

theorem keeps_refl (tree : ScopeTree) : tree.Keeps tree := ⟨tree.extends_refl, fun _ _ => id⟩

theorem Keeps.trans {s t u : ScopeTree} (first : s.Keeps t) (second : t.Keeps u) : s.Keeps u :=
  ⟨first.grown.trans second.grown,
    fun id name here => second.bound id name (first.bound id name here)⟩

theorem keeps_of_eq (same : after = tree) : tree.Keeps after := same ▸ tree.keeps_refl

theorem keeps_pushScope (tree : ScopeTree) (parent : Option Nat) (kind : ScopeKind)
    (there : ∀ p ∈ parent, p < tree.scopes.size) : tree.Keeps (tree.pushScope parent kind there) :=
  ⟨tree.extends_pushScope parent kind there,
    fun id name here => by rwa [localCell?_pushScope]⟩

theorem keeps_define (tree : ScopeTree) (id : Nat) (name : Text) (v : Value) :
    tree.Keeps (tree.define id name v) where
  grown := (tree.same_shape_define id name v).extends
  bound other label here := by
    rw [localCell?_define]
    split
    · rfl
    · exact here

theorem keeps_defineAll (tree : ScopeTree) (id : Nat) (entries : List (Text × Value)) :
    tree.Keeps (tree.defineAll id entries) := by
  induction entries generalizing tree with
  | nil => exact tree.keeps_refl
  | cons entry rest ih => exact (tree.keeps_define id entry.1 entry.2).trans (ih _)

theorem keeps_assign (tree : ScopeTree) (id : Nat) (name : Text) (v : Value) :
    tree.Keeps (tree.assign id name v) where
  grown := (tree.same_shape_assign id name v).extends
  bound other label here := by
    rcases tree.localCell?_assign id name v other label with same | ⟨_, _, _, new⟩
    · rwa [same]
    · rw [new]
      rfl

theorem keeps_share (tree : ScopeTree) (id : Nat) (name : Text) :
    tree.Keeps (tree.share id name) where
  grown := (tree.same_shape_share id name).extends
  bound other label here := by
    cases outer : tree.outerCell? id name with
    | some cell =>
        rw [tree.localCell?_share_of_outer id name cell outer]
        split
        · rfl
        · exact here
    | none =>
        rw [tree.localCell?_share_of_none id name outer]
        split
        · rfl
        · exact (tree.keeps_define _ name .null).bound other label here

theorem keeps_declare (tree : ScopeTree) (id : Nat) (name : Text) (first? : Option Value) :
    tree.Keeps (tree.declare id name first?).2 where
  grown := (tree.same_shape_declare id name first?).extends
  bound other label here := by
    rw [localCell?_declare]
    split
    · exact (tree.keeps_define id name .null).bound other label here
    · exact here

/-- A name that means something goes on to mean something. -/
theorem Keeps.lookup? (keeps : tree.Keeps after) (name : Text) (id : Nat)
    (there : id < tree.scopes.size) (found : (tree.lookup? id name).isSome) :
    (after.lookup? id name).isSome := by
  induction id using tree.upward with
  | step id ih =>
      rw [lookup?_eq] at found ⊢
      rw [keeps.grown.parent id there]
      cases own : after.localCell? id name with
      | some cell => rfl
      | none =>
          have unbound : tree.localCell? id name = none := by
            cases before : tree.localCell? id name with
            | none => rfl
            | some cell =>
                have still := keeps.bound id name (by rw [before]; rfl)
                rw [own] at still
                cases still
          rw [unbound, Option.none_or] at found
          rw [Option.none_or]
          cases above : (tree.scope id).parent with
          | none =>
              rw [above] at found
              cases found
          | some p =>
              have small := tree.below id p above
              rw [above] at found
              exact ih p above (by omega) found

end ScopeTree

open ScopeTree

variable {terms : Terms} {base : Nat} {part : Part} {s t : State}

/-- What outlasts growing scopes, and the changes that are noted, outlasts a run. -/
theorem noted_of_chain {P : State → Prop}
    (kept : ∀ s t : State, s.scopes.Keeps t.scopes → t.bindings = s.bindings → P s → P t)
    (rebound : ∀ (s : State) scope name v b, Rebinds terms.atTop s scope name b → P s →
      P (s.rebinding scope name v b))
    (shared : ∀ (s : State) scope name, P s → P (s.sharing scope name))
    (declared : ∀ (s : State) scope name first?,
      (s.scopes.scope (s.scopes.owner scope)).kind = .global → P s →
      P (s.declaring scope name first?))
    (chain : Chain terms base part s t) (held : P s) : P t := by
  have still : ∀ s t : State, t.scopes = s.scopes → t.bindings = s.bindings → P s → P t :=
    fun s t scopes same => kept s t (keeps_of_eq scopes) same
  induction chain with
  | none s => exact held
  | andThen _ _ first second => exact second (first held)
  | data scopes _ _ sources => exact still _ _ scopes sources.bindings held
  | root s entries =>
      exact kept s _ ((s.scopes.keeps_pushScope none .global (by simp)).trans
        (keeps_defineAll _ _ entries)) rfl held
  | child s parent kind entries _ _ =>
      exact kept s _ ((s.scopes.keeps_pushScope _ kind (s.scopes.lt_size_of_known parent)).trans
        (keeps_defineAll _ _ entries)) rfl held
  | rebound s scope name v _ how => exact rebound s scope name v _ how held
  | assign s scope name v _ => exact kept s _ (s.scopes.keeps_assign scope name v) rfl held
  | marked s m _ => exact still s _ rfl rfl held
  | share s scope name _ _ => exact shared s scope name held
  | declare s scope name first? _ global => exact declared s scope name first? global held
  | inFile s t file _ inner => exact still t _ rfl rfl (inner (still s _ rfl rfl held))
  | inCall s t _ inner => exact still t _ rfl rfl (inner (still s _ rfl rfl held))
  | broken s t path _ _ _ _ inner => exact still t _ rfl rfl (inner (still s _ rfl rfl held))
  | loaded s t path _ _ _ heap place _ inner =>
      exact still t _ rfl rfl (inner (still s _ rfl rfl held))
  | imported s path v _ => exact still s _ rfl rfl held
  | native s name v => exact still s _ rfl rfl held
  | opened s name _ _ heap v => exact still s _ rfl rfl held
  | took s loop event rest _ => exact still s _ rfl rfl held
  | handled loop _ inner => exact inner held
  | whileRunning s t loop _ _ _ inner => exact still t _ rfl rfl (inner (still s _ rfl rfl held))

end Loom
