import Loom.Proofs.Sharing
import Loom.Proofs.Similarity

/-!
Modules apart from each other. Each program runs in a global scope of its own; the world
of a global scope is what is bound in it and in the scopes below. What a statement does to
names stays in the world that it is carried out in, so what a module does while it is
loaded reaches another world only by a call of a function that was made there; and there
is none such of a program of which only the imports have run.
-/

namespace Loom

namespace ScopeTree

variable {tree after : ScopeTree} {top : Nat}

/-! A world, and what leaves it alone. -/

/-- The scopes below a root bind what they did, and the variables bound there hold what
they held. -/
structure SameWorld (top : Nat) (tree after : ScopeTree) : Prop where
  scope : ∀ id < tree.scopes.size, tree.root id = top → after.scope id = tree.scope id
  value : ∀ id name cell, tree.root id = top → tree.localCell? id name = some cell →
    after.read cell = tree.read cell

theorem same_world_refl (top : Nat) (tree : ScopeTree) : SameWorld top tree tree :=
  ⟨fun _ _ _ => rfl, fun _ _ _ _ _ => rfl⟩

theorem SameWorld.trans {s t u : ScopeTree} (first : SameWorld top s t) (grown : s.Extends t)
    (second : SameWorld top t u) : SameWorld top s u := by
  have root : ∀ id < s.scopes.size, s.root id = top → t.root id = top :=
    fun id there below => (grown.root id there).trans below
  constructor
  · intro id there below
    have still := second.scope id (Nat.lt_of_lt_of_le there grown.size) (root id there below)
    exact still.trans (first.scope id there below)
  · intro id name cell below bound
    have there := lt_size_of_localCell? bound
    have bound' : t.localCell? id name = some cell := by
      show Table.find? name (t.scope id).cells = some cell
      rw [first.scope id there below]
      exact bound
    have still := second.value id name cell (root id there below) bound'
    exact still.trans (first.value id name cell below bound)

theorem same_world_pushScope (top : Nat) (tree : ScopeTree) (parent : Option Nat)
    (kind : ScopeKind) (there : ∀ p ∈ parent, p < tree.scopes.size) :
    SameWorld top tree (tree.pushScope parent kind there) := by
  constructor
  · intro id old _
    rw [scope_pushScope, if_neg (Nat.ne_of_lt old)]
  · intro id name cell _ _
    rfl

theorem same_world_pushCell (top : Nat) (tree : ScopeTree) (v : Value) :
    SameWorld top tree (tree.pushCell v) := by
  constructor
  · intro id _ _
    rfl
  · intro id name cell _ bound
    exact tree.read_pushCell v cell (tree.bound id name cell bound)

theorem same_world_bind {id : Nat} {name : Text} {cell : Nat} (takes : tree.Takes cell name)
    (away : tree.root id ≠ top) : SameWorld top tree (tree.bind id name cell takes) := by
  constructor
  · intro other _ below
    have differ : other ≠ id := by
      rintro rfl
      exact away below
    simp only [ScopeTree.scope, bind, Scope.at, getD_modify]
    rw [if_neg (fun here => differ here.1)]
  · intro other label c _ _
    rfl

theorem same_world_define {id : Nat} (name : Text) (v : Value) (away : tree.root id ≠ top) :
    SameWorld top tree (tree.define id name v) := by
  have pushed : tree.SameShape (tree.pushCell v) := ⟨rfl, fun _ => rfl, fun _ => rfl⟩
  apply (same_world_pushCell top tree v).trans pushed.extends
  apply same_world_bind
  rw [pushed.root]
  exact away

/-- A variable that is bound outside of a world is none of it. -/
theorem same_world_write (apart : tree.Apart) {holder : Nat} {name : Text} {cell : Nat} (v : Value)
    (bound : tree.localCell? holder name = some cell) (away : tree.root holder ≠ top) :
    SameWorld top tree (tree.write cell v) := by
  constructor
  · intro id _ _
    rfl
  · intro id label other below bound'
    apply read_write
    rintro rfl
    -- one variable goes by one name, and is bound below one root
    obtain rfl := tree.named _ _ _ _ _ bound bound'
    exact away ((apart _ _ _ _ bound bound').trans below)

theorem root_of_mem_chain (tree : ScopeTree) (id : Nat) :
    ∀ other ∈ tree.chain id, tree.root other = tree.root id := by
  induction id using tree.upward with
  | step id ih =>
      intro other member
      cases above : (tree.scope id).parent with
      | none =>
          rw [tree.chain_of_top above, List.mem_singleton] at member
          rw [member]
      | some p =>
          rw [tree.chain_of_parent above] at member
          rcases List.mem_cons.mp member with rfl | further
          · rfl
          · rw [ih p above other further, tree.root_of_parent above]

theorem reach_subset (tree : ScopeTree) (list : List Nat) : tree.reach list ⊆ list := by
  induction list with
  | nil => exact List.Subset.refl _
  | cons id above ih =>
      simp only [reach]
      split
      · exact List.cons_subset_cons id ih
      · simp

theorem same_world_assign (apart : tree.Apart) {id : Nat} (name : Text) (v : Value)
    (away : tree.root id ≠ top) : SameWorld top tree (tree.assign id name v) := by
  unfold assign
  split
  · rename_i cell found
    obtain ⟨holder, member, bound⟩ := List.exists_of_findSome?_eq_some found
    have root := tree.root_of_mem_chain id holder (tree.reach_subset _ member)
    exact same_world_write apart v bound (root ▸ away)
  · exact same_world_define name v (tree.root_owner id ▸ away)

theorem same_world_share {id : Nat} (name : Text) (away : tree.root id ≠ top) :
    SameWorld top tree (tree.share id name) := by
  have owner : tree.root (tree.owner id) ≠ top := tree.root_owner id ▸ away
  unfold share
  split
  · exact same_world_bind _ owner
  · have shape := tree.same_shape_define (tree.root id) name .null
    have highest : tree.root (tree.root id) ≠ top := by
      rw [tree.root_of_top (tree.parent_root id)]
      exact away
    apply (same_world_define name .null highest).trans shape.extends
    apply same_world_bind
    rw [shape.root]
    exact owner

theorem same_world_declare (apart : tree.Apart) {id : Nat} (name : Text) (first? : Option Value)
    (away : tree.root id ≠ top) : SameWorld top tree (tree.declare id name first?).2 := by
  unfold declare
  cases found : tree.lookup? id name with
  | some cell =>
      obtain ⟨holder, _, bound, root⟩ := tree.holder_of_lookup? id name cell found
      cases first? with
      | none => exact same_world_refl top tree
      | some v => exact same_world_write apart v bound (root ▸ away)
  | none =>
      have defined : SameWorld top tree (tree.define id name .null) :=
        same_world_define name .null away
      cases first? with
      | none => exact defined
      | some v =>
          have shape := tree.same_shape_define id name .null
          refine defined.trans shape.extends ⟨fun _ _ _ => rfl, ?_⟩
          -- the variable that is set is the new one
          intro other label c below bound
          apply read_write
          rintro rfl
          rw [localCell?_define] at bound
          split at bound
          · rename_i here
            rw [here.1, shape.root] at below
            exact away below
          · exact absurd (tree.bound other label _ bound) (Nat.lt_irrefl _)

/-- What a statement that is carried out in a scope may do to names. -/
inductive Writes (scope : Nat) (tree : ScopeTree) : ScopeTree → Prop
  | define (name : Text) (v : Value) : Writes scope tree (tree.define scope name v)
  | assign (name : Text) (v : Value) : Writes scope tree (tree.assign scope name v)
  | share (name : Text) : Writes scope tree (tree.share scope name)
  | declare (name : Text) (first? : Option Value) :
      Writes scope tree (tree.declare (tree.owner scope) name first?).2

theorem Writes.same_shape {scope : Nat} (writes : tree.Writes scope after) :
    tree.SameShape after := by
  cases writes with
  | define name v => exact tree.same_shape_define scope name v
  | assign name v => exact tree.same_shape_assign scope name v
  | share name => exact tree.same_shape_share scope name
  | declare name first? => exact tree.same_shape_declare _ name first?

/-- What a statement does to names it does in its own world. -/
theorem same_world_of_writes (apart : tree.Apart) {scope : Nat} (writes : tree.Writes scope after)
    (away : tree.root scope ≠ top) : SameWorld top tree after := by
  cases writes with
  | define name v => exact same_world_define name v away
  | assign name v => exact same_world_assign apart name v away
  | share name => exact same_world_share name away
  | declare name first? => exact same_world_declare apart name first? (tree.root_owner scope ▸ away)

/-- What may happen to a world when only statements in scopes from `base` on are carried
out: it stays the same, but for what those of them do whose scopes are its own. -/
inductive Changes (base top : Nat) : ScopeTree → ScopeTree → Prop
  | still {s t : ScopeTree} (same : SameWorld top s t) (grown : s.Extends t) : Changes base top s t
  | own {s t : ScopeTree} (scope : Nat) (new : base ≤ scope) (own : s.root scope = top)
      (writes : s.Writes scope t) : Changes base top s t
  | andThen {s t u : ScopeTree} : Changes base top s t → Changes base top t u →
      Changes base top s u

theorem changes_of_writes {base scope : Nat} (apart : tree.Apart) (inside : base ≤ scope)
    (writes : tree.Writes scope after) : Changes base top tree after := by
  by_cases own : tree.root scope = top
  · exact .own scope inside own writes
  · exact .still (same_world_of_writes apart writes own) writes.same_shape.extends

theorem changes_refl {base : Nat} (tree : ScopeTree) : Changes base top tree tree :=
  .still (same_world_refl top tree) tree.extends_refl

theorem changes_pushScope {base : Nat} (tree : ScopeTree) (parent : Option Nat) (kind : ScopeKind)
    (there : ∀ p ∈ parent, p < tree.scopes.size) :
    Changes base top tree (tree.pushScope parent kind there) :=
  .still (same_world_pushScope top tree parent kind there)
    (tree.extends_pushScope parent kind there)

theorem changes_defineAll {base scope : Nat} (apart : tree.Apart) (inside : base ≤ scope)
    (entries : List (Text × Value)) : Changes base top tree (tree.defineAll scope entries) := by
  induction entries generalizing tree with
  | nil => exact changes_refl tree
  | cons entry rest ih =>
      have first : Changes base top tree (tree.define scope entry.1 entry.2) :=
        changes_of_writes apart inside (.define entry.1 entry.2)
      exact first.andThen (ih (apart.define scope entry.1 entry.2))

theorem Changes.grown {base : Nat} {s t : ScopeTree} (changes : Changes base top s t) :
    s.Extends t := by
  induction changes with
  | still _ grown => exact grown
  | own _ _ _ writes => exact writes.same_shape.extends
  | andThen _ _ first second => exact first.trans second

theorem lt_size_of_parent (tree : ScopeTree) {id p : Nat}
    (above : (tree.scope id).parent = some p) : id < tree.scopes.size := by
  by_cases there : id < tree.scopes.size
  · exact there
  · simp [scope, Scope.at, Array.getD, there] at above

/-- A scope that is not there is below no other. -/
theorem root_of_not_there (tree : ScopeTree) {id : Nat} (outside : tree.scopes.size ≤ id) :
    tree.root id = id := by
  apply tree.root_of_top
  cases above : (tree.scope id).parent with
  | none => rfl
  | some p => exact absurd (tree.lt_size_of_parent above) (Nat.not_lt.mpr outside)

/-- A world into which no new scope has come is still what it was. -/
theorem Changes.same_world {base : Nat} {s t : ScopeTree} (changes : Changes base top s t)
    (old : top < base) (none : ∀ id, base ≤ id → t.root id ≠ top) : SameWorld top s t := by
  induction changes with
  | still same _ => exact same
  | own scope new own writes =>
      rw [← writes.same_shape.root] at own
      exact absurd own (none scope new)
  | @andThen s t u first second ih ih' =>
      have none' : ∀ id, base ≤ id → t.root id ≠ top := by
        intro id new
        by_cases there : id < t.scopes.size
        · rw [← second.grown.root id there]
          exact none id new
        · rw [t.root_of_not_there (Nat.not_lt.mp there)]
          exact Nat.ne_of_gt (Nat.lt_of_lt_of_le old new)
      exact (ih none').trans first.grown (ih' none)

/-! Scopes below old ones. -/

/-- What hangs below the scopes from before is the scope of a function, and none hangs below
the scopes that no functions are made in. -/
def HangsByCalls (base home : Nat) (tree : ScopeTree) : Prop :=
  ∀ id p, base ≤ id → (tree.scope id).parent = some p →
    home ≤ p ∧ (p < base → (tree.scope id).kind = .function)

variable {base home : Nat}

theorem HangsByCalls.of_same_shape (hangs : tree.HangsByCalls base home)
    (same : tree.SameShape after) : after.HangsByCalls base home := by
  intro id p new above
  rw [same.parent] at above
  rw [same.kind]
  exact hangs id p new above

theorem HangsByCalls.pushScope (hangs : tree.HangsByCalls base home) (parent : Option Nat)
    (kind : ScopeKind) (there : ∀ p ∈ parent, p < tree.scopes.size)
    (hung : ∀ p, parent = some p → home ≤ p ∧ (p < base → kind = .function)) :
    (tree.pushScope parent kind there).HangsByCalls base home := by
  intro id p new above
  rw [scope_pushScope] at above ⊢
  split at above
  · rename_i last
    rw [if_pos last]
    exact hung p above
  · rename_i other
    rw [if_neg other]
    exact hangs id p new above

/-- A scope that is not there hangs nowhere. -/
theorem hangs_by_calls_size (tree : ScopeTree) (home : Nat) :
    tree.HangsByCalls tree.scopes.size home := by
  intro id p new above
  exact absurd (tree.lt_size_of_parent above) (Nat.not_lt.mpr new)

/-- Whether a function that was made in a world has been called since there were so many
scopes. -/
def Calls (base top : Nat) (tree : ScopeTree) : Prop :=
  ∃ id p, base ≤ id ∧ (tree.scope id).kind = .function ∧ (tree.scope id).parent = some p ∧
    p < base ∧ tree.root p = top

/-- A world grows by calls of functions that were made there. -/
theorem HangsByCalls.calls (hangs : tree.HangsByCalls base home) (old : top < base) {id : Nat}
    (new : base ≤ id) (below : tree.root id = top) : tree.Calls base top := by
  induction id using tree.upward with
  | step id ih =>
      cases above : (tree.scope id).parent with
      | none =>
          -- a root is of its own world only
          rw [tree.root_of_top above] at below
          exact absurd (below ▸ new) (Nat.not_le.mpr old)
      | some p =>
          rw [tree.root_of_parent above] at below
          by_cases before : p < base
          · exact ⟨id, p, new, (hangs id p new above).2 before, above, before, below⟩
          · exact ih p above (Nat.not_lt.mp before) below

/-- A world in which only statements in new scopes are carried out stays the same, unless a
function that was made there is called. -/
theorem Changes.calls_or_same {s t : ScopeTree} (changes : Changes base top s t)
    (hangs : t.HangsByCalls base home) (old : top < base) :
    t.Calls base top ∨ SameWorld top s t := by
  by_cases called : t.Calls base top
  · exact .inl called
  · exact .inr (changes.same_world old fun id new below => called (hangs.calls old new below))

end ScopeTree

open ScopeTree

/-! What chains of changes do to worlds. -/

section

variable {terms : Terms} {base top : Nat} {part : Part} {s t : State}

theorem apart_of_chain (chain : Chain terms base part s t) (apart : s.scopes.Apart) :
    t.scopes.Apart := by
  induction chain with
  | none s => exact apart
  | andThen _ _ first second => exact second (first apart)
  | data scopes _ _ _ => exact scopes ▸ apart
  | root s entries => exact (apart.pushScope none .global (by simp)).defineAll _ entries
  | child s parent kind entries =>
      exact (apart.pushScope _ kind (s.scopes.lt_size_of_known parent)).defineAll _ entries
  | rebound s scope name v => exact apart.define scope name v
  | assign s scope name v => exact apart.assign scope name v
  | marked s m => exact apart
  | share s scope name => exact apart.share scope name
  | declare s scope name first? => exact apart.declare _ name first?
  | inFile s t file _ inner => exact inner apart
  | inCall s t _ inner => exact inner apart
  | broken s t path _ _ _ _ inner => exact inner apart
  | loaded s t path _ _ _ heap place _ inner => exact inner apart
  | imported s path v => exact apart
  | native s name v => exact apart
  | opened s name _ _ heap v => exact apart
  | took s loop event rest => exact apart
  | handled loop _ inner => exact inner apart
  | whileRunning s t loop _ _ _ inner => exact inner apart

theorem hangs_by_calls_of_chain (chain : Chain terms base part s t)
    (hangs : s.scopes.HangsByCalls base terms.home) :
    t.scopes.HangsByCalls base terms.home := by
  induction chain with
  | none s => exact hangs
  | andThen _ _ first second => exact second (first hangs)
  | data scopes _ _ _ => exact scopes ▸ hangs
  | root s entries =>
      exact (hangs.pushScope none .global (by simp) (by simp)).of_same_shape
        (same_shape_defineAll _ _ entries)
  | child s parent kind entries inside inner hung =>
      refine (hangs.pushScope _ kind (s.scopes.lt_size_of_known parent) ?_).of_same_shape
        (same_shape_defineAll _ _ entries)
      intro p known
      obtain ⟨_, rfl⟩ := (s.scopes.known?_eq_some parent p).mp known
      refine ⟨hung, fun old => ?_⟩
      cases kind with
      | global => exact absurd rfl inner
      | function => rfl
      | block => exact absurd (inside rfl) (Nat.not_le_of_lt old)
  | rebound s scope name v => exact hangs.of_same_shape (s.scopes.same_shape_define scope name v)
  | assign s scope name v => exact hangs.of_same_shape (s.scopes.same_shape_assign scope name v)
  | marked s m => exact hangs
  | share s scope name => exact hangs.of_same_shape (s.scopes.same_shape_share scope name)
  | declare s scope name first? =>
      exact hangs.of_same_shape (s.scopes.same_shape_declare _ name first?)
  | inFile s t file _ inner => exact inner hangs
  | inCall s t _ inner => exact inner hangs
  | broken s t path _ _ _ _ inner => exact inner hangs
  | loaded s t path _ _ _ heap place _ inner => exact inner hangs
  | imported s path v => exact hangs
  | native s name v => exact hangs
  | opened s name _ _ heap v => exact hangs
  | took s loop event rest => exact hangs
  | handled loop _ inner => exact inner hangs
  | whileRunning s t loop _ _ _ inner => exact inner hangs

theorem changes_of_chain (chain : Chain terms base part s t) (apart : s.scopes.Apart)
    (room : base ≤ s.scopes.scopes.size) : Changes base top s.scopes t.scopes := by
  induction chain with
  | none s => exact changes_refl s.scopes
  | andThen first _ ih ih' =>
      have grown := (effect_grows first).scopes.size
      exact .andThen (ih apart room) (ih' (apart_of_chain first apart) (Nat.le_trans room grown))
  | data scopes _ _ _ => exact scopes ▸ changes_refl _
  | root s entries =>
      have pushed : Changes base top s.scopes s.scopes.newRoot.2 :=
        changes_pushScope s.scopes none .global (by simp)
      exact pushed.andThen (changes_defineAll (apart.pushScope none .global (by simp)) room entries)
  | child s parent kind entries =>
      have there := s.scopes.lt_size_of_known parent
      have pushed : Changes base top s.scopes (s.scopes.child parent kind).2 :=
        changes_pushScope s.scopes _ kind there
      exact pushed.andThen (changes_defineAll (apart.pushScope _ kind there) room entries)
  | rebound s scope name v inside => exact changes_of_writes apart inside (.define name v)
  | assign s scope name v inside => exact changes_of_writes apart inside (.assign name v)
  | marked s m => exact changes_refl s.scopes
  | share s scope name inside => exact changes_of_writes apart inside (.share name)
  | declare s scope name first? inside =>
      exact changes_of_writes apart inside (.declare name first?)
  | inFile s t file _ inner => exact inner apart room
  | inCall s t _ inner => exact inner apart room
  | broken s t path _ _ _ _ inner => exact inner apart room
  | loaded s t path _ _ _ heap place _ inner => exact inner apart room
  | imported s path v => exact changes_refl s.scopes
  | native s name v => exact changes_refl s.scopes
  | opened s name _ _ heap v => exact changes_refl s.scopes
  | took s loop event rest => exact changes_refl s.scopes
  | handled loop _ inner => exact inner apart room
  | whileRunning s t loop _ _ _ inner => exact inner apart room

end

end Loom
