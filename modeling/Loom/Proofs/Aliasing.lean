import Loom.Proofs.Exits
import Loom.Proofs.Noted

/-!
A `use` makes one variable of two names. From where a function has taken a name
of the scopes around it until its call ends, the name means in the function the
very variable that it means around it.

What could part the two is a binding made anew, in the scope of the function or
on the way up from it. While the call is active, statements are carried out in
scopes that were made since it began, so they bind nothing in the older ones but
new names of a root; and in its own scope only a definition binds a name that is
bound there already.
-/

namespace Loom

namespace ScopeTree

/-- A name of a scope means the variable that it means to the scopes around it. -/
structure Aliased (tree : ScopeTree) (scope : Nat) (name : Text) (cell : Nat) : Prop where
  own : tree.localCell? scope name = some cell
  outer : ∀ p, (tree.scope scope).parent = some p → tree.lookup? p name = some cell

variable {tree after : ScopeTree} {scope cell : Nat} {name : Text}

theorem Aliased.of_kept (aliased : tree.Aliased scope name cell) (grown : tree.Extends after)
    (there : scope < tree.scopes.size)
    (kept : ∀ other ≤ scope, after.localCell? other name = tree.localCell? other name) :
    after.Aliased scope name cell := by
  constructor
  · rw [kept scope (Nat.le_refl _)]
    exact aliased.own
  · intro p above
    rw [grown.parent scope there] at above
    have small := tree.below scope p above
    rw [grown.lookup? name p (by omega) (fun other low => kept other (by omega))]
    exact aliased.outer p above

theorem Aliased.define_top (aliased : tree.Aliased scope name cell) (top : Nat) (label : Text)
    (v : Value) (highest : (tree.scope top).parent = none)
    (unbound : tree.localCell? top label = none) :
    (tree.define top label v).Aliased scope name cell := by
  constructor
  · rw [localCell?_define, if_neg]
    · exact aliased.own
    · rintro ⟨rfl, _, rfl⟩
      have bound := aliased.own
      rw [unbound] at bound
      cases bound
  · intro p above
    rw [(tree.same_shape_define top label v).parent] at above
    exact tree.lookup?_define_top top label v highest unbound name p cell (aliased.outer p above)

/-- Blocks from a scope on hang below scopes from it on. -/
def BlocksFrom (base : Nat) (tree : ScopeTree) : Prop :=
  ∀ id p, base ≤ id → tree.isBlock id = true → (tree.scope id).parent = some p → base ≤ p

theorem BlocksFrom.of_same_shape {base : Nat} (blocks : BlocksFrom base tree)
    (same : tree.SameShape after) : BlocksFrom base after := by
  intro id p new block above
  simp only [isBlock, same.kind] at block
  rw [same.parent] at above
  exact blocks id p new block above

theorem BlocksFrom.pushScope {base : Nat} (blocks : BlocksFrom base tree) (parent : Option Nat)
    (kind : ScopeKind) (there : ∀ p ∈ parent, p < tree.scopes.size)
    (inside : kind = .block → ∀ p, parent = some p → base ≤ p) :
    BlocksFrom base (tree.pushScope parent kind there) := by
  intro id p new block above
  simp only [isBlock, scope_pushScope] at block
  rw [scope_pushScope] at above
  by_cases last : id = tree.scopes.size
  · rw [if_pos last] at block above
    exact inside (by simpa using block) p above
  · rw [if_neg last] at block above
    exact blocks id p new block above

theorem BlocksFrom.owner {base : Nat} (blocks : BlocksFrom base tree) (id : Nat)
    (inside : base ≤ id) : base ≤ tree.owner id := by
  induction id using tree.upward with
  | step id ih =>
      rcases tree.owner_cases id with same | ⟨p, block, above, same⟩
      · rw [same]
        exact inside
      · rw [same]
        exact ih p above (blocks id p inside block above)

/-! A `use`. -/

/-- A `use` that goes through makes the name mean in the owner what it means around
it: the variable of the nearest binding, or a new one of the root that holds null. -/
theorem aliased_share (tree : ScopeTree) (id : Nat) (name : Text)
    (there : tree.owner id < tree.scopes.size) :
    (tree.share id name).Aliased (tree.owner id) name
      ((tree.outerCell? id name).getD tree.cells.size) := by
  have shape := tree.same_shape_share id name
  cases outer : tree.outerCell? id name with
  | some cell =>
      have bindings := tree.localCell?_share_of_outer id name cell outer
      constructor
      · rw [bindings, if_pos ⟨rfl, there, rfl⟩]
        rfl
      · intro p above
        rw [shape.parent] at above
        have small := tree.below _ p above
        rw [outerCell?_of_parent above] at outer
        rw [shape.extends.lookup? name p (by omega), outer]
        · rfl
        · intro other low
          rw [bindings, if_neg (fun here => by omega)]
  | none =>
      have bindings := tree.localCell?_share_of_none id name outer
      constructor
      · rw [bindings, if_pos ⟨rfl, there, rfl⟩]
        rfl
      · intro p above
        rw [shape.parent] at above
        have small := tree.below _ p above
        rw [outerCell?_of_parent above] at outer
        -- the owner itself is not on the way up from the scope above it
        have grown := ((tree.same_shape_define (tree.root id) name .null).symm.trans shape).extends
        rw [grown.lookup? name p (by simp; omega), ← tree.root_owner id, tree.root_of_parent above]
        · exact tree.lookup?_define_root name .null p (by omega) outer
        · intro other low
          rw [bindings, if_neg (fun here => by omega)]

/-- A name that means nothing outside becomes a variable of the root that holds null. -/
theorem created_share (tree : ScopeTree) (id : Nat) (name : Text)
    (there : tree.owner id < tree.scopes.size) (outer : tree.outerCell? id name = none) :
    (tree.share id name).localCell? (tree.root id) name = some tree.cells.size ∧
      (tree.share id name).read tree.cells.size = .null := by
  have low : tree.root id ≤ tree.owner id := by
    rw [← tree.root_owner id]
    exact tree.root_le (tree.owner id)
  constructor
  · rw [localCell?_share_of_none tree id name outer]
    split
    · rfl
    · rw [localCell?_define, if_pos ⟨rfl, Nat.lt_of_le_of_lt low there, rfl⟩]
  · unfold ScopeTree.share
    split
    · rename_i found
      rw [outer] at found
      cases found
    · simp [read, define, bind, pushCell]

theorem Aliased.share (aliased : tree.Aliased scope name cell) (id : Nat) (label : Text)
    (there : scope < tree.scopes.size) (free : tree.hidesOuter id label = false)
    (inside : scope ≤ tree.owner id) (differ : scope = tree.owner id → name ≠ label) :
    (tree.share id label).Aliased scope name cell := by
  have shape := tree.same_shape_share id label
  have apart : ∀ other ≤ scope, ¬ (other = tree.owner id ∧ tree.owner id < tree.scopes.size ∧
      name = label) := by
    rintro other low ⟨same, _, named⟩
    exact differ (by omega) named
  cases outer : tree.outerCell? id label with
  | some found =>
      apply aliased.of_kept shape.extends there
      intro other low
      rw [tree.localCell?_share_of_outer id label found outer, if_neg (apart other low)]
  | none =>
      have defined := aliased.define_top (tree.root id) label .null (tree.parent_root id)
        (unbound_of_free free outer)
      have grown := ((tree.same_shape_define (tree.root id) label .null).symm.trans shape).extends
      apply defined.of_kept grown (by simpa using there)
      intro other low
      rw [tree.localCell?_share_of_none id label outer, if_neg (apart other low)]

/-! Other changes. -/

theorem Aliased.define_later (aliased : tree.Aliased scope name cell) (id : Nat) (label : Text)
    (v : Value) (there : scope < tree.scopes.size) (inside : scope ≤ id)
    (differ : scope = id → name ≠ label) : (tree.define id label v).Aliased scope name cell := by
  apply aliased.of_kept (tree.same_shape_define id label v).extends there
  intro other low
  rw [localCell?_define, if_neg]
  rintro ⟨same, _, named⟩
  exact differ (by omega) named

theorem Aliased.assign (aliased : tree.Aliased scope name cell) (id : Nat) (label : Text)
    (v : Value) (there : scope < tree.scopes.size) (inside : scope ≤ tree.owner id) :
    (tree.assign id label v).Aliased scope name cell := by
  apply aliased.of_kept (tree.same_shape_assign id label v).extends there
  intro other low
  rcases tree.localCell?_assign id label v other name with same | ⟨unbound, here, _, _⟩
  · exact same
  · -- the owner had no variable of the name, but the function has
    have same : other = scope := by omega
    rw [same, aliased.own] at unbound
    cases unbound

theorem Aliased.declare (aliased : tree.Aliased scope name cell) (id : Nat) (label : Text)
    (first? : Option Value) (there : scope < tree.scopes.size) (inside : scope ≤ id) :
    (tree.declare id label first?).2.Aliased scope name cell := by
  apply aliased.of_kept (tree.same_shape_declare id label first?).extends there
  intro other low
  rw [localCell?_declare]
  split
  · rename_i missing
    rw [localCell?_define, if_neg]
    rintro ⟨same, _, rfl⟩
    have here : id = scope := by omega
    rw [here, tree.lookup?_of_local aliased.own] at missing
    cases missing
  · rfl

/-! What is written through one of the names is read through the other. -/

/-- Where an assignment in a scope writes to, unless it makes a new variable. -/
def target? (tree : ScopeTree) (id : Nat) (name : Text) : Option Nat :=
  (tree.reach (tree.chain id)).findSome? (fun s => tree.localCell? s name)

theorem get?_assign {id other : Nat} (v : Value) (written : tree.target? id name = some cell)
    (found : tree.lookup? other name = some cell) :
    (tree.assign id name v).get? other name = some v := by
  have inside := (tree.takes_of_lookup? other name cell found).1
  simp only [target?] at written
  simp only [ScopeTree.assign, written]
  rw [get?, lookup?_write, found]
  simp [read, write, inside]

theorem Aliased.target (aliased : tree.Aliased scope name cell) :
    tree.target? scope name = some cell := by
  obtain ⟨rest, reached⟩ := tree.reach_eq_cons scope
  simp only [target?, reached, List.findSome?_cons, aliased.own]

theorem lookup?_above (id : Nat) (found : tree.lookup? id name = some cell) :
    ∀ q ∈ tree.chain id, (∀ r ∈ tree.chain id, q < r → tree.localCell? r name = none) →
      tree.lookup? q name = some cell := by
  induction id using tree.upward with
  | step id ih =>
      intro q member nearer
      cases above : (tree.scope id).parent with
      | none =>
          rw [tree.chain_of_top above, List.mem_singleton] at member
          exact member ▸ found
      | some p =>
          have small := tree.below id p above
          rw [tree.chain_of_parent above] at member nearer
          rcases List.mem_cons.mp member with rfl | further
          · exact found
          · have low := tree.le_of_mem_chain p q further
            rw [lookup?_eq, nearer id (.head _) (by omega), above] at found
            exact ih p above found q further (fun r reached => nearer r (.tail _ reached))

end ScopeTree

open ScopeTree

/-! Chains of changes. -/

variable {base : Nat} {s t : State}

namespace State

/-- The uses that are known of took names of scopes that are there. -/
def Taken (s : State) : Prop :=
  ∀ scope name, .aliased scope name ∈ s.bindings → scope < s.scopes.scopes.size

theorem Taken.after (known : s.Taken) (grown : s.scopes.Extends t.scopes)
    (uses : ∀ scope name, .aliased scope name ∈ t.bindings →
      .aliased scope name ∈ s.bindings ∨ scope < s.scopes.scopes.size) : t.Taken := by
  intro scope name taken
  exact Nat.lt_of_lt_of_le ((uses scope name taken).elim (known scope name) id) grown.size

theorem Taken.of_same (known : s.Taken) (grown : s.scopes.Extends t.scopes)
    (same : t.bindings = s.bindings) : t.Taken :=
  known.after grown (fun _ _ taken => .inl (same ▸ taken))

theorem Taken.of_scopes (known : s.Taken) (scopes : t.scopes = s.scopes)
    (same : t.bindings = s.bindings) : t.Taken :=
  known.of_same (scopes ▸ ScopeTree.extends_refl _) same

/-- What is known of names is known of scopes that are there: a use took a name of such a
scope, and an import has bound one in a global scope. -/
structure Recorded (s : State) : Prop where
  uses : ∀ scope name, .aliased scope name ∈ s.bindings → scope < s.scopes.scopes.size
  imports : ∀ scope name, .imported scope name ∈ s.bindings →
    (s.scopes.scope scope).kind = .global

theorem Recorded.of_same (known : s.Recorded) (grown : s.scopes.Extends t.scopes)
    (same : t.bindings = s.bindings) : t.Recorded where
  uses := Taken.of_same known.uses grown same
  imports scope name bound := grown.global (known.imports scope name (same ▸ bound))

theorem Recorded.of_scopes (known : s.Recorded) (scopes : t.scopes = s.scopes)
    (same : t.bindings = s.bindings) : t.Recorded :=
  known.of_same (scopes ▸ ScopeTree.extends_refl _) same

theorem mem_bindings_sharing {scope : Nat} {name : Text} {id : Nat} {label : Text}
    (taken : .aliased id label ∈ (s.sharing scope name).bindings) :
    (id = s.scopes.owner scope ∧ s.scopes.owner scope < s.scopes.scopes.size ∧ label = name) ∨
      .aliased id label ∈ s.bindings := by
  rcases List.mem_append.mp taken with new | old
  · simp only [List.mem_map, Option.mem_toList, known?_eq_some, Binding.aliased.injEq] at new
    obtain ⟨owner, ⟨there, rfl⟩, rfl, rfl⟩ := new
    exact .inl ⟨rfl, there, rfl⟩
  · exact .inr old

theorem mem_bindings_rebinding {atTop : Prop} {scope : Nat} {name : Text} {v : Value} {b : Binding}
    (how : Rebinds atTop s scope name b) {id : Nat} {label : Text}
    (taken : .aliased id label ∈ (s.rebinding scope name v b).bindings) :
    .aliased id label ∈ s.bindings := by
  rcases List.mem_cons.mp taken with new | old
  · subst new
    cases how
  · exact old

theorem mem_bindings_declaring {scope : Nat} {name : Text} {first? : Option Value} {id : Nat}
    {label : Text} (taken : .aliased id label ∈ (s.declaring scope name first?).bindings) :
    .aliased id label ∈ s.bindings := by
  rcases List.mem_cons.mp taken with new | old
  · cases new
  · exact old

theorem Taken.sharing (known : s.Taken) (scope : Nat) (name : Text) :
    (s.sharing scope name).Taken := by
  apply known.after (s.grows_sharing scope name).scopes
  intro id label taken
  rcases mem_bindings_sharing taken with ⟨rfl, there, _⟩ | old
  · exact .inr there
  · exact .inl old

theorem taken_of_chain {terms : Terms} {part : Part} (chain : Chain terms base part s t)
    (known : s.Taken) : t.Taken := by
  apply noted_of_chain _ _ _ _ chain known
  · exact fun s t keeps same known => known.of_same keeps.grown same
  · exact fun s scope name v b how known => known.after (s.grows_rebinding scope name v b).scopes
      (fun _ _ taken => .inl (mem_bindings_rebinding how taken))
  · exact fun s scope name known => known.sharing scope name
  · exact fun s scope name first? _ known =>
    known.after (s.grows_declaring scope name first?).scopes
      (fun _ _ taken => .inl (mem_bindings_declaring taken))

theorem recorded_of_chain {terms : Terms} {part : Part} (chain : Chain terms base part s t)
    (asked : terms.atTop) (known : s.Recorded) : t.Recorded := by
  refine ⟨taken_of_chain chain known.uses, ?_⟩
  apply noted_of_chain _ _ _ _ chain known.imports
  · intro s t keeps same imports id label bound
    exact keeps.grown.global (imports id label (same ▸ bound))
  · intro s scope name v b how imports id label bound
    apply (s.grows_rebinding scope name v b).scopes.global
    rcases List.mem_cons.mp bound with new | old
    · subst new
      cases how with
      | imported top => exact top asked
    · exact imports id label old
  · intro s scope name imports id label bound
    apply (s.grows_sharing scope name).scopes.global
    rcases List.mem_append.mp bound with new | old
    · simp at new
    · exact imports id label old
  · intro s scope name first? _ imports id label bound
    apply (s.grows_declaring scope name first?).scopes.global
    rcases List.mem_cons.mp bound with new | old
    · cases new
    · exact imports id label old

end State

/-- A statement has bound a name of a scope anew. -/
def Binding.Rebound (bindings : List Binding) (scope : Nat) (name : Text) : Prop :=
  .defined scope name ∈ bindings ∨ .imported scope name ∈ bindings

theorem Binding.Rebound.later {bindings more : List Binding} {scope : Nat} {name : Text}
    (rebound : Rebound bindings scope name) (grows : bindings <:+ more) :
    Rebound more scope name :=
  rebound.imp (fun hit => grows.subset hit) (fun hit => grows.subset hit)

theorem Rebinds.rebound {atTop : Prop} {scope : Nat} {name : Text} {b : Binding}
    (how : Rebinds atTop s scope name b) (bindings : List Binding) :
    Binding.Rebound (b :: bindings) scope name := by
  cases how with
  | defined => exact .inl (.head _)
  | imported top => exact .inr (.head _)

/-- What holds while a call is active whose scope is `base`: a name of it that a use
has taken means there what it means outside, unless a statement has bound it anew there. -/
structure State.Aliasing (base : Nat) (s : State) : Prop where
  blocks : BlocksFrom base s.scopes
  aliases : ∀ name, .aliased base name ∈ s.bindings →
    ¬ Binding.Rebound s.bindings base name → ∃ cell, s.scopes.Aliased base name cell

namespace State

theorem Aliasing.after (kept : s.Aliasing base) (known : s.Taken)
    (more : s.bindings <:+ t.bindings)
    (old : ∀ scope name, .aliased scope name ∈ t.bindings → .aliased scope name ∈ s.bindings)
    (blocks : BlocksFrom base t.scopes)
    (step : ∀ name cell, base < s.scopes.scopes.size → ¬ Binding.Rebound t.bindings base name →
      s.scopes.Aliased base name cell → t.scopes.Aliased base name cell) : t.Aliasing base := by
  constructor
  · exact blocks
  · intro name taken unbound
    have there := known base name (old base name taken)
    have unbound' : ¬ Binding.Rebound s.bindings base name :=
      fun rebound => unbound (rebound.later more)
    obtain ⟨cell, aliased⟩ := kept.aliases name (old base name taken) unbound'
    exact ⟨cell, step name cell there unbound aliased⟩

theorem Aliasing.of_same (kept : s.Aliasing base) (scopes : t.scopes = s.scopes)
    (bindings : t.bindings = s.bindings) : t.Aliasing base := by
  constructor
  · rw [scopes]
    exact kept.blocks
  · rw [scopes, bindings]
    exact kept.aliases

theorem Aliasing.pushed (kept : s.Aliasing base) (known : s.Taken) (parent : Option Nat)
    (kind : ScopeKind) (there : ∀ p ∈ parent, p < s.scopes.scopes.size)
    (entries : List (Text × Value)) (inside : kind = .block → ∀ p, parent = some p → base ≤ p) :
    Aliasing base { s with
      scopes :=
        (s.scopes.pushScope parent kind there).defineAll s.scopes.scopes.size entries } := by
  have shape := (s.scopes.pushScope parent kind there).same_shape_defineAll
    s.scopes.scopes.size entries
  have grown := (s.scopes.extends_pushScope parent kind there).trans shape.extends
  apply kept.after known
  · exact List.suffix_refl _
  · exact fun _ _ taken => taken
  · exact (kept.blocks.pushScope parent kind there inside).of_same_shape shape
  · intro name cell present _ aliased
    apply aliased.of_kept grown present
    intro other low
    rw [localCell?_defineAll_of_ne _ _ entries other (by omega), localCell?_pushScope]

theorem Aliasing.sharing (kept : s.Aliasing base) (known : s.Taken) {scope : Nat}
    (inside : base ≤ scope) (name : Text) (free : s.scopes.hidesOuter scope name = false) :
    (s.sharing scope name).Aliasing base := by
  have owned := kept.blocks.owner scope inside
  constructor
  · exact kept.blocks.of_same_shape (s.scopes.same_shape_share scope name)
  · intro label taken unbound
    by_cases here : base = s.scopes.owner scope ∧ s.scopes.owner scope < s.scopes.scopes.size ∧
        label = name
    · obtain ⟨rfl, there, rfl⟩ := here
      exact ⟨_, s.scopes.aliased_share scope label there⟩
    · have old := (mem_bindings_sharing taken).resolve_left here
      have there := known base label old
      have unbound' : ¬ Binding.Rebound s.bindings base label :=
        fun rebound => unbound (rebound.later (s.grows_sharing scope name).bindings)
      obtain ⟨cell, aliased⟩ := kept.aliases label old unbound'
      refine ⟨cell, aliased.share scope name there free owned ?_⟩
      rintro same rfl
      exact here ⟨same, same ▸ there, rfl⟩

end State

/-- What a use has made of names holds until the call ends, whatever is run in
between. -/
theorem aliasing_of_chain {terms : Terms} {part : Part} (chain : Chain terms base part s t)
    (known : s.Taken) (kept : s.Aliasing base) : t.Aliasing base := by
  -- only steps that bind names can undo what a use has made of one
  induction chain with
  | none s => exact kept
  | andThen earlier _ first second =>
      exact second (State.taken_of_chain earlier known) (first known kept)
  | data scopes _ _ sources => exact kept.of_same scopes sources.bindings
  | root s entries => exact kept.pushed known none .global (by simp) entries (by simp)
  | child s parent kind entries inside _ =>
      apply kept.pushed known _ kind (s.scopes.lt_size_of_known parent) entries
      intro block p found
      exact ((s.scopes.known?_eq_some parent p).mp found).2 ▸ inside block
  | rebound s scope name v inside how =>
      apply kept.after known
      · exact List.suffix_cons _ _
      · exact fun _ _ taken => State.mem_bindings_rebinding how taken
      · exact kept.blocks.of_same_shape (s.scopes.same_shape_define scope name v)
      · intro label cell there unbound aliased
        apply aliased.define_later scope name v there inside
        rintro rfl rfl
        exact unbound (how.rebound _)
  | assign s scope name v inside =>
      apply kept.after known
      · exact List.suffix_refl _
      · exact fun _ _ taken => taken
      · exact kept.blocks.of_same_shape (s.scopes.same_shape_assign scope name v)
      · intro label cell there _ aliased
        exact aliased.assign scope name v there (kept.blocks.owner scope inside)
  | marked s m _ => exact kept.of_same rfl rfl
  | share s scope name inside free => exact kept.sharing known inside name free
  | declare s scope name first? inside _ =>
      apply kept.after known
      · exact (s.grows_declaring scope name first?).bindings
      · exact fun _ _ => State.mem_bindings_declaring
      · exact kept.blocks.of_same_shape (s.scopes.same_shape_declare _ name first?)
      · intro label cell there _ aliased
        exact aliased.declare _ name first? there (kept.blocks.owner scope inside)
  | inFile s t file _ inner =>
      exact (inner (known.of_scopes rfl rfl) (kept.of_same rfl rfl)).of_same rfl rfl
  | inCall s t _ inner =>
      exact (inner (known.of_scopes rfl rfl) (kept.of_same rfl rfl)).of_same rfl rfl
  | broken s t path _ _ _ _ inner =>
      exact (inner (known.of_scopes rfl rfl) (kept.of_same rfl rfl)).of_same rfl rfl
  | loaded s t path _ _ _ heap place _ inner =>
      exact (inner (known.of_scopes rfl rfl) (kept.of_same rfl rfl)).of_same rfl rfl
  | imported s path v _ => exact kept.of_same rfl rfl
  | native s name v => exact kept.of_same rfl rfl
  | opened s name _ _ heap v => exact kept.of_same rfl rfl
  | took s loop event rest _ => exact kept.of_same rfl rfl
  | handled loop _ inner => exact inner known kept
  | whileRunning s t loop _ _ _ inner =>
      exact (inner (known.of_scopes rfl rfl) (kept.of_same rfl rfl)).of_same rfl rfl

/-! Calls. -/

theorem ScopeTree.blocks_from_size (tree : ScopeTree) : BlocksFrom tree.scopes.size tree := by
  intro id p new block
  simp [isBlock, scope, Scope.at, Array.getD, Nat.not_lt.mpr new] at block

theorem State.Taken.aliasing (known : s.Taken) : s.Aliasing s.scopes.scopes.size :=
  ⟨s.scopes.blocks_from_size, fun name taken => absurd (known _ name taken) (Nat.lt_irrefl _)⟩

namespace Discipline

open Eval Interpreter

/-- The discipline of programs that are read from texts, which have their imports at the
top. -/
def reading : Discipline :=
  { placed with
    terms := ⟨fun _ => True, fun _ => True, fun _ _ => True, True, 0⟩
    starts := fun _ => trivial
    atTop := by simp [placed] }

theorem admits_reading (host : Host) : reading.Admits host :=
  ⟨fun _ _ _ _ _ => trivial, fun _ _ => trivial, fun _ _ _ _ => trivial⟩

theorem obeys_reading (watch : State → Bool) (alarm : HostFault) (host : Host) (fuel : Nat) :
    (Machine.watched watch (.failed (.host alarm)) host fuel).Obeys reading base := by
  apply obeys_watched (admits_reading host) (Nat.zero_le _) _ fuel
  -- an alarm is no fault of a program
  exact fun _ _ _ _ => trivial

end Discipline

open Discipline Eval Interpreter

structure State.IsRead (s : State) : Prop where
  ready : reading.Ready 0 s
  recorded : s.Recorded

theorem State.Recorded.renewed (known : s.Recorded) : (withNewGlobals s).Recorded := by
  obtain ⟨entries, made⟩ := withNewGlobals_run s
  rw [made]
  exact known.of_same (s.grows_rooted entries).scopes rfl

theorem is_read_serveAll (watch : State → Bool) (alarm : HostFault) (host : Host) (fuel : Nat)
    (events : List HostEvent) (requests : List Request)
    (read : ∀ request ∈ requests, request.IsRead) :
    ((Interpreter.new host events).serveAll
      (fun host => .watched watch (.failed (.host alarm)) host fuel) requests).2.state.IsRead := by
  have blank : (blankState events).Recorded := by constructor <;> simp [blankState]
  have kept : reading.Kept (Interpreter.new host events) :=
    kept_new (admits_reading host) (fun _ => trivial) events
  have serves : reading.Serves (fun host => .watched watch (.failed (.host alarm)) host fuel) :=
    fun host _ => obeys_reading watch alarm host fuel
  have placed : ∀ request ∈ requests, request.Placed true :=
    fun request member => request.placed_of_is_read (read request member)
  constructor
  · exact (allows_serveAll serves requests kept placed).2.2.1.ready
  · apply holds_serveAll serves (fun _ _ chain => State.recorded_of_chain chain trivial)
      (fun _ _ known => known.of_scopes rfl rfl) requests _ kept placed blank.renewed
    -- what a reset forgets besides is no part of what is recorded
    exact fun _ i _ known => known.renewed.of_scopes rfl rfl

theorem after_callFunction (m : Machine) (f : Closure) (args : List Value) (name : Text)
    (s : State) :
    after (callFunction m f args name) s = s ∨
      after (callFunction m f args name) s =
        after (activate m f name s.scopes.scopes.size)
          (s.nested f.scope .function (f.procedure.params.zip args)) := by
  have ran := callFunction_run m f args name s
  split at ran
  · exact .inl (by rw [after, ran]; rfl)
  · split at ran
    · exact .inl (by rw [after, ran]; rfl)
    · split at ran
      · exact .inl (by rw [after, ran]; rfl)
      · exact .inr (by rw [after, ran]; rfl)

theorem scope_of_call {d : Discipline} {m : Machine} {f : Closure} {args : List Value} (name : Text)
    (obeys : m.Obeys d s.scopes.scopes.size) (placed : f.procedure.Placed d.strict)
    (ready : d.Ready s.scopes.scopes.size s) (fine : ∀ v ∈ args, d.Fine s v)
    (made : s.scopes.scopes.size < (after (callFunction m f args name) s).scopes.scopes.size)
    (any : ∀ n, d.depth n := by exact fun _ => trivial) :
    let scope := (after (callFunction m f args name) s).scopes.scope s.scopes.scopes.size
    scope.kind = .function ∧ scope.parent = s.scopes.known? f.scope := by
  rcases after_callFunction m f args name s with same | same
  · rw [same] at made
    exact absurd made (Nat.lt_irrefl _)
  · have given : ∀ entry ∈ f.procedure.params.zip args, d.Fine s entry.2 :=
      fun entry member => fine entry.2 (List.of_mem_zip member).2
    have entered := ready.nested f.scope .function given
    have activated : d.Ensures s.scopes.scopes.size
        (s.nested f.scope .function (f.procedure.params.zip args))
        (activate m f name s.scopes.scopes.size) d.Fine :=
      ensures_activate (obeys_within any obeys _) (Nat.lt_succ_self s.depth) placed
        (Nat.le_refl _)
    have ran := kept_of_ensures activated entered
    have grown := (effect_grows ran.1).scopes
    have there : s.scopes.scopes.size <
        (s.nested f.scope .function (f.procedure.params.zip args)).scopes.scopes.size := by
      simp [State.nested, ScopeTree.child]
    obtain ⟨kind, parent⟩ := s.scope_nested f.scope .function (f.procedure.params.zip args)
    rw [same]
    exact ⟨(grown.kind _ there).trans kind, (grown.parent _ there).trans parent⟩

/-- A `use` that goes through is known of from then on, and has made one variable of the
name in the owner and the name around it. -/
theorem aliased_shareOuter {scope : Nat} {name : Text}
    (there : s.scopes.owner scope < s.scopes.scopes.size)
    (shared : Eval.shareOuter scope name s = .ok () t) :
    .aliased (s.scopes.owner scope) name ∈ t.bindings ∧ t.scopes = s.scopes.share scope name := by
  simp only [shareOuter_eq, mark, modify_bind_run, get_bind_run] at shared
  split at shared
  · cases shared
  · cases shared
    have known : s.scopes.known? (s.scopes.owner scope) = some (s.scopes.owner scope) :=
      (s.scopes.known?_eq_some _ _).mpr ⟨there, rfl⟩
    exact ⟨by simp [known], rfl⟩

/-- A `use` aliases one variable for the whole call. In every session of programs that are
read from texts, at every point of it, the states are sound; from such a state a `use` that
goes through makes the name mean in the function the variable that the scopes around it
mean by it, the nearest one, or else a new one of the root that holds null; and at every
point of a call, a name that the function has taken and that it does not define itself
still means the one variable that it means around it, so that what is assigned to it in any
scope from which it is reached is what is read in every other. -/
theorem use_aliases_one_variable (watch : State → Bool) (alarm : HostFault) (host : Host)
    (fuel : Nat) :
    (∀ events requests, (∀ request ∈ requests, Request.IsRead request) →
      ((Interpreter.new host events).serveAll
        (fun host => .watched watch (.failed (.host alarm)) host fuel) requests).2.state.IsRead) ∧
    (∀ (s t : State) scope name, s.scopes.owner scope < s.scopes.scopes.size →
      Eval.shareOuter scope name s = .ok () t →
      .aliased (s.scopes.owner scope) name ∈ t.bindings ∧
        t.scopes.Aliased (s.scopes.owner scope) name
          ((s.scopes.outerCell? scope name).getD s.scopes.cells.size) ∧
        (s.scopes.outerCell? scope name = none →
          t.scopes.localCell? (s.scopes.root scope) name = some s.scopes.cells.size ∧
            t.scopes.read s.scopes.cells.size = .null)) ∧
    ∀ (s : State) (f : Closure) args name, s.IsRead → f.procedure.Placed true →
      (∀ v ∈ args, reading.Fine s v) →
      let t := after (callFunction (.watched watch (.failed (.host alarm)) host fuel) f args name) s
      let scope := s.scopes.scopes.size
      t.IsRead ∧
        ∀ n, .aliased scope n ∈ t.bindings → .defined scope n ∉ t.bindings →
          (t.scopes.scope scope).kind = .function ∧
          (t.scopes.scope scope).parent = s.scopes.known? f.scope ∧
          ∃ cell, t.scopes.Aliased scope n cell ∧
            (∀ p, (t.scopes.scope scope).parent = some p → ∀ q ∈ t.scopes.chain p,
              (∀ r ∈ t.scopes.chain p, q < r → t.scopes.localCell? r n = none) →
                t.scopes.lookup? q n = some cell) ∧
            t.scopes.target? scope n = some cell ∧
            ∀ writer reader v, t.scopes.target? writer n = some cell →
              t.scopes.lookup? reader n = some cell →
                (t.scopes.assign writer n v).get? reader n = some v := by
  refine ⟨fun events requests read => is_read_serveAll watch alarm host fuel events requests read,
    ?_, ?_⟩
  · intro s t scope name there shared
    obtain ⟨known, same⟩ := aliased_shareOuter there shared
    rw [same]
    exact ⟨known, s.scopes.aliased_share scope name there, s.scopes.created_share scope name there⟩
  · intro s f args name read placed fine
    dsimp only
    have ready : reading.Ready s.scopes.scopes.size s := ⟨read.ready.held, Nat.le_refl _, trivial⟩
    have obeys : (Machine.watched watch (.failed (.host alarm)) host fuel).Obeys reading
        s.scopes.scopes.size := obeys_reading watch alarm host fuel
    have called : reading.Ensures s.scopes.scopes.size s
        (callFunction (.watched watch (.failed (.host alarm)) host fuel) f args name)
          reading.Fine :=
      ensures_callFunction (obeys_within (fun _ => trivial) obeys _) ⟨placed, Nat.zero_le _⟩ fine
    obtain ⟨effect, ready'⟩ := kept_of_ensures called ready
    have recorded := State.recorded_of_chain effect trivial read.recorded
    have aliasing :=
      aliasing_of_chain effect read.recorded.uses (State.Taken.aliasing read.recorded.uses)
    refine ⟨⟨⟨ready'.held, Nat.zero_le _, trivial⟩, recorded⟩, ?_⟩
    intro n taken undefined
    obtain ⟨kind, parent⟩ :=
      scope_of_call name obeys placed ready fine (recorded.uses _ n taken)
    -- imports bind in global scopes only, and this one is that of a function
    have unbound : ¬ Binding.Rebound
        (after (callFunction (.watched watch (.failed (.host alarm)) host fuel) f args name)
          s).bindings s.scopes.scopes.size n := by
      rintro (defined | imported)
      · exact undefined defined
      · have global := recorded.imports _ n imported
        rw [kind] at global
        cases global
    obtain ⟨cell, aliased⟩ := aliasing.aliases n taken unbound
    refine ⟨kind, parent, cell, aliased, ?_, aliased.target, ?_⟩
    · exact fun p above => lookup?_above p (aliased.outer p above)
    · exact fun writer reader v written found => get?_assign v written found

def callsSetter : Closure :=
  let here : Location := .origin
  let setter : Procedure :=
    ⟨[], [[120]], ⟨[.assign (.ident [120] here) .set (.bool true here) here], here⟩, .unset⟩
  { name := [102]
    procedure :=
      { params := []
        uses := [[120]]
        body :=
          { statements :=
              [.define [103] setter here,
                .call (.ident [103] here) [] here here]
            loc := here }
        site := .unset }
    scope := 0
    file := none }

def bareGlobals : State := { blankState [] with scopes := ScopeTree.empty.newRoot.2 }

theorem is_read_bareGlobals : bareGlobals.IsRead := by
  have blank := ready_blank reading []
  constructor
  · exact ⟨⟨blank.held.cells, blank.held.heap, blank.held.handlers, blank.held.natives,
      blank.held.modules⟩, Nat.zero_le _, trivial⟩
  · constructor <;> simp [bareGlobals, blankState]

def takenTwice (s : State) : Bool := decide (.aliased 2 [120] ∈ s.bindings)

/-- From where the inner function has taken `x`, which is in the call of the outer one, the
outer one still means by it the new global variable. -/
theorem global_taken_in_call :
    let t := after (callFunction (.watched takenTwice (.failed (.host .missingValue)) .plain 8)
      callsSetter [] [102]) bareGlobals
    bareGlobals.IsRead ∧ callsSetter.procedure.Placed true ∧ .aliased 1 [120] ∈ t.bindings ∧
      .defined 1 [120] ∉ t.bindings ∧ takenTwice t = true ∧
      ∃ cell, t.scopes.Aliased 1 [120] cell := by
  have placed : callsSetter.procedure.Placed true := by
    simp [callsSetter, Procedure.Placed, Block.Placed, Stmt.AllPlaced, Stmt.Placed, Expr.Placed,
      Expr.AllPlaced, Target.Placed]
  have kept := (use_aliases_one_variable takenTwice .missingValue .plain 8).2.2
    bareGlobals callsSetter [] [102] is_read_bareGlobals placed (by simp)
  obtain ⟨_, _, cell, aliased, _⟩ := kept.2 [120] (by decide +kernel) (by decide +kernel)
  exact ⟨is_read_bareGlobals, placed, by decide +kernel, by decide +kernel, by decide +kernel, cell,
    aliased⟩

end Loom
