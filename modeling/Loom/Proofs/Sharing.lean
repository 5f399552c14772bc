import Loom.Proofs.Discipline.Session

/-!
Variables shared with the host. At a top level `use` hands the host the variable that
the name means there. The host goes by names alone, over all top levels, and it keeps
the variable it was handed; so what it reads is the variable of the main program for as
long as no other top level hands it one of the name, and no statement of the main
program binds the name anew.
-/

namespace Loom

namespace ScopeTree

/-! Each variable is bound below one root only. -/

/-- Scopes that bind the same variable have the same root. -/
def Apart (tree : ScopeTree) : Prop :=
  ∀ id other name cell, tree.localCell? id name = some cell →
    tree.localCell? other name = some cell → tree.root id = tree.root other

variable {tree : ScopeTree}

theorem lt_size_of_localCell? {id cell : Nat} {name : Text}
    (bound : tree.localCell? id name = some cell) : id < tree.scopes.size := by
  by_cases there : id < tree.scopes.size
  · exact there
  · simp [localCell?, Scope.cellAt?, Scope.at, Array.getD, there, Table.find?] at bound

theorem Apart.bind (apart : tree.Apart) (id : Nat) (name : Text) (cell : Nat)
    (takes : tree.Takes cell name)
    (near : ∀ other, tree.localCell? other name = some cell → tree.root other = tree.root id) :
    (tree.bind id name cell takes).Apart := by
  have same := (tree.same_shape_bind id name cell takes).root
  intro first second label found bound bound'
  rw [same first, same second]
  rw [localCell?_bind] at bound bound'
  split at bound
  · rename_i here
    obtain ⟨rfl, _, rfl⟩ := here
    cases bound
    split at bound'
    · rename_i here'
      rw [here'.1]
    · exact (near second bound').symm
  · split at bound'
    · rename_i here'
      obtain ⟨rfl, _, rfl⟩ := here'
      cases bound'
      exact near first bound
    · exact apart first second label found bound bound'

theorem Apart.of_same {after : ScopeTree} (apart : tree.Apart) (same : tree.SameShape after)
    (bindings : ∀ id name, after.localCell? id name = tree.localCell? id name) : after.Apart := by
  intro id other name cell bound bound'
  rw [bindings] at bound bound'
  rw [same.root, same.root]
  exact apart id other name cell bound bound'

theorem Apart.define (apart : tree.Apart) (id : Nat) (name : Text) (v : Value) :
    (tree.define id name v).Apart := by
  have pushed : (tree.pushCell v).Apart :=
    apart.of_same ⟨rfl, fun _ => rfl, fun _ => rfl⟩ (fun _ _ => rfl)
  apply pushed.bind
  -- the variable is new, so nothing is bound to it
  intro other bound
  exact absurd (tree.bound other name _ bound) (Nat.lt_irrefl _)

theorem Apart.defineAll (apart : tree.Apart) (id : Nat) (entries : List (Text × Value)) :
    (tree.defineAll id entries).Apart := by
  induction entries generalizing tree with
  | nil => exact apart
  | cons entry rest ih => exact ih (apart.define id entry.1 entry.2)

theorem Apart.pushScope (apart : tree.Apart) (parent : Option Nat) (kind : ScopeKind)
    (there : ∀ p ∈ parent, p < tree.scopes.size) : (tree.pushScope parent kind there).Apart := by
  have grown := tree.extends_pushScope parent kind there
  intro first second label found bound bound'
  rw [localCell?_pushScope] at bound bound'
  rw [grown.root first (lt_size_of_localCell? bound), grown.root second
    (lt_size_of_localCell? bound')]
  exact apart first second label found bound bound'

theorem Apart.share (apart : tree.Apart) (id : Nat) (name : Text) : (tree.share id name).Apart := by
  unfold ScopeTree.share
  split
  · rename_i cell found
    apply apart.bind
    intro other bound
    obtain ⟨p, above, found⟩ := Option.bind_eq_some_iff.mp found
    obtain ⟨holder, _, held, same⟩ := tree.holder_of_lookup? p name cell found
    rw [apart other holder name cell bound held, same, tree.root_of_parent above]
  · apply (apart.define (tree.root id) name .null).bind
    intro other bound
    have same := (tree.same_shape_define (tree.root id) name .null).root
    rw [localCell?_define] at bound
    split at bound
    · rename_i here
      rw [same, same, here.1, tree.root_of_top (tree.parent_root id), tree.root_owner id]
    · exact absurd (tree.bound other name _ bound) (Nat.lt_irrefl _)

theorem Apart.write (apart : tree.Apart) (cell : Nat) (v : Value) : (tree.write cell v).Apart :=
  apart.of_same (tree.same_shape_write cell v) (fun _ _ => rfl)

theorem Apart.assign (apart : tree.Apart) (id : Nat) (name : Text) (v : Value) :
    (tree.assign id name v).Apart := by
  unfold ScopeTree.assign
  split
  · exact apart.write _ v
  · exact apart.define _ name v

theorem Apart.declare (apart : tree.Apart) (id : Nat) (name : Text) (first? : Option Value) :
    (tree.declare id name first?).2.Apart := by
  unfold ScopeTree.declare
  cases tree.lookup? id name with
  | some cell =>
      cases first? with
      | none => exact apart
      | some v => exact apart.write cell v
  | none =>
      cases first? with
      | none => exact apart.define id name .null
      | some v => exact (apart.define id name .null).write _ v

/-! What is bound at a top level stays bound to the same variable. -/

/-- No name of a scope has come to mean an older variable than it did, nor has it lost
the one that it meant. -/
structure KeepsTop (top : Nat) (tree after : ScopeTree) : Prop where
  size : tree.cells.size ≤ after.cells.size
  bound : ∀ name, ∀ cell < tree.cells.size,
    after.localCell? top name = some cell ↔ tree.localCell? top name = some cell

theorem keeps_top_of_new {after : ScopeTree} {top : Nat} (size : tree.cells.size ≤ after.cells.size)
    (new : ∀ name, after.localCell? top name = tree.localCell? top name ∨
      tree.localCell? top name = none ∧ after.localCell? top name = some tree.cells.size) :
    KeepsTop top tree after := by
  constructor
  · exact size
  · intro name cell old
    rcases new name with same | ⟨missing, fresh⟩
    · rw [same]
    · rw [missing, fresh]
      constructor
      · intro same
        cases same
        exact absurd old (Nat.lt_irrefl _)
      · nofun

theorem keeps_top_of_same {after : ScopeTree} {top : Nat}
    (size : tree.cells.size ≤ after.cells.size)
    (same : ∀ name, after.localCell? top name = tree.localCell? top name) :
    KeepsTop top tree after := keeps_top_of_new size (fun name => .inl (same name))

@[simp]
theorem define_cells_size (tree : ScopeTree) (id : Nat) (name : Text) (v : Value) :
    (tree.define id name v).cells.size = tree.cells.size + 1 := by
  simp [ScopeTree.define, ScopeTree.bind, pushCell]

@[simp]
theorem write_cells_size (tree : ScopeTree) (cell : Nat) (v : Value) :
    (tree.write cell v).cells.size = tree.cells.size := by simp [ScopeTree.write]

theorem cells_le_defineAll (tree : ScopeTree) (id : Nat) (entries : List (Text × Value)) :
    tree.cells.size ≤ (tree.defineAll id entries).cells.size := by
  induction entries generalizing tree with
  | nil => exact Nat.le_refl _
  | cons entry rest ih =>
      have later := ih (tree.define id entry.1 entry.2)
      rw [define_cells_size] at later
      exact Nat.le_of_succ_le later

theorem keeps_top_pushScope {top : Nat} (there : top < tree.scopes.size) (parent : Option Nat)
    (kind : ScopeKind) (hangs : ∀ p ∈ parent, p < tree.scopes.size)
    (entries : List (Text × Value)) :
    KeepsTop top tree
      ((tree.pushScope parent kind hangs).defineAll tree.scopes.size entries) := by
  apply keeps_top_of_same
  · exact cells_le_defineAll (tree.pushScope parent kind hangs) _ entries
  · intro name
    rw [localCell?_defineAll_of_ne _ _ entries top (by omega), localCell?_pushScope]

theorem keeps_top_assign (top id : Nat) (name : Text) (v : Value) :
    KeepsTop top tree (tree.assign id name v) := by
  apply keeps_top_of_new
  · unfold ScopeTree.assign
    split <;> simp
  · intro label
    exact (tree.localCell?_assign id name v top label).imp_right fun new => ⟨new.1, new.2.2.2⟩

/-- What a `use` finds for a name outside is no variable of a top level, which has no
outside. -/
theorem keeps_top_share {top id : Nat} {name : Text} (highest : (tree.scope top).parent = none)
    (free : tree.hidesOuter id name = false) : KeepsTop top tree (tree.share id name) := by
  cases outer : tree.outerCell? id name with
  | some cell =>
      apply keeps_top_of_same
      · unfold ScopeTree.share
        split <;> simp [ScopeTree.bind]
      · intro label
        rw [localCell?_share_of_outer tree id name cell outer, if_neg]
        rintro ⟨rfl, _, _⟩
        simp [outerCell?, highest] at outer
  | none =>
      apply keeps_top_of_new
      · unfold ScopeTree.share
        split <;> simp [ScopeTree.bind]
      · intro label
        rw [localCell?_share_of_none tree id name outer]
        have missing := unbound_of_free free outer
        split
        · rename_i here
          obtain ⟨rfl, _, rfl⟩ := here
          rw [← tree.root_owner, tree.root_of_top highest] at missing
          exact .inr ⟨missing, rfl⟩
        · rw [localCell?_define]
          split
          · rename_i here
            obtain ⟨rfl, _, rfl⟩ := here
            exact .inr ⟨missing, rfl⟩
          · exact .inl rfl

theorem lookup?_of_top {id : Nat} (highest : (tree.scope id).parent = none) (name : Text) :
    tree.lookup? id name = tree.localCell? id name := by
  rw [lookup?_eq, highest]
  simp

theorem keeps_top_declare (top : Nat) {id : Nat} {name : Text} {first? : Option Value}
    (highest : (tree.scope id).parent = none) :
    KeepsTop top tree (tree.declare id name first?).2 := by
  apply keeps_top_of_new
  · unfold ScopeTree.declare
    cases tree.lookup? id name <;> cases first? <;> simp
  · intro label
    rw [localCell?_declare]
    split
    · rename_i missing
      rw [localCell?_define]
      split
      · rename_i here
        obtain ⟨rfl, _, rfl⟩ := here
        rw [lookup?_of_top highest] at missing
        exact .inr ⟨missing, rfl⟩
      · exact .inl rfl
    · exact .inl rfl

theorem localCell?_declare_self {id : Nat} (name : Text) (first? : Option Value)
    (highest : (tree.scope id).parent = none) (there : id < tree.scopes.size) :
    (tree.declare id name first?).2.localCell? id name = some (tree.declare id name first?).1 := by
  rw [localCell?_declare]
  unfold ScopeTree.declare
  rw [lookup?_of_top highest]
  cases bound : tree.localCell? id name with
  | some cell => cases first? <;> simp
  | none =>
      have made := tree.localCell?_define id name .null id name
      rw [if_pos ⟨rfl, there, rfl⟩] at made
      cases first? <;> simpa using made

end ScopeTree

open ScopeTree

/-- Whether what has been done to a name decides which variable of the name the host reads,
and which one the main program does, whose global scope has a number. -/
def Binding.decides (globals : Nat) (name : Text) : Binding → Bool
  | .declared _ label => label == name
  | .defined scope label | .imported scope label => scope == globals && label == name
  | .aliased _ _ => false

namespace State

/-- The last thing that decided which variables of a name the host and the main program
read. -/
def decided (s : State) (name : Text) : Option Binding :=
  s.bindings.find? (Binding.decides s.globals name)

def Shares (s : State) (name : Text) : Prop :=
  ∃ cell, Table.find? name s.shared = some cell ∧ s.scopes.localCell? s.globals name = some cell

/-- What holds of shared variables between requests, as long as none is forgotten. -/
structure Sharing (s : State) : Prop where
  global : (s.scopes.scope s.globals).kind = .global
  tops : ∀ id, (s.scopes.scope id).kind = .global → (s.scopes.scope id).parent = none
  apart : s.scopes.Apart
  held : ∀ name cell, Table.find? name s.shared = some cell → cell < s.scopes.cells.size
  listed : ∀ scope name, .declared scope name ∈ s.bindings → (Table.find? name s.shared).isSome
  shares : ∀ name, s.Shares name ↔ s.decided name = some (.declared s.globals name)

variable {s t : State}

theorem decided_of_cons {b : Binding} (globals : t.globals = s.globals)
    (last : t.bindings = b :: s.bindings) (name : Text) :
    t.decided name = if b.decides s.globals name then some b else s.decided name := by
  rw [decided, globals, last, List.find?_cons, decided]
  cases b.decides s.globals name <;> rfl

theorem shares_of_same {name : Text} (globals : t.globals = s.globals)
    (shared : Table.find? name t.shared = Table.find? name s.shared)
    (bound : t.scopes.localCell? s.globals name = s.scopes.localCell? s.globals name) :
    t.Shares name ↔ s.Shares name := by
  rw [Shares, Shares, globals, shared, bound]

theorem Sharing.highest (sharing : s.Sharing) : (s.scopes.scope s.globals).parent = none :=
  sharing.tops s.globals sharing.global

theorem Sharing.there (sharing : s.Sharing) : s.globals < s.scopes.scopes.size :=
  s.scopes.lt_size_of_global sharing.global

theorem Sharing.after (sharing : s.Sharing) (grown : s.scopes.Extends t.scopes)
    (tops : ∀ id, (t.scopes.scope id).kind = .global → (t.scopes.scope id).parent = none)
    (apart : t.scopes.Apart) (keeps : KeepsTop s.globals s.scopes t.scopes)
    (globals : t.globals = s.globals) (shared : t.shared = s.shared)
    (declared : ∀ scope name, .declared scope name ∈ t.bindings →
      .declared scope name ∈ s.bindings)
    (decided : ∀ name, t.decided name = s.decided name) : t.Sharing := by
  constructor
  case global =>
    rw [globals]
    exact grown.global sharing.global
  case tops => exact tops
  case apart => exact apart
  case held =>
    intro name cell found
    rw [shared] at found
    exact Nat.lt_of_lt_of_le (sharing.held name cell found) keeps.size
  case listed =>
    intro scope name known
    rw [shared]
    exact sharing.listed scope name (declared scope name known)
  case shares =>
    intro name
    rw [decided, globals, ← sharing.shares name]
    constructor
    · rintro ⟨cell, found, bound⟩
      rw [shared] at found
      rw [globals] at bound
      exact ⟨cell, found, (keeps.bound name cell (sharing.held name cell found)).mp bound⟩
    · rintro ⟨cell, found, bound⟩
      refine ⟨cell, by rw [shared]; exact found, ?_⟩
      rw [globals]
      exact (keeps.bound name cell (sharing.held name cell found)).mpr bound

theorem Sharing.tops_of_same_shape (sharing : s.Sharing) {after : ScopeTree}
    (same : s.scopes.SameShape after) :
    ∀ id, (after.scope id).kind = .global → (after.scope id).parent = none := by
  intro id global
  rw [same.kind] at global
  rw [same.parent]
  exact sharing.tops id global

theorem Sharing.reshaped (sharing : s.Sharing) {scopes : ScopeTree}
    (shape : s.scopes.SameShape scopes) (apart : scopes.Apart)
    (keeps : KeepsTop s.globals s.scopes scopes) : Sharing { s with scopes := scopes } :=
  sharing.after shape.extends (sharing.tops_of_same_shape shape) apart keeps rfl rfl
    (fun _ _ known => known) (fun _ => rfl)

theorem Sharing.of_same (sharing : s.Sharing) (scopes : t.scopes = s.scopes)
    (globals : t.globals = s.globals) (shared : t.shared = s.shared)
    (bindings : t.bindings = s.bindings) : t.Sharing := by
  apply sharing.after (scopes ▸ extends_refl _) (scopes ▸ sharing.tops) (scopes ▸ sharing.apart)
    (keeps_top_of_same (Nat.le_of_eq (by rw [scopes])) (fun _ => by rw [scopes])) globals shared
  · exact fun _ _ known => bindings ▸ known
  · intro name
    rw [decided, decided, globals, bindings]

theorem Sharing.pushed (sharing : s.Sharing) (parent : Option Nat) (kind : ScopeKind)
    (there : ∀ p ∈ parent, p < s.scopes.scopes.size) (entries : List (Text × Value))
    (top : kind = .global → parent = none) :
    Sharing { s with
      scopes :=
        (s.scopes.pushScope parent kind there).defineAll s.scopes.scopes.size entries } := by
  have shape := (s.scopes.pushScope parent kind there).same_shape_defineAll
    s.scopes.scopes.size entries
  have tops : ∀ id,
      (((s.scopes.pushScope parent kind there).defineAll s.scopes.scopes.size
        entries).scope id).kind =
        .global →
      (((s.scopes.pushScope parent kind there).defineAll s.scopes.scopes.size entries).scope
        id).parent = none := by
    intro id global
    rw [shape.kind, scope_pushScope] at global
    rw [shape.parent, scope_pushScope]
    split at global
    · rename_i last
      rw [if_pos last]
      exact top global
    · rename_i old
      rw [if_neg old]
      exact sharing.tops id global
  exact sharing.after ((s.scopes.extends_pushScope parent kind there).trans shape.extends) tops
    ((sharing.apart.pushScope parent kind there).defineAll _ entries)
    (keeps_top_pushScope sharing.there parent kind there entries) rfl rfl
    (fun _ _ known => known) (fun _ => rfl)

/-- A use in a function decides nothing of what the main program declares. -/
theorem Sharing.sharing (sharing : s.Sharing) {scope : Nat} {name : Text}
    (free : s.scopes.hidesOuter scope name = false) : (s.sharing scope name).Sharing := by
  have shape := s.scopes.same_shape_share scope name
  apply sharing.after (s.grows_sharing scope name).scopes (sharing.tops_of_same_shape shape)
    (sharing.apart.share scope name) (keeps_top_share sharing.highest free) rfl rfl
  · intro id label known
    rcases List.mem_append.mp known with new | old
    · simp at new
    · exact old
  · intro label
    cases known : s.scopes.known? (s.scopes.owner scope) with
    | none => simp [State.decided, State.sharing, known]
    | some owner => simp [State.decided, State.sharing, known, Binding.decides]

/-- What is bound anew in the global scope of the main program is bound to a variable that
the host was not handed. -/
theorem Sharing.not_shares_rebinding (sharing : s.Sharing) (name : Text) (v : Value)
    (b : Binding) : ¬ (s.rebinding s.globals name v b).Shares name := by
  rintro ⟨cell, found, bound⟩
  have old := sharing.held name cell found
  have fresh := s.scopes.localCell?_define s.globals name v s.globals name
  rw [if_pos ⟨rfl, sharing.there, rfl⟩] at fresh
  -- the new variable is behind all that were handed out
  cases fresh.symm.trans bound
  exact absurd old (Nat.lt_irrefl _)

theorem Sharing.shares_rebinding (sharing : s.Sharing) {atTop : Prop} {scope : Nat} {name : Text}
    {v : Value} {b : Binding} (how : Rebinds atTop s scope name b) (label : Text) :
    (s.rebinding scope name v b).Shares label ↔
      (s.rebinding scope name v b).decided label = some (.declared s.globals label) := by
  have decides : b.decides s.globals label = (scope == s.globals && name == label) := by
    cases how <;> rfl
  rw [decided_of_cons (s := s) (t := s.rebinding scope name v b) rfl rfl]
  by_cases here : scope = s.globals ∧ name = label
  · obtain ⟨rfl, rfl⟩ := here
    rw [if_pos (by simp [decides])]
    refine iff_of_false (sharing.not_shares_rebinding name v b) fun same => ?_
    cases same
    cases how
  · rw [if_neg (by simpa [decides] using here), ← sharing.shares label]
    refine shares_of_same (s := s) (t := s.rebinding scope name v b) rfl rfl ?_
    show (s.scopes.define scope name v).localCell? s.globals label = _
    rw [localCell?_define, if_neg]
    rintro ⟨same, _, named⟩
    exact here ⟨same.symm, named.symm⟩

theorem Sharing.rebinding (sharing : s.Sharing) {atTop : Prop} {scope : Nat} {name : Text}
    {v : Value} {b : Binding} (how : Rebinds atTop s scope name b) :
    (s.rebinding scope name v b).Sharing := by
  have shape := s.scopes.same_shape_define scope name v
  constructor
  case global => exact shape.extends.global sharing.global
  case tops => exact sharing.tops_of_same_shape shape
  case apart => exact sharing.apart.define scope name v
  case held =>
    intro label cell found
    have old := sharing.held label cell found
    show cell < (s.scopes.define scope name v).cells.size
    rw [define_cells_size]
    omega
  case listed =>
    intro id label known
    rcases List.mem_cons.mp known with new | old
    · subst new
      cases how
    · exact sharing.listed id label old
  case shares => exact sharing.shares_rebinding how

/-- A variable that a top level declares is bound at no other one. -/
theorem Sharing.owner_of_bound (sharing : s.Sharing) {scope : Nat} {name : Text}
    {first? : Option Value} (global : (s.scopes.scope (s.scopes.owner scope)).kind = .global)
    (bound : (s.scopes.declare (s.scopes.owner scope) name first?).2.localCell? s.globals name =
      some (s.scopes.declare (s.scopes.owner scope) name first?).1) :
    s.scopes.owner scope = s.globals := by
  have highest := sharing.tops _ global
  have shape := s.scopes.same_shape_declare (s.scopes.owner scope) name first?
  have self := localCell?_declare_self name first? highest (s.scopes.lt_size_of_global global)
  have roots := sharing.apart.declare (s.scopes.owner scope) name first? _ _ name _ self bound
  rwa [shape.root, s.scopes.root_of_top highest, shape.root,
    s.scopes.root_of_top sharing.highest] at roots

/-- What a top level declares, the host reads from then on; the main program does only if it
is its own top level. -/
theorem Sharing.shares_declaring (sharing : s.Sharing) {scope : Nat} (name : Text)
    (first? : Option Value) (global : (s.scopes.scope (s.scopes.owner scope)).kind = .global)
    (label : Text) :
    (s.declaring scope name first?).Shares label ↔
      (s.declaring scope name first?).decided label = some (.declared s.globals label) := by
  have given := Table.find?_insert name label
    (s.scopes.declare (s.scopes.owner scope) name first?).1 s.shared
  rw [decided_of_cons (s := s) (t := s.declaring scope name first?) rfl rfl]
  by_cases here : name = label
  · subst here
    rw [if_pos rfl] at given
    rw [if_pos (by simp [Binding.decides])]
    constructor
    · rintro ⟨cell, found, bound⟩
      cases given.symm.trans found
      rw [sharing.owner_of_bound global bound]
    · intro same
      have same : s.scopes.owner scope = s.globals := by simpa using same
      refine ⟨_, given, ?_⟩
      show (s.scopes.declare (s.scopes.owner scope) name first?).2.localCell? s.globals name = _
      rw [← same]
      exact localCell?_declare_self name first? (sharing.tops _ global)
        (s.scopes.lt_size_of_global global)
  · rw [if_neg here] at given
    rw [if_neg (by simpa [Binding.decides] using here), ← sharing.shares label]
    refine shares_of_same (s := s) (t := s.declaring scope name first?) rfl given ?_
    show (s.scopes.declare (s.scopes.owner scope) name first?).2.localCell? s.globals label = _
    rw [localCell?_declare]
    split
    · rw [localCell?_define, if_neg (fun hit => here hit.2.2.symm)]
    · rfl

theorem Sharing.declaring (sharing : s.Sharing) {scope : Nat} (name : Text) (first? : Option Value)
    (global : (s.scopes.scope (s.scopes.owner scope)).kind = .global) :
    (s.declaring scope name first?).Sharing := by
  have highest := sharing.tops _ global
  have shape := s.scopes.same_shape_declare (s.scopes.owner scope) name first?
  have keeps : KeepsTop s.globals s.scopes
      (s.scopes.declare (s.scopes.owner scope) name first?).2 :=
    keeps_top_declare s.globals highest
  have bound := localCell?_declare_self name first? highest (s.scopes.lt_size_of_global global)
  constructor
  case global => exact shape.extends.global sharing.global
  case tops => exact sharing.tops_of_same_shape shape
  case apart => exact sharing.apart.declare (s.scopes.owner scope) name first?
  case held =>
    intro label cell found
    have found := (Table.find?_insert name label _ s.shared).symm.trans found
    split at found
    · cases found
      exact ScopeTree.bound _ _ name _ bound
    · exact Nat.lt_of_lt_of_le (sharing.held label cell found) keeps.size
  case listed =>
    intro id label known
    have given := Table.find?_insert name label
      (s.scopes.declare (s.scopes.owner scope) name first?).1 s.shared
    show (Table.find? label (Table.insert name _ s.shared)).isSome
    rw [given]
    split
    · rfl
    · rename_i other
      rcases List.mem_cons.mp known with new | old
      · cases new
        exact absurd rfl other
      · exact sharing.listed id label old
  case shares => exact sharing.shares_declaring name first? global

theorem sharing_of_chain {terms : Terms} {base : Nat} {part : Part}
    (chain : Chain terms base part s t) (sharing : s.Sharing) : t.Sharing := by
  induction chain with
  | none s => exact sharing
  | andThen _ _ first second => exact second (first sharing)
  | data scopes _ _ sources =>
      exact sharing.of_same scopes sources.globals sources.shared sources.bindings
  | root s entries => exact sharing.pushed none .global (by simp) entries (fun _ => rfl)
  | child s parent kind entries _ inner =>
      exact sharing.pushed _ kind (s.scopes.lt_size_of_known parent) entries
        (fun global => absurd global inner)
  | rebound s scope name v _ how => exact sharing.rebinding how
  | assign s scope name v _ =>
      exact sharing.reshaped (s.scopes.same_shape_assign scope name v)
        (sharing.apart.assign scope name v) (keeps_top_assign s.globals scope name v)
  | marked s m _ => exact sharing.of_same rfl rfl rfl rfl
  | share s scope name _ free => exact sharing.sharing free
  | declare s scope name first? _ global => exact sharing.declaring name first? global
  | inFile s t file _ inner =>
      exact (inner (sharing.of_same rfl rfl rfl rfl)).of_same rfl rfl rfl rfl
  | inCall s t _ inner => exact (inner (sharing.of_same rfl rfl rfl rfl)).of_same rfl rfl rfl rfl
  | broken s t path _ _ _ _ inner =>
      exact (inner (sharing.of_same rfl rfl rfl rfl)).of_same rfl rfl rfl rfl
  | loaded s t path _ _ _ heap place _ inner =>
      exact (inner (sharing.of_same rfl rfl rfl rfl)).of_same rfl rfl rfl rfl
  | imported s path v _ => exact sharing.of_same rfl rfl rfl rfl
  | native s name v => exact sharing.of_same rfl rfl rfl rfl
  | opened s name _ _ heap v => exact sharing.of_same rfl rfl rfl rfl
  | took s loop event rest _ => exact sharing.of_same rfl rfl rfl rfl
  | handled loop _ inner => exact inner sharing
  | whileRunning s t loop _ _ _ inner =>
      exact (inner (sharing.of_same rfl rfl rfl rfl)).of_same rfl rfl rfl rfl

theorem sharing_new (host : Host) (events : List HostEvent) :
    (Interpreter.new host events).state.Sharing := by
  obtain ⟨entries, made⟩ := Discipline.withNewGlobals_run (Interpreter.blankState events)
  rw [Interpreter.new, made]
  have shape := ScopeTree.empty.newRoot.2.same_shape_defineAll 0 entries
  have empty : ScopeTree.empty.Apart := by
    intro id other name cell bound
    exact absurd (lt_size_of_localCell? bound) (Nat.not_lt_zero id)
  constructor
  case global => exact State.global_rooted _ entries
  case tops =>
    intro id global
    refine (shape.parent id).trans ?_
    have global := (shape.kind id).symm.trans global
    simp only [newRoot, scope_pushScope] at global ⊢
    split at global
    · rename_i last
      rw [if_pos last]
    · simp [ScopeTree.scope, Scope.at, ScopeTree.empty] at global
  case apart => exact (empty.pushScope none .global (by simp)).defineAll 0 entries
  case held =>
    intro name cell found
    cases found
  case listed =>
    intro scope name known
    cases known
  case shares =>
    intro name
    constructor
    · rintro ⟨cell, found, _⟩
      cases found
    · intro known
      cases known

end State

theorem shared_of_found {i : Interpreter} {name : Text} {cell : Nat}
    (found : Table.find? name i.state.shared = some cell) :
    i.shared name = some <$> (i.state.scopes.read cell).toHost i.state.heap := by
  simp only [Interpreter.shared, found]

/-- Whatever an interpreter is asked, as long as nothing is reset: of a name that its main
program has declared with a `use` at the top, the host reads the live global variable if
and only if such a `use` came last, after any `use` of the name at the top of a module,
any definition of a function of the name in the main program and any import of a module
of the name there; otherwise it reads another variable. -/
theorem shared_live_iff (host : Host) (events : List HostEvent) (fuel : Nat)
    (requests : List Request) (keeps : .reset ∉ requests) (name : Text)
    (declared :
      let s := ((Interpreter.new host events).serveAll (fun host => .of host fuel) requests).2.state
      .declared s.globals name ∈ s.bindings) :
    let i := ((Interpreter.new host events).serveAll (fun host => .of host fuel) requests).2
    (i.state.Shares name ↔ i.state.decided name = some (.declared i.state.globals name)) ∧
      (i.state.Shares name → ∃ v, i.state.scopes.get? i.state.globals name = some v ∧
        i.shared name = some <$> v.toHost i.state.heap) ∧
      (¬ i.state.Shares name → ∃ cell,
        i.state.scopes.localCell? i.state.globals name ≠ some cell ∧
          i.shared name = some <$> (i.state.scopes.read cell).toHost i.state.heap) := by
  intro i
  have kept := Discipline.kept_new (Discipline.admits_free host) (fun _ => trivial) events
  have sharing : i.state.Sharing :=
    Discipline.holds_serveAll (Discipline.serves_of (Nat.le_refl 0) fuel)
      (fun _ _ chain => State.sharing_of_chain chain)
      (fun _ _ sharing => sharing.of_same rfl rfl rfl rfl) requests
      (fun resets => absurd resets keeps) kept (fun request _ => request.placed_of_lenient)
      (State.sharing_new host events)
  refine ⟨sharing.shares name, ?_, ?_⟩
  · rintro ⟨cell, found, bound⟩
    refine ⟨i.state.scopes.read cell, ?_, shared_of_found found⟩
    rw [ScopeTree.get?, lookup?_of_top sharing.highest, bound]
    rfl
  · intro apart
    obtain ⟨cell, found⟩ := Option.isSome_iff_exists.mp (sharing.listed _ name declared)
    exact ⟨cell, fun bound => apart ⟨cell, found, bound⟩, shared_of_found found⟩

def sharingHost : Host :=
  { Host.plain with resolver := .table [("m", "use n\nn = false\n")] }

/-- An interpreter whose main program has declared `n` as well, and then has imported the
module. -/
def outshared : Interpreter :=
  ((Interpreter.new sharingHost []).serveAll (fun host => .of host 15)
    [.runSource "use n\nn = true\n" none, .runSource "import m\n" none]).2

def truthsOf (i : Interpreter) (name : Text) : Option (Bool × Bool) :=
  match i.shared name, i.state.scopes.get? i.state.globals name with
  | .ok (some (.bool seen)), some (.bool global) => some (seen, global)
  | _, _ => none

theorem values_of_truthsOf {i : Interpreter} {name : Text} {seen global : Bool}
    (truths : truthsOf i name = some (seen, global)) :
    i.shared name = .ok (some (.bool seen)) ∧
      i.state.scopes.get? i.state.globals name = some (.bool global) := by
  unfold truthsOf at truths
  split at truths
  · rename_i first second
    simp only [Option.some.injEq, Prod.mk.injEq] at truths
    rw [first, second, truths.1, truths.2]
    exact ⟨rfl, rfl⟩
  · cases truths

/-- The host reads the variable of the module, not the global one of the main program. -/
theorem host_reads_module_variable :
    .declared outshared.state.globals "n" ∈ outshared.state.bindings ∧
      outshared.shared "n" = .ok (some (.bool false)) ∧
      outshared.state.scopes.get? outshared.state.globals "n" = some (.bool true) :=
  ⟨by decide +kernel, values_of_truthsOf (by decide +kernel)⟩

/-- Without the module the host reads the global variable. -/
theorem host_reads_live_variable :
    let requests : List Request := [.runSource "use n\nn = true\n" none]
    let i := ((Interpreter.new sharingHost []).serveAll (fun host => .of host 15) requests).2
    .reset ∉ requests ∧ .declared i.state.globals "n" ∈ i.state.bindings ∧
      i.state.decided "n" = some (.declared i.state.globals "n") ∧
      ∃ v, i.state.scopes.get? i.state.globals "n" = some v ∧
        i.shared "n" = some <$> v.toHost i.state.heap := by
  have declared : let s := ((Interpreter.new sharingHost []).serveAll (fun host => .of host 15)
      [.runSource "use n\nn = true\n" none]).2.state
      .declared s.globals "n" ∈ s.bindings := by decide +kernel
  have live := shared_live_iff sharingHost [] 15 [.runSource "use n\nn = true\n" none] (by simp) "n"
    declared
  have last : let s := ((Interpreter.new sharingHost []).serveAll (fun host => .of host 15)
      [.runSource "use n\nn = true\n" none]).2.state
      s.decided "n" = some (.declared s.globals "n") := by decide +kernel
  exact ⟨by simp, declared, last, live.2.1 (live.1.mpr last)⟩

end Loom
