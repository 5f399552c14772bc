import Loom.Operator
import Loom.Proofs.Discipline
import Loom.Proofs.Totality

/-!
What is ensured of single steps on values and on the state, and of operators. A
step that looks into values stops at a missing one, and at that only when a
missing value may be about: on a heap without any, each value has a truth, a text
and an answer to whether it equals another.
-/

namespace Loom

namespace Discipline

open Eval

variable {d : Discipline} {base : Nat} {s : State} {α β : Type}

/-- A step that left the state as it was, with a result that is good. -/
abbrev Still (s : State) (good : α → Prop) : State → α → Prop := fun t a => t = s ∧ good a

/-- After a step that only looks, what follows starts from the same state. -/
theorem ensures_still {x : Eval α} {f : α → Eval β} {good : α → Prop} {better : State → β → Prop}
    (first : Ensures d base s x (Still s good))
    (rest : ∀ a, d.Ready base s → good a → Ensures d base s (f a) better) :
    Ensures d base s (x >>= f) better := by
  apply ensures_bind first
  rintro a t _ ready ⟨rfl, fine⟩
  exact rest a ready fine

theorem ensures_fine {x : Eval Value} (looked : Ensures d base s x (Still s (d.Fine s))) :
    Ensures d base s x d.Fine := by
  apply ensures_of_imp looked
  rintro t v ⟨rfl, fine⟩
  exact fine

/-- Something only goes wrong on a heap with holes: it may then. -/
theorem stop_of_hole (ready : d.Ready base s)
    (impossible : ¬ d.value s.history .missing → s.heap.Whole → False) :
    d.stop s.history (.failed (.host .missingValue)) := by
  by_cases hole : d.value s.history .missing
  · exact d.missing hole
  · have whole : s.heap.Whole := by
      constructor
      · intro ref slot member same
        exact hole (same ▸ ready.held.heap.slots ref slot member)
      · intro ref entry member same
        exact hole (same ▸ ready.held.heap.entries ref entry member)
    exact absurd (impossible hole whole) id

theorem ensures_present {result : Option α} {good : α → Prop}
    (some : ∀ a, result = some a → good a)
    (none : result = none → d.stop s.history (.failed (.host .missingValue))) :
    Ensures d base s (present result) (Still s good) := by
  cases result with
  | some a => exact ensures_pure ⟨rfl, some a rfl⟩
  | none => exact ensures_throw (none rfl)

theorem ensures_typeOf {v : Value} (fine : d.Fine s v) :
    Ensures d base s (typeOf v) (Still s fun _ => True) := by
  apply ensures_present (fun _ _ => trivial)
  intro none
  cases v with
  | missing => exact d.missing fine
  | _ => simp [Value.type?] at none

theorem ensures_truthy {v : Value} (fine : d.Fine s v) :
    Ensures d base s (truthy v) (Still s fun _ => True) := by
  apply ensures_get
  intro ready
  apply ensures_present (fun _ _ => trivial)
  intro none
  cases v with
  | missing => exact d.missing fine
  | _ => simp [Value.truthy?] at none

theorem ensures_textOf {v : Value} (fine : d.Fine s v) :
    Ensures d base s (textOf v) (Still s fun _ => True) := by
  apply ensures_get
  intro ready
  apply ensures_present (fun _ _ => trivial)
  intro none
  apply stop_of_hole ready
  intro hole whole
  have there : v ≠ .missing := fun same => hole (same ▸ fine)
  obtain ⟨text, found⟩ := text_of_whole s.heap whole v there
  simp [found] at none

theorem ensures_equal {v w : Value} (left : d.Fine s v) (right : d.Fine s w) :
    Ensures d base s (equal v w) (Still s fun _ => True) := by
  apply ensures_get
  intro ready
  apply ensures_present (fun _ _ => trivial)
  intro none
  apply stop_of_hole ready
  intro hole whole
  have there : v ≠ .missing := fun same => hole (same ▸ left)
  have there' : w ≠ .missing := fun same => hole (same ▸ right)
  obtain ⟨answer, found⟩ := equal_of_whole s.heap whole v w there there'
  simp [found] at none

theorem ensures_typeFaultOf {v : Value} {cause : TypeName → TypeFault} {good : State → α → Prop}
    (fine : d.Fine s v) : Ensures d base s (do typeFault (cause (← typeOf v))) good := by
  apply ensures_bind (ensures_typeOf fine)
  intro name t _ _ _
  exact ensures_typeFault

theorem ensures_expectNumber {v : Value} {operation : Text} (fine : d.Fine s v) :
    Ensures d base s (expectNumber v operation) (Still s fun _ => True) := by
  unfold expectNumber
  split
  · exact ensures_pure ⟨rfl, trivial⟩
  · exact ensures_typeFaultOf fine

theorem ensures_expectString {v : Value} {operation : Text} (fine : d.Fine s v) :
    Ensures d base s (expectString v operation) (Still s fun _ => True) := by
  unfold expectString
  split
  · exact ensures_pure ⟨rfl, trivial⟩
  · exact ensures_typeFaultOf fine

/-! Changes that touch neither variables nor control. -/

/-- A change of what was put out, or of a number to come. -/
theorem ensures_counted {change : State → α × State} {good : State → α → Prop}
    (emitted : List Emission) (stamps programs : Nat)
    (same : (change s).2 = { s with emitted := emitted, stamps := stamps, programs := programs })
    (fine : good (change s).2 (change s).1) : Ensures d base s (modifyGet change) good := by
  have effect : Effect d.terms base s (change s).2 := by
    rw [same]
    exact effect_of_same rfl rfl rfl rfl rfl rfl rfl rfl rfl rfl rfl rfl
  have held : s.All (d.value s.history) → (change s).2.All (d.value s.history) := by
    rw [same]
    exact fun all => all.of_same rfl rfl rfl rfl rfl
  exact ensures_modifyGet effect held fine

theorem ensures_stamp : Ensures d base s stamp (fun t _ => t.heap = s.heap) :=
  ensures_counted s.emitted (s.stamps + 1) s.programs rfl rfl

/-- The result of an operator, which leaves the heap as it was. -/
abbrev Result (d : Discipline) (s : State) : State → Value → Prop :=
  fun t v => d.Fine t v ∧ t.heap = s.heap

theorem ensures_number (x : Float) : Ensures d base s (number x) (Result d s) := by
  unfold number
  split
  · apply ensures_bind ensures_stamp
    intro n t _ _ same
    exact ensures_pure ⟨d.data rfl, same⟩
  · exact ensures_pure ⟨d.data rfl, rfl⟩

theorem ensures_heap (change : Heap → α × Heap) {good : State → α → Prop}
    (held : s.heap.All (d.value s.history) → (change s.heap).2.All (d.value s.history))
    (fine : good { s with heap := (change s.heap).2 } (change s.heap).1) :
    Ensures d base s
      (modifyGet (fun s => ((change s.heap).1, { s with heap := (change s.heap).2 }))) good :=
  ensures_modifyGet (effect_of_same rfl rfl rfl rfl rfl rfl rfl rfl rfl rfl rfl rfl)
    (fun all => all.withHeap (held all.heap)) fine

theorem ensures_newArray {elements : Array Slot}
    (new : ∀ slot ∈ elements, d.Fine s slot.read) :
    Ensures d base s (newArray elements) d.Fine :=
  ensures_heap (fun heap => heap.newArray elements)
    (fun held => held.newArray elements new) (d.data rfl)

theorem ensures_newHash {entries : Table Value} (new : ∀ entry ∈ entries, d.Fine s entry.2) :
    Ensures d base s (newHash entries) d.Fine :=
  ensures_heap (fun heap => heap.newHash entries)
    (fun held => held.newHash entries new) (d.data rfl)

theorem ensures_ofJson (data : Json) : Ensures d base s (ofJson data) d.Fine := by
  intro ready
  -- the containers are new, and what is put into them is plain
  have all := Value.all_ofHost (fun _ plain => d.data plain) data s.heap s.stamps ready.held.heap
  exact ensures_modifyGet (effect_of_same rfl rfl rfl rfl rfl rfl rfl rfl rfl rfl rfl rfl)
    (fun held => (held.withHeap all.1).of_same rfl rfl rfl rfl rfl) all.2 ready

theorem ensures_modifyArray {ref : Nat} {f : Array Slot → Array Slot}
    (new : ∀ slot ∈ f (s.heap.array ref), d.Fine s slot.read) :
    Ensures d base s (modifyArray ref f) (fun _ _ => True) :=
  ensures_modify (effect_of_same rfl rfl rfl rfl rfl rfl rfl rfl rfl rfl rfl rfl)
    (fun all => all.withHeap (all.heap.modifyArray ref f new)) trivial

theorem ensures_modifyHash {ref : Nat} {f : Table Value → Table Value}
    (new : ∀ entry ∈ f (s.heap.hash ref), d.Fine s entry.2) :
    Ensures d base s (modifyHash ref f) (fun _ _ => True) :=
  ensures_modify (effect_of_same rfl rfl rfl rfl rfl rfl rfl rfl rfl rfl rfl rfl)
    (fun all => all.withHeap (all.heap.modifyHash ref f new)) trivial

theorem ensures_array (ref : Nat) :
    Ensures d base s (array ref) (Still s fun slots => slots = s.heap.array ref) :=
  ensures_get (fun _ => ensures_pure ⟨rfl, rfl⟩)

theorem ensures_hash (ref : Nat) :
    Ensures d base s (hash ref) (Still s fun entries => entries = s.heap.hash ref) :=
  ensures_get (fun _ => ensures_pure ⟨rfl, rfl⟩)

theorem fine_of_entry (ready : d.Ready base s) (ref : Nat) (key : Text) (v : Value)
    (found : s.heap.entry? ref key = some v) : d.Fine s v := by
  obtain ⟨w, hit, present⟩ := Option.bind_eq_some_iff.mp found
  -- the entry may hold a missing value, but then it does not count as found
  have fine : d.Fine s w := Table.holds_of_find? key w _ (ready.held.heap.entries ref) hit
  cases w with
  | missing => simp [Value.present?] at present
  | _ =>
      cases present
      exact fine

theorem ensures_entry (ref : Nat) (key : Text) :
    Ensures d base s (entry ref key) (Still s (d.Fine s)) := by
  apply ensures_get
  intro ready
  have fine : d.Fine s ((s.heap.entry? ref key).getD .null) := by
    cases found : s.heap.entry? ref key with
    | some v => exact fine_of_entry ready ref key v found
    | none => exact d.data rfl
  exact ensures_pure ⟨rfl, fine⟩

theorem ensures_emit (line : Text) (key : Option Text) :
    Ensures d base s (emit line key) (fun _ _ => True) :=
  ensures_counted (⟨line, key⟩ :: s.emitted) s.stamps s.programs rfl trivial

/-! Variables. -/

theorem ensures_lookup {scope : Nat} {name : Text} :
    Ensures d base s (lookup scope name) (Still s (d.Fine s)) := by
  apply ensures_get
  intro ready
  cases found : s.scopes.get? scope name with
  | some v =>
      exact ensures_pure ⟨rfl, ready.held.cells.get? (d.data rfl) scope name v found⟩
  | none => exact ensures_fault (by simp [Fault.IsExit])

/-- A name is bound anew, and that is noted, as one change. -/
theorem ensures_rebind {scope : Nat} {name : Text} {v : Value} {b : Binding}
    (inside : base ≤ scope) (rebinds : Rebinds d.terms.atTop s scope name b) (fine : d.Fine s v) :
    Ensures d base s (rebind scope name v b) (fun _ _ => True) := by
  intro ready
  have effect : Effect d.terms base s (s.rebinding scope name v b) :=
    .rebound s scope name v inside rebinds
  exact ⟨effect, ready.after (effect_grows effect) rfl (fun all =>
    ⟨all.cells.define scope name v fine, all.heap, all.handlers, all.natives, all.modules⟩),
    trivial⟩

theorem ensures_assign {scope : Nat} {name : Text} {v : Value} (inside : base ≤ scope)
    (fine : d.Fine s v) : Ensures d base s (assign scope name v) (fun _ _ => True) :=
  ensures_modify (.assign s scope name v inside)
    (fun all => all.withScopes (all.cells.assign scope name v fine)) trivial

/-- A new scope adds what is bound in it and nothing else. -/
theorem Ready.nested (ready : d.Ready base s) (parent : Nat) (kind : ScopeKind)
    {entries : List (Text × Value)} (fine : ∀ entry ∈ entries, d.Fine s entry.2) :
    d.Ready base (s.nested parent kind entries) := by
  apply ready.after (s.grows_nested parent kind entries) rfl
  intro all
  -- a scope without bindings adds no cell
  have cells : (s.scopes.child parent kind).2.All (d.value s.history) := all.cells
  exact all.withScopes (cells.defineAll _ entries fine)

/-- A new scope is made together with its first bindings; it comes behind all
scopes that are there, and there is room for `base`. -/
theorem ensures_scope {parent : Nat} {kind : ScopeKind} {entries : List (Text × Value)}
    {fill : Nat → Eval Unit} {rest : Nat → Eval β} {good : State → β → Prop}
    (filled : ∀ scope t,
      fill scope t = .ok () { t with scopes := t.scopes.defineAll scope entries })
    (inside : kind = .block → base ≤ parent) (inner : kind ≠ .global)
    (hung : d.terms.home ≤ parent) (fine : ∀ entry ∈ entries, d.Fine s entry.2)
    (after : ∀ scope t, base ≤ scope → Effect d.terms base s t →
      Ensures d base t (rest scope) good) :
    Ensures d base s (newScope parent kind >>= fun scope => fill scope >>= fun _ => rest scope)
      good := by
  intro ready
  have effect : Effect d.terms base s (s.nested parent kind entries) :=
    .child s parent kind entries inside inner hung
  have made : (newScope parent kind >>= fun scope => fill scope >>= fun _ => rest scope) s =
      rest s.scopes.scopes.size (s.nested parent kind entries) := bind_ok (filled _ _)
  rw [made]
  exact ends_after effect (after _ _ ready.room effect (ready.nested parent kind fine))

/-- A block in which nothing is bound at first. -/
theorem ensures_newBlock {parent : Nat} (inside : base ≤ parent) (hung : d.terms.home ≤ parent) :
    Ensures d base s (newScope parent .block) (fun _ scope => base ≤ scope) := by
  intro ready
  exact ensures_modifyGet (.child s parent .block [] (fun _ => inside) (by simp) hung)
    (fun all => all.withScopes all.cells) ready.room ready

theorem ensures_mark (m : Mark) (quiet : m.IsQuiet) :
    Ensures d base s (mark m) (fun t _ => t = { s with history := m :: s.history }) :=
  ensures_modify (.marked s m quiet) (fun all => all.of_same rfl rfl rfl rfl rfl) rfl

/-- Sharing leaves its mark whether or not it goes through. -/
theorem ensures_shareOuter {scope : Nat} {name : Text} (inside : base ≤ scope) :
    Ensures d base s (shareOuter scope name) (fun _ _ => True) := by
  cases hidden : s.scopes.hidesOuter scope name with
  | true =>
      rw [shareOuter_eq]
      apply ensures_bind (ensures_mark (.used name) trivial)
      intro _ t _ _ same
      subst same
      apply ensures_get
      intro _
      simp only [hidden, if_true]
      exact ensures_fault (by simp [Fault.IsExit])
  | false =>
      -- the marks and the sharing are one change, so the bind rule does not apply
      intro ready
      have effect : Effect d.terms base s (s.sharing scope name) :=
        .share s scope name inside hidden
      have after : d.Ready base (s.sharing scope name) :=
        ready.after (effect_grows effect) rfl (fun all => ⟨all.cells.share scope name (d.data rfl),
          all.heap, all.handlers, all.natives, all.modules⟩)
      have outcome : shareOuter scope name s = .ok () (s.sharing scope name) := by
        simp only [shareOuter_eq, mark, modify_bind_run, get_bind_run, hidden]
        rfl
      rw [outcome]
      exact ⟨effect, after, trivial⟩

end Discipline

end Loom
