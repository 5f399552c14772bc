import Loom.Value.Host
import Loom.Value.Written
import Mathlib.Data.Finset.Basic
import Mathlib.Data.Finset.Dedup

/-!
One set of containers for a whole walk. The containers around a value may be handed down
to what is inside it; or the walk keeps a single set, to which it adds each container on the
way in and from which it takes it on the way out. What is done inside a container leaves the set
as it found it, so both give the same data and the same text.
-/

namespace Loom

/-- A walk over values with the set of the containers that it is inside. -/
abbrev Walk (m : Type → Type) := StateT (Finset Container) m

namespace Walk

variable {m : Type → Type} [Monad m] {α β : Type}

/-- What is done inside a container, or something else where the walk is inside it already. -/
def enter (c : Container) (again contents : Walk m α) : Walk m α := do
  let seen ← get
  if c ∈ seen then again
  else
    modify (insert c)
    let a ← contents
    modify (fun seen => seen.erase c)
    pure a

/-- From this set on the walk has the result, and at its end the set is the same again. -/
def Keeps (seen : Finset Container) (walk : Walk m α) (result : m α) : Prop :=
  walk.run seen = (fun a => (a, seen)) <$> result

variable [LawfulMonad m] {seen : Finset Container} {walk : Walk m α} {result : m α}

theorem Keeps.pure (a : α) : Keeps (m := m) seen (pure a) (pure a) := by
  simp [Keeps]

theorem Keeps.lift (result : m α) : Keeps seen (StateT.lift result) result := by
  show StateT.lift result seen = _
  rw [map_eq_pure_bind]
  rfl

theorem Keeps.bind {next : α → Walk m β} {next' : α → m β} (first : Keeps seen walk result)
    (then' : ∀ a, Keeps seen (next a) (next' a)) :
      Keeps seen (walk >>= next) (result >>= next') := by
  unfold Keeps at first then' ⊢
  rw [StateT.run_bind, first]
  simp [then']

theorem Keeps.map (keeps : Keeps seen walk result) (f : α → β) :
    Keeps seen (f <$> walk) (f <$> result) := by
  unfold Keeps at keeps ⊢
  simp [keeps]

theorem Keeps.mapM {list : List β} {step : β → Walk m α} {step' : β → m α}
    (each : ∀ b, Keeps seen (step b) (step' b)) :
    Keeps seen (list.mapM step) (list.mapM step') := by
  induction list with
  | nil => exact .pure _
  | cons b rest ih =>
      rw [List.mapM_cons, List.mapM_cons]
      exact (each b).bind fun a => ih.bind fun as => .pure _

/-- The set holds the containers around a value. One that is entered was not among them, so it
can be taken out again when its contents are done. -/
theorem Keeps.enter {above : List Container} {c : Container} {again contents : Walk m α}
    {mark result : m α} (met : Keeps above.toFinset again mark)
    (within : Keeps (c :: above).toFinset contents result) :
    Keeps above.toFinset (enter c again contents) (if c ∈ above then mark else result) := by
  unfold Keeps at met within ⊢
  by_cases inside : c ∈ above
  · simp [Walk.enter, inside, met]
  · have fresh : c ∉ above.toFinset := by simpa using inside
    rw [List.toFinset_cons] at within
    simp [Walk.enter, inside, within, Finset.erase_insert fresh]

end Walk

/-! The data of a value. -/

namespace HostForm

/-- The conversion of a value, where `inner` converts what is one level deeper. -/
def walkLevel (heap : Heap) (inner : Value → Walk (Except Failure) HostData) :
    Value → Walk (Except Failure) HostData
  | .null => pure .null
  | .bool b => pure (.bool b)
  | .number x _ => pure (.num x)
  | .string t => pure (.str t)
  | .array ref =>
      .enter (.array ref) (StateT.lift (.error (.of (.wrongType (.cyclicToHost .array))))) do
        let items ← (heap.array ref).toList.mapM fun slot => slot.mapM inner
        pure (.arr items)
  | .hash ref =>
      .enter (.hash ref) (StateT.lift (.error (.of (.wrongType (.cyclicToHost .hash))))) do
        let fields ← (heap.hash ref).mapM fun entry => Prod.mk entry.1 <$> inner entry.2
        let kept := fields.filter fun field => field.1 ≠ Json.ancestorKey
        pure (.obj (Json.propertyOrder kept))
  | .function _ _ => StateT.lift (.error (.of (.wrongType (.toHost .function))))
  | .native _ _ => StateT.lift (.error (.of (.wrongType (.toHost .native))))
  | .missing => StateT.lift (.error (.host .missingValue))

def walk (heap : Heap) : (fuel : Nat) → Value → Walk (Except Failure) HostData
  | 0 => walkLevel heap fun _ => StateT.lift (.error (.host .missingValue))
  | fuel + 1 => walkLevel heap (walk heap fuel)

theorem elements_eq_mapM (inner : Value → Except Failure HostData) (slots : List Slot) :
    elements inner slots = slots.mapM fun slot => slot.mapM inner := by
  induction slots with
  | nil => rfl
  | cons slot rest ih => cases slot <;> simp [elements, ih]

theorem entries_eq_mapM (inner : Value → Except Failure HostData) (list : List (Text × Value)) :
    entries inner list = (do
      let fields ← list.mapM fun entry => Prod.mk entry.1 <$> inner entry.2
      pure (fields.filter fun field => field.1 ≠ Json.ancestorKey)) := by
  induction list with
  | nil => rfl
  | cons entry rest ih =>
      by_cases ancestor : entry.1 = Json.ancestorKey <;> simp [entries, ih, ancestor]

theorem walkLevel_keeps {heap : Heap} {step : Value → Walk (Except Failure) HostData}
    {inner : List Container → Value → Except Failure HostData}
    (keeps : ∀ above v, (step v).Keeps above.toFinset (inner above v)) (above : List Container)
    (v : Value) : (walkLevel heap step v).Keeps above.toFinset (level heap inner above v) := by
  cases v with
  | array ref =>
      refine Walk.Keeps.enter (.lift _) ?_
      rw [elements_eq_mapM]
      refine Walk.Keeps.bind (.mapM fun slot => ?_) fun items => .pure _
      cases slot with
      | none => exact .pure _
      | some v => exact (keeps _ v).map some
  | hash ref =>
      refine Walk.Keeps.enter (.lift _) ?_
      rw [entries_eq_mapM]
      simp only [bind_assoc, pure_bind]
      exact .bind (.mapM fun entry => (keeps _ entry.2).map _) fun fields => .pure _
  | function closure stamp => exact .lift _
  | native n stamp => exact .lift _
  | missing => exact .lift _
  | _ => exact .pure _

theorem walk_keeps (heap : Heap) (fuel : Nat) (above : List Container) (v : Value) :
    (walk heap fuel v).Keeps above.toFinset (within heap fuel above v) := by
  induction fuel generalizing above v with
  | zero => exact walkLevel_keeps (fun _ _ => .lift _) above v
  | succ fuel ih => exact walkLevel_keeps ih above v

end HostForm

/-- The data of a value is what a walk finds that starts with an empty set, and the set is
empty again when the walk has found it. -/
theorem Value.toHost_eq_walk (heap : Heap) (v : Value) :
    (HostForm.walk heap heap.size v).run ∅ = (fun data => (data, ∅)) <$> v.toHost heap :=
  HostForm.walk_keeps heap heap.size [] v

/-! The text of a value. -/

namespace Written

/-- The writing of a value, where `inner` writes what is one level deeper. -/
def walkLevel (heap : Heap) (inner : Value → Walk Option Text) : Value → Walk Option Text
  | .null => pure "null"
  | .bool b => pure (if b then "true" else "false")
  | .number x _ => pure (Decimal.text x)
  | .string t => pure t
  | .array ref =>
      .enter (.array ref) (pure "[...]") do
        let texts ← (heap.array ref).toList.mapM fun slot => (·.getD []) <$> slot.mapM inner
        pure ("[" ++ Text.join ", " texts ++ "]")
  | .hash ref =>
      .enter (.hash ref) (pure "\x7b...\x7d") do
        let pairs ← (heap.hash ref).mapM fun (entry : Text × Value) =>
          (fun text : Text => (entry.1 ++ ": " ++ text : Text)) <$> inner entry.2
        pure ("\x7b" ++ Text.join ", " pairs ++ "\x7d")
  | .function closure _ => pure ("<function " ++ closure.name ++ ">")
  | .native n _ => pure ("<native " ++ n.action.name ++ ">")
  | .missing => StateT.lift none

def walk (heap : Heap) : (fuel : Nat) → Value → Walk Option Text
  | 0 => walkLevel heap fun _ => StateT.lift none
  | fuel + 1 => walkLevel heap (walk heap fuel)

theorem elements?_eq_mapM (inner : Value → Option Text) (slots : List Slot) :
    elements? inner slots = slots.mapM fun slot => (·.getD []) <$> slot.mapM inner := by
  induction slots with
  | nil => rfl
  | cons slot rest ih =>
      rw [List.mapM_cons]
      cases slot with
      | none =>
          rw [elements?, ih, Option.map_eq_bind]
          rfl
      | some v => simp [elements?, ih]

theorem entries?_eq_mapM (inner : Value → Option Text) (list : List (Text × Value)) :
    entries? inner list =
      list.mapM fun (entry : Text × Value) =>
        (fun text : Text => (entry.1 ++ ": " ++ text : Text)) <$> inner entry.2 := by
  induction list with
  | nil => rfl
  | cons entry rest ih =>
      rw [List.mapM_cons, entries?, ih]
      cases inner entry.2 <;> rfl

theorem walkLevel_keeps {heap : Heap} {step : Value → Walk Option Text}
    {inner : List Container → Value → Option Text}
    (keeps : ∀ above v, (step v).Keeps above.toFinset (inner above v)) (above : List Container)
    (v : Value) : (walkLevel heap step v).Keeps above.toFinset (level heap inner above v) := by
  cases v with
  | array ref =>
      refine Walk.Keeps.enter (.pure _) ?_
      rw [elements?_eq_mapM]
      refine Walk.Keeps.bind (.mapM fun slot => ?_) fun items => .pure _
      cases slot with
      | none => exact .pure _
      | some v => exact ((keeps _ v).map some).map _
  | hash ref =>
      refine Walk.Keeps.enter (.pure _) ?_
      rw [entries?_eq_mapM]
      exact .bind (.mapM fun entry => (keeps _ entry.2).map _) fun fields => .pure _
  | missing => exact .lift _
  | _ => exact .pure _

theorem walk_keeps (heap : Heap) (fuel : Nat) (above : List Container) (v : Value) :
    (walk heap fuel v).Keeps above.toFinset (within heap fuel above v) := by
  induction fuel generalizing above v with
  | zero => exact walkLevel_keeps (fun _ _ => .lift _) above v
  | succ fuel ih => exact walkLevel_keeps ih above v

end Written

/-- The text of a value is what a walk writes that starts with an empty set, and leaves it so. -/
theorem Value.text?_eq_walk (heap : Heap) (v : Value) :
    (Written.walk heap heap.size v).run ∅ = (fun text => (text, ∅)) <$> v.text? heap :=
  Written.walk_keeps heap heap.size [] v

end Loom
