import Loom.Proofs.Tree.Check

/-!
Data of any sort. The check tries the sorts in their order, at every depth anew. Some sort
always fits, and nothing of the data is lost but what stands under the ancestor key.
-/

namespace Loom

namespace Json

theorem withoutAncestorsIn_eq (items : List Json) :
    withoutAncestorsIn items = items.map withoutAncestors := by
  induction items with
  | nil => rfl
  | cons item rest ih => rw [withoutAncestorsIn, ih, List.map_cons]

theorem withoutAncestorFields_eq (fields : List (Text × Json)) :
    withoutAncestorFields fields =
      (fields.filter fun field => field.1 ≠ ancestorKey).map fun field =>
        (field.1, field.2.withoutAncestors) := by
  induction fields with
  | nil => rfl
  | cons field rest ih =>
      obtain ⟨key, value⟩ := field
      by_cases ancestor : key = ancestorKey <;> simp [withoutAncestorFields, ancestor, ih]

mutual

/-- What has lost its ancestor keys has no more of them to lose. -/
theorem withoutAncestors_twice : ∀ data : Json,
    data.withoutAncestors.withoutAncestors = data.withoutAncestors
  | .null | .bool _ | .num _ | .str _ => rfl
  | .arr items => by simp only [withoutAncestors, withoutAncestorsIn_twice items]
  | .obj fields => by simp only [withoutAncestors, withoutAncestorFields_twice fields]

theorem withoutAncestorsIn_twice : ∀ items : List Json,
    withoutAncestorsIn (withoutAncestorsIn items) = withoutAncestorsIn items
  | [] => rfl
  | item :: rest => by
      simp only [withoutAncestorsIn, withoutAncestors_twice item, withoutAncestorsIn_twice rest]

theorem withoutAncestorFields_twice : ∀ fields : List (Text × Json),
    withoutAncestorFields (withoutAncestorFields fields) = withoutAncestorFields fields
  | [] => rfl
  | (key, value) :: rest => by
      by_cases ancestor : key = ancestorKey
      · simp only [withoutAncestorFields, ancestor, if_true, withoutAncestorFields_twice rest]
      · simp only [withoutAncestorFields, ancestor, if_false, withoutAncestors_twice value,
          withoutAncestorFields_twice rest]

end

theorem depth_le_of_mem_fields {key : Text} {value : Json} {fields : List (Text × Json)}
    (member : (key, value) ∈ fields) : value.depth ≤ depthOfFields fields := by
  induction fields with
  | nil => cases member
  | cons field rest ih =>
      obtain ⟨first, inner⟩ := field
      rcases List.mem_cons.mp member with same | later
      · cases same
        exact Nat.le_max_left _ _
      · exact Nat.le_trans (ih later) (Nat.le_max_right _ _)

end Json

namespace Check

variable {α : Type} {path : List Text} {data : Json}

theorem as_valid {β : Type} {f : α → β} {check : Check α} {a : α}
    (valid : check path data = .valid a) : check.as f path data = .valid (f a) :=
  Verdict.valid_map.mpr ⟨a, valid, rfl⟩

theorem list_valid {check : Check α} {f : Json → α} {items : List Json}
    (each : ∀ item ∈ items, ∀ path, check path item = .valid (f item)) :
    list check path (.arr items) = .valid (items.map f) := by
  have all : ∀ i, eachFrom check path i items = (items.map f).map .valid := by
    induction items with
    | nil => exact fun _ => rfl
    | cons item rest ih =>
        intro i
        rw [eachFrom, each item (.head _), ih (fun item member => each item (.tail _ member)),
          List.map_cons, List.map_cons]
  exact Verdict.valid_collect.mpr (all 0)

theorem record_valid {check : Check α} {f : Json → α} {fields : List (Text × Json)}
    (each : ∀ key value, (key, value) ∈ fields → ∀ path, check path value = .valid (f value)) :
    record check path (.obj fields) =
      .valid ((fields.filter fun field => field.1 ≠ Json.ancestorKey).map fun field =>
        (field.1, f field.2)) := by
  have all : (fields.map fun field =>
      Prod.mk field.1 <$> check (path ++ [field.1]) field.2) =
      (fields.map fun field => (field.1, f field.2)).map .valid := by
    rw [List.map_map]
    refine List.map_congr_left fun field member => ?_
    exact Verdict.valid_map.mpr ⟨_, each field.1 field.2 member _, rfl⟩
  refine Verdict.valid_map.mpr ⟨_, Verdict.valid_collect.mpr all, ?_⟩
  rw [List.filter_map]
  rfl

/-- Of the sorts that data may have one fits, at every depth, and what is found is the data
without its ancestor keys. -/
theorem dataWithin_valid (fuel : Nat) (path : List Text) (data : Json)
    (shallow : data.depth < fuel) :
    dataWithin fuel path data = .valid data.withoutAncestors := by
  induction fuel generalizing path data with
  | zero => exact absurd shallow (Nat.not_lt_zero _)
  | succ fuel ih =>
      cases data with
      | null | bool b | num x | str t => rfl
      | arr items =>
          have inner : list (fun path data => dataWithin fuel path data) path (.arr items) =
              .valid (items.map Json.withoutAncestors) := by
            refine list_valid fun item member path => ih path item ?_
            exact Nat.lt_of_le_of_lt (Json.depth_le_of_mem member) (Nat.lt_of_succ_lt_succ shallow)
          rw [dataWithin, union_of_aborted rfl, union_of_aborted rfl, union_of_aborted rfl,
            union_of_aborted rfl, union_of_valid (as_valid inner), Json.withoutAncestors,
            Json.withoutAncestorsIn_eq]
      | obj fields =>
          have inner : record (fun path data => dataWithin fuel path data) path (.obj fields) =
              .valid (Json.withoutAncestorFields fields) := by
            rw [Json.withoutAncestorFields_eq]
            refine record_valid fun key value member path => ih path value ?_
            exact Nat.lt_of_le_of_lt (Json.depth_le_of_mem_fields member)
              (Nat.lt_of_succ_lt_succ shallow)
          rw [dataWithin, union_of_aborted rfl, union_of_aborted rfl, union_of_aborted rfl,
            union_of_aborted rfl, union_of_aborted rfl, union_of_valid (as_valid inner),
            Json.withoutAncestors]

theorem anyData_valid (path : List Text) (data : Json) :
    anyData path data = .valid data.withoutAncestors :=
  dataWithin_valid _ path data (Nat.lt_succ_self _)

end Check

end Loom
