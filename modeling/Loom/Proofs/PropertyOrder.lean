import Loom.Json
import Mathlib.Algebra.Group.Nat.Defs
import Mathlib.Data.List.Basic

/-!
The order of the fields of a record. The keys that are array indexes stand in front,
ascending, and a record whose fields stand so already is left as it is. An array
index is a count up to the largest one, and its key is the count in decimal digits.
-/

namespace Loom

namespace Text

/-! Decimal digits. -/

/-- The unit of a digit. -/
def digit (d : Nat) : UInt16 := 0x30 + d.toUInt16

theorem ofChar_digitChar {d : Nat} (small : d < 10) : ofChar (Nat.digitChar d) = [digit d] := by
  have each : ∀ d : Fin 10, ofChar (Nat.digitChar d) = [digit d] := by decide
  exact each ⟨d, small⟩

theorem ofNat_eq (n : Nat) : ofNat n = (Nat.toDigits 10 n).flatMap ofChar := by
  simp [ofNat, ofString, Nat.repr]

theorem ofNat_of_lt_ten {n : Nat} (small : n < 10) : ofNat n = [digit n] := by
  simp [ofNat_eq, Nat.toDigits_of_lt_base small, ofChar_digitChar small]

theorem ofNat_append_digit {n d : Nat} (positive : 0 < n) (small : d < 10) :
    ofNat (10 * n + d) = ofNat n ++ [digit d] := by
  have digits := Nat.toDigits_append_toDigits (b := 10) (by decide) positive small
  rw [ofNat_eq, ← digits, List.flatMap_append, ← ofNat_eq, ← ofNat_eq, ofNat_of_lt_ten small]

/-- A count is a digit, or a digit behind a smaller one. -/
theorem ofNat_induction {P : Nat → Prop} (single : ∀ d < 10, P d)
    (behind : ∀ n d, 0 < n → d < 10 → P n → P (10 * n + d)) (n : Nat) : P n := by
  induction n using Nat.strongRecOn with
  | ind n ih =>
      by_cases small : n < 10
      · exact single n small
      · have parts : 10 * (n / 10) + n % 10 = n := Nat.div_add_mod n 10
        rw [← parts]
        exact behind (n / 10) (n % 10) (by omega) (by omega) (ih (n / 10) (by omega))

theorem digit_toNat {d : Nat} (small : d < 10) : (digit d).toNat = 0x30 + d := by
  have each : ∀ d : Fin 10, (digit d).toNat = 0x30 + d := by decide
  exact each ⟨d, small⟩

def isDigit (u : UInt16) : Bool := 0x30 ≤ u && u ≤ 0x39

theorem isDigit_digit {d : Nat} (small : d < 10) : isDigit (digit d) = true := by
  have each : ∀ d : Fin 10, isDigit (digit d) = true := by decide
  exact each ⟨d, small⟩

theorem ofNat_digits (n : Nat) : (ofNat n).all isDigit = true := by
  induction n using ofNat_induction with
  | single d small => simp [ofNat_of_lt_ten small, isDigit_digit small]
  | behind n d positive small ih =>
      simp [ofNat_append_digit positive small, ih, isDigit_digit small]

/-- The count that digits spell. -/
theorem ofNat_spells (n : Nat) :
    (ofNat n).foldl (fun n u => n * 10 + (u.toNat - 0x30)) 0 = n := by
  induction n using ofNat_induction with
  | single d small => simp [ofNat_of_lt_ten small, digit_toNat small]
  | behind n d positive small ih =>
      rw [ofNat_append_digit positive small, List.foldl_append, ih, List.foldl_cons, List.foldl_nil,
        digit_toNat small]
      omega

theorem ofNat_ne_nil (n : Nat) : ofNat n ≠ [] := by
  induction n using ofNat_induction with
  | single d small => simp [ofNat_of_lt_ten small]
  | behind n d positive small _ => simp [ofNat_append_digit positive small]

theorem ofNat_length {n k : Nat} (bound : n < 10 ^ (k + 1)) : (ofNat n).length ≤ k + 1 := by
  induction n using ofNat_induction generalizing k with
  | single d small => simp [ofNat_of_lt_ten small]
  | behind n d positive small ih =>
      cases k with
      | zero => omega
      | succ k =>
          have fewer : n < 10 ^ (k + 1) := by
            rw [Nat.pow_succ] at bound
            omega
          simpa [ofNat_append_digit positive small] using ih fewer

end Text

namespace Json

/-- A key is an array index if it is the digits of a count that is not too large. -/
theorem arrayIndex_eq_some_iff (key : Text) (i : Nat) :
    arrayIndex? key = some i ↔ key = Text.ofNat i ∧ i ≤ maxIndex := by
  constructor
  · intro found
    simp only [arrayIndex?] at found
    split at found
    · cases found
    · split at found
      · rename_i canonical
        cases found
        exact ⟨canonical.1.symm, canonical.2⟩
      · cases found
  · rintro ⟨rfl, bound⟩
    have short : (Text.ofNat i).length ≤ 10 :=
      Text.ofNat_length (by unfold maxIndex at bound; omega)
    have filled : (Text.ofNat i).isEmpty = false := by simp [Text.ofNat_ne_nil]
    have digits : (Text.ofNat i).all (fun u => 0x30 ≤ u && u ≤ 0x39) = true := Text.ofNat_digits i
    simp only [arrayIndex?, filled, digits, Text.ofNat_spells, bound, Nat.not_lt.mpr short]
    simp

theorem arrayIndex_ofNat {i : Nat} (bound : i ≤ maxIndex) : arrayIndex? (Text.ofNat i) = some i :=
  (arrayIndex_eq_some_iff _ i).mpr ⟨rfl, bound⟩

variable {α : Type}

/-- The fields whose keys are array indexes, with these. -/
def indexed (fields : Table α) : List (Nat × (Text × α)) :=
  fields.filterMap fun field => (arrayIndex? field.1).map fun i => (i, field)

/-- Those fields, ascending. -/
def ascending (fields : Table α) : List (Nat × (Text × α)) :=
  (indexed fields).mergeSort fun a b => a.1 ≤ b.1

/-- The fields whose keys are no array indexes. -/
def others (fields : Table α) : Table α := fields.filter fun field => (arrayIndex? field.1).isNone

theorem propertyOrder_eq (fields : Table α) :
    propertyOrder fields = (ascending fields).map (·.2) ++ others fields := rfl

theorem arrayIndex_of_mem_indexed {fields : Table α} {i : Nat} {field : Text × α}
    (member : (i, field) ∈ indexed fields) : field ∈ fields ∧ arrayIndex? field.1 = some i := by
  obtain ⟨field', inside, found⟩ := List.mem_filterMap.mp member
  obtain ⟨j, index, same⟩ := Option.map_eq_some_iff.mp found
  cases same
  exact ⟨inside, index⟩

theorem indexed_append_others (fields : Table α) :
    ((indexed fields).map (·.2) ++ others fields).Perm fields := by
  induction fields with
  | nil => rfl
  | cons field rest ih =>
      cases index : arrayIndex? field.1 with
      | none => simpa [indexed, others, index] using List.perm_middle.trans (ih.cons field)
      | some i => simpa [indexed, others, index] using ih

theorem propertyOrder_perm (fields : Table α) : (propertyOrder fields).Perm fields :=
  (((List.mergeSort_perm _ _).map _).append_right _).trans (indexed_append_others fields)

/-- A key that may stand before another one in a record. -/
def Precedes (key later : Text) : Prop :=
  ∀ j, arrayIndex? later = some j → ∃ i, arrayIndex? key = some i ∧ i < j

theorem precedes_of_no_index {key later : Text} (none : arrayIndex? later = none) :
    Precedes key later := by
  intro j found
  rw [none] at found
  cases found

theorem indexed_append_others_of_precedes (fields : Table α)
    (ordered : fields.Pairwise fun a b => Precedes a.1 b.1) :
    (indexed fields).map (·.2) ++ others fields = fields := by
  induction fields with
  | nil => rfl
  | cons field rest ih =>
      obtain ⟨first, ordered⟩ := List.pairwise_cons.mp ordered
      cases index : arrayIndex? field.1 with
      | some i => simpa [indexed, others, index] using ih ordered
      | none =>
          -- behind a key that is no index there is none
          have none : indexed rest = [] := by
            refine List.filterMap_eq_nil_iff.mpr fun later member => ?_
            cases index' : arrayIndex? later.1 with
            | none => rfl
            | some j =>
                obtain ⟨i, found, -⟩ := first later member j index'
                rw [index] at found
                cases found
          have front : indexed (field :: rest) = [] := by simpa [indexed, index] using none
          have rest' := ih ordered
          rw [none, List.map_nil, List.nil_append] at rest'
          rw [front, List.map_nil, List.nil_append, others,
            List.filter_cons_of_pos (by simp [index])]
          exact congrArg (field :: ·) rest'

/-- Fields that stand in their order are left as they are. -/
theorem propertyOrder_of_precedes (fields : Table α) (ordered : fields.keys.Pairwise Precedes) :
    propertyOrder fields = fields := by
  have ordered : fields.Pairwise fun a b => Precedes a.1 b.1 := List.pairwise_map.mp ordered
  have sorted : (indexed fields).Pairwise fun a b => decide (a.1 ≤ b.1) = true := by
    refine ordered.filterMap _ ?_
    intro a b precedes a' found b' found'
    obtain ⟨i, index, rfl⟩ := Option.map_eq_some_iff.mp found
    obtain ⟨j, index', rfl⟩ := Option.map_eq_some_iff.mp found'
    obtain ⟨i', index'', less⟩ := precedes j index'
    cases index.symm.trans index''
    exact decide_eq_true (Nat.le_of_lt less)
  rw [propertyOrder_eq, ascending, List.mergeSort_of_pairwise sorted]
  exact indexed_append_others_of_precedes fields ordered

theorem ascending_sorted (fields : Table α) : (ascending fields).Pairwise fun a b => a.1 ≤ b.1 := by
  have sorted : (ascending fields).Pairwise fun a b => decide (a.1 ≤ b.1) = true := by
    apply List.pairwise_mergeSort
    · intro a b c left right
      exact decide_eq_true (Nat.le_trans (of_decide_eq_true left) (of_decide_eq_true right))
    · intro a b
      simpa using Nat.le_total a.1 b.1
  exact sorted.imp of_decide_eq_true

/-- The keys of a record in their order: array indexes ascending, then the others as
they stood. -/
theorem propertyOrder_keys (fields : Table α) (distinct : fields.keys.Nodup) :
    ∃ indexes : List Nat, indexes.Pairwise (· < ·) ∧
      (∀ i, i ∈ indexes ↔ i ≤ maxIndex ∧ Text.ofNat i ∈ fields.keys) ∧
      (propertyOrder fields).keys =
        indexes.map Text.ofNat ++ fields.keys.filter fun key => (arrayIndex? key).isNone := by
  have same : ∀ entry ∈ ascending fields, entry.2.1 = Text.ofNat entry.1 := by
    intro entry member
    have index := (arrayIndex_of_mem_indexed (List.mem_mergeSort.mp member)).2
    exact ((arrayIndex_eq_some_iff _ _).mp index).1
  refine ⟨(ascending fields).map (·.1), ?_, ?_, ?_⟩
  · have keys := ((propertyOrder_perm fields).map Prod.fst).nodup_iff.mpr distinct
    rw [propertyOrder_eq, List.map_append, List.map_map] at keys
    have apart : (ascending fields).Pairwise fun a b => a.2.1 ≠ b.2.1 :=
      List.pairwise_map.mp (List.nodup_append.mp keys).1
    refine List.pairwise_map.mpr (((ascending_sorted fields).and apart).imp_of_mem ?_)
    rintro a b left right ⟨le, other⟩
    refine Nat.lt_of_le_of_ne le fun equal => other ?_
    rw [same a left, same b right, equal]
  · intro i
    constructor
    · intro member
      obtain ⟨⟨_, field⟩, inside, rfl⟩ := List.mem_map.mp member
      obtain ⟨there, index⟩ := arrayIndex_of_mem_indexed (List.mem_mergeSort.mp inside)
      obtain ⟨key, bound⟩ := (arrayIndex_eq_some_iff _ _).mp index
      exact ⟨bound, key ▸ List.mem_map_of_mem there⟩
    · rintro ⟨bound, member⟩
      obtain ⟨field, inside, key⟩ := List.mem_map.mp member
      refine List.mem_map.mpr ⟨(i, field), List.mem_mergeSort.mpr ?_, rfl⟩
      refine List.mem_filterMap.mpr ⟨field, inside, ?_⟩
      rw [key, arrayIndex_ofNat bound]
      rfl
  · have front : (ascending fields).map (fun entry => entry.2.1) =
        (ascending fields).map fun entry => Text.ofNat entry.1 := List.map_congr_left same
    simp only [propertyOrder_eq, Table.keys, List.map_append, List.map_map, others,
      List.filter_map]
    exact congrArg (· ++ _) front

/-- Fields with different keys are put in their order. -/
theorem propertyOrder_precedes (fields : Table α) (distinct : fields.keys.Nodup) :
    (propertyOrder fields).keys.Pairwise Precedes := by
  obtain ⟨indexes, sorted, member, keys⟩ := propertyOrder_keys fields distinct
  have bound : ∀ i ∈ indexes, i ≤ maxIndex := fun i inside => ((member i).mp inside).1
  rw [keys]
  refine List.pairwise_append.mpr ⟨List.pairwise_map.mpr (sorted.imp_of_mem ?_), ?_, ?_⟩
  · intro i j left right less k found
    rw [arrayIndex_ofNat (bound j right)] at found
    cases found
    exact ⟨i, arrayIndex_ofNat (bound i left), less⟩
  · refine List.pairwise_of_forall_mem_list fun a _ b right => ?_
    exact precedes_of_no_index (by simpa using (List.mem_filter.mp right).2)
  · intro a _ b right
    exact precedes_of_no_index (by simpa using (List.mem_filter.mp right).2)

end Json

end Loom
