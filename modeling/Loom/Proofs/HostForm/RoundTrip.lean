import Loom.Proofs.Growth
import Loom.Proofs.Held
import Loom.Proofs.HostForm

/-!
Data of a host that becomes a value and is data again, and values that become data and
are values again. Data comes back without its fields of the ancestor key and is else
the same. A value comes back as a copy at every depth, but for the order of the keys
of hashes: the array indexes among them come to the front, ascending.
-/

namespace Loom

namespace HostData

mutual

/-- Each record lists its fields in the order that records have. -/
def InOrder : HostData → Prop
  | arr items => InOrderAll items
  | obj fields => (Table.keys fields).Pairwise Json.Precedes ∧ InOrderFields fields
  | _ => True

def InOrderAll : List (Option HostData) → Prop
  | [] => True
  | none :: rest => InOrderAll rest
  | some item :: rest => item.InOrder ∧ InOrderAll rest

def InOrderFields : List (Text × HostData) → Prop
  | [] => True
  | (_, value) :: rest => value.InOrder ∧ InOrderFields rest

end

mutual

/-- The data without any field of the ancestor key, at every depth. -/
def withoutAncestors : HostData → HostData
  | arr items => arr (withoutAncestorsIn items)
  | obj fields => obj (withoutAncestorFields fields)
  | data => data

def withoutAncestorsIn : List (Option HostData) → List (Option HostData)
  | [] => []
  | none :: rest => none :: withoutAncestorsIn rest
  | some item :: rest => some item.withoutAncestors :: withoutAncestorsIn rest

def withoutAncestorFields : List (Text × HostData) → List (Text × HostData)
  | [] => []
  | (key, value) :: rest =>
      if key = Json.ancestorKey then withoutAncestorFields rest
      else (key, value.withoutAncestors) :: withoutAncestorFields rest

end

theorem inOrderFields_of_forall : ∀ {fields : List (Text × HostData)},
    (∀ field ∈ fields, field.2.InOrder) → InOrderFields fields
  | [], _ => trivial
  | (_, _) :: _, each =>
      ⟨each _ (.head _), inOrderFields_of_forall fun field member => each field (.tail _ member)⟩

/-- A record that is made of fields lists them in order, whatever order they come in. -/
theorem inOrder_ofFields (fields : List (Text × HostData))
    (each : ∀ field ∈ fields, field.2.InOrder) : (ofFields fields).InOrder := by
  refine ⟨Json.propertyOrder_precedes _ (Table.nodup_ofEntries fields), ?_⟩
  refine inOrderFields_of_forall fun field member => ?_
  exact Table.forall_ofEntries fields each field ((Json.propertyOrder_perm _).mem_iff.mp member)

theorem withoutAncestorFields_keys (fields : List (Text × HostData)) :
    Table.keys (withoutAncestorFields fields) =
      (Table.keys fields).filter (· ≠ Json.ancestorKey) := by
  induction fields with
  | nil => rfl
  | cons field rest ih =>
      obtain ⟨key, value⟩ := field
      by_cases ancestor : key = Json.ancestorKey <;>
        simp_all [withoutAncestorFields, Table.keys]

/-- Leaving fields out does not disturb the order. -/
theorem propertyOrder_withoutAncestorFields {fields : List (Text × HostData)}
    (ordered : (Table.keys fields).Pairwise Json.Precedes) :
    Json.propertyOrder (withoutAncestorFields fields) = withoutAncestorFields fields := by
  apply Json.propertyOrder_of_precedes
  rw [withoutAncestorFields_keys]
  exact ordered.filter _

end HostData

/-! From data to a value and back. -/

/-- Containers that come later than all of a heap. -/
structure Heap.Before (heap : Heap) (above : List Container) : Prop where
  arrays : ∀ ref, .array ref ∈ above → heap.arrays.size ≤ ref
  hashes : ∀ ref, .hash ref ∈ above → heap.hashes.size ≤ ref

theorem Heap.Before.earlier {heap later : Heap} {above : List Container}
    (before : later.Before above) (grows : heap.Grows later) : heap.Before above where
  arrays ref member := Nat.le_trans grows.arrays (before.arrays ref member)
  hashes ref member := Nat.le_trans grows.hashes (before.hashes ref member)

theorem Heap.Before.cons {heap : Heap} {c : Container} {above : List Container}
    (first : heap.Before [c]) (others : heap.Before above) : heap.Before (c :: above) where
  arrays ref member := by
    rcases List.mem_cons.mp member with same | further
    · exact first.arrays ref (by simp [same])
    · exact others.arrays ref further
  hashes ref member := by
    rcases List.mem_cons.mp member with same | further
    · exact first.hashes ref (by simp [same])
    · exact others.hashes ref further

/-- A new array is around all that was made before it. -/
theorem Heap.Before.newArray {heap : Heap} {slots : Array Slot} {above : List Container}
    (before : (heap.newArray slots).2.Before above) :
    heap.Before (.array heap.arrays.size :: above) ∧ .array heap.arrays.size ∉ above := by
  have first : heap.Before [.array heap.arrays.size] := ⟨by simp, by simp⟩
  refine ⟨first.cons (before.earlier (heap.grows_newArray slots)), fun member => ?_⟩
  exact absurd (before.arrays _ member) (by simp [Heap.newArray])

theorem Heap.Before.newHash {heap : Heap} {entries : Table Value} {above : List Container}
    (before : (heap.newHash entries).2.Before above) :
    heap.Before (.hash heap.hashes.size :: above) ∧ .hash heap.hashes.size ∉ above := by
  have first : heap.Before [.hash heap.hashes.size] := ⟨by simp, by simp⟩
  refine ⟨first.cons (before.earlier (heap.grows_newHash entries)), fun member => ?_⟩
  exact absurd (before.hashes _ member) (by simp [Heap.newHash])

mutual

/-- The value of some data unfolds into the tree of that data, also when the heap has
grown since; it is no deeper than there are containers made for it. -/
theorem unfolds_ofHost : ∀ (data : HostData) (heap : Heap) (n : Nat) {final : Heap}
    {above : List Container}, data.InOrder → (Value.ofHost data heap n).2.Grows final →
      (Value.ofHost data heap n).2.Before above →
        ∃ tree, Unfolds final above (Value.ofHost data heap n).1 tree ∧ tree.isData = true ∧
          tree.data = data.withoutAncestors ∧
          heap.size + tree.depth ≤ (Value.ofHost data heap n).2.size
  | .null, _, _, _, _, _, _, _ => ⟨_, .leaf rfl, rfl, rfl, Nat.le_refl _⟩
  | .bool _, _, _, _, _, _, _, _ => ⟨_, .leaf rfl, rfl, rfl, Nat.le_refl _⟩
  | .num _, _, _, _, _, _, _, _ => ⟨_, .leaf rfl, rfl, rfl, Nat.le_refl _⟩
  | .str _, _, _, _, _, _, _, _ => ⟨_, .leaf rfl, rfl, rfl, Nat.le_refl _⟩
  | .arr items, heap, n, final, above, ordered, grows, before => by
      obtain ⟨inside, outside⟩ := Heap.Before.newArray before
      obtain ⟨trees, contents, isData, data, bound⟩ := unfoldsAll_ofHost items heap n ordered
        ((Heap.grows_newArray _ _).trans grows) inside
      refine ⟨.array _ trees, .array outside ?_, by simpa [Unfolding.isData, Unfolding.parts,
        Unfolding.hasForm] using isData, congrArg HostData.arr data, ?_⟩
      · rw [grows.newArray]
        exact contents
      · simp only [Value.ofHost, Heap.newArray, Heap.size, Array.size_push,
          Unfolding.depth] at bound ⊢
        omega
  | .obj fields, heap, n, final, above, ordered, grows, before => by
      obtain ⟨inside, outside⟩ := Heap.Before.newHash before
      obtain ⟨trees, contents, isData, data, bound⟩ := unfoldsEntries_ofHost fields heap n
        ordered.2 ((Heap.grows_newHash _ _).trans grows) inside
      refine ⟨.hash _ trees, .hash outside ?_, by simpa [Unfolding.isData, Unfolding.parts,
        Unfolding.hasForm] using isData, ?_, ?_⟩
      · rw [grows.newHash]
        exact contents
      · rw [Unfolding.data, data, HostData.propertyOrder_withoutAncestorFields ordered.1,
          HostData.withoutAncestors]
      · simp only [Value.ofHost, Heap.newHash, Heap.size, Array.size_push,
          Unfolding.depth] at bound ⊢
        omega

theorem unfoldsAll_ofHost : ∀ (items : List (Option HostData)) (heap : Heap) (n : Nat)
    {final : Heap} {above : List Container},
    HostData.InOrderAll items → (Value.allOfHost items heap n).2.Grows final →
      (Value.allOfHost items heap n).2.Before above →
        ∃ trees, UnfoldsAll final above (Value.allOfHost items heap n).1 trees ∧
          (Unfolding.partsOfAll trees).all Unfolding.hasForm = true ∧
          Unfolding.dataOfAll trees = HostData.withoutAncestorsIn items ∧
          heap.size + Unfolding.depthOfAll trees ≤ (Value.allOfHost items heap n).2.size + 1
  | [], _, _, _, _, _, _, _ => ⟨[], .nil, rfl, rfl, Nat.le_succ _⟩
  | none :: rest, heap, n, final, above, ordered, grows, before => by
      obtain ⟨trees, others, isData, data, bound⟩ :=
        unfoldsAll_ofHost rest heap n ordered grows before
      refine ⟨.gap :: trees, .gap others, ?_, congrArg (none :: ·) data, ?_⟩
      · simpa [Unfolding.partsOfAll, Unfolding.parts, Unfolding.hasForm] using isData
      · have grown := (Heap.grows_allOfHost rest heap n).size
        simp only [Value.allOfHost, Unfolding.depthOfAll, Unfolding.depth]
        omega
  | some item :: rest, heap, n, final, above, ordered, grows, before => by
      have further := Heap.grows_allOfHost rest (Value.ofHost item heap n).2 (n + item.nans)
      obtain ⟨tree, first, isData, data, bound⟩ := unfolds_ofHost item heap n ordered.1
        (further.trans grows) (before.earlier further)
      obtain ⟨trees, others, isData', data', bound'⟩ :=
        unfoldsAll_ofHost rest _ (n + item.nans) ordered.2 grows before
      refine ⟨tree :: trees, .slot first others, ?_, ?_, ?_⟩
      · simp only [Unfolding.partsOfAll, List.all_append, Bool.and_eq_true]
        exact ⟨isData, isData'⟩
      · rw [dataOfAll_of_unfolds first, data, data', HostData.withoutAncestorsIn]
      · have grown := (Heap.grows_ofHost item heap n).size
        have grown' := further.size
        simp only [Value.allOfHost, Unfolding.depthOfAll]
        omega

theorem unfoldsEntries_ofHost : ∀ (fields : List (Text × HostData)) (heap : Heap) (n : Nat)
    {final : Heap} {above : List Container}, HostData.InOrderFields fields →
      (Value.fieldsOfHost fields heap n).2.Grows final →
        (Value.fieldsOfHost fields heap n).2.Before above →
          ∃ trees, UnfoldsEntries final above (Value.fieldsOfHost fields heap n).1 trees ∧
            (Unfolding.partsOfEntries trees).all Unfolding.hasForm = true ∧
            Unfolding.dataOfEntries trees = HostData.withoutAncestorFields fields ∧
            heap.size + Unfolding.depthOfEntries trees ≤
              (Value.fieldsOfHost fields heap n).2.size + 1
  | [], _, _, _, _, _, _, _ => ⟨[], .nil, rfl, rfl, Nat.le_succ _⟩
  | (key, item) :: rest, heap, n, final, above, ordered, grows, before => by
      have further := Heap.grows_fieldsOfHost rest (Value.ofHost item heap n).2 (n + item.nans)
      obtain ⟨tree, first, isData, data, bound⟩ := unfolds_ofHost item heap n ordered.1
        (further.trans grows) (before.earlier further)
      obtain ⟨trees, others, isData', data', bound'⟩ :=
        unfoldsEntries_ofHost rest _ (n + item.nans) ordered.2 grows before
      refine ⟨(key, tree) :: trees, .entry first others, ?_, ?_, ?_⟩
      · simp only [Unfolding.partsOfEntries, List.all_append, Bool.and_eq_true]
        exact ⟨isData, isData'⟩
      · simp only [Unfolding.dataOfEntries, data, data', HostData.withoutAncestorFields]
      · have grown := (Heap.grows_ofHost item heap n).size
        have grown' := further.size
        simp only [Value.fieldsOfHost, Unfolding.depthOfEntries]
        omega

end

theorem toHost_ofHost (data : HostData) (heap : Heap) (n : Nat) (ordered : data.InOrder) :
    (Value.ofHost data heap n).1.toHost (Value.ofHost data heap n).2 =
      .ok data.withoutAncestors := by
  obtain ⟨tree, unfolds, isData, same, bound⟩ := unfolds_ofHost data heap n ordered
    (Heap.grows_refl _) (show Heap.Before _ [] from ⟨nofun, nofun⟩)
  have converts := HostForm.within_of_unfolds (Value.ofHost data heap n).2.size unfolds (by omega)
  rw [isData, same] at converts
  exact converts

/-! From a value to data and back. -/

/-- An order that puts the array indexes among some keys in front, ascending, and
leaves the others as they stand. -/
def IndexesFirst (keys ordered : List Text) : Prop :=
  ∃ (indexes : List Nat) (others : List Text), ordered = indexes.map Text.ofNat ++ others ∧
    indexes.Pairwise (· < ·) ∧ (∀ i, i ∈ indexes ↔ i ≤ Json.maxIndex ∧ Text.ofNat i ∈ keys) ∧
    others.Sublist keys ∧
    ∀ key, key ∈ others ↔ key ∈ keys ∧ ∀ i ≤ Json.maxIndex, key ≠ Text.ofNat i

/-- A value and a copy of it, which may be on another heap, at every depth: the same
scalars, arrays that hold copies at the same places, and hashes that have copies
under the same keys, with array indexes first. Slots are empty where they were. -/
inductive Copy (heap other : Heap) : Value → Value → Prop
  | null : Copy heap other .null .null
  | bool (b : Bool) : Copy heap other (.bool b) (.bool b)
  | number (x : Float) (stamp stamp' : Nat) : Copy heap other (.number x stamp) (.number x stamp')
  | string (t : Text) : Copy heap other (.string t) (.string t)
  | array {ref ref' : Nat} (sizes : (other.array ref').size = (heap.array ref).size)
      (gaps : ∀ i : Nat, (other.array ref')[i]? = some none ↔ (heap.array ref)[i]? = some none)
      (each : ∀ (i : Nat) (v w : Value), (heap.array ref)[i]? = some (some v) →
        (other.array ref')[i]? = some (some w) → Copy heap other v w) :
      Copy heap other (.array ref) (.array ref')
  | hash {ref ref' : Nat} (order : IndexesFirst (heap.hash ref).keys (other.hash ref').keys)
      (each : ∀ key v w, Table.find? key (heap.hash ref) = some v →
        Table.find? key (other.hash ref') = some w → Copy heap other v w) :
      Copy heap other (.hash ref) (.hash ref')

theorem indexesFirst_propertyOrder {α : Type} (fields : Table α) (distinct : fields.keys.Nodup) :
    IndexesFirst fields.keys (Json.propertyOrder fields).keys := by
  obtain ⟨indexes, sorted, member, keys⟩ := Json.propertyOrder_keys fields distinct
  refine ⟨indexes, _, keys, sorted, member, List.filter_sublist, fun key => ?_⟩
  rw [List.mem_filter, Option.isNone_iff_eq_none, Option.eq_none_iff_forall_ne_some]
  simp only [ne_eq, Json.arrayIndex_eq_some_iff]
  exact and_congr_right fun _ => forall_congr' fun i => by rw [not_and, imp_not_comm]

/-! What is made for the items of a list and for the fields of a record. -/

theorem allOfHost_get {item : HostData} : ∀ {items : List (Option HostData)} (heap : Heap)
    (n : Nat) {i : Nat}, items[i]? = some (some item) → ∃ (base : Heap) (m : Nat),
      (Value.allOfHost items heap n).1[i]? = some (some (Value.ofHost item base m).1) ∧
        (Value.ofHost item base m).2.Grows (Value.allOfHost items heap n).2
  | some _ :: rest, heap, n, 0, found => by
      cases found
      exact ⟨heap, n, rfl, Heap.grows_allOfHost rest _ _⟩
  | none :: _, heap, n, i + 1, found => allOfHost_get heap n (i := i) found
  | some first :: _, _, n, i + 1, found => allOfHost_get _ (n + first.nans) (i := i) found

theorem allOfHost_length (items : List (Option HostData)) (heap : Heap) (n : Nat) :
    (Value.allOfHost items heap n).1.length = items.length := by
  induction items generalizing heap n with
  | nil => rfl
  | cons first rest ih =>
      cases first with
      | none => exact congrArg (· + 1) (ih heap n)
      | some data => exact congrArg (· + 1) (ih _ _)

/-- Places are empty where they were. -/
theorem allOfHost_gap : ∀ (items : List (Option HostData)) (heap : Heap) (n i : Nat),
    (Value.allOfHost items heap n).1[i]? = some none ↔ items[i]? = some none
  | [], _, _, _ => by simp [Value.allOfHost]
  | none :: _, _, _, 0 => by simp [Value.allOfHost]
  | some _ :: _, _, _, 0 => by simp [Value.allOfHost]
  | none :: rest, heap, n, i + 1 => allOfHost_gap rest heap n i
  | some _ :: rest, _, _, i + 1 => allOfHost_gap rest _ _ i

theorem fieldsOfHost_get {key : Text} {item : HostData} :
    ∀ {fields : List (Text × HostData)} (heap : Heap) (n : Nat), (key, item) ∈ fields →
      ∃ (base : Heap) (m : Nat),
        (key, (Value.ofHost item base m).1) ∈ (Value.fieldsOfHost fields heap n).1 ∧
          (Value.ofHost item base m).2.Grows (Value.fieldsOfHost fields heap n).2
  | (_, first) :: rest, heap, n, found => by
      rcases List.mem_cons.mp found with same | later
      · cases same
        exact ⟨heap, n, .head _, Heap.grows_fieldsOfHost rest _ _⟩
      · obtain ⟨base, m, member, grows⟩ := fieldsOfHost_get _ (n + first.nans) later
        exact ⟨base, m, .tail _ member, grows⟩

theorem fieldsOfHost_keys (fields : List (Text × HostData)) (heap : Heap) (n : Nat) :
    Table.keys (Value.fieldsOfHost fields heap n).1 = Table.keys fields := by
  induction fields generalizing heap n with
  | nil => rfl
  | cons field rest ih => exact congrArg (field.1 :: ·) (ih _ _)

/-! The items of the tree of an array. -/

variable {heap : Heap}

theorem dataOfAll_length {above : List Container} {slots : List Slot} {items : List Unfolding}
    (contents : UnfoldsAll heap above slots items) :
    (Unfolding.dataOfAll items).length = slots.length := by
  induction slots generalizing items with
  | nil =>
      cases contents
      rfl
  | cons slot rest ih =>
      cases contents with
      | gap others => exact congrArg (· + 1) (ih others)
      | slot first others =>
          rw [dataOfAll_of_unfolds first]
          exact congrArg (· + 1) (ih others)

theorem dataOfAll_gap {above : List Container} {slots : List Slot} {items : List Unfolding}
    (contents : UnfoldsAll heap above slots items) (i : Nat) :
    (Unfolding.dataOfAll items)[i]? = some none ↔ slots[i]? = some none := by
  induction slots generalizing items i with
  | nil =>
      cases contents
      simp [Unfolding.dataOfAll]
  | cons slot rest ih =>
      cases contents with
      | gap others =>
          cases i with
          | zero => simp [Unfolding.dataOfAll]
          | succ i => exact ih others i
      | slot first others =>
          rw [dataOfAll_of_unfolds first]
          cases i with
          | zero => simp
          | succ i => exact ih others i

/-- No hash that is met in a value has the ancestor key. -/
def WithoutAncestors (heap : Heap) (v : Value) : Prop :=
  ∀ path ref, Occurs heap v path (.hash ref) → Json.ancestorKey ∉ (heap.hash ref).keys

theorem WithoutAncestors.element {ref i : Nat} {v : Value}
    (ordinary : WithoutAncestors heap (.array ref)) (found : (heap.array ref)[i]? = some (some v)) :
    WithoutAncestors heap v :=
  fun path ref occurs => ordinary (.element i :: path) ref (.element found occurs)

theorem WithoutAncestors.entry {ref : Nat} {key : Text} {v : Value}
    (ordinary : WithoutAncestors heap (.hash ref)) (found : (key, v) ∈ heap.hash ref) :
    WithoutAncestors heap v :=
  fun path ref occurs => ordinary (.entry key :: path) ref (.entry found occurs)

/-- What the data of a tree is made into is a copy of the value that the tree is of. -/
theorem copy_of_unfolds (keyed : heap.Keyed) {above : List Container} {v : Value}
    {tree : Unfolding} (unfolds : Unfolds heap above v tree) (isData : tree.isData = true)
    (ordinary : WithoutAncestors heap v) {base final : Heap} {n : Nat}
    (grows : (Value.ofHost tree.data base n).2.Grows final) :
    Copy heap final v (Value.ofHost tree.data base n).1 := by
  -- what is inside a container has a tree that is less deep, though its data may be elsewhere
  induction deep : tree.depth using Nat.strongRecOn generalizing above v tree base n with
  | ind depth ih =>
      subst deep
      cases unfolds with
      | leaf single =>
          cases v with
          | null => exact .null
          | bool b => exact .bool b
          | number x stamp => exact .number x stamp _
          | string t => exact .string t
          | array => cases single
          | hash => cases single
          | function => cases isData
          | native => cases isData
          | missing => cases single
      | arrayAgain => cases isData
      | hashAgain => cases isData
      | @array _ ref items outside contents =>
          have grows' := (Heap.grows_newArray _ _).trans grows
          have place := grows.newArray
          refine .array ?_ ?_ ?_
          · simp [place, allOfHost_length, dataOfAll_length contents]
          · intro i
            have gap := (allOfHost_gap (Unfolding.dataOfAll items) base n i).trans
              (dataOfAll_gap contents i)
            simpa [place] using gap
          · intro i v w left right
            obtain ⟨item, first, inside, deeper, data⟩ :=
              unfoldsAll_get contents (by simpa using left)
            obtain ⟨base', m, there, later⟩ := allOfHost_get base n data
            obtain rfl : (Value.ofHost item.data base' m).1 = w := by
              have same := there.symm.trans (by simpa [place] using right)
              exact Option.some.inj (Option.some.inj same)
            have isData' := isData_of_subset (List.subset_cons_of_subset _ inside) isData
            exact ih item.depth deeper first isData' (ordinary.element left)
              (later.trans grows') rfl
      | @hash _ ref items outside contents =>
          have grows' := (Heap.grows_newHash _ _).trans grows
          have place := grows.newHash
          have distinct := dataOfEntries_nodup keyed contents
          have keys : Table.keys (Unfolding.dataOfEntries items) = (heap.hash ref).keys := by
            rw [dataOfEntries_keys contents]
            refine List.filter_eq_self.mpr fun key member => decide_eq_true ?_
            rintro rfl
            exact ordinary [] ref (.here _) member
          have order := indexesFirst_propertyOrder _ distinct
          refine .hash ?_ ?_
          · rwa [place, fieldsOfHost_keys, ← keys]
          · intro key v w left right
            have left := Table.mem_of_find? key v _ left
            obtain ⟨item, first, inside, deeper, data⟩ := unfoldsEntries_get contents left
            have key_ne : key ≠ Json.ancestorKey := by
              rintro rfl
              exact ordinary [] ref (.here _) (List.mem_map_of_mem left)
            have field := (Json.propertyOrder_perm _).mem_iff.mpr (data key_ne)
            obtain ⟨base', m, there, later⟩ := fieldsOfHost_get base n field
            obtain rfl : (Value.ofHost item.data base' m).1 = w := by
              have distinct' : (Table.keys (Value.fieldsOfHost
                  (Json.propertyOrder (Unfolding.dataOfEntries items)) base n).1).Nodup := by
                rw [fieldsOfHost_keys]
                exact ((Json.propertyOrder_perm _).map Prod.fst).nodup_iff.mpr distinct
              have found := Table.find?_of_mem distinct' there
              rw [place] at right
              exact Option.some.inj (found.symm.trans right)
            have isData' := isData_of_subset (List.subset_cons_of_subset _ inside) isData
            exact ih item.depth deeper first isData' (ordinary.entry left) (later.trans grows') rfl

theorem toHost_missing (heap : Heap) (data : HostData) : Value.missing.toHost heap ≠ .ok data := by
  intro found
  rw [Value.toHost, HostForm.within_eq] at found
  cases found

/-- Data that becomes a value and is data again has lost the fields of the ancestor
key, at every depth, and is else the same, the order of keys included. A value that
becomes data and is a value again is a copy of what it was, if no hash in it has the
ancestor key: hashes list their array indexes first, ascending, and then their other
keys as they did. -/
theorem host_data_round_trip :
    (∀ (data : HostData) (heap : Heap) (n : Nat), data.InOrder →
      (Value.ofHost data heap n).1.toHost (Value.ofHost data heap n).2 =
        .ok data.withoutAncestors) ∧
    ∀ heap : Heap, heap.Definite → heap.Keyed → ∀ v data, v.toHost heap = .ok data →
      WithoutAncestors heap v → ∀ base n,
        Copy heap (Value.ofHost data base n).2 v (Value.ofHost data base n).1 := by
  refine ⟨toHost_ofHost, fun heap definite keyed v data found ordinary base n => ?_⟩
  have there : v ≠ .missing := by
    rintro rfl
    exact toHost_missing heap data found
  obtain ⟨tree, unfolds, -⟩ := exists_unfolding definite v there
  have converts := HostForm.toHost_of_unfolds definite unfolds
  rw [found] at converts
  cases isData : tree.isData with
  | false =>
      rw [isData] at converts
      obtain ⟨cause, failed⟩ := converts
      cases failed
  | true =>
      rw [isData] at converts
      obtain rfl : data = tree.data := Except.ok.inj converts
      exact copy_of_unfolds keyed unfolds isData ordinary (Heap.grows_refl _)

/-- A hash with array indexes among its keys, behind another key; the array under
that one has a slot that is empty. -/
def mixed : Heap where
  arrays := #[#[some (.string "x"), none]]
  hashes := #[[("b", .array 0), ("10", .bool true), ("2", .null)]]

theorem mixed_definite : mixed.Definite where
  array ref := by
    rcases ref with _ | ref <;> simp [mixed, Heap.array]
  hash ref := by
    rcases ref with _ | ref <;> simp [mixed, Heap.hash]

theorem mixed_keyed : mixed.Keyed := by
  intro ref
  rcases ref with _ | ref
  case zero => decide
  case succ => simp [mixed, Heap.hash, Table.keys]

theorem mixed_withoutAncestors : WithoutAncestors mixed (.hash 0) := by
  intro path ref _
  rcases ref with _ | ref
  case zero => decide
  case succ => simp [mixed, Heap.hash, Table.keys]

/-- A record that was given the ancestor key, and an array index behind another key. -/
def record : HostData := .ofFields [("b", .str "x"), ("__proto__", .null), ("2", .null)]

theorem record_inOrder : record.InOrder := HostData.inOrder_ofFields _ (by simp [HostData.InOrder])

theorem host_data_round_trip_mixed :
    record.InOrder ∧
      (Value.ofHost record mixed 0).1.toHost (Value.ofHost record mixed 0).2 =
        .ok (.obj [("2", .null), ("b", .str "x")]) ∧
      mixed.Definite ∧ mixed.Keyed ∧ WithoutAncestors mixed (.hash 0) ∧
      ∃ data, (Value.hash 0).toHost mixed = .ok data ∧
        Copy mixed (Value.ofHost data mixed 0).2 (.hash 0) (Value.ofHost data mixed 0).1 := by
  obtain ⟨there, back⟩ := host_data_round_trip
  have plain : record.withoutAncestors = .obj [("2", .null), ("b", .str "x")] := by
    with_unfolding_all rfl
  have ⟨data, found⟩ : ∃ data, (Value.hash 0).toHost mixed = .ok data := ⟨_, rfl⟩
  have copied := back mixed mixed_definite mixed_keyed _ data found mixed_withoutAncestors mixed 0
  exact ⟨record_inOrder, plain ▸ there record mixed 0 record_inOrder, mixed_definite, mixed_keyed,
    mixed_withoutAncestors, data, found, copied⟩

end Loom
