import Loom.Proofs.PropertyOrder
import Loom.Proofs.Unfolding
import Loom.Value.Host

/-!
The data that a value stands for, by its unfolding. Whatever is marked in the
unfolding, and each function in it, has no form as data; where there is neither, each
part of the unfolding is converted as it would be alone.
-/

namespace Loom

/-- The data of a value that holds no others, if it is no function. -/
def Value.singleData : Value → HostData
  | null => .null
  | bool b => .bool b
  | number x _ => .num x
  | string t => .str t
  | array _ => .null
  | hash _ => .null
  | function _ _ => .null
  | native _ _ => .null
  | missing => .null

namespace Unfolding

/-- A part of a tree that does not stand in the way of data. -/
def hasForm : Unfolding → Bool
  | leaf v => !v.isCallable
  | again _ => false
  | _ => true

def isData (tree : Unfolding) : Bool := tree.parts.all hasForm

mutual

/-- The data of a tree all parts of which have a form. -/
def data : Unfolding → HostData
  | leaf v => v.singleData
  | gap => .null
  | array _ items => .arr (dataOfAll items)
  | hash _ entries => .obj (Json.propertyOrder (dataOfEntries entries))
  | again _ => .null

def dataOfAll : List Unfolding → List (Option HostData)
  | [] => []
  | .gap :: rest => none :: dataOfAll rest
  | item :: rest => some item.data :: dataOfAll rest

def dataOfEntries : List (Text × Unfolding) → List (Text × HostData)
  | [] => []
  | (key, item) :: rest =>
      if key = Json.ancestorKey then dataOfEntries rest else (key, item.data) :: dataOfEntries rest

end

end Unfolding

section

variable {heap : Heap}

/-- What a value unfolds into is no empty place. -/
theorem dataOfAll_of_unfolds {above : List Container} {v : Value} {tree : Unfolding}
    (unfolds : Unfolds heap above v tree) (rest : List Unfolding) :
    Unfolding.dataOfAll (tree :: rest) = some tree.data :: Unfolding.dataOfAll rest := by
  cases unfolds <;> rfl

/-! The conversion follows the unfolding. -/

namespace HostForm

/-- A conversion that gives some data if that is possible, and else fails for the type
of something. -/
def Converts {α : Type} (possible : Bool) (data : α) (result : Except Failure α) : Prop :=
  if possible then result = .ok data else ∃ cause, result = .error (.of (.wrongType cause))

theorem Converts.map {α β : Type} {possible : Bool} {data : α} {result : Except Failure α}
    (converts : Converts possible data result) (f : α → β) :
    Converts possible (f data) (do let a ← result; pure (f a)) := by
  cases possible with
  | true => rw [show result = .ok data from converts]; rfl
  | false =>
      obtain ⟨cause, failed⟩ := converts
      exact ⟨cause, by rw [failed]; rfl⟩

/-- Of two conversions the first that fails decides. -/
theorem Converts.and {α β γ : Type} {first second : Bool} {a : α} {b : β}
    {x : Except Failure α} {y : Except Failure β} (left : Converts first a x)
    (right : Converts second b y) (f : α → β → γ) :
    Converts (first && second) (f a b) (do let a ← x; let b ← y; pure (f a b)) := by
  cases first with
  | true =>
      rw [show x = .ok a from left]
      exact right.map (f a)
  | false =>
      obtain ⟨cause, failed⟩ := left
      exact ⟨cause, by rw [failed]; rfl⟩

/-- What converts the things inside a container, if `fuel` bounds the depth of the
container. -/
def below (heap : Heap) : (fuel : Nat) → List Container → Value → Except Failure HostData
  | 0 => fun _ _ => .error (.host .missingValue)
  | fuel + 1 => within heap fuel

theorem within_eq (heap : Heap) (fuel : Nat) : within heap fuel = level heap (below heap fuel) := by
  cases fuel <;> rfl

theorem below_of_within {above : List Container} {v : Value} {tree : Unfolding} {fuel : Nat}
    (converts : ∀ less, tree.depth ≤ less →
      Converts tree.isData tree.data (within heap less above v))
    (deeper : tree.depth < fuel) : Converts tree.isData tree.data (below heap fuel above v) := by
  cases fuel with
  | zero => omega
  | succ less => exact converts less (Nat.le_of_lt_succ deeper)

theorem level_of_single (inner : List Container → Value → Except Failure HostData)
    (above : List Container) {v : Value} (single : v.isSingle = true) :
    Converts (!v.isCallable) v.singleData (level heap inner above v) := by
  cases v with
  | function closure _ => exact ⟨_, rfl⟩
  | native n _ => exact ⟨_, rfl⟩
  | array ref => cases single
  | hash ref => cases single
  | missing => cases single
  | _ => rfl

mutual

theorem within_of_unfolds : ∀ {above : List Container} {v : Value} {tree : Unfolding} (fuel : Nat),
    Unfolds heap above v tree → tree.depth ≤ fuel →
      Converts tree.isData tree.data (within heap fuel above v)
  | above, v, _, fuel, .leaf single, _ => by
      rw [within_eq]
      simpa [Unfolding.isData, Unfolding.parts, Unfolding.hasForm, Unfolding.data] using
        level_of_single _ _ single
  | _, _, _, fuel, .arrayAgain inside, _ => by
      rw [within_eq]
      exact ⟨_, if_pos inside⟩
  | _, _, _, fuel, .hashAgain inside, _ => by
      rw [within_eq]
      exact ⟨_, if_pos inside⟩
  | above, _, _, fuel, .array outside contents, bound => by
      have items := (elements_of_unfolds fuel contents bound).map HostData.arr
      simpa [within_eq, level, outside, Unfolding.isData, Unfolding.parts, Unfolding.hasForm,
        Unfolding.data] using items
  | above, _, _, fuel, .hash outside contents, bound => by
      have fields := (entries_of_unfolds fuel contents bound).map fun fields =>
        HostData.obj (Json.propertyOrder fields)
      simpa [within_eq, level, outside, Unfolding.isData, Unfolding.parts, Unfolding.hasForm,
        Unfolding.data] using fields

theorem elements_of_unfolds : ∀ {above : List Container} {slots : List Slot}
    {items : List Unfolding} (fuel : Nat), UnfoldsAll heap above slots items →
      Unfolding.depthOfAll items ≤ fuel →
        Converts ((Unfolding.partsOfAll items).all Unfolding.hasForm) (Unfolding.dataOfAll items)
          (elements (below heap fuel above) slots)
  | _, _, _, _, .nil, _ => rfl
  | above, _, _, fuel, .gap others, bound => by
      have rest := elements_of_unfolds fuel others (Nat.max_le.mp bound).2
      exact rest.map (none :: ·)
  | above, _, _, fuel, .slot first others, bound => by
      obtain ⟨deeper, further⟩ := Nat.max_le.mp bound
      have item := below_of_within (fun less => within_of_unfolds less first) deeper
      have rest := elements_of_unfolds fuel others further
      rw [Unfolding.partsOfAll, List.all_append, dataOfAll_of_unfolds first]
      exact item.and rest fun item items => some item :: items

theorem entries_of_unfolds : ∀ {above : List Container} {entries : List (Text × Value)}
    {items : List (Text × Unfolding)} (fuel : Nat), UnfoldsEntries heap above entries items →
      Unfolding.depthOfEntries items ≤ fuel →
        Converts ((Unfolding.partsOfEntries items).all Unfolding.hasForm)
          (Unfolding.dataOfEntries items) (HostForm.entries (below heap fuel above) entries)
  | _, _, _, _, .nil, _ => rfl
  | above, (key, _) :: _, _, fuel, .entry first others, bound => by
      obtain ⟨deeper, further⟩ := Nat.max_le.mp bound
      have item := below_of_within (fun less => within_of_unfolds less first) deeper
      have rest := entries_of_unfolds fuel others further
      rw [Unfolding.partsOfEntries, List.all_append]
      exact item.and rest fun item fields =>
        if key = Json.ancestorKey then fields else (key, item) :: fields

end

end HostForm

theorem HostForm.toHost_of_unfolds (definite : heap.Definite) {v : Value} {tree : Unfolding}
    (unfolds : Unfolds heap [] v tree) : Converts tree.isData tree.data (v.toHost heap) :=
  within_of_unfolds heap.size unfolds (depth_le_of_unfolds definite unfolds)

/-! What is met along a path has its part in the unfolding, if that has no marks. -/

/-- The data at the end of a path. -/
def HostData.at? : List Step → HostData → Option HostData
  | [], data => some data
  | .element i :: path, .arr items => items[i]?.join.bind (at? path)
  | .entry key :: path, .obj fields => (Table.find? key fields).bind (at? path)
  | _, _ => none

theorem isData_of_subset {tree part : Unfolding} (inside : part.parts ⊆ tree.parts)
    (isData : tree.isData = true) : part.isData = true :=
  List.all_eq_true.mpr fun _ member => List.all_eq_true.mp isData _ (inside member)

theorem unfoldsAll_get {above : List Container} : ∀ {slots : List Slot} {items : List Unfolding},
    UnfoldsAll heap above slots items → ∀ {i : Nat} {v : Value}, slots[i]? = some (some v) →
      ∃ item, Unfolds heap above v item ∧ item.parts ⊆ Unfolding.partsOfAll items ∧
        item.depth < Unfolding.depthOfAll items ∧ (Unfolding.dataOfAll items)[i]? =
          some (some item.data)
  | _, _, .gap others, i + 1, _, found =>
      have ⟨item, unfolds, inside, deeper, data⟩ := unfoldsAll_get others found
      ⟨item, unfolds, List.subset_append_of_subset_right _ inside,
        Nat.lt_of_lt_of_le deeper (Nat.le_max_right _ _), data⟩
  | _, _, .slot first _, 0, _, found => by
      cases found
      refine ⟨_, first, List.subset_append_left _ _, Nat.le_max_left _ _, ?_⟩
      rw [dataOfAll_of_unfolds first]
      rfl
  | _, _, .slot first others, i + 1, _, found => by
      obtain ⟨item, unfolds, inside, deeper, data⟩ := unfoldsAll_get others found
      refine ⟨item, unfolds, List.subset_append_of_subset_right _ inside,
        Nat.lt_of_lt_of_le deeper (Nat.le_max_right _ _), ?_⟩
      rw [dataOfAll_of_unfolds first]
      exact data

theorem unfoldsEntries_get {above : List Container} {key : Text} {v : Value} :
    ∀ {entries : List (Text × Value)} {items : List (Text × Unfolding)},
      UnfoldsEntries heap above entries items → (key, v) ∈ entries →
        ∃ item, Unfolds heap above v item ∧ item.parts ⊆ Unfolding.partsOfEntries items ∧
          item.depth < Unfolding.depthOfEntries items ∧
          (key ≠ Json.ancestorKey → (key, item.data) ∈ Unfolding.dataOfEntries items)
  | _, _, .entry first others, found => by
      rcases List.mem_cons.mp found with here | later
      · cases here
        exact ⟨_, first, List.subset_append_left _ _, Nat.le_max_left _ _, fun ordinary => by
          simp [Unfolding.dataOfEntries, ordinary]⟩
      · obtain ⟨item, unfolds, inside, deeper, data⟩ := unfoldsEntries_get others later
        refine ⟨item, unfolds, List.subset_append_of_subset_right _ inside,
          Nat.lt_of_lt_of_le deeper (Nat.le_max_right _ _), fun ordinary => ?_⟩
        rw [Unfolding.dataOfEntries]
        split
        · exact data ordinary
        · exact .tail _ (data ordinary)

/-- The fields of the data of a hash have the keys of the hash, the ancestor key apart. -/
theorem dataOfEntries_keys {above : List Container} {entries : List (Text × Value)}
    {items : List (Text × Unfolding)} (contents : UnfoldsEntries heap above entries items) :
    Table.keys (Unfolding.dataOfEntries items) =
      (Table.keys entries).filter (· ≠ Json.ancestorKey) := by
  induction entries generalizing items with
  | nil =>
      cases contents
      rfl
  | cons entry rest ih =>
      obtain ⟨key, v⟩ := entry
      cases contents with
      | entry _ others =>
          have rest' := ih others
          by_cases ordinary : key = Json.ancestorKey <;>
            simp_all [Unfolding.dataOfEntries, Table.keys]

theorem dataOfEntries_nodup (keyed : heap.Keyed) {above : List Container} {ref : Nat}
    {items : List (Text × Unfolding)}
    (contents : UnfoldsEntries heap above (heap.hash ref) items) :
    (Table.keys (Unfolding.dataOfEntries items)).Nodup := by
  rw [dataOfEntries_keys contents]
  exact (keyed ref).filter _

theorem find?_propertyOrder {α : Type} {fields : Table α} (distinct : fields.keys.Nodup)
    {key : Text} {value : α} (member : (key, value) ∈ fields) :
    Table.find? key (Json.propertyOrder fields) = some value := by
  rw [Table.find?_perm distinct (Json.propertyOrder_perm fields).symm]
  exact Table.find?_of_mem distinct member

/-- The part of an unfolding that belongs to what is met along a path: it is below all
that was around the whole and below all that the path goes through. -/
structure Stands (heap : Heap) (above : List Container) (v : Value) (tree : Unfolding)
    (path : List Step) (w : Value) (around : List Container) (part : Unfolding) : Prop where
  unfolds : Unfolds heap around w part
  inside : part.parts ⊆ tree.parts
  above : above ⊆ around
  through : path ≠ [] → ∀ c : Container, v = c.value → c ∈ around
  data : .entry Json.ancestorKey ∉ path → tree.data.at? path = some part.data

theorem stands_of_occurs (keyed : heap.Keyed) {v w : Value} {path : List Step}
    (occurs : Occurs heap v path w) {above : List Container} {tree : Unfolding}
    (unfolds : Unfolds heap above v tree) (isData : tree.isData = true) :
    ∃ around part, Stands heap above v tree path w around part := by
  -- each step of the path goes down in the tree as it does in the value
  induction occurs generalizing above tree with
  | here v =>
      exact ⟨above, tree, unfolds, List.Subset.refl _, List.Subset.refl _,
        fun some => absurd rfl some, fun _ => rfl⟩
  | @element ref i v w path found _ ih =>
      cases unfolds with
      | leaf single => cases single
      | arrayAgain => cases isData
      | @array _ _ items outside contents =>
          obtain ⟨item, first, inside, -, data⟩ := unfoldsAll_get contents (by simpa using found)
          have inside : item.parts ⊆ (Unfolding.array ref items).parts :=
            List.subset_cons_of_subset _ inside
          obtain ⟨around, part, stands⟩ := ih first (isData_of_subset inside isData)
          refine ⟨around, part, stands.unfolds, List.Subset.trans stands.inside inside,
            List.Subset.trans (List.subset_cons_self _ _) stands.above, ?_, ?_⟩
          · rintro - c same
            obtain rfl : .array ref = c := Container.value_injective same
            exact stands.above (.head _)
          · intro ordinary
            have rest := stands.data fun member => ordinary (.tail _ member)
            simpa [Unfolding.data, HostData.at?, data] using rest
  | @entry ref key v w path found _ ih =>
      cases unfolds with
      | leaf single => cases single
      | hashAgain => cases isData
      | @hash _ _ entries outside contents =>
          obtain ⟨item, first, inside, -, data⟩ := unfoldsEntries_get contents found
          have inside : item.parts ⊆ (Unfolding.hash ref entries).parts :=
            List.subset_cons_of_subset _ inside
          obtain ⟨around, part, stands⟩ := ih first (isData_of_subset inside isData)
          refine ⟨around, part, stands.unfolds, List.Subset.trans stands.inside inside,
            List.Subset.trans (List.subset_cons_self _ _) stands.above, ?_, ?_⟩
          · rintro - c same
            obtain rfl : .hash ref = c := Container.value_injective same
            exact stands.above (.head _)
          · intro ordinary
            have rest := stands.data fun member => ordinary (.tail _ member)
            have key_ne : key ≠ Json.ancestorKey := by
              rintro rfl
              exact ordinary (.head _)
            have field := find?_propertyOrder (dataOfEntries_nodup keyed contents) (data key_ne)
            simpa [Unfolding.data, HostData.at?, field] using rest

/-- Whether a tree is one of data can be seen from what is met in the value. -/
theorem isData_iff (keyed : heap.Keyed) {v : Value} {tree : Unfolding}
    (unfolds : Unfolds heap [] v tree) :
    tree.isData = true ↔ (∀ path w, Occurs heap v path w → w.isCallable = false) ∧
      ∀ path c, Occurs heap v path c.value → ¬ Circular heap c := by
  constructor
  · intro isData
    constructor
    · intro path w occurs
      obtain ⟨around, part, stands⟩ := stands_of_occurs keyed occurs unfolds isData
      have isData := isData_of_subset stands.inside isData
      cases stands.unfolds with
      | leaf single => simpa [Unfolding.isData, Unfolding.parts, Unfolding.hasForm] using isData
      | _ => rfl
    · rintro path c occurs ⟨step, further, again⟩
      obtain ⟨around, part, stands⟩ := stands_of_occurs keyed occurs unfolds isData
      have isData := isData_of_subset stands.inside isData
      obtain ⟨around', part', stands'⟩ := stands_of_occurs keyed again stands.unfolds isData
      have isData := isData_of_subset stands'.inside isData
      -- the container is around itself there, where its part can only be a mark
      have inside := stands'.through (List.cons_ne_nil _ _) c rfl
      cases c with
      | array ref =>
          cases stands'.unfolds with
          | leaf single => cases single
          | arrayAgain => cases isData
          | array outside => exact outside inside
      | hash ref =>
          cases stands'.unfolds with
          | leaf single => cases single
          | hashAgain => cases isData
          | hash outside => exact outside inside
  · rintro ⟨plain, straight⟩
    refine List.all_eq_true.mpr fun part member => ?_
    cases part with
    | leaf v =>
        obtain ⟨around, w, path, inner⟩ := partOf_of_mem unfolds _ member (by simp)
        cases inner.unfolds with
        | leaf => simp [Unfolding.hasForm, plain path v inner.occurs]
    | again c =>
        obtain ⟨inside | circular, path, occurs⟩ := circular_of_again unfolds member
        · cases inside
        · exact absurd circular (straight path c occurs)
    | _ => rfl

/-- Plain data is unfolded alike wherever it stands. -/
theorem unfolds_alone_of_isData {above : List Container} {v : Value} {tree : Unfolding}
    (unfolds : Unfolds heap above v tree) (isData : tree.isData = true) :
    Unfolds heap [] v tree := by
  apply unfolds_of_marks unfolds (List.nil_subset _)
  intro c again _
  exact absurd (List.all_eq_true.mp isData _ again) Bool.false_ne_true

/-- A value has a form as data exactly if no function can be met in it and no
container that is met in it can be met inside itself; else its conversion fails for
the type of something. Where there is a form, what is met at some place in the value
is converted as it would be alone, so the same wherever it stands. -/
theorem toHost_iff_finite_data (heap : Heap) (definite : heap.Definite) (keyed : heap.Keyed)
    (v : Value) (there : v ≠ .missing) :
    ((∃ data, v.toHost heap = .ok data) ↔
      (∀ path w, Occurs heap v path w → w.isCallable = false) ∧
        ∀ path c, Occurs heap v path c.value → ¬ Circular heap c) ∧
    ((∃ data, v.toHost heap = .ok data) ∨
      ∃ cause, v.toHost heap = .error (.of (.wrongType cause))) ∧
    ∀ data, v.toHost heap = .ok data → ∀ path w, Occurs heap v path w →
      ∃ form, w.toHost heap = .ok form ∧
        (.entry Json.ancestorKey ∉ path → data.at? path = some form) := by
  obtain ⟨tree, unfolds, -⟩ := exists_unfolding definite v there
  have converts := HostForm.toHost_of_unfolds definite unfolds
  have decides := isData_iff keyed unfolds
  cases isData : tree.isData with
  | true =>
      rw [isData] at converts decides
      have converted : v.toHost heap = .ok tree.data := converts
      refine ⟨⟨fun _ => decides.mp rfl, fun _ => ⟨_, converted⟩⟩, .inl ⟨_, converted⟩, ?_⟩
      intro data found path w occurs
      obtain rfl : tree.data = data := Except.ok.inj (converted.symm.trans found)
      obtain ⟨around, part, stands⟩ := stands_of_occurs keyed occurs unfolds isData
      have isData' := isData_of_subset stands.inside isData
      have alone := unfolds_alone_of_isData stands.unfolds isData'
      have converts' := HostForm.toHost_of_unfolds definite alone
      rw [isData'] at converts'
      exact ⟨part.data, converts', stands.data⟩
  | false =>
      rw [isData] at converts decides
      obtain ⟨cause, failed⟩ := converts
      have none : ∀ data, v.toHost heap ≠ .ok data := fun data found => by
        rw [failed] at found
        cases found
      refine ⟨⟨fun ⟨data, found⟩ => absurd found (none data), fun finite => ?_⟩,
        .inr ⟨cause, failed⟩, fun data found => absurd found (none data)⟩
      cases decides.mpr finite

end

theorem twice_keyed : twice.Keyed := by
  intro ref
  rcases ref with _ | _ | ref
  case zero => decide
  case succ.zero => decide
  case succ.succ => simp [twice, Heap.hash, Table.keys]

theorem toHost_iff_finite_data_twice :
    twice.Definite ∧ twice.Keyed ∧
      (∃ data form, (Value.hash 1).toHost twice = .ok data ∧
        (Value.array 0).toHost twice = .ok form ∧ data.at? [.entry "left"] = some form ∧
        data.at? [.entry "right"] = some form) ∧
      ∃ cause, (Value.array 1).toHost twice = .error (.of (.wrongType cause)) := by
  have law := fun v there => toHost_iff_finite_data twice twice_definite twice_keyed v there
  refine ⟨twice_definite, twice_keyed, ?_, ?_⟩
  · obtain ⟨-, -, parts⟩ := law (.hash 1) Value.noConfusion
    have ⟨data, found⟩ : ∃ data, (Value.hash 1).toHost twice = .ok data := ⟨_, rfl⟩
    have left : Occurs twice (.hash 1) [.entry "left"] (.array 0) := .entry (.head _) (.here _)
    have right : Occurs twice (.hash 1) [.entry "right"] (.array 0) :=
      .entry (.tail _ (.head _)) (.here _)
    obtain ⟨form, alone, there⟩ := parts data found _ _ left
    obtain ⟨form', alone', there'⟩ := parts data found _ _ right
    obtain rfl : form = form' := Except.ok.inj (alone.symm.trans alone')
    exact ⟨data, form, found, alone, there (by decide), there' (by decide)⟩
  · obtain ⟨decides, data | failed, -⟩ := law (.array 1) Value.noConfusion
    · have again : Occurs twice (.array 1) [.element 2, .entry "up"] (.array 1) :=
        .element rfl (.entry (.head _) (.here _))
      exact absurd ⟨_, _, again⟩ ((decides.mp data).2 [] (.array 1) (.here _))
    · exact failed

end Loom
