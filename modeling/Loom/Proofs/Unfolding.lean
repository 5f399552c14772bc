import Loom.Proofs.Comparison

/-!
A value unfolded into a tree. Each array and each hash is laid open wherever it is
met, but for where it is met inside itself: a mark stands there. A value of a finite
heap has one such tree, and the text of the value is the tree written out. A mark
needs a container that holds itself, so what is only shared never has one.
-/

namespace Loom

/-- A tree that a value is unfolded into. -/
inductive Unfolding where
  | leaf (v : Value)
  /-- What an empty slot of an array gives. -/
  | gap
  | array (ref : Nat) (items : List Unfolding)
  | hash (ref : Nat) (entries : List (Text × Unfolding))
  /-- The mark of a container inside itself. -/
  | again (c : Container)

/-- A value that holds no others. -/
def Value.isSingle : Value → Bool
  | array _ => false
  | hash _ => false
  | missing => false
  | _ => true

mutual

/-- A value that is met with some containers around it, and its tree. -/
inductive Unfolds (heap : Heap) : List Container → Value → Unfolding → Prop
  | leaf {above : List Container} {v : Value} (single : v.isSingle = true) :
      Unfolds heap above v (.leaf v)
  | arrayAgain {above : List Container} {ref : Nat} (inside : Container.array ref ∈ above) :
      Unfolds heap above (.array ref) (.again (.array ref))
  | hashAgain {above : List Container} {ref : Nat} (inside : Container.hash ref ∈ above) :
      Unfolds heap above (.hash ref) (.again (.hash ref))
  | array {above : List Container} {ref : Nat} {items : List Unfolding}
      (outside : Container.array ref ∉ above)
      (contents : UnfoldsAll heap (.array ref :: above) (heap.array ref).toList items) :
      Unfolds heap above (.array ref) (.array ref items)
  | hash {above : List Container} {ref : Nat} {entries : List (Text × Unfolding)}
      (outside : Container.hash ref ∉ above)
      (contents : UnfoldsEntries heap (.hash ref :: above) (heap.hash ref) entries) :
      Unfolds heap above (.hash ref) (.hash ref entries)

inductive UnfoldsAll (heap : Heap) : List Container → List Slot → List Unfolding → Prop
  | nil {above : List Container} : UnfoldsAll heap above [] []
  | gap {above : List Container} {rest : List Slot} {items : List Unfolding}
      (others : UnfoldsAll heap above rest items) :
      UnfoldsAll heap above (none :: rest) (.gap :: items)
  | slot {above : List Container} {v : Value} {rest : List Slot} {item : Unfolding}
      {items : List Unfolding} (first : Unfolds heap above v item)
      (others : UnfoldsAll heap above rest items) :
      UnfoldsAll heap above (some v :: rest) (item :: items)

inductive UnfoldsEntries (heap : Heap) :
    List Container → List (Text × Value) → List (Text × Unfolding) → Prop
  | nil {above : List Container} : UnfoldsEntries heap above [] []
  | entry {above : List Container} {key : Text} {v : Value} {rest : List (Text × Value)}
      {item : Unfolding} {items : List (Text × Unfolding)} (first : Unfolds heap above v item)
      (others : UnfoldsEntries heap above rest items) :
      UnfoldsEntries heap above ((key, v) :: rest) ((key, item) :: items)

end

/-- The text of a value that holds no others. -/
def Value.singleText : Value → Text
  | null => "null"
  | bool b => if b then "true" else "false"
  | number x _ => Decimal.text x
  | string t => t
  | function closure _ => "<function " ++ closure.name ++ ">"
  | native n _ => "<native " ++ n.action.name ++ ">"
  | array _ => []
  | hash _ => []
  | missing => []

namespace Unfolding

mutual

/-- A tree written out. -/
def text : Unfolding → Text
  | leaf v => v.singleText
  | gap => []
  | array _ items => "[" ++ Text.join ", " (textOfAll items) ++ "]"
  | hash _ entries => "\x7b" ++ Text.join ", " (textOfEntries entries) ++ "\x7d"
  | again (.array _) => "[...]"
  | again (.hash _) => "\x7b...\x7d"

def textOfAll : List Unfolding → List Text
  | [] => []
  | item :: rest => item.text :: textOfAll rest

def textOfEntries : List (Text × Unfolding) → List Text
  | [] => []
  | (key, item) :: rest => (key ++ ": " ++ item.text) :: textOfEntries rest

end

mutual

/-- How deep a tree has something in it. -/
def depth : Unfolding → Nat
  | array _ items => depthOfAll items
  | hash _ entries => depthOfEntries entries
  | _ => 0

def depthOfAll : List Unfolding → Nat
  | [] => 0
  | item :: rest => max (item.depth + 1) (depthOfAll rest)

def depthOfEntries : List (Text × Unfolding) → Nat
  | [] => 0
  | (_, item) :: rest => max (item.depth + 1) (depthOfEntries rest)

end

mutual

/-- A tree and all that hang below it. -/
def parts : Unfolding → List Unfolding
  | array ref items => array ref items :: partsOfAll items
  | hash ref entries => hash ref entries :: partsOfEntries entries
  | tree => [tree]

def partsOfAll : List Unfolding → List Unfolding
  | [] => []
  | item :: rest => item.parts ++ partsOfAll rest

def partsOfEntries : List (Text × Unfolding) → List Unfolding
  | [] => []
  | (_, item) :: rest => item.parts ++ partsOfEntries rest

end

/-- The value that a tree is of. -/
def root? : Unfolding → Option Value
  | leaf v => some v
  | gap => none
  | array ref _ => some (.array ref)
  | hash ref _ => some (.hash ref)
  | again c => some c.value

theorem self_mem_parts (tree : Unfolding) : tree ∈ tree.parts := by
  cases tree <;> exact List.mem_cons_self

end Unfolding

section

variable {heap : Heap}

mutual

/-- A value has one tree only. -/
theorem unfolds_unique : ∀ {above : List Container} {v : Value} {tree other : Unfolding},
    Unfolds heap above v tree → Unfolds heap above v other → tree = other
  | _, _, _, _, .leaf _, .leaf _ => rfl
  | _, _, _, _, .arrayAgain _, .arrayAgain _ => rfl
  | _, _, _, _, .arrayAgain inside, .array outside _ => absurd inside outside
  | _, _, _, _, .array outside _, .arrayAgain inside => absurd inside outside
  | _, _, _, _, .array _ contents, .array _ contents' =>
      congrArg (Unfolding.array _) (unfoldsAll_unique contents contents')
  | _, _, _, _, .hashAgain _, .hashAgain _ => rfl
  | _, _, _, _, .hashAgain inside, .hash outside _ => absurd inside outside
  | _, _, _, _, .hash outside _, .hashAgain inside => absurd inside outside
  | _, _, _, _, .hash _ contents, .hash _ contents' =>
      congrArg (Unfolding.hash _) (unfoldsEntries_unique contents contents')

theorem unfoldsAll_unique : ∀ {above : List Container} {slots : List Slot}
    {items others : List Unfolding}, UnfoldsAll heap above slots items →
      UnfoldsAll heap above slots others → items = others
  | _, _, _, _, .nil, .nil => rfl
  | _, _, _, _, .gap rest, .gap rest' => by rw [unfoldsAll_unique rest rest']
  | _, _, _, _, .slot first rest, .slot first' rest' => by
      rw [unfolds_unique first first', unfoldsAll_unique rest rest']

theorem unfoldsEntries_unique : ∀ {above : List Container} {entries : List (Text × Value)}
    {items others : List (Text × Unfolding)}, UnfoldsEntries heap above entries items →
      UnfoldsEntries heap above entries others → items = others
  | _, _, _, _, .nil, .nil => rfl
  | _, _, _, _, .entry first rest, .entry first' rest' => by
      rw [unfolds_unique first first', unfoldsEntries_unique rest rest']

end

/-! There is a tree, and it is no deeper than the heap has containers. -/

/-- No container holds a missing value; an array may have empty slots. -/
structure Heap.Definite (heap : Heap) : Prop where
  array : ∀ ref, some .missing ∉ heap.array ref
  hash : ∀ ref, ∀ entry ∈ heap.hash ref, entry.2 ≠ .missing

theorem unfoldsAll_exists {above : List Container} {fuel : Nat} (slots : List Slot)
    (definite : some .missing ∉ slots)
    (each : ∀ slot ∈ slots, ∀ v, v ≠ .missing →
      ∃ tree, Unfolds heap above v tree ∧ tree.depth < fuel) :
    ∃ items, UnfoldsAll heap above slots items ∧ Unfolding.depthOfAll items ≤ fuel := by
  induction slots with
  | nil => exact ⟨[], .nil, Nat.zero_le fuel⟩
  | cons slot rest ih =>
      obtain ⟨items, others, bound⟩ := ih (fun member => definite (.tail _ member))
        (fun slot member => each slot (.tail _ member))
      cases slot with
      | none =>
          obtain ⟨tree, -, deeper⟩ := each none (.head _) .null (by simp)
          have positive : 0 + 1 ≤ fuel := by omega
          exact ⟨.gap :: items, .gap others, Nat.max_le.mpr ⟨positive, bound⟩⟩
      | some v =>
          have there : v ≠ .missing := by
            rintro rfl
            exact definite (.head _)
          obtain ⟨tree, first, deeper⟩ := each (some v) (.head _) v there
          exact ⟨tree :: items, .slot first others, Nat.max_le.mpr ⟨deeper, bound⟩⟩

theorem unfoldsEntries_exists {above : List Container} {fuel : Nat} (entries : List (Text × Value))
    (definite : ∀ entry ∈ entries, entry.2 ≠ .missing)
    (each : ∀ entry ∈ entries, ∀ v, v ≠ .missing →
      ∃ tree, Unfolds heap above v tree ∧ tree.depth < fuel) :
    ∃ items, UnfoldsEntries heap above entries items ∧ Unfolding.depthOfEntries items ≤ fuel := by
  induction entries with
  | nil => exact ⟨[], .nil, Nat.zero_le fuel⟩
  | cons entry rest ih =>
      obtain ⟨items, others, bound⟩ := ih (fun entry member => definite entry (.tail _ member))
        (fun entry member => each entry (.tail _ member))
      obtain ⟨tree, first, deeper⟩ := each entry (.head _) entry.2 (definite entry (.head _))
      exact ⟨(entry.1, tree) :: items, .entry first others, Nat.max_le.mpr ⟨deeper, bound⟩⟩

/-- A value has a tree if what is inside a container that is not around it has. -/
theorem exists_unfolding_of_deeper (definite : heap.Definite) {fuel : Nat}
    {above : List Container}
    (deeper : ∀ c ∈ heap.containers, c ∉ above → ∀ v, v ≠ .missing →
      ∃ tree, Unfolds heap (c :: above) v tree ∧ tree.depth < fuel)
    (v : Value) (there : v ≠ .missing) :
    ∃ tree, Unfolds heap above v tree ∧ tree.depth ≤ fuel := by
  cases v with
  | array ref =>
      by_cases around : Container.array ref ∈ above
      · exact ⟨_, .arrayAgain around, Nat.zero_le fuel⟩
      · obtain ⟨items, contents, bound⟩ := unfoldsAll_exists (heap.array ref).toList
          (by simpa using definite.array ref)
          (fun slot member => deeper _ (heap.array_mem_containers ref slot (by simpa using member))
            around)
        exact ⟨_, .array around contents, bound⟩
  | hash ref =>
      by_cases around : Container.hash ref ∈ above
      · exact ⟨_, .hashAgain around, Nat.zero_le fuel⟩
      · obtain ⟨items, contents, bound⟩ := unfoldsEntries_exists (heap.hash ref) (definite.hash ref)
          (fun entry member => deeper _ (heap.hash_mem_containers ref entry member) around)
        exact ⟨_, .hash around contents, bound⟩
  | missing => exact absurd rfl there
  | _ => exact ⟨_, .leaf rfl, Nat.zero_le fuel⟩

/-- A tree is no deeper than there are containers that are not around its value. -/
theorem exists_unfolding_within (definite : heap.Definite) (fuel : Nat) (above : List Container)
    (distinct : above.Nodup) (present : above ⊆ heap.containers)
    (enough : heap.size ≤ fuel + above.length) (v : Value) (there : v ≠ .missing) :
    ∃ tree, Unfolds heap above v tree ∧ tree.depth ≤ fuel := by
  revert v
  refine heap.descend (P := fun fuel above => ∀ v, v ≠ .missing →
    ∃ tree, Unfolds heap above v tree ∧ tree.depth ≤ fuel) ?_ ?_ fuel above distinct present enough
  · intro above all v there
    exact exists_unfolding_of_deeper definite (fun c member fresh => absurd (all c member) fresh)
      v there
  · intro fuel above deeper v there
    apply exists_unfolding_of_deeper definite _ v there
    intro c member fresh v there
    obtain ⟨tree, unfolds, bound⟩ := deeper c member fresh v there
    exact ⟨tree, unfolds, Nat.lt_succ_of_le bound⟩

theorem exists_unfolding (definite : heap.Definite) (v : Value) (there : v ≠ .missing) :
    ∃ tree, Unfolds heap [] v tree ∧ tree.depth ≤ heap.size :=
  exists_unfolding_within definite heap.size [] List.nodup_nil (List.nil_subset _) (by simp) v there

/-! The text of a value is its tree written out. -/

namespace Written

/-- What writes the things inside a container, if `fuel` bounds the depth of the
container. -/
def below (heap : Heap) : (fuel : Nat) → List Container → Value → Option Text
  | 0 => fun _ _ => none
  | fuel + 1 => within heap fuel

theorem within_eq (heap : Heap) (fuel : Nat) : within heap fuel = level heap (below heap fuel) := by
  cases fuel <;> rfl

theorem below_of_within {above : List Container} {v : Value} {tree : Unfolding} {fuel : Nat}
    (written : ∀ less, tree.depth ≤ less → within heap less above v = some tree.text)
    (deeper : tree.depth < fuel) : below heap fuel above v = some tree.text := by
  cases fuel with
  | zero => omega
  | succ less => exact written less (Nat.le_of_lt_succ deeper)

theorem level_of_single (inner : List Container → Value → Option Text) (above : List Container)
    {v : Value} (single : v.isSingle = true) : level heap inner above v = some v.singleText := by
  cases v <;> first | rfl | cases single

mutual

/-- The writing follows the tree as far down as its fuel goes. -/
theorem within_of_unfolds : ∀ {above : List Container} {v : Value} {tree : Unfolding} (fuel : Nat),
    Unfolds heap above v tree → tree.depth ≤ fuel → within heap fuel above v = some tree.text
  | above, _, _, fuel, .leaf single, _ => by
      rw [within_eq, level_of_single _ _ single]
      rfl
  | above, _, _, fuel, .arrayAgain inside, _ => by
      rw [within_eq]
      exact if_pos inside
  | above, _, _, fuel, .hashAgain inside, _ => by
      rw [within_eq]
      exact if_pos inside
  | above, _, _, fuel, .array outside contents, bound => by
      have texts := elements?_of_unfolds fuel contents bound
      simp [within_eq, level, outside, texts, Unfolding.text]
  | above, _, _, fuel, .hash outside contents, bound => by
      have texts := entries?_of_unfolds fuel contents bound
      simp [within_eq, level, outside, texts, Unfolding.text]

theorem elements?_of_unfolds : ∀ {above : List Container} {slots : List Slot}
    {items : List Unfolding} (fuel : Nat), UnfoldsAll heap above slots items →
      Unfolding.depthOfAll items ≤ fuel →
        elements? (below heap fuel above) slots = some (Unfolding.textOfAll items)
  | _, _, _, _, .nil, _ => rfl
  | above, _, _, fuel, .gap others, bound => by
      have rest := elements?_of_unfolds fuel others (Nat.max_le.mp bound).2
      simp [elements?, rest, Unfolding.textOfAll, Unfolding.text]
  | above, _, _, fuel, .slot first others, bound => by
      obtain ⟨deeper, further⟩ := Nat.max_le.mp bound
      have text := below_of_within (fun less => within_of_unfolds less first) deeper
      have rest := elements?_of_unfolds fuel others further
      simp [elements?, text, rest, Unfolding.textOfAll]

theorem entries?_of_unfolds : ∀ {above : List Container} {entries : List (Text × Value)}
    {items : List (Text × Unfolding)} (fuel : Nat), UnfoldsEntries heap above entries items →
      Unfolding.depthOfEntries items ≤ fuel →
        entries? (below heap fuel above) entries = some (Unfolding.textOfEntries items)
  | _, _, _, _, .nil, _ => rfl
  | above, _, _, fuel, .entry first others, bound => by
      obtain ⟨deeper, further⟩ := Nat.max_le.mp bound
      have text := below_of_within (fun less => within_of_unfolds less first) deeper
      have rest := entries?_of_unfolds fuel others further
      simp [entries?, text, rest, Unfolding.textOfEntries]

end

end Written

/-! What stands in a tree. -/

/-- A way into a container. -/
inductive Step where
  | element (i : Nat)
  | entry (key : Text)
  deriving DecidableEq

/-- A value that is met along a path from a value. -/
inductive Occurs (heap : Heap) : Value → List Step → Value → Prop
  | here (v : Value) : Occurs heap v [] v
  | element {ref i : Nat} {v w : Value} {path : List Step}
      (found : (heap.array ref)[i]? = some (some v)) (further : Occurs heap v path w) :
      Occurs heap (.array ref) (.element i :: path) w
  | entry {ref : Nat} {key : Text} {v w : Value} {path : List Step}
      (found : (key, v) ∈ heap.hash ref) (further : Occurs heap v path w) :
      Occurs heap (.hash ref) (.entry key :: path) w

theorem Occurs.trans {u v w : Value} {path further : List Step} (first : Occurs heap u path v)
    (second : Occurs heap v further w) : Occurs heap u (path ++ further) w := by
  induction first with
  | here => exact second
  | element found _ ih => exact .element found (ih second)
  | entry found _ ih => exact .entry found (ih second)

/-- A value is met somewhere inside a container. -/
def Encloses (heap : Heap) (c : Container) (v : Value) : Prop :=
  ∃ step path, Occurs heap c.value (step :: path) v

/-- A container that is met inside itself. -/
def Circular (heap : Heap) (c : Container) : Prop := Encloses heap c c.value

/-- A part of the tree of a value is the tree of a value met inside it, with what was
around the whole and what encloses the part around it. -/
structure PartOf (heap : Heap) (above : List Container) (v : Value) (part : Unfolding)
    (around : List Container) (w : Value) (path : List Step) : Prop where
  unfolds : Unfolds heap around w part
  occurs : Occurs heap v path w
  around : ∀ c ∈ around, c ∈ above ∨ Encloses heap c w

/-- A part of what is inside a container is a part of that. -/
theorem PartOf.inside {above around : List Container} {c : Container} {v w : Value}
    {part : Unfolding} {step : Step} {path : List Step}
    (inner : PartOf heap (c :: above) v part around w path)
    (occurs : Occurs heap c.value (step :: path) w) :
    PartOf heap above c.value part around w (step :: path) where
  unfolds := inner.unfolds
  occurs := occurs
  around d member := by
    rcases inner.around d member with outer | encloses
    · rcases List.mem_cons.mp outer with rfl | further
      · exact .inr ⟨step, path, occurs⟩
      · exact .inl further
    · exact .inr encloses

mutual

/-- Empty slots apart, each part of a tree is itself a tree of a value. -/
theorem partOf_of_mem : ∀ {above : List Container} {v : Value} {tree : Unfolding},
    Unfolds heap above v tree → ∀ part ∈ tree.parts, part ≠ .gap →
      ∃ around w path, PartOf heap above v part around w path
  | _, v, .leaf _, unfolds, part, member, _ => by
      obtain rfl := List.mem_singleton.mp member
      exact ⟨_, v, [], unfolds, .here v, fun _ => .inl⟩
  | _, v, .again _, unfolds, part, member, _ => by
      obtain rfl := List.mem_singleton.mp member
      exact ⟨_, v, [], unfolds, .here v, fun _ => .inl⟩
  | _, _, _, .array outside contents, part, member, full => by
      rcases List.mem_cons.mp member with rfl | deeper
      · exact ⟨_, _, [], .array outside contents, .here _, fun _ => .inl⟩
      · obtain ⟨i, u, found, around, w, path, inner⟩ := partOf_of_mem_all contents part deeper full
        have occurs := Occurs.element (by simpa using found) inner.occurs
        exact ⟨around, w, _, inner.inside (c := .array _) occurs⟩
  | _, _, _, .hash outside contents, part, member, full => by
      rcases List.mem_cons.mp member with rfl | deeper
      · exact ⟨_, _, [], .hash outside contents, .here _, fun _ => .inl⟩
      · obtain ⟨key, u, found, around, w, path, inner⟩ :=
          partOf_of_mem_entries contents part deeper full
        have occurs := Occurs.entry found inner.occurs
        exact ⟨around, w, _, inner.inside (c := .hash _) occurs⟩

theorem partOf_of_mem_all : ∀ {above : List Container} {slots : List Slot}
    {items : List Unfolding}, UnfoldsAll heap above slots items →
      ∀ part ∈ Unfolding.partsOfAll items, part ≠ .gap →
        ∃ (i : Nat) (v : Value), slots[i]? = some (some v) ∧
          ∃ around w path, PartOf heap above v part around w path
  | _, _, _, .gap others, part, member, full => by
      rcases List.mem_append.mp member with here | later
      · exact absurd (List.mem_singleton.mp here) full
      · obtain ⟨i, v, found, inner⟩ := partOf_of_mem_all others part later full
        exact ⟨i + 1, v, found, inner⟩
  | _, _, _, .slot first others, part, member, full => by
      rcases List.mem_append.mp member with here | later
      · exact ⟨0, _, rfl, partOf_of_mem first part here full⟩
      · obtain ⟨i, v, found, inner⟩ := partOf_of_mem_all others part later full
        exact ⟨i + 1, v, found, inner⟩

theorem partOf_of_mem_entries : ∀ {above : List Container} {entries : List (Text × Value)}
    {items : List (Text × Unfolding)}, UnfoldsEntries heap above entries items →
      ∀ part ∈ Unfolding.partsOfEntries items, part ≠ .gap →
        ∃ key v, (key, v) ∈ entries ∧ ∃ around w path, PartOf heap above v part around w path
  | _, _, _, .entry first others, part, member, full => by
      rcases List.mem_append.mp member with here | later
      · exact ⟨_, _, .head _, partOf_of_mem first part here full⟩
      · obtain ⟨key, v, found, inner⟩ := partOf_of_mem_entries others part later full
        exact ⟨key, v, .tail _ found, inner⟩

end

/-- A mark stands for a container that was around the whole or holds itself. -/
theorem circular_of_again {above : List Container} {v : Value} {tree : Unfolding}
    (unfolds : Unfolds heap above v tree) {c : Container} (member : .again c ∈ tree.parts) :
    (c ∈ above ∨ Circular heap c) ∧ ∃ path, Occurs heap v path c.value := by
  obtain ⟨around, w, path, inner⟩ := partOf_of_mem unfolds _ member (by simp)
  cases inner.unfolds with
  | arrayAgain inside => exact ⟨inner.around _ inside, path, inner.occurs⟩
  | hashAgain inside => exact ⟨inner.around _ inside, path, inner.occurs⟩

mutual

/-- Containers that no mark stands for can as well not be around a value. -/
theorem unfolds_of_marks : ∀ {above fewer : List Container} {v : Value} {tree : Unfolding},
    Unfolds heap above v tree → fewer ⊆ above →
      (∀ c, .again c ∈ tree.parts → c ∈ above → c ∈ fewer) → Unfolds heap fewer v tree
  | _, _, _, _, .leaf single, _, _ => .leaf single
  | _, _, _, _, .arrayAgain inside, _, marked =>
      .arrayAgain (marked _ (Unfolding.self_mem_parts _) inside)
  | _, _, _, _, .hashAgain inside, _, marked =>
      .hashAgain (marked _ (Unfolding.self_mem_parts _) inside)
  | _, _, _, _, .array outside contents, less, marked =>
      .array (fun inside => outside (less inside))
        (unfoldsAll_of_marks contents (List.cons_subset_cons _ less) fun c member inside => by
          rcases List.mem_cons.mp inside with rfl | further
          · exact .head _
          · exact .tail _ (marked c (.tail _ member) further))
  | _, _, _, _, .hash outside contents, less, marked =>
      .hash (fun inside => outside (less inside))
        (unfoldsEntries_of_marks contents (List.cons_subset_cons _ less) fun c member inside => by
          rcases List.mem_cons.mp inside with rfl | further
          · exact .head _
          · exact .tail _ (marked c (.tail _ member) further))

theorem unfoldsAll_of_marks : ∀ {above fewer : List Container} {slots : List Slot}
    {items : List Unfolding}, UnfoldsAll heap above slots items → fewer ⊆ above →
      (∀ c, .again c ∈ Unfolding.partsOfAll items → c ∈ above → c ∈ fewer) →
        UnfoldsAll heap fewer slots items
  | _, _, _, _, .nil, _, _ => .nil
  | _, _, _, _, .gap others, less, marked =>
      .gap (unfoldsAll_of_marks others less fun c member =>
        marked c (List.mem_append_right _ member))
  | _, _, _, _, .slot first others, less, marked =>
      .slot (unfolds_of_marks first less fun c member => marked c (List.mem_append_left _ member))
        (unfoldsAll_of_marks others less fun c member => marked c (List.mem_append_right _ member))

theorem unfoldsEntries_of_marks : ∀ {above fewer : List Container}
    {entries : List (Text × Value)} {items : List (Text × Unfolding)},
      UnfoldsEntries heap above entries items → fewer ⊆ above →
        (∀ c, .again c ∈ Unfolding.partsOfEntries items → c ∈ above → c ∈ fewer) →
          UnfoldsEntries heap fewer entries items
  | _, _, _, _, .nil, _, _ => .nil
  | _, _, _, _, .entry first others, less, marked =>
      .entry (unfolds_of_marks first less fun c member => marked c (List.mem_append_left _ member))
        (unfoldsEntries_of_marks others less fun c member =>
          marked c (List.mem_append_right _ member))

end

theorem Container.value_injective : Function.Injective Container.value := by
  intro c d same
  cases c <;> cases d <;> simp_all [Container.value]

theorem root_of_unfolds {above : List Container} {v : Value} {tree : Unfolding}
    (unfolds : Unfolds heap above v tree) : tree.root? = some v := by
  cases unfolds <;> rfl

theorem Encloses.before {c d : Container} {v : Value} {path : List Step}
    (occurs : Occurs heap c.value path d.value) (encloses : Encloses heap d v) :
    Encloses heap c v := by
  obtain ⟨step, rest, further⟩ := encloses
  have whole := occurs.trans further
  cases path with
  | nil => exact ⟨step, rest, whole⟩
  | cons first path => exact ⟨first, path ++ step :: rest, whole⟩

/-- Wherever it stands in a tree, a container that does not hold itself has the same
tree as alone. -/
theorem unfolds_alone {v : Value} {tree part : Unfolding} (unfolds : Unfolds heap [] v tree)
    (member : part ∈ tree.parts) {c : Container} (root : part.root? = some c.value)
    (straight : ¬ Circular heap c) : Unfolds heap [] c.value part := by
  have full : part ≠ .gap := by
    rintro rfl
    cases root
  obtain ⟨around, w, path, inner⟩ := partOf_of_mem unfolds part member full
  obtain rfl : w = c.value := Option.some.inj ((root_of_unfolds inner.unfolds).symm.trans root)
  apply unfolds_of_marks inner.unfolds (List.nil_subset _)
  intro d again enclosing
  rcases inner.around d enclosing with none | encloses
  · exact none
  · -- what is marked inside the container and encloses it would be on a way back to it
    obtain ⟨-, path, occurs⟩ := circular_of_again inner.unfolds again
    exact absurd (encloses.before occurs) straight

theorem ne_missing_of_unfolds {above : List Container} {v : Value} {tree : Unfolding}
    (unfolds : Unfolds heap above v tree) : v ≠ .missing := by
  rintro rfl
  cases unfolds with
  | leaf single => cases single

theorem depth_le_of_unfolds (definite : heap.Definite) {v : Value} {tree : Unfolding}
    (unfolds : Unfolds heap [] v tree) : tree.depth ≤ heap.size := by
  obtain ⟨other, unfolds', bound⟩ :=
    exists_unfolding definite v (ne_missing_of_unfolds unfolds)
  exact unfolds_unique unfolds' unfolds ▸ bound

theorem text_of_unfolds (definite : heap.Definite) {v : Value} {tree : Unfolding}
    (unfolds : Unfolds heap [] v tree) : v.text? heap = some tree.text :=
  Written.within_of_unfolds heap.size unfolds (depth_le_of_unfolds definite unfolds)

/-- The text of a value is its unfolding written out: each array and each hash in
full wherever it is met, and a mark in its place where it is met inside itself. The
unfolding is unique. What is marked in it holds itself; what does not is written
everywhere as it is written alone. -/
theorem text_unfolded (heap : Heap) (definite : heap.Definite) (v : Value)
    (there : v ≠ .missing) :
    ∃ tree, Unfolds heap [] v tree ∧ (∀ other, Unfolds heap [] v other → other = tree) ∧
      v.text? heap = some tree.text ∧
      (∀ c, .again c ∈ tree.parts → Circular heap c) ∧
      ∀ part ∈ tree.parts, ∀ c, part.root? = some c.value → ¬ Circular heap c →
        c.value.text? heap = some part.text := by
  obtain ⟨tree, unfolds, -⟩ := exists_unfolding definite v there
  refine ⟨tree, unfolds, fun other unfolds' => unfolds_unique unfolds' unfolds,
    text_of_unfolds definite unfolds, ?_, ?_⟩
  · intro c again
    obtain ⟨inside | circular, -⟩ := circular_of_again unfolds again
    · cases inside
    · exact circular
  · intro part member c root straight
    exact text_of_unfolds definite (unfolds_alone unfolds member root straight)

end

/-- An array that stands twice in another one, which holds itself by way of a hash,
and twice in a second hash. -/
def twice : Heap where
  arrays := #[#[some (.string "a")], #[some (.array 0), some (.array 0), some (.hash 0)]]
  hashes := #[[("up", .array 1), ("in", .array 0)], [("left", .array 0), ("right", .array 0)]]

theorem twice_definite : twice.Definite where
  array ref := by
    rcases ref with _ | _ | ref <;> simp [twice, Heap.array]
  hash ref := by
    rcases ref with _ | _ | ref <;> simp [twice, Heap.hash]

theorem text_unfolded_twice :
    twice.Definite ∧ ¬ Circular twice (.array 0) ∧
      ∃ tree, Unfolds twice [] (.array 1) tree ∧
        tree.text = "[[a], [a], \x7bup: [...], in: [a]\x7d]" ∧
        ∀ part ∈ tree.parts, part.root? = some (.array 0) → part.text = "[a]" := by
  have straight : ¬ Circular twice (.array 0) := by
    rintro ⟨step, path, occurs⟩
    cases occurs with
    | @element _ i v _ _ found further =>
        have inside : i = 0 ∧ Value.string "a" = v := by
          simpa [twice, Heap.array, List.getElem?_singleton] using found
        obtain ⟨-, rfl⟩ := inside
        cases further
  obtain ⟨tree, unfolds, -, text, -, alone⟩ :=
    text_unfolded twice twice_definite (.array 1) Value.noConfusion
  have outer : (Value.array 1).text? twice = some "[[a], [a], \x7bup: [...], in: [a]\x7d]" := by
    decide +kernel
  have inner : (Value.array 0).text? twice = some "[a]" := by decide +kernel
  refine ⟨twice_definite, straight, tree, unfolds, Option.some.inj (text.symm.trans outer), ?_⟩
  intro part member root
  have same := alone part member (.array 0) root straight
  exact Option.some.inj (same.symm.trans inner)

end Loom
