import Loom.Value.Equality
import Loom.Value.Written
import Mathlib.Data.List.Perm.Subperm
import Mathlib.Data.List.ProdSigma

/-!
On a heap in which nothing is missing every value has a text, and any two values
compare. What needs an argument is that the fuel that bounds the depth is never
used up: the containers around a value that is written are different ones, and so
are the pairs of containers whose comparison was begun.
-/

namespace Loom

namespace Heap

/-- Every slot of every array holds a value, and so does every key of a hash. -/
structure Whole (heap : Heap) : Prop where
  array : ∀ ref, ∀ slot ∈ heap.array ref, Slot.read slot ≠ .missing
  hash : ∀ ref, ∀ entry ∈ heap.hash ref, entry.2 ≠ .missing

/-- The containers that are there. -/
def containers (heap : Heap) : List Container :=
  (List.range heap.arrays.size).map .array ++ (List.range heap.hashes.size).map .hash

theorem containers_length (heap : Heap) : heap.containers.length = heap.size := by
  simp [containers, size]

theorem array_mem_containers (heap : Heap) (ref : Nat) (slot : Slot)
    (member : slot ∈ heap.array ref) : Container.array ref ∈ heap.containers := by
  by_cases inside : ref < heap.arrays.size
  · simp [containers, inside]
  · simp [array, Array.getD, inside] at member

theorem hash_mem_containers (heap : Heap) (ref : Nat) (entry : Text × Value)
    (member : entry ∈ heap.hash ref) : Container.hash ref ∈ heap.containers := by
  by_cases inside : ref < heap.hashes.size
  · simp [containers, inside]
  · simp [hash, Array.getD, inside] at member

/-- Different containers that are there are no more than all of them. -/
theorem nodup_length_le (heap : Heap) (above : List Container) (distinct : above.Nodup)
    (present : above ⊆ heap.containers) : above.length ≤ heap.size := by
  rw [← heap.containers_length]
  exact (distinct.subperm present).length_le

/-- The containers around a value are different ones that are there. So what holds where all
of them are around, and one level up whenever it holds inside each further one, holds with as
much fuel as there are containers that are not around. -/
theorem descend (heap : Heap) {P : Nat → List Container → Prop}
    (zero : ∀ above, (∀ c ∈ heap.containers, c ∈ above) → P 0 above)
    (succ : ∀ fuel above, (∀ c ∈ heap.containers, c ∉ above → P fuel (c :: above)) →
      P (fuel + 1) above)
    (fuel : Nat) (above : List Container) (distinct : above.Nodup)
    (present : above ⊆ heap.containers) (enough : heap.size ≤ fuel + above.length) :
    P fuel above := by
  induction fuel generalizing above with
  | zero =>
      apply zero
      intro c member
      by_contra fresh
      have bound := heap.nodup_length_le (c :: above) (List.nodup_cons.mpr ⟨fresh, distinct⟩)
        (List.cons_subset.mpr ⟨member, present⟩)
      simp only [List.length_cons] at bound
      omega
  | succ fuel ih =>
      apply succ
      intro c member fresh
      apply ih (c :: above) (List.nodup_cons.mpr ⟨fresh, distinct⟩)
        (List.cons_subset.mpr ⟨member, present⟩)
      simp only [List.length_cons]
      omega

end Heap

namespace Written

theorem elements?_is_some {inner : Value → Option Text} (slots : List Slot)
    (full : ∀ slot ∈ slots, slot.read ≠ .missing)
    (each : ∀ slot ∈ slots, ∀ v, v ≠ .missing → ∃ text, inner v = some text) :
    ∃ texts, elements? inner slots = some texts := by
  induction slots with
  | nil => exact ⟨[], rfl⟩
  | cons slot rest ih =>
      obtain ⟨texts, others⟩ := ih (fun slot member => full slot (.tail _ member))
        (fun slot member => each slot (.tail _ member))
      cases slot with
      | none => exact ⟨[] :: texts, by simp [elements?, others]⟩
      | some v =>
          obtain ⟨text, first⟩ := each _ (.head _) v (full _ (.head _))
          exact ⟨text :: texts, by simp [elements?, first, others]⟩

theorem entries?_is_some {inner : Value → Option Text} (entries : List (Text × Value))
    (full : ∀ entry ∈ entries, entry.2 ≠ .missing)
    (each : ∀ entry ∈ entries, ∀ v, v ≠ .missing → ∃ text, inner v = some text) :
    ∃ texts, entries? inner entries = some texts := by
  induction entries with
  | nil => exact ⟨[], rfl⟩
  | cons entry rest ih =>
      obtain ⟨texts, others⟩ := ih (fun entry member => full entry (.tail _ member))
        (fun entry member => each entry (.tail _ member))
      obtain ⟨text, first⟩ := each _ (.head _) entry.2 (full _ (.head _))
      exact ⟨(entry.1 ++ ": " ++ text) :: texts, by simp [entries?, first, others]⟩

variable {heap : Heap}

/-- A value has a text if what is inside a container that is not around it has. -/
theorem level_is_some (whole : heap.Whole) {inner : List Container → Value → Option Text}
    {above : List Container}
    (deeper : ∀ c ∈ heap.containers, c ∉ above → ∀ v, v ≠ .missing →
      ∃ text, inner (c :: above) v = some text)
    (v : Value) (there : v ≠ .missing) : ∃ text, level heap inner above v = some text := by
  cases v with
  | array ref =>
      by_cases around : Container.array ref ∈ above
      · exact ⟨_, by simp [level, around]; rfl⟩
      · obtain ⟨texts, found⟩ := elements?_is_some (heap.array ref).toList
          (fun slot member => whole.array ref slot (by simpa using member))
          (fun slot member => deeper _ (heap.array_mem_containers ref slot (by simpa using member))
            around)
        exact ⟨_, by simp [level, around, found]; rfl⟩
  | hash ref =>
      by_cases around : Container.hash ref ∈ above
      · exact ⟨_, by simp [level, around]; rfl⟩
      · obtain ⟨texts, found⟩ := entries?_is_some (heap.hash ref) (whole.hash ref)
          (fun entry member => deeper _ (heap.hash_mem_containers ref entry member) around)
        exact ⟨_, by simp [level, around, found]; rfl⟩
  | missing => exact absurd rfl there
  | _ => exact ⟨_, rfl⟩

/-- The fuel suffices: a container that comes on top of those around a value is
one more of those that are there. -/
theorem within_is_some (whole : heap.Whole) (fuel : Nat) (above : List Container)
    (distinct : above.Nodup) (present : above ⊆ heap.containers)
    (enough : heap.size ≤ fuel + above.length) (v : Value) (there : v ≠ .missing) :
    ∃ text, within heap fuel above v = some text := by
  revert v
  refine heap.descend (P := fun fuel above => ∀ v, v ≠ .missing →
    ∃ text, within heap fuel above v = some text) ?_ ?_ fuel above distinct present enough
  · intro above all v there
    exact level_is_some whole (fun c member fresh => absurd (all c member) fresh) v there
  · intro fuel above deeper v there
    exact level_is_some whole deeper v there

end Written

theorem text_of_whole (heap : Heap) (whole : heap.Whole) (v : Value) (there : v ≠ .missing) :
    ∃ text, v.text? heap = some text :=
  Written.within_is_some whole heap.size [] List.nodup_nil (List.nil_subset _) (by simp) v there

namespace Heap

/-- The pairs of containers that are there. -/
def pairs (heap : Heap) : List (Container × Container) := heap.containers ×ˢ heap.containers

theorem pairs_length (heap : Heap) : heap.pairs.length = heap.size * heap.size := by
  simp [pairs, List.length_product, containers_length]

/-- Two arrays of one length that hold something are both there. -/
theorem arrays_mem_pairs (heap : Heap) (r s : Nat) (slot : Slot) (member : slot ∈ heap.array r)
    (sizes : (heap.array r).size = (heap.array s).size) :
    (Container.array r, Container.array s) ∈ heap.pairs := by
  have filled : 0 < (heap.array s).size := sizes ▸ Array.size_pos_of_mem member
  exact List.mem_product.mpr ⟨heap.array_mem_containers r slot member,
    heap.array_mem_containers s _ (Array.getElem_mem filled)⟩

theorem hashes_mem_pairs (heap : Heap) (r s : Nat) (entry : Text × Value)
    (member : entry ∈ heap.hash r) (sizes : (heap.hash r).length = (heap.hash s).length) :
    (Container.hash r, Container.hash s) ∈ heap.pairs := by
  have filled : 0 < (heap.hash s).length := sizes ▸ List.length_pos_of_mem member
  exact List.mem_product.mpr ⟨heap.hash_mem_containers r entry member,
    heap.hash_mem_containers s _ (List.getElem_mem filled)⟩

/-- How many of some pairs are pairs of containers that are there. -/
def countPairs (heap : Heap) (begun : Equality.Begun) : Nat :=
  (begun.filter heap.pairs.contains).length

theorem countPairs_le (heap : Heap) (begun : Equality.Begun) (distinct : begun.Nodup) :
    heap.countPairs begun ≤ heap.size * heap.size := by
  rw [← heap.pairs_length]
  have inside : begun.filter heap.pairs.contains ⊆ heap.pairs := by
    intro pair member
    simpa using (List.mem_filter.mp member).2
  have still : (begun.filter heap.pairs.contains).Nodup := distinct.filter _
  exact (still.subperm inside).length_le

theorem countPairs_cons (heap : Heap) (pair : Container × Container) (begun : Equality.Begun)
    (member : pair ∈ heap.pairs) : heap.countPairs (pair :: begun) = heap.countPairs begun + 1 := by
  simp [countPairs, member]

theorem countPairs_mono (heap : Heap) {begun after : Equality.Begun} (more : begun <:+ after) :
    heap.countPairs begun ≤ heap.countPairs after :=
  (more.sublist.filter _).length_le

/-- A comparison is begun once for each pair. So what holds where it was begun for all pairs
that are there, and one level up whenever it holds after each further pair, holds with as
much fuel as there are pairs for which it was not begun. -/
theorem descendPairs (heap : Heap) {P : Nat → Equality.Begun → Prop}
    (zero : ∀ begun, begun.Nodup → (∀ pair ∈ heap.pairs, pair ∈ begun) → P 0 begun)
    (succ : ∀ fuel begun, begun.Nodup → (∀ pair ∈ heap.pairs, pair ∉ begun → ∀ later,
      pair :: begun <:+ later → later.Nodup → P fuel later) → P (fuel + 1) begun)
    (fuel : Nat) (begun : Equality.Begun) (distinct : begun.Nodup)
    (enough : heap.size * heap.size ≤ fuel + heap.countPairs begun) : P fuel begun := by
  induction fuel generalizing begun with
  | zero =>
      apply zero begun distinct
      intro pair member
      by_contra fresh
      have bound := heap.countPairs_le (pair :: begun) (List.nodup_cons.mpr ⟨fresh, distinct⟩)
      rw [heap.countPairs_cons pair begun member] at bound
      omega
  | succ fuel ih =>
      apply succ fuel begun distinct
      intro pair member fresh later more distinct'
      apply ih later distinct'
      have counted := heap.countPairs_mono more
      rw [heap.countPairs_cons pair begun member] at counted
      omega

end Heap

namespace Equality

/-- A comparison that was begun with some pairs has an answer, and other pairs
were begun on the way. -/
def Answers (begun : Begun) (outcome : Option (Bool × Begun)) : Prop :=
  ∃ equal after, outcome = some (equal, after) ∧ begun <:+ after ∧ after.Nodup

theorem answers_of_more {begun later : Begun} {outcome : Option (Bool × Begun)}
    (more : begun <:+ later) (answered : Answers later outcome) : Answers begun outcome := by
  obtain ⟨equal, after, found, rest, distinct⟩ := answered
  exact ⟨equal, after, found, more.trans rest, distinct⟩

theorem answers_pure {begun : Begun} (equal : Bool) (distinct : begun.Nodup) :
    Answers begun (some (equal, begun)) :=
  ⟨equal, begun, rfl, List.suffix_refl _, distinct⟩

/-- A comparison that answers on all values that are there, whatever pairs were
begun after some. -/
def Total (inner : Value → Value → Begun → Option (Bool × Begun)) (begun : Begun) : Prop :=
  ∀ v w later, begun <:+ later → later.Nodup → v ≠ .missing → w ≠ .missing →
    Answers later (inner v w later)

theorem elements?_answers {inner : Value → Value → Begun → Option (Bool × Begun)}
    (begun : Begun) (left right : List Slot) (later : Begun) (more : begun <:+ later)
    (distinct : later.Nodup) (same : left.length = right.length)
    (fullLeft : ∀ slot ∈ left, slot.read ≠ .missing)
    (fullRight : ∀ slot ∈ right, slot.read ≠ .missing)
    (total : ∀ slot ∈ left, Total inner begun) :
    Answers later (elements? inner left right later) := by
  induction left generalizing right later with
  | nil => exact answers_pure true distinct
  | cons slot rest ih =>
      cases right with
      | nil => simp at same
      | cons other others =>
          have step : ∀ later, begun <:+ later → later.Nodup →
              Answers later (elements? inner rest others later) :=
            fun later more distinct => ih others later more distinct (by simpa using same)
              (fun slot member => fullLeft slot (.tail _ member))
              (fun slot member => fullRight slot (.tail _ member))
              (fun slot member => total slot (.tail _ member))
          cases slot with
          | none => exact step later more distinct
          | some v =>
              have there : (other.getD .missing : Value) ≠ .missing := fullRight _ (.head _)
              obtain ⟨equal, after, found, longer, distinct⟩ :=
                total _ (.head _) v _ later more distinct (fullLeft _ (.head _)) there
              cases equal with
              | false => exact ⟨false, after, by simp [elements?, found], longer, distinct⟩
              | true =>
                  have others := step after (more.trans longer) distinct
                  apply answers_of_more longer
                  simpa [elements?, found] using others

theorem entries?_answers {inner : Value → Value → Begun → Option (Bool × Begun)}
    (begun : Begun) (others : Table Value) (entries : List (Text × Value)) (later : Begun)
    (more : begun <:+ later) (distinct : later.Nodup)
    (full : ∀ entry ∈ entries, entry.2 ≠ .missing)
    (total : ∀ entry ∈ entries, Total inner begun) :
    Answers later (entries? inner others entries later) := by
  induction entries generalizing later with
  | nil => exact answers_pure true distinct
  | cons entry rest ih =>
      obtain ⟨key, v⟩ := entry
      cases hit : (Table.find? key others).bind Value.present? with
      | none => exact ⟨false, later, by simp [entries?, hit], List.suffix_refl _, distinct⟩
      | some w =>
          have there : w ≠ .missing := by
            obtain ⟨u, _, present⟩ := Option.bind_eq_some_iff.mp hit
            rintro rfl
            cases u <;> simp [Value.present?] at present
          obtain ⟨equal, after, found, longer, distinct⟩ :=
            total _ (.head _) v w later more distinct (full _ (.head _)) there
          cases equal with
          | false => exact ⟨false, after, by simp [entries?, hit, found], longer, distinct⟩
          | true =>
              have step := ih after (more.trans longer) distinct
                (fun entry member => full entry (.tail _ member))
                (fun entry member => total entry (.tail _ member))
              apply answers_of_more longer
              simpa [entries?, hit, found] using step

variable {heap : Heap}

/-- Two containers of one size are compared unless their comparison was begun. -/
theorem answers_containers {begun : Begun} (distinct : begun.Nodup)
    (pair : Container × Container) {m n : Nat} (compare : Begun → Option (Bool × Begun))
    (answered : m = n → (pair :: begun).Nodup → pair ∉ begun →
      Answers (pair :: begun) (compare (pair :: begun))) :
    Answers begun
      (if m ≠ n then some (false, begun)
      else if pair ∈ begun then some (true, begun) else compare (pair :: begun)) := by
  by_cases sizes : m = n
  · by_cases known : pair ∈ begun
    · simpa [sizes, known] using answers_pure true distinct
    · have distinct' : (pair :: begun).Nodup := List.nodup_cons.mpr ⟨known, distinct⟩
      have compared := answers_of_more (List.suffix_cons _ _) (answered sizes distinct' known)
      simpa [sizes, known] using compared
  · simpa [sizes] using answers_pure false distinct

theorem level_answers (whole : heap.Whole) {inner : Value → Value → Begun → Option (Bool × Begun)}
    {begun : Begun} (distinct : begun.Nodup)
    (deeper : ∀ pair ∈ heap.pairs, pair ∉ begun → Total inner (pair :: begun))
    (v w : Value) (left : v ≠ .missing) (right : w ≠ .missing) :
    Answers begun (level heap inner v w begun) := by
  unfold level
  split
  · exact answers_pure true distinct
  · split
    · exact absurd rfl left
    · exact absurd rfl right
    · exact answers_pure true distinct
    · exact answers_pure _ distinct
    · exact answers_pure _ distinct
    · exact answers_pure _ distinct
    · rename_i r s _
      apply answers_containers distinct (.array r, .array s)
        (elements? inner (heap.array r).toList (heap.array s).toList)
      intro sizes distinct fresh
      -- only where there is an element to compare is the pair known to be there
      have pairs : ∀ slot ∈ (heap.array r).toList,
          (Container.array r, Container.array s) ∈ heap.pairs :=
        fun slot member => heap.arrays_mem_pairs r s slot (by simpa using member) sizes
      exact elements?_answers _ _ _ _ (List.suffix_refl _) distinct (by simpa using sizes)
        (fun slot member => whole.array r slot (by simpa using member))
        (fun slot member => whole.array s slot (by simpa using member))
        (fun slot member => deeper _ (pairs slot member) fresh)
    · rename_i r s _
      apply answers_containers distinct (.hash r, .hash s)
        (entries? inner (heap.hash s) (heap.hash r))
      intro sizes distinct fresh
      have pairs : ∀ entry ∈ heap.hash r, (Container.hash r, Container.hash s) ∈ heap.pairs :=
        fun entry member => heap.hashes_mem_pairs r s entry member sizes
      exact entries?_answers _ _ _ _ (List.suffix_refl _) distinct (whole.hash r)
        (fun entry member => deeper _ (pairs entry member) fresh)
    · exact answers_pure _ distinct
    · exact answers_pure _ distinct
    · exact answers_pure false distinct

/-- The fuel suffices here too: a pair is begun once, and one more of the pairs
that are there is begun at each step deeper. -/
theorem within_answers (whole : heap.Whole) (fuel : Nat) (begun : Begun) (distinct : begun.Nodup)
    (enough : heap.size * heap.size ≤ fuel + heap.countPairs begun) (v w : Value)
    (left : v ≠ .missing) (right : w ≠ .missing) :
    Answers begun (within heap fuel v w begun) := by
  revert v w
  refine heap.descendPairs (P := fun fuel begun => ∀ v w, v ≠ .missing → w ≠ .missing →
    Answers begun (within heap fuel v w begun)) ?_ ?_ fuel begun distinct enough
  · intro begun distinct all v w left right
    exact level_answers whole distinct (fun pair member fresh => absurd (all pair member) fresh)
      v w left right
  · intro fuel begun distinct deeper v w left right
    apply level_answers whole distinct _ v w left right
    intro pair member fresh v w later more distinct left right
    exact deeper pair member fresh later more distinct v w left right

end Equality

theorem equal_of_whole (heap : Heap) (whole : heap.Whole) (v w : Value) (left : v ≠ .missing)
    (right : w ≠ .missing) : ∃ equal, Value.equal? heap v w = some equal := by
  obtain ⟨equal, after, found, _⟩ :=
    Equality.within_answers whole (heap.size * heap.size) [] List.nodup_nil (by simp) v w left right
  exact ⟨equal, by simp [Value.equal?, found]⟩

end Loom
