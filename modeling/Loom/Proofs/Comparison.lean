import Loom.Proofs.Similarity

/-!
The comparison of values against what it decides. It keeps the pairs of containers
it has begun with, and takes a pair that it meets again to be equal. When the whole
comparison comes out true those pairs lead to no difference; and where some relation
leads to none, no comparison comes out false.
-/

namespace Loom

/-- A container, as the value that it is. -/
def Container.value : Container → Value
  | .array ref => .array ref
  | .hash ref => .hash ref

namespace Equality

/-- What the pairs of containers that were begun say of two values. -/
inductive Met (begun : Begun) : Value → Value → Prop
  | alone {v w : Value} (alike : AlikeAlone v w) : Met begun v w
  | pair {c d : Container} (member : (c, d) ∈ begun) :
      Met begun (Container.value c) (Container.value d)

theorem Met.mono {begun after : Begun} (more : begun ⊆ after) {v w : Value}
    (met : Met begun v w) : Met after v w := by
  cases met with
  | alone alike => exact .alone alike
  | pair member => exact .pair (more member)

/-- What is left of a comparison that came out true: the pairs that were begun on
the way lead to no difference. -/
structure Settles (heap : Heap) (begun after : Begun) : Prop where
  more : begun ⊆ after
  closed : ∀ c d, (c, d) ∈ after → (c, d) ∉ begun →
    Alike heap (Met after) (Container.value c) (Container.value d)

variable {heap : Heap}

theorem settles_refl (begun : Begun) : Settles heap begun begun :=
  ⟨List.Subset.refl begun, fun _ _ member fresh => absurd member fresh⟩

theorem Settles.trans {begun middle after : Begun} (first : Settles heap begun middle)
    (second : Settles heap middle after) : Settles heap begun after where
  more := List.Subset.trans first.more second.more
  closed c d member fresh := by
    by_cases earlier : (c, d) ∈ middle
    · exact (first.closed c d earlier fresh).mono fun _ _ met => met.mono second.more
    · exact second.closed c d member earlier

/-- A comparison is right to come out true. -/
def Sound (heap : Heap) (inner : Value → Value → Begun → Option (Bool × Begun)) : Prop :=
  ∀ v w begun after, inner v w begun = some (true, after) →
    Settles heap begun after ∧ Met after v w

theorem elements?_sound {inner : Value → Value → Begun → Option (Bool × Begun)}
    (sound : Sound heap inner) (left right : List Slot) (begun after : Begun)
    (equal : elements? inner left right begun = some (true, after)) :
    Settles heap begun after ∧
      ∀ (i : Nat) (v w : Value), left[i]? = some (some v) → right[i]? = some (some w) →
        Met after v w := by
  induction left generalizing right begun with
  | nil =>
      obtain ⟨-, rfl⟩ : True ∧ begun = after := by simpa [elements?] using equal
      exact ⟨settles_refl begun, by simp⟩
  | cons slot rest ih =>
      cases slot with
      | none =>
          obtain ⟨settles, each⟩ := ih (right.drop 1) begun equal
          refine ⟨settles, fun i v w first second => ?_⟩
          cases i with
          | zero => simp at first
          | succ i => exact each i v w (by simpa using first) (by simpa [Nat.add_comm] using second)
      | some v =>
          obtain ⟨⟨answer, middle⟩, compared, others⟩ := Option.bind_eq_some_iff.mp equal
          cases answer with
          | false => simp at others
          | true =>
              obtain ⟨settles, met⟩ := sound _ _ _ _ compared
              obtain ⟨settles', each⟩ := ih (right.drop 1) middle (by simpa using others)
              refine ⟨settles.trans settles', fun i x y first second => ?_⟩
              cases i with
              | zero =>
                  have here : right.head? = some (some y) := by
                    rw [List.head?_eq_getElem?]
                    exact second
                  cases Option.some.inj (Option.some.inj first)
                  simp only [here, Option.join_some, Option.getD_some] at met
                  exact met.mono settles'.more
              | succ i =>
                  exact each i x y (by simpa using first) (by simpa [Nat.add_comm] using second)

theorem entries?_sound {inner : Value → Value → Begun → Option (Bool × Begun)}
    (sound : Sound heap inner) (others : Table Value) (entries : List (Text × Value))
    (begun after : Begun) (equal : entries? inner others entries begun = some (true, after)) :
    Settles heap begun after ∧
      ∀ key v, (key, v) ∈ entries → ∃ w, Table.find? key others = some w ∧ Met after v w := by
  induction entries generalizing begun with
  | nil =>
      obtain ⟨-, rfl⟩ : True ∧ begun = after := by simpa [entries?] using equal
      exact ⟨settles_refl begun, by simp⟩
  | cons entry rest ih =>
      obtain ⟨key, v⟩ := entry
      cases hit : (Table.find? key others).bind Value.present? with
      | none => simp [entries?, hit] at equal
      | some w =>
          have found : Table.find? key others = some w := by
            obtain ⟨u, found, present⟩ := Option.bind_eq_some_iff.mp hit
            cases u <;> simp_all [Value.present?]
          simp only [entries?, hit] at equal
          obtain ⟨⟨answer, middle⟩, compared, remaining⟩ := Option.bind_eq_some_iff.mp equal
          cases answer with
          | false => simp at remaining
          | true =>
              obtain ⟨settles, met⟩ := sound _ _ _ _ compared
              obtain ⟨settles', each⟩ := ih middle (by simpa using remaining)
              refine ⟨settles.trans settles', fun k x member => ?_⟩
              rcases List.mem_cons.mp member with same | later
              · cases same
                exact ⟨w, found, met.mono settles'.more⟩
              · exact each k x later

/-- A pair of containers that is compared is settled with what it leads to. -/
theorem settles_pair {begun after : Begun} {c d : Container}
    (settles : Settles heap ((c, d) :: begun) after)
    (alike : Alike heap (Met after) (Container.value c) (Container.value d)) :
    Settles heap begun after ∧ Met after (Container.value c) (Container.value d) := by
  have member : (c, d) ∈ after := settles.more (.head _)
  refine ⟨⟨fun pair earlier => settles.more (.tail _ earlier), fun e f inside fresh => ?_⟩,
    .pair member⟩
  by_cases this : (e, f) = (c, d)
  · cases this
    exact alike
  · exact settles.closed e f inside (by simp [this, fresh])

theorem alikeAlone_of_same {v w : Value} (same : same v w = true) : AlikeAlone v w := by
  cases v <;> cases w <;> simp only [Equality.same, Bool.and_eq_true, beq_iff_eq] at same
  case number.number x s y t =>
      obtain ⟨⟨left, right⟩, rfl⟩ := same
      exact .nan s left right
  case array.array => exact same ▸ .same _
  case hash.hash => exact same ▸ .same _
  case missing.missing => exact .same _
  all_goals cases same

/-- Two containers come out equal when their pair was met before, or else when
they are of one size and their contents come out equal. -/
theorem of_containers {begun after : Begun} {pair : Container × Container} {m n : Nat}
    {compare : Begun → Option (Bool × Begun)}
    (equal : (if m ≠ n then some (false, begun)
      else if pair ∈ begun then some (true, begun) else compare (pair :: begun)) =
        some (true, after)) :
    (pair ∈ begun ∧ begun = after) ∨ (m = n ∧ compare (pair :: begun) = some (true, after)) := by
  by_cases sizes : m = n
  · by_cases known : pair ∈ begun
    · exact .inl ⟨known, by simpa [sizes, known] using equal⟩
    · exact .inr ⟨sizes, by simpa [sizes, known] using equal⟩
  · simp [sizes] at equal

/-- Hashes of one size have the same keys if one has all keys of the other. -/
theorem same_keys {table other : Table Value} (distinct : table.keys.Nodup)
    (sizes : table.length = other.length)
    (inside : ∀ key ∈ table.keys, key ∈ other.keys) (key : Text) :
    key ∈ table.keys ↔ key ∈ other.keys := by
  have reordered : table.keys.Perm other.keys :=
    (distinct.subperm inside).perm_of_length_le (by simp [Table.keys, sizes])
  exact reordered.mem_iff

theorem level_sound (keyed : heap.Keyed)
    {inner : Value → Value → Begun → Option (Bool × Begun)} (sound : Sound heap inner) :
    Sound heap (level heap inner) := by
  intro v w begun after equal
  unfold level at equal
  split at equal
  · rename_i same
    obtain ⟨-, rfl⟩ : True ∧ begun = after := by simpa using equal
    exact ⟨settles_refl begun, .alone (alikeAlone_of_same same)⟩
  · -- a comparison of values that are no containers begins nothing
    have alone : ∀ {v w : Value} {answer : Bool}, some (answer, begun) = some (true, after) →
        (answer = true → AlikeAlone v w) → Settles heap begun after ∧ Met after v w := by
      intro v w answer equal alike
      obtain ⟨rfl, rfl⟩ : answer = true ∧ begun = after := by simpa using equal
      exact ⟨settles_refl begun, .alone (alike rfl)⟩
    split at equal
    · cases equal
    · cases equal
    · exact alone equal fun _ => .same _
    · exact alone equal fun same => by rw [beq_iff_eq.mp same]; exact .same _
    · exact alone equal (.number _ _)
    · exact alone equal fun same => by rw [beq_iff_eq.mp same]; exact .same _
    · rename_i r s _
      rcases of_containers equal with ⟨known, rfl⟩ | ⟨sizes, compared⟩
      · exact ⟨settles_refl begun, .pair known⟩
      · obtain ⟨settles, each⟩ := elements?_sound sound _ _ _ _ compared
        refine settles_pair (c := .array r) (d := .array s) settles (.array sizes ?_)
        intro i v w left right
        exact each i v w (by simpa using left) (by simpa using right)
    · rename_i r s _
      rcases of_containers equal with ⟨known, rfl⟩ | ⟨sizes, compared⟩
      · exact ⟨settles_refl begun, .pair known⟩
      · obtain ⟨settles, each⟩ := entries?_sound sound _ _ _ _ compared
        have inside : ∀ key ∈ (heap.hash r).keys, key ∈ (heap.hash s).keys := by
          intro key member
          obtain ⟨⟨k, v⟩, present, rfl⟩ := List.mem_map.mp member
          obtain ⟨w, found, _⟩ := each k v present
          exact Table.mem_keys_of_find? found
        refine settles_pair (c := .hash r) (d := .hash s) settles
          (.hash (same_keys (keyed r) sizes inside) ?_)
        intro key v w left right
        obtain ⟨w', found, met⟩ := each key v (Table.mem_of_find? key v _ left)
        cases found.symm.trans right
        exact met
    · exact alone equal fun same => by
        obtain ⟨body, scope⟩ := Bool.and_eq_true_iff.mp same
        exact .function _ _ (beq_iff_eq.mp body) (beq_iff_eq.mp scope)
    · exact alone equal fun same => by rw [beq_iff_eq.mp same]; exact .native _ _ _
    · cases equal

theorem within_sound (keyed : heap.Keyed) (fuel : Nat) : Sound heap (within heap fuel) := by
  induction fuel with
  | zero =>
      apply level_sound keyed
      intro v w begun after equal
      cases equal
  | succ fuel ih => exact level_sound keyed ih

/-- When a comparison comes out true that began with no pair, what was met on the
way is never led to a difference. -/
theorem similar_of_within (keyed : heap.Keyed) {fuel : Nat} {v w : Value} {after : Begun}
    (equal : within heap fuel v w [] = some (true, after)) : Similar heap v w := by
  obtain ⟨settles, met⟩ := within_sound keyed fuel v w [] after equal
  refine ⟨Met after, ?_, met⟩
  intro v w met
  cases met with
  | alone alike => exact .alone alike
  | pair member => exact settles.closed _ _ member List.not_mem_nil

/-- A comparison does not come out false for values that are related. -/
def Agrees (related : Value → Value → Prop)
    (inner : Value → Value → Begun → Option (Bool × Begun)) : Prop :=
  ∀ v w begun answer after, related v w → inner v w begun = some (answer, after) → answer = true

theorem elements?_agrees {related : Value → Value → Prop}
    {inner : Value → Value → Begun → Option (Bool × Begun)} (agrees : Agrees related inner)
    (left right : List Slot) (begun after : Begun) (answer : Bool)
    (sizes : left.length = right.length) (full : ∀ slot ∈ right, slot.read ≠ .missing)
    (each : ∀ (i : Nat) (v w : Value), left[i]? = some (some v) → right[i]? = some (some w) →
      related v w)
    (found : elements? inner left right begun = some (answer, after)) : answer = true := by
  induction left generalizing right begun with
  | nil => exact (congrArg Prod.fst (Option.some.inj found)).symm
  | cons slot rest ih =>
      cases right with
      | nil => simp at sizes
      | cons other others =>
          have later : ∀ begun, elements? inner rest others begun = some (answer, after) →
              answer = true :=
            fun begun => ih others begun (by simpa using sizes)
              (fun slot member => full slot (.tail _ member))
              (fun i v w left right => each (i + 1) v w (by simpa using left)
                (by simpa using right))
          cases slot with
          | none => exact later begun found
          | some v =>
              cases other with
              | none => exact absurd rfl (full none (.head _))
              | some w =>
                  obtain ⟨⟨first, middle⟩, compared, rest⟩ := Option.bind_eq_some_iff.mp found
                  have equal : first = true :=
                    agrees v w begun first middle (each 0 v w rfl rfl) compared
                  subst equal
                  exact later middle (by simpa using rest)

theorem entries?_agrees {related : Value → Value → Prop}
    {inner : Value → Value → Begun → Option (Bool × Begun)} (agrees : Agrees related inner)
    (others : Table Value) (entries : List (Text × Value)) (begun after : Begun) (answer : Bool)
    (each : ∀ key v, (key, v) ∈ entries →
      ∃ w, Table.find? key others = some w ∧ w ≠ .missing ∧ related v w)
    (found : entries? inner others entries begun = some (answer, after)) : answer = true := by
  induction entries generalizing begun with
  | nil => exact (congrArg Prod.fst (Option.some.inj found)).symm
  | cons entry rest ih =>
      obtain ⟨key, v⟩ := entry
      obtain ⟨w, hit, there, holds⟩ := each key v (.head _)
      have present : (Table.find? key others).bind Value.present? = some w := by
        cases w <;> simp_all [Value.present?]
      simp only [entries?, present] at found
      obtain ⟨⟨first, middle⟩, compared, remaining⟩ := Option.bind_eq_some_iff.mp found
      have equal : first = true := agrees v w begun first middle holds compared
      subst equal
      exact ih middle (fun key v member => each key v (.tail _ member)) (by simpa using remaining)

theorem level_alone (inner : Value → Value → Begun → Option (Bool × Begun)) (begun : Begun)
    {v w : Value} (alike : AlikeAlone v w) :
    level heap inner v w begun = some (true, begun) := by
  cases alike with
  | same =>
      cases v
      case number x s =>
          by_cases nan : x.isNaN = true
          · simp only [level, same, nan, Bool.and_self, beq_self_eq_true, if_true]
          · have equal : (x == x) = true :=
              (Double.beq_iff_like x x).mpr ⟨.same _, by simpa using nan⟩
            simp only [level, equal, ite_self]
      all_goals simp [level, same]
  | @nan x y stamp left right =>
      have identical : same (.number x stamp) (.number y stamp) = true := by
        simp only [same, left, right, beq_self_eq_true, Bool.and_self]
      simp only [level, identical, if_true]
  | number s t equal => simp [level, equal]
  | function m n body scope => simp [level, same, body, scope]
  | native f m n => simp [level, same]

theorem level_agrees (whole : heap.Whole) (keyed : heap.Keyed) {related : Value → Value → Prop}
    (closed : Bisimulation heap related)
    {inner : Value → Value → Begun → Option (Bool × Begun)} (agrees : Agrees related inner) :
    Agrees related (level heap inner) := by
  intro v w begun answer after holds found
  -- what is met before, or is one and the same container, comes out true at once
  have atOnce : some (true, begun) = some (answer, after) → answer = true :=
    fun equal => (congrArg Prod.fst (Option.some.inj equal)).symm
  cases closed v w holds with
  | alone alike => exact atOnce ((level_alone inner begun alike).symm.trans found)
  | @array r s sizes each =>
      simp only [level, sizes, ne_eq, not_true_eq_false, if_false] at found
      split at found
      · exact atOnce found
      · split at found
        · exact atOnce found
        · exact elements?_agrees agrees _ _ _ _ _ (by simpa using sizes)
            (fun slot member => whole.array s slot (by simpa using member))
            (fun i v w left right => each i v w (by simpa using left) (by simpa using right)) found
  | @hash r s keys each =>
      have lengths : (heap.hash r).length = (heap.hash s).length := by
        have reordered := (List.perm_ext_iff_of_nodup (keyed r) (keyed s)).mpr keys
        simpa [Table.keys] using reordered.length_eq
      simp only [level, lengths, ne_eq, not_true_eq_false, if_false] at found
      split at found
      · exact atOnce found
      · split at found
        · exact atOnce found
        · refine entries?_agrees agrees _ _ _ _ _ (fun key v member => ?_) found
          have left : Table.find? key (heap.hash r) = some v := Table.find?_of_mem (keyed r) member
          obtain ⟨w, right⟩ := Table.exists_of_mem_keys (keyed s)
            ((keys key).mp (Table.mem_keys_of_find? left))
          exact ⟨w, right, whole.hash s _ (Table.mem_of_find? key w _ right),
            each key v w left right⟩

theorem within_agrees (whole : heap.Whole) (keyed : heap.Keyed) {related : Value → Value → Prop}
    (closed : Bisimulation heap related) (fuel : Nat) : Agrees related (within heap fuel) := by
  induction fuel with
  | zero =>
      apply level_agrees whole keyed closed
      intro v w begun answer after holds found
      cases found
  | succ fuel ih => exact level_agrees whole keyed closed ih

end Equality

/-- The comparison of two values comes to an end, and it comes out true just when
no difference can be found between them. -/
theorem equal_iff_similar {heap : Heap} (whole : heap.Whole) (keyed : heap.Keyed) (v w : Value)
    (left : v ≠ .missing) (right : w ≠ .missing) :
    ∃ equal, Value.equal? heap v w = some equal ∧ (equal = true ↔ Similar heap v w) := by
  obtain ⟨equal, found⟩ := equal_of_whole heap whole v w left right
  obtain ⟨⟨answer, after⟩, compared, rfl⟩ := Option.map_eq_some_iff.mp found
  refine ⟨answer, found, ?_, ?_⟩
  · rintro rfl
    exact Equality.similar_of_within keyed compared
  · rintro ⟨related, closed, holds⟩
    exact Equality.within_agrees whole keyed closed _ v w [] answer after holds compared

theorem equal_true_iff {heap : Heap} (whole : heap.Whole) (keyed : heap.Keyed) {v w : Value}
    (left : v ≠ .missing) (right : w ≠ .missing) :
    Value.equal? heap v w = some true ↔ Similar heap v w := by
  obtain ⟨equal, found, decides⟩ := equal_iff_similar whole keyed v w left right
  rw [found, ← decides, Option.some.injEq]

/-- Two comparisons have one answer if they find the same things similar. -/
theorem equal_congr {heap other : Heap} (whole : heap.Whole) (keyed : heap.Keyed)
    (whole' : other.Whole) (keyed' : other.Keyed) {v w v' w' : Value} (left : v ≠ .missing)
    (right : w ≠ .missing) (left' : v' ≠ .missing) (right' : w' ≠ .missing)
    (same : Similar heap v w ↔ Similar other v' w') :
    Value.equal? heap v w = Value.equal? other v' w' := by
  obtain ⟨equal, found, decides⟩ := equal_iff_similar whole keyed v w left right
  obtain ⟨equal', found', decides'⟩ := equal_iff_similar whole' keyed' v' w' left' right'
  rw [found, found', Bool.eq_iff_iff.mpr (decides.trans (same.trans decides'.symm))]

/-- Equality of values is structural, also on containers that hold themselves. It
has an answer for any two values, and that answer is true exactly when some
relation holds between them that leads to no difference. So it is an equivalence,
NaN included, and the order of the keys of hashes is of no account to it. -/
theorem equality_structural (heap : Heap) (whole : heap.Whole) (keyed : heap.Keyed) :
    (∀ v w, v ≠ .missing → w ≠ .missing →
      ∃ equal, Value.equal? heap v w = some equal ∧ (equal = true ↔ Similar heap v w)) ∧
    (∀ v, v ≠ .missing → Value.equal? heap v v = some true) ∧
    (∀ v w, v ≠ .missing → w ≠ .missing → Value.equal? heap v w = Value.equal? heap w v) ∧
    (∀ u v w, u ≠ .missing → v ≠ .missing → w ≠ .missing → Value.equal? heap u v = some true →
      Value.equal? heap v w = some true → Value.equal? heap u w = some true) ∧
    (∀ other, heap.Reordered other → ∀ v w, v ≠ .missing → w ≠ .missing →
      Value.equal? other v w = Value.equal? heap v w) := by
  refine ⟨equal_iff_similar whole keyed, ?_, ?_, ?_, ?_⟩
  · intro v there
    exact (equal_true_iff whole keyed there there).mpr (similar_refl v)
  · intro v w left right
    exact equal_congr whole keyed whole keyed left right right left ⟨similar_symm, similar_symm⟩
  · intro u v w first second third
    rw [equal_true_iff whole keyed first second, equal_true_iff whole keyed second third,
      equal_true_iff whole keyed first third]
    exact similar_trans whole keyed
  · intro other reordered v w left right
    have keyed' := reordered.keyed keyed
    exact equal_congr (reordered.whole whole) keyed' whole keyed left right left right
      ⟨similar_of_reordered keyed' reordered.symm, similar_of_reordered keyed reordered⟩

/-- Two arrays and two hashes that each hold themselves; the keys of the hashes
came in different orders. -/
def rings : Heap where
  arrays := #[#[some (.array 0), some (.number (0 / 0) 1)],
    #[some (.array 1), some (.number (0 / 0) 1)]]
  hashes := #[[("self", .hash 0), ("ring", .array 0)], [("ring", .array 1), ("self", .hash 1)]]

theorem rings_whole : rings.Whole where
  array ref slot member := by
    rcases ref with _ | _ | ref
    case zero | zero =>
        simp only [rings, Heap.array, Array.getD] at member
        rcases Array.mem_def.mp member with _ | ⟨_, _ | ⟨_, ⟨⟩⟩⟩ <;> simp [Slot.read]
    case succ =>
        have outside : rings.array (ref + 2) = #[] := by simp [rings, Heap.array]
        simp [outside] at member
  hash ref entry member := by
    rcases ref with _ | _ | ref
    case zero | zero =>
        simp only [rings, Heap.hash, Array.getD] at member
        rcases member with _ | ⟨_, _ | ⟨_, ⟨⟩⟩⟩ <;> simp
    case succ =>
        have outside : rings.hash (ref + 2) = [] := by simp [rings, Heap.hash]
        simp [outside] at member

theorem rings_keyed : rings.Keyed := by
  intro ref
  rcases ref with _ | _ | ref
  case zero | zero => decide
  case succ =>
      have outside : rings.hash (ref + 2) = [] := by simp [rings, Heap.hash]
      simp [outside, Table.keys]

theorem equality_structural_rings :
    rings.Whole ∧ rings.Keyed ∧ Similar rings (.hash 0) (.hash 1) ∧
      Value.equal? rings (.hash 1) (.hash 0) = some true := by
  have law := equality_structural rings rings_whole rings_keyed
  have equal : Value.equal? rings (.hash 0) (.hash 1) = some true := by decide
  have hashes : ∀ ref, Value.hash ref ≠ .missing := fun _ => Value.noConfusion
  obtain ⟨answer, found, decides⟩ := law.1 (.hash 0) (.hash 1) (hashes 0) (hashes 1)
  have similar := decides.mp (Option.some.inj (found.symm.trans equal))
  have symmetric := law.2.2.1 (.hash 0) (.hash 1) (hashes 0) (hashes 1)
  exact ⟨rings_whole, rings_keyed, similar, symmetric.symm.trans equal⟩

end Loom
