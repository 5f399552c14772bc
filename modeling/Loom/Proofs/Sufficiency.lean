import Loom.Proofs.Totality
import Loom.Value.Host

/-!
The fuel that bounds how deep values are looked into is enough on any heap, also on one in
which something is missing: the text of a value, its form for the host and what it equals
are the same with more of it. What is one level deeper is asked of other containers, or
other pairs of them, than those that are being looked into, and with as much fuel as there
are of these the last of it is never used.
-/

namespace Loom

variable {heap : Heap}

/-- Whatever asks, level by level, for what is inside other containers than those around a
value asks no deeper than there are containers. -/
theorem Heap.within_more {β : Type} (heap : Heap)
    {level : (List Container → Value → β) → List Container → Value → β}
    {within : Nat → List Container → Value → β} {last : List Container → Value → β}
    (zero : within 0 = level last) (succ : ∀ fuel, within (fuel + 1) = level (within fuel))
    (congr : ∀ {inner inner' : List Container → Value → β} {above : List Container},
      (∀ c ∈ heap.containers, c ∉ above → ∀ v, inner (c :: above) v = inner' (c :: above) v) →
        ∀ v, level inner above v = level inner' above v)
    (fuel more : Nat) (above : List Container) (distinct : above.Nodup)
    (present : above ⊆ heap.containers) (enough : heap.size ≤ fuel + above.length) (v : Value) :
    within (fuel + more) above v = within fuel above v := by
  revert v
  refine heap.descend (P := fun fuel above => ∀ v, within (fuel + more) above v =
    within fuel above v) ?_ ?_ fuel above distinct present enough
  · intro above all v
    obtain ⟨inner, leveled⟩ : ∃ inner, within (0 + more) = level inner := by
      cases more with
      | zero => exact ⟨_, zero⟩
      | succ more => exact ⟨_, succ _⟩
    rw [leveled, zero]
    exact congr (fun c member fresh => absurd (all c member) fresh) v
  · intro fuel above deeper v
    rw [Nat.succ_add, succ, succ]
    exact congr deeper v

namespace Written

theorem elements?_congr {inner inner' : Value → Option Text} (slots : List Slot)
    (same : ∀ slot ∈ slots, ∀ v, inner v = inner' v) :
    elements? inner slots = elements? inner' slots := by
  induction slots with
  | nil => rfl
  | cons slot rest ih =>
      have others := ih (fun slot member => same slot (.tail _ member))
      cases slot with
      | none => simp only [elements?, others]
      | some v => simp only [elements?, others, same _ (.head _) v]

theorem entries?_congr {inner inner' : Value → Option Text} (entries : List (Text × Value))
    (same : ∀ entry ∈ entries, ∀ v, inner v = inner' v) :
    entries? inner entries = entries? inner' entries := by
  induction entries with
  | nil => rfl
  | cons entry rest ih =>
      have others := ih (fun entry member => same entry (.tail _ member))
      simp only [entries?, others, same _ (.head _) entry.2]

/-- Only what is inside a container that is not around the value yet is asked for. -/
theorem level_congr {inner inner' : List Container → Value → Option Text} {above : List Container}
    (deeper : ∀ c ∈ heap.containers, c ∉ above → ∀ v, inner (c :: above) v = inner' (c :: above) v)
    (v : Value) : level heap inner above v = level heap inner' above v := by
  cases v with
  | array ref =>
      by_cases around : Container.array ref ∈ above
      · simp only [level, around, if_true]
      · have slots := elements?_congr (heap.array ref).toList fun slot member =>
          deeper _ (heap.array_mem_containers ref slot (by simpa using member)) around
        simp only [level, around, if_false, slots]
  | hash ref =>
      by_cases around : Container.hash ref ∈ above
      · simp only [level, around, if_true]
      · have entries := entries?_congr (heap.hash ref) fun entry member =>
          deeper _ (heap.hash_mem_containers ref entry member) around
        simp only [level, around, if_false, entries]
  | _ => rfl

end Written

/-- As much fuel as there are containers is enough for the text of a value. -/
theorem text?_eq {fuel : Nat} (enough : heap.size ≤ fuel) (v : Value) :
    v.text? heap = Written.within heap fuel [] v := by
  obtain ⟨more, rfl⟩ := Nat.exists_eq_add_of_le enough
  exact (heap.within_more rfl (fun _ => rfl) Written.level_congr heap.size more [] List.nodup_nil
    (List.nil_subset _) (by simp) v).symm

namespace HostForm

theorem elements_congr {inner inner' : Value → Except Failure HostData} (slots : List Slot)
    (same : ∀ slot ∈ slots, ∀ v, inner v = inner' v) :
    elements inner slots = elements inner' slots := by
  induction slots with
  | nil => rfl
  | cons slot rest ih =>
      have others := ih (fun slot member => same slot (.tail _ member))
      cases slot with
      | none => simp only [elements, others]
      | some v => simp only [elements, others, same _ (.head _) v]

theorem entries_congr {inner inner' : Value → Except Failure HostData} (list : List (Text × Value))
    (same : ∀ entry ∈ list, ∀ v, inner v = inner' v) :
    entries inner list = entries inner' list := by
  induction list with
  | nil => rfl
  | cons entry rest ih =>
      have others := ih (fun entry member => same entry (.tail _ member))
      simp only [entries, others, same _ (.head _) entry.2]

theorem level_congr {inner inner' : List Container → Value → Except Failure HostData}
    {above : List Container}
    (deeper : ∀ c ∈ heap.containers, c ∉ above → ∀ v, inner (c :: above) v = inner' (c :: above) v)
    (v : Value) : level heap inner above v = level heap inner' above v := by
  cases v with
  | array ref =>
      by_cases around : Container.array ref ∈ above
      · simp only [level, around, if_true]
      · have slots := elements_congr (heap.array ref).toList fun slot member =>
          deeper _ (heap.array_mem_containers ref slot (by simpa using member)) around
        simp only [level, around, if_false, slots]
  | hash ref =>
      by_cases around : Container.hash ref ∈ above
      · simp only [level, around, if_true]
      · have entries := entries_congr (heap.hash ref) fun entry member =>
          deeper _ (heap.hash_mem_containers ref entry member) around
        simp only [level, around, if_false, entries]
  | _ => rfl

end HostForm

/-- So it is for its form as data of the host. -/
theorem toHost_eq {fuel : Nat} (enough : heap.size ≤ fuel) (v : Value) :
    v.toHost heap = HostForm.within heap fuel [] v := by
  obtain ⟨more, rfl⟩ := Nat.exists_eq_add_of_le enough
  exact (heap.within_more rfl (fun _ => rfl) HostForm.level_congr heap.size more [] List.nodup_nil
    (List.nil_subset _) (by simp) v).symm

namespace Equality

/-- A comparison that leaves the pairs that were begun in front, and begins none twice. -/
def Grows (inner : Value → Value → Begun → Option (Bool × Begun)) : Prop :=
  ∀ v w begun equal after, inner v w begun = some (equal, after) →
    begun <:+ after ∧ (begun.Nodup → after.Nodup)

theorem grows_none : Grows (fun _ _ _ => none) := by
  intro v w begun equal after found
  cases found

variable {inner inner' : Value → Value → Begun → Option (Bool × Begun)}

section

variable (grows : Grows inner)
include grows

theorem elements?_grows (left right : List Slot) {begun after : Begun} {equal : Bool}
    (found : elements? inner left right begun = some (equal, after)) :
    begun <:+ after ∧ (begun.Nodup → after.Nodup) := by
  induction left generalizing right begun with
  | nil =>
      cases found
      exact ⟨List.suffix_refl _, id⟩
  | cons slot rest ih =>
      cases slot with
      | none => exact ih _ found
      | some v =>
          obtain ⟨⟨same, later⟩, first, found⟩ := Option.bind_eq_some_iff.mp found
          have front := grows _ _ _ _ _ first
          cases same with
          | true =>
              have behind := ih _ found
              exact ⟨front.1.trans behind.1, behind.2 ∘ front.2⟩
          | false =>
              cases found
              exact front

theorem entries?_grows (others : Table Value) (entries : List (Text × Value)) {begun after : Begun}
    {equal : Bool} (found : entries? inner others entries begun = some (equal, after)) :
    begun <:+ after ∧ (begun.Nodup → after.Nodup) := by
  induction entries generalizing begun with
  | nil =>
      cases found
      exact ⟨List.suffix_refl _, id⟩
  | cons entry rest ih =>
      obtain ⟨key, v⟩ := entry
      simp only [entries?] at found
      split at found
      · cases found
        exact ⟨List.suffix_refl _, id⟩
      · obtain ⟨⟨same, later⟩, first, found⟩ := Option.bind_eq_some_iff.mp found
        have front := grows _ _ _ _ _ first
        cases same with
        | true =>
            have behind := ih found
            exact ⟨front.1.trans behind.1, behind.2 ∘ front.2⟩
        | false =>
            cases found
            exact front

omit grows in
/-- A pair is begun if it is new. -/
theorem containers_grow (pair : Container × Container) {m n : Nat} {begun after : Begun}
    {equal : Bool} {compare : Begun → Option (Bool × Begun)}
    (deeper : ∀ {begun after equal}, compare begun = some (equal, after) →
      begun <:+ after ∧ (begun.Nodup → after.Nodup))
    (found : (if m ≠ n then some (false, begun)
      else if pair ∈ begun then some (true, begun) else compare (pair :: begun)) =
        some (equal, after)) : begun <:+ after ∧ (begun.Nodup → after.Nodup) := by
  split at found
  · cases found
    exact ⟨List.suffix_refl _, id⟩
  · split at found
    · cases found
      exact ⟨List.suffix_refl _, id⟩
    · rename_i fresh
      have behind := deeper found
      exact ⟨(List.suffix_cons _ _).trans behind.1,
        fun distinct => behind.2 (List.nodup_cons.mpr ⟨fresh, distinct⟩)⟩

theorem level_grows : Grows (level heap inner) := by
  intro v w begun equal after found
  unfold level at found
  split at found
  · cases found
    exact ⟨List.suffix_refl _, id⟩
  · split at found
    case h_7 => exact containers_grow _ (elements?_grows grows _ _) found
    case h_8 => exact containers_grow _ (entries?_grows grows _ _) found
    all_goals
      cases found
      try exact ⟨List.suffix_refl _, id⟩

end

theorem within_grows (fuel : Nat) : Grows (within heap fuel) := by
  induction fuel with
  | zero => exact level_grows grows_none
  | succ fuel ih => exact level_grows ih

/-- Two comparisons that are the same once some pairs were begun. -/
def SameFrom (begun : Begun) (inner inner' : Value → Value → Begun → Option (Bool × Begun)) :
    Prop :=
  ∀ v w later, begun <:+ later → later.Nodup → inner v w later = inner' v w later

theorem elements?_congr (grows : Grows inner') {begun : Begun} (left right : List Slot)
    (same : ∀ slot ∈ left, SameFrom begun inner inner') {later : Begun} (more : begun <:+ later)
    (distinct : later.Nodup) :
    elements? inner left right later = elements? inner' left right later := by
  induction left generalizing right later with
  | nil => rfl
  | cons slot rest ih =>
      have others := fun slot member => same slot (.tail _ member)
      cases slot with
      | none => exact ih _ others more distinct
      | some v =>
          simp only [elements?, same _ (.head _) v _ later more distinct]
          cases found : inner' v (right.head?.join.getD .missing) later with
          | none => rfl
          | some outcome =>
              obtain ⟨equal, after⟩ := outcome
              have front := grows _ _ _ _ _ found
              have behind := ih (right.drop 1) others (more.trans front.1) (front.2 distinct)
              simp only [Option.bind_eq_bind, Option.bind_some, behind]

theorem entries?_congr (grows : Grows inner') {begun : Begun} (others : Table Value)
    (entries : List (Text × Value)) (same : ∀ entry ∈ entries, SameFrom begun inner inner')
    {later : Begun} (more : begun <:+ later) (distinct : later.Nodup) :
    entries? inner others entries later = entries? inner' others entries later := by
  induction entries generalizing later with
  | nil => rfl
  | cons entry rest ih =>
      obtain ⟨key, v⟩ := entry
      simp only [entries?]
      cases (Table.find? key others).bind Value.present? with
      | none => rfl
      | some w =>
          simp only [same _ (.head _) v w later more distinct]
          cases found : inner' v w later with
          | none => rfl
          | some outcome =>
              obtain ⟨equal, after⟩ := outcome
              have front := grows _ _ _ _ _ found
              have behind := ih (fun entry member => same entry (.tail _ member))
                (more.trans front.1) (front.2 distinct)
              simp only [Option.bind_eq_bind, Option.bind_some, behind]

/-- What is inside two containers is compared when that pair is there and new. -/
theorem containers_congr {pair : Container × Container} {m n : Nat} {begun : Begun}
    {compare compare' : Begun → Option (Bool × Begun)}
    (deeper : m = n → pair ∉ begun → compare (pair :: begun) = compare' (pair :: begun)) :
    (if m ≠ n then some (false, begun)
      else if pair ∈ begun then some (true, begun) else compare (pair :: begun)) =
    if m ≠ n then some (false, begun)
      else if pair ∈ begun then some (true, begun) else compare' (pair :: begun) := by
  by_cases sizes : m = n
  · by_cases known : pair ∈ begun
    · simp only [known, if_true]
    · simp only [known, if_false, deeper sizes known]
  · simp only [ne_eq, sizes, not_false_eq_true, if_true]

theorem level_congr (grows : Grows inner') {begun : Begun} (distinct : begun.Nodup)
    (deeper : ∀ pair ∈ heap.pairs, pair ∉ begun → SameFrom (pair :: begun) inner inner')
    (v w : Value) : level heap inner v w begun = level heap inner' v w begun := by
  unfold level
  split
  · rfl
  · split
    case h_7 r s _ =>
      apply containers_congr
      intro sizes fresh
      have pairs : ∀ slot ∈ (heap.array r).toList,
          (Container.array r, Container.array s) ∈ heap.pairs :=
        fun slot member => heap.arrays_mem_pairs r s slot (by simpa using member) sizes
      exact elements?_congr grows _ _ (fun slot member => deeper _ (pairs slot member) fresh)
        (List.suffix_refl _) (List.nodup_cons.mpr ⟨fresh, distinct⟩)
    case h_8 r s _ =>
      apply containers_congr
      intro sizes fresh
      have pairs : ∀ entry ∈ heap.hash r, (Container.hash r, Container.hash s) ∈ heap.pairs :=
        fun entry member => heap.hashes_mem_pairs r s entry member sizes
      exact entries?_congr grows _ _ (fun entry member => deeper _ (pairs entry member) fresh)
        (List.suffix_refl _) (List.nodup_cons.mpr ⟨fresh, distinct⟩)
    all_goals rfl

theorem within_more (fuel more : Nat) (begun : Begun) (distinct : begun.Nodup)
    (enough : heap.size * heap.size ≤ fuel + heap.countPairs begun) (v w : Value) :
    within heap (fuel + more) v w begun = within heap fuel v w begun := by
  have leveled : ∀ fuel, ∃ inner, within heap fuel = level heap inner := by
    intro fuel
    cases fuel <;> exact ⟨_, rfl⟩
  revert v w
  refine heap.descendPairs (P := fun fuel begun => ∀ v w, within heap (fuel + more) v w begun =
    within heap fuel v w begun) ?_ ?_ fuel begun distinct enough
  · intro begun distinct all v w
    obtain ⟨inner, more⟩ := leveled (0 + more)
    rw [more]
    exact level_congr grows_none distinct (fun pair member fresh => absurd (all pair member) fresh)
      v w
  · intro fuel begun distinct deeper v w
    rw [Nat.succ_add]
    apply level_congr (within_grows fuel) distinct
    intro pair member fresh v w later longer distinct
    exact deeper pair member fresh later longer distinct v w

end Equality

/-- So it is for the comparison of two values, with as much fuel as there are pairs. -/
theorem equal?_eq {fuel : Nat} (enough : heap.size * heap.size ≤ fuel) (v w : Value) :
    Value.equal? heap v w = (Equality.within heap fuel v w []).map (·.1) := by
  obtain ⟨more, rfl⟩ := Nat.exists_eq_add_of_le enough
  rw [Value.equal?, Equality.within_more (heap.size * heap.size) more [] List.nodup_nil (by omega)]

end Loom
