import Loom.Proofs.Totality
import Loom.Proofs.Zero

/-!
When two values are equal. Containers can hold each other and themselves, so there
is no last level at which two of them could be found equal: they are equal when some
relation holds between them that never leads to a difference.
-/

namespace Loom

namespace Table

variable {α : Type}

theorem find?_of_mem {table : Table α} (distinct : table.keys.Nodup) {key : Text} {value : α}
    (member : (key, value) ∈ table) : find? key table = some value := by
  induction table with
  | nil => cases member
  | cons entry rest ih =>
      obtain ⟨k, a⟩ := entry
      obtain ⟨fresh, distinct⟩ := List.nodup_cons.mp distinct
      rcases List.mem_cons.mp member with same | later
      · cases same
        simp [find?]
      · have other : k ≠ key := by
          rintro rfl
          exact fresh (List.mem_map.mpr ⟨_, later, rfl⟩)
        simpa [find?, other] using ih distinct later

theorem exists_of_mem_keys {table : Table α} (distinct : table.keys.Nodup) {key : Text}
    (member : key ∈ table.keys) : ∃ value, find? key table = some value := by
  obtain ⟨⟨k, value⟩, inside, rfl⟩ := List.mem_map.mp member
  exact ⟨value, find?_of_mem distinct inside⟩

theorem find?_perm {table other : Table α} (distinct : table.keys.Nodup)
    (reordered : table.Perm other) (key : Text) : find? key other = find? key table := by
  have distinct' : other.keys.Nodup := (reordered.map Prod.fst).nodup_iff.mp distinct
  cases found : find? key table with
  | some value =>
      exact find?_of_mem distinct' (reordered.mem_iff.mp (mem_of_find? key value table found))
  | none =>
      cases hit : find? key other with
      | none => rfl
      | some value =>
          have inside := reordered.mem_iff.mpr (mem_of_find? key value other hit)
          rw [find?_of_mem distinct inside] at found
          cases found

end Table

namespace Heap

/-- No hash has a key twice. -/
def Keyed (heap : Heap) : Prop := ∀ ref, (heap.hash ref).keys.Nodup

/-- Another heap with the same arrays and hashes, but for the order of keys. -/
structure Reordered (heap other : Heap) : Prop where
  array : ∀ ref, other.array ref = heap.array ref
  hash : ∀ ref, (heap.hash ref).Perm (other.hash ref)

theorem Reordered.whole {heap other : Heap} (reordered : heap.Reordered other)
    (whole : heap.Whole) : other.Whole where
  array ref slot member := whole.array ref slot (reordered.array ref ▸ member)
  hash ref entry member := whole.hash ref entry ((reordered.hash ref).mem_iff.mpr member)

theorem Reordered.keyed {heap other : Heap} (reordered : heap.Reordered other)
    (keyed : heap.Keyed) : other.Keyed :=
  fun ref => ((reordered.hash ref).map Prod.fst).nodup_iff.mp (keyed ref)

end Heap

/-- Values that are equal whatever the containers hold. -/
inductive AlikeAlone : Value → Value → Prop
  | same (v : Value) : AlikeAlone v v
  /-- One and the same NaN. -/
  | nan {x y : Float} (stamp : Nat) (left : x.isNaN = true) (right : y.isNaN = true) :
      AlikeAlone (.number x stamp) (.number y stamp)
  | number {x y : Float} (s t : Nat) (equal : (x == y) = true) :
      AlikeAlone (.number x s) (.number y t)
  | function {f g : Closure} (m n : Bool) (body : f.procedure.site = g.procedure.site)
      (scope : f.scope = g.scope) : AlikeAlone (.function f m) (.function g n)
  | native (f : Native) (m n : Bool) : AlikeAlone (.native f m) (.native f n)

/-- Two values that are equal as far as they can be looked into, if the relation
is to say what is equal one level deeper. -/
inductive Alike (heap : Heap) (related : Value → Value → Prop) : Value → Value → Prop
  | alone {v w : Value} (alike : AlikeAlone v w) : Alike heap related v w
  | array {r s : Nat} (sizes : (heap.array r).size = (heap.array s).size)
      (each : ∀ (i : Nat) (v w : Value), (heap.array r)[i]? = some (some v) →
        (heap.array s)[i]? = some (some w) → related v w) :
      Alike heap related (.array r) (.array s)
  | hash {r s : Nat} (keys : ∀ key, key ∈ (heap.hash r).keys ↔ key ∈ (heap.hash s).keys)
      (each : ∀ key v w, Table.find? key (heap.hash r) = some v →
        Table.find? key (heap.hash s) = some w → related v w) :
      Alike heap related (.hash r) (.hash s)

/-- A relation that never leads from values it relates to a difference. -/
def Bisimulation (heap : Heap) (related : Value → Value → Prop) : Prop :=
  ∀ v w, related v w → Alike heap related v w

/-- Two values between which no difference can be found. -/
def Similar (heap : Heap) (v w : Value) : Prop :=
  ∃ related, Bisimulation heap related ∧ related v w

section

variable {heap : Heap} {related further : Value → Value → Prop} {u v w : Value}

theorem Alike.mono (more : ∀ v w, related v w → further v w) (alike : Alike heap related v w) :
    Alike heap further v w := by
  cases alike with
  | alone alike => exact .alone alike
  | array sizes each => exact .array sizes fun i v w left right => more v w (each i v w left right)
  | hash keys each => exact .hash keys fun key v w left right => more v w (each key v w left right)

theorem similar_refl (v : Value) : Similar heap v v :=
  ⟨Eq, fun v _ same => same ▸ .alone (.same v), rfl⟩

/-- Being similar is itself such a relation: the largest one. -/
theorem alike_of_similar (similar : Similar heap v w) : Alike heap (Similar heap) v w := by
  obtain ⟨related, closed, holds⟩ := similar
  exact (closed v w holds).mono fun v w holds => ⟨related, closed, holds⟩

theorem AlikeAlone.symm (alike : AlikeAlone v w) : AlikeAlone w v := by
  cases alike with
  | same => exact .same _
  | nan stamp left right => exact .nan stamp right left
  | number s t equal => exact .number t s (float_beq_symm equal)
  | function m n body scope => exact .function n m body.symm scope.symm
  | native f m n => exact .native f n m

theorem Alike.symm (alike : Alike heap related v w) : Alike heap (flip related) w v := by
  cases alike with
  | alone alike => exact .alone alike.symm
  | array sizes each => exact .array sizes.symm fun i v w left right => each i w v right left
  | hash keys each =>
      exact .hash (fun key => (keys key).symm) fun key v w left right => each key w v right left

theorem similar_symm (similar : Similar heap v w) : Similar heap w v := by
  obtain ⟨related, closed, holds⟩ := similar
  exact ⟨flip related, fun v w holds => (closed w v holds).symm, holds⟩

theorem float_not_beq_of_isNaN {x y : Float} (nan : x.isNaN = true) : ¬ (x == y) = true := by
  intro equal
  have number := ((Double.beq_iff_like x y).mp equal).2
  rw [nan] at number
  cases number

theorem AlikeAlone.trans (first : AlikeAlone u v) (second : AlikeAlone v w) : AlikeAlone u w := by
  cases first with
  | same => exact second
  | nan stamp left right =>
      cases second with
      | same => exact .nan stamp left right
      | nan _ _ last => exact .nan stamp left last
      | number _ _ equal => exact absurd equal (float_not_beq_of_isNaN right)
  | number s t equal =>
      cases second with
      | same => exact .number s t equal
      | nan _ nan _ => exact absurd (float_beq_symm equal) (float_not_beq_of_isNaN nan)
      | number _ r next => exact .number s r (float_beq_trans equal next)
  | function m n body scope =>
      cases second with
      | same => exact .function m n body scope
      | function _ k body' scope' => exact .function m k (body.trans body') (scope.trans scope')
  | native f m n =>
      cases second with
      | same => exact .native f m n
      | native _ _ k => exact .native f m k

/-- Similar to something that is similar to the other. -/
def SimilarThrough (heap : Heap) (u w : Value) : Prop := ∃ v, Similar heap u v ∧ Similar heap v w

theorem alike_through (whole : heap.Whole) (keyed : heap.Keyed)
    (first : Alike heap (Similar heap) u v) (second : Alike heap (Similar heap) v w) :
    Alike heap (SimilarThrough heap) u w := by
  have before : ∀ v w, Similar heap v w → SimilarThrough heap v w :=
    fun v w similar => ⟨v, similar_refl v, similar⟩
  have after : ∀ v w, Similar heap v w → SimilarThrough heap v w :=
    fun v w similar => ⟨w, similar, similar_refl w⟩
  cases first with
  | alone alike =>
      cases second with
      | alone alike' => exact .alone (alike.trans alike')
      | array sizes each =>
          cases alike with
          | same => exact (Alike.array sizes each).mono before
      | hash keys each =>
          cases alike with
          | same => exact (Alike.hash keys each).mono before
  | @array r s sizes each =>
      cases second with
      | alone alike =>
          cases alike with
          | same => exact (Alike.array sizes each).mono after
      | @array _ q sizes' each' =>
          refine .array (sizes.trans sizes') fun i v w left right => ?_
          -- no slot of the array between them is empty
          have inside : i < (heap.array s).size := by
            rw [← sizes]
            exact (Array.getElem?_eq_some_iff.mp left).1
          cases slot : (heap.array s)[i] with
          | none => exact absurd (slot ▸ rfl) (whole.array s _ (Array.getElem_mem inside))
          | some m =>
              have middle : (heap.array s)[i]? = some (some m) := by
                rw [Array.getElem?_eq_getElem inside, slot]
              exact ⟨m, each i v m left middle, each' i m w middle right⟩
  | @hash r s keys each =>
      cases second with
      | alone alike =>
          cases alike with
          | same => exact (Alike.hash keys each).mono after
      | @hash _ q keys' each' =>
          refine .hash (fun key => (keys key).trans (keys' key)) fun key v w left right => ?_
          obtain ⟨m, middle⟩ := Table.exists_of_mem_keys (keyed s)
            ((keys key).mp (Table.mem_keys_of_find? left))
          exact ⟨m, each key v m left middle, each' key m w middle right⟩

theorem similar_trans (whole : heap.Whole) (keyed : heap.Keyed) (first : Similar heap u v)
    (second : Similar heap v w) : Similar heap u w := by
  refine ⟨SimilarThrough heap, ?_, v, first, second⟩
  rintro u w ⟨v, left, right⟩
  exact alike_through whole keyed (alike_of_similar left) (alike_of_similar right)

theorem similar_of_reordered {other : Heap} (keyed : heap.Keyed) (reordered : heap.Reordered other)
    (similar : Similar heap v w) : Similar other v w := by
  obtain ⟨related, closed, holds⟩ := similar
  refine ⟨related, fun v w holds => ?_, holds⟩
  have found : ∀ key ref, Table.find? key (other.hash ref) = Table.find? key (heap.hash ref) :=
    fun key ref => Table.find?_perm (keyed ref) (reordered.hash ref) key
  have keysOf : ∀ key ref, key ∈ (other.hash ref).keys ↔ key ∈ (heap.hash ref).keys :=
    fun key ref => ((reordered.hash ref).map Prod.fst).mem_iff.symm
  cases closed v w holds with
  | alone alike => exact .alone alike
  | array sizes each =>
      refine .array ?_ ?_
      · rw [reordered.array, reordered.array, sizes]
      · intro i v w left right
        rw [reordered.array] at left right
        exact each i v w left right
  | hash keys each =>
      refine .hash ?_ ?_
      · intro key
        rw [keysOf, keysOf, keys]
      · intro key v w left right
        rw [found] at left right
        exact each key v w left right

theorem Heap.Reordered.symm {other : Heap} (reordered : heap.Reordered other) :
    other.Reordered heap where
  array ref := (reordered.array ref).symm
  hash ref := (reordered.hash ref).symm

end

end Loom
