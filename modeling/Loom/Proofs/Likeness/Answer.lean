import Loom.Proofs.Likeness.Value
import Mathlib.Data.Prod.Basic

/-!
What is asked of values on their heaps. Like values on like heaps have the same truth, the
same text and the same form for the host, and two of them are equal when the two that they
are like are. A heap in front of which others were there allows itself to look deeper, which
makes no difference.
-/

namespace Loom

variable {l : Likeness}

theorem Container.behind_injective : Function.Injective (Container.behind l) :=
  fun _ _ same => behind_inj.mp same

@[simp]
theorem Container.behind_mem {c : Container} {above : List Container} :
    c.behind l ∈ above.map (behind l) ↔ c ∈ above :=
  List.mem_map_of_injective behind_injective

theorem Closure.Like.site {f g : Closure} (same : f.Like l g) :
    g.procedure.site = l.site f.procedure.site := by
  obtain ⟨r, admitted, code⟩ := same.procedure
  rw [code, Procedure.site_revised, admitted.site]

section

variable {heap other : Heap} (heaps : heap.Like l other)
include heaps

theorem Value.Like.truthy?_eq {v w : Value} (same : Value.Like l v w) :
    v.truthy? heap = w.truthy? other := by
  cases same with
  | number value stamp =>
      have zero := beq_plain value.looks (rfl : plainNumber 0 = plainNumber 0)
      simp only [Value.truthy?, bne, zero]
  | array ref => simp only [Value.truthy?, Array.isEmpty, (heaps.array ref).size_eq]
  | hash ref =>
      simp only [Value.truthy?, (heaps.hash ref).isEmpty_eq]
  | _ => rfl

/-! Texts. -/

namespace Written

section

omit heaps

variable {inner inner' : Value → Option Text}
  (each : ∀ v w : Value, Value.Like l v w → inner v = inner' w)
include each

theorem elements?_like {slots slots' : List Slot}
    (same : List.Forall₂ (Slot.Like l) slots slots') :
    elements? inner slots = elements? inner' slots' := by
  induction same with
  | nil => rfl
  | cons first _ ih =>
      cases first with
      | none => simp only [elements?, ih]
      | some like => simp only [elements?, each _ _ like, ih]

theorem entries?_like {table table' : Table Value} (same : Table.Like l table table') :
    entries? inner table = entries? inner' table' := by
  induction same with
  | nil => rfl
  | cons first _ ih => simp only [entries?, first.1, each _ _ first.2, ih]

end

theorem level_like {inner inner' : List Container → Value → Option Text}
    (each : ∀ above v w, Value.Like l v w → inner above v = inner' (above.map (.behind l)) w)
    (above : List Container) {v w : Value} (same : Value.Like l v w) :
    level heap inner above v = level other inner' (above.map (.behind l)) w := by
  cases same with
  | number value stamp => simp only [level, text_plain value.looks]
  | function code method => simp only [level, code.name]
  | array ref =>
      have inside := elements?_like (each (.array ref :: above)) (heaps.array ref)
      have around : Container.array (l.before.arrays + ref) ∈ above.map (.behind l) ↔
          Container.array ref ∈ above := Container.behind_mem (c := .array ref)
      simp only [level, around, inside]
      rfl
  | hash ref =>
      have inside := entries?_like (each (.hash ref :: above)) (heaps.hash ref)
      have around : Container.hash (l.before.hashes + ref) ∈ above.map (.behind l) ↔
          Container.hash ref ∈ above := Container.behind_mem (c := .hash ref)
      simp only [level, around, inside]
      rfl
  | _ => rfl

theorem within_like (fuel : Nat) (above : List Container) {v w : Value}
    (same : Value.Like l v w) :
    within heap fuel above v = within other fuel (above.map (.behind l)) w := by
  induction fuel generalizing above v w with
  | zero => exact level_like heaps (fun _ _ _ _ => rfl) above same
  | succ fuel ih => exact level_like heaps (fun above v w same => ih above same) above same

end Written

theorem Value.Like.text?_eq {v w : Value} (same : Value.Like l v w) :
    v.text? heap = w.text? other := by
  rw [Loom.text?_eq heaps.size_le, Written.within_like heaps other.size [] same]
  rfl

/-! Forms for the host, when the sign of zero is not overlooked. -/

namespace HostForm

section

omit heaps

variable {inner inner' : Value → Except Failure HostData}
  (each : ∀ v w : Value, Value.Like l v w → inner v = inner' w)
include each

theorem elements_like {slots slots' : List Slot}
    (same : List.Forall₂ (Slot.Like l) slots slots') :
    elements inner slots = elements inner' slots' := by
  induction same with
  | nil => rfl
  | cons first _ ih =>
      cases first with
      | none => simp only [elements, ih]
      | some like => simp only [elements, each _ _ like, ih]

theorem entries_like {table table' : Table Value} (same : Table.Like l table table') :
    entries inner table = entries inner' table' := by
  induction same with
  | nil => rfl
  | cons first _ ih => simp only [entries, first.1, each _ _ first.2, ih]

end

variable (sees : l.blind = false)
include sees

theorem level_like {inner inner' : List Container → Value → Except Failure HostData}
    (each : ∀ above v w, Value.Like l v w → inner above v = inner' (above.map (.behind l)) w)
    (above : List Container) {v w : Value} (same : Value.Like l v w) :
    level heap inner above v = level other inner' (above.map (.behind l)) w := by
  cases same with
  | number value stamp => simp only [level, value.eq sees]
  | array ref =>
      have inside := elements_like (each (.array ref :: above)) (heaps.array ref)
      have around : Container.array (l.before.arrays + ref) ∈ above.map (.behind l) ↔
          Container.array ref ∈ above := Container.behind_mem (c := .array ref)
      simp only [level, around, inside]
      rfl
  | hash ref =>
      have inside := entries_like (each (.hash ref :: above)) (heaps.hash ref)
      have around : Container.hash (l.before.hashes + ref) ∈ above.map (.behind l) ↔
          Container.hash ref ∈ above := Container.behind_mem (c := .hash ref)
      simp only [level, around, inside]
      rfl
  | _ => rfl

theorem within_like (fuel : Nat) (above : List Container) {v w : Value}
    (same : Value.Like l v w) :
    within heap fuel above v = within other fuel (above.map (.behind l)) w := by
  induction fuel generalizing above v w with
  | zero => exact level_like heaps sees (fun _ _ _ _ => rfl) above same
  | succ fuel ih => exact level_like heaps sees (fun above v w same => ih above same) above same

end HostForm

theorem Value.Like.toHost_eq (sees : l.blind = false) {v w : Value} (same : Value.Like l v w) :
    v.toHost heap = w.toHost other := by
  rw [Loom.toHost_eq heaps.size_le, HostForm.within_like heaps sees other.size [] same]
  rfl

end

/-! Equality. -/

namespace Equality

/-- Pairs of containers as the other run knows them. -/
def pairsBehind (l : Likeness) (begun : Begun) : Begun :=
  begun.map (Prod.map (Container.behind l) (Container.behind l))

/-- Two ways to compare of which the other gives the same answers for like values. -/
def Follows (l : Likeness) (inner inner' : Value → Value → Begun → Option (Bool × Begun)) :
    Prop :=
  ∀ v v' w w' : Value, Value.Like l v v' → Value.Like l w w' → ∀ begun,
    inner' v' w' (pairsBehind l begun) = (inner v w begun).map (Prod.map id (pairsBehind l))

theorem pair_mem_behind {c d : Container} {begun : Begun} :
    (c.behind l, d.behind l) ∈ pairsBehind l begun ↔ (c, d) ∈ begun :=
  List.mem_map_of_injective
    (Container.behind_injective.prodMap Container.behind_injective) (a := (c, d))

section

variable {inner inner' : Value → Value → Begun → Option (Bool × Begun)}
  (each : Follows l inner inner')
include each

/-- After two values were compared the comparison goes on with others, or ends. -/
theorem compare_then {v v' w w' : Value} (left : Value.Like l v v') (right : Value.Like l w w')
    {rest rest' : Begun → Option (Bool × Begun)}
    (goes : ∀ begun, rest' (pairsBehind l begun) =
      (rest begun).map (Prod.map id (pairsBehind l))) (begun : Begun) :
    (do
      let (equal, begun) ← inner' v' w' (pairsBehind l begun)
      if equal then rest' begun else pure (false, begun)) =
    (do
      let (equal, begun) ← inner v w begun
      if equal then rest begun else pure (false, begun)).map (Prod.map id (pairsBehind l)) := by
  rw [each v v' w w' left right begun]
  cases inner v w begun with
  | none => rfl
  | some answer =>
      obtain ⟨equal, after⟩ := answer
      cases equal with
      | true => exact goes after
      | false => rfl

theorem elements?_like {xs xs' : List Slot} (left : List.Forall₂ (Slot.Like l) xs xs')
    {ys ys' : List Slot} (right : List.Forall₂ (Slot.Like l) ys ys') (begun : Begun) :
    elements? inner' xs' ys' (pairsBehind l begun) =
      (elements? inner xs ys begun).map (Prod.map id (pairsBehind l)) := by
  induction left generalizing ys ys' begun with
  | nil => rfl
  | cons first _ ih =>
      have behind := List.forall₂_drop 1 right
      cases first with
      | none => exact ih behind begun
      | some like =>
          have against : Value.Like l (ys.head?.join.getD .missing)
              (ys'.head?.join.getD .missing) := by
            cases right with
            | nil => exact .missing
            | cons front _ => exact Slot.Like.read front
          exact compare_then each like against (ih behind) begun

theorem entries?_like {table table' : Table Value} (left : Table.Like l table table')
    {others others' : Table Value} (right : Table.Like l others others') (begun : Begun) :
    entries? inner' others' table' (pairsBehind l begun) =
      (entries? inner others table begun).map (Prod.map id (pairsBehind l)) := by
  induction left generalizing begun with
  | nil => rfl
  | @cons a b _ _ first _ ih =>
      obtain ⟨key, v⟩ := a
      obtain ⟨key', v'⟩ := b
      obtain ⟨rfl, like⟩ : key = key' ∧ Value.Like l v v' := first
      simp only [entries?]
      rcases related_cases (right.present? key) with
        ⟨none, none'⟩ | ⟨w, w', some, some', against⟩
      · simp only [none, none', Option.map_some, Prod.map_apply, id]
      · simp only [some, some']
        exact compare_then each like against ih begun

end

theorem same_like {v v' w w' : Value} (left : Value.Like l v v') (right : Value.Like l w w') :
    same v' w' = same v w := by
  cases left with
  | number value stamp =>
      cases right with
      | number value' stamp' =>
          have stamps : (l.stamp stamp == l.stamp stamp') = (stamp == stamp') := by
            rw [Bool.eq_iff_iff, beq_iff_eq, beq_iff_eq, Likeness.stamp_inj]
          simp only [same, isNaN_plain value.looks, isNaN_plain value'.looks, stamps]
      | _ => rfl
  | array ref =>
      cases right with
      | array ref' => exact Likeness.beq_shift _ _ _
      | _ => rfl
  | hash ref =>
      cases right with
      | hash ref' => exact Likeness.beq_shift _ _ _
      | _ => rfl
  | _ => cases right <;> rfl

/-- Whether two functions are equal is no matter of where their numbers begin. -/
theorem functions_like {f f' g g' : Closure} (left : f.Like l f') (right : g.Like l g') :
    (f'.procedure.site == g'.procedure.site && f'.scope == g'.scope) =
      (f.procedure.site == g.procedure.site && f.scope == g.scope) := by
  have sites : (l.site f.procedure.site == l.site g.procedure.site) =
      (f.procedure.site == g.procedure.site) := by
    rw [Bool.eq_iff_iff, beq_iff_eq, beq_iff_eq, Likeness.site_inj]
  rw [left.site, right.site, left.scope, right.scope, sites, Likeness.beq_shift]

section

variable {heap other : Heap} (heaps : heap.Like l other)
include heaps

theorem level_like {inner inner' : Value → Value → Begun → Option (Bool × Begun)}
    (each : Follows l inner inner') : Follows l (level heap inner) (level other inner') := by
  intro v v' w w' left right begun
  simp only [level, same_like left right]
  split
  · rfl
  · cases left with
    | number value stamp =>
        cases right with
        | number value' stamp' => simp [beq_plain value.looks value'.looks]
        | _ => rfl
    | function code method =>
        cases right with
        | function code' method' => simp [functions_like code code']
        | _ => rfl
    | native m method =>
        cases right with
        | native n method' =>
            have natives : (m.behind l == n.behind l) = (m == n) := by
              rw [Bool.eq_iff_iff, beq_iff_eq, beq_iff_eq, Native.behind_inj]
            simp [natives]
        | _ => rfl
    | array ref =>
        cases right with
        | array ref' =>
            have slots := heaps.array ref
            have slots' := heaps.array ref'
            have met : (Container.array (l.before.arrays + ref),
                Container.array (l.before.arrays + ref')) ∈ pairsBehind l begun ↔ _ :=
              pair_mem_behind (c := .array ref) (d := .array ref')
            simp only [slots.size_eq, slots'.size_eq, met]
            split
            · rfl
            · split
              · rfl
              · exact elements?_like each slots slots' ((.array ref, .array ref') :: begun)
        | _ => rfl
    | hash ref =>
        cases right with
        | hash ref' =>
            have entries := heaps.hash ref
            have entries' := heaps.hash ref'
            have met : (Container.hash (l.before.hashes + ref),
                Container.hash (l.before.hashes + ref')) ∈ pairsBehind l begun ↔ _ :=
              pair_mem_behind (c := .hash ref) (d := .hash ref')
            simp only [entries.length_eq, entries'.length_eq, met]
            split
            · rfl
            · split
              · rfl
              · exact entries?_like each entries entries' ((.hash ref, .hash ref') :: begun)
        | _ => rfl
    | _ => cases right <;> rfl

theorem within_like (fuel : Nat) : Follows l (within heap fuel) (within other fuel) := by
  induction fuel with
  | zero => exact level_like heaps (fun _ _ _ _ _ _ _ => rfl)
  | succ fuel ih => exact level_like heaps ih

end

end Equality

theorem Value.Like.equal?_eq {heap other : Heap} (heaps : heap.Like l other) {v v' w w' : Value}
    (left : Value.Like l v v') (right : Value.Like l w w') :
    Value.equal? heap v w = Value.equal? other v' w' := by
  have enough := Nat.mul_le_mul heaps.size_le heaps.size_le
  have compared := Equality.within_like heaps (other.size * other.size) v v' w w' left right []
  rw [Loom.equal?_eq enough, Value.equal?]
  rw [show Equality.pairsBehind l [] = [] from rfl] at compared
  rw [compared, Option.map_map]
  rfl

end Loom
