import Loom.Proofs.Whole
import Loom.Verdict
import Mathlib.Data.List.Forall2

/-!
What checks find valid. A check reads a value off the data that describes it; how a
check is made up of others, so is the description it reads.
-/

namespace Loom

namespace Json

/-- A record has a field, and what it holds is as described. -/
def Has (key : Text) (describes : Json → Prop) (data : Json) : Prop :=
  ∃ value, data.field? key = some value ∧ describes value

/-- A list, of which the items are as described. -/
def Lists (describes : List Json → Prop) (data : Json) : Prop :=
  ∃ items, data = .arr items ∧ describes items

/-- Null stands for nothing, and for something what describes it. -/
def Maybe {α : Type} (describes : α → Json → Prop) : Option α → Json → Prop
  | none, data => data = .null
  | some a, data => describes a data

def Named (name : Text) (data : Json) : Prop :=
  data = .str name ∧ Check.isIdentifier name = true

def Names (names : List Text) (data : Json) : Prop := data.Lists (List.Forall₂ Named names)

/-- A whole number not below the least. -/
def Counts (least n : Nat) (data : Json) : Prop :=
  ∃ x, data = .num x ∧ wholeOf? x = some (n : Int) ∧ least ≤ n

theorem Has.isRecord {key : Text} {describes : Json → Prop} {data : Json}
    (has : data.Has key describes) : ∃ fields, data = .obj fields := by
  obtain ⟨value, found, _⟩ := has
  cases data with
  | obj fields => exact ⟨fields, rfl⟩
  | _ => cases found

theorem Has.mono {key : Text} {describes describes' : Json → Prop} {data : Json}
    (has : data.Has key describes) (more : ∀ value, describes value → describes' value) :
    data.Has key describes' := by
  obtain ⟨value, found, holds⟩ := has
  exact ⟨value, found, more value holds⟩

theorem Lists.mono {describes describes' : List Json → Prop} {data : Json}
    (listed : data.Lists describes) (more : ∀ items, describes items → describes' items) :
    data.Lists describes' := by
  obtain ⟨items, same, holds⟩ := listed
  exact ⟨items, same, more items holds⟩

theorem depth_le_of_mem {item : Json} {items : List Json} (member : item ∈ items) :
    item.depth ≤ depthOfAll items := by
  induction items with
  | nil => cases member
  | cons first rest ih =>
      rcases List.mem_cons.mp member with rfl | later
      · exact Nat.le_max_left _ _
      · exact Nat.le_trans (ih later) (Nat.le_max_right _ _)

theorem depth_le_of_find? {key : Text} {value : Json} {fields : List (Text × Json)}
    (found : Table.find? key fields = some value) : value.depth ≤ depthOfFields fields := by
  induction fields with
  | nil => cases found
  | cons entry rest ih =>
      obtain ⟨k, first⟩ := entry
      simp only [Table.find?] at found
      split at found
      · cases found
        exact Nat.le_max_left _ _
      · exact Nat.le_trans (ih found) (Nat.le_max_right _ _)

/-- What a field holds is nested less deep than the record. -/
theorem depth_field {key : Text} {value data : Json} (found : data.field? key = some value) :
    value.depth < data.depth := by
  cases data with
  | obj fields => exact Nat.lt_succ_of_le (depth_le_of_find? found)
  | _ => cases found

end Json

namespace Verdict

variable {α β : Type}

theorem valid_map {f : α → β} {v : Verdict α} {b : β} :
    f <$> v = .valid b ↔ ∃ a, v = .valid a ∧ f a = b := by
  show Verdict.map f v = .valid b ↔ _
  cases v <;> simp [Verdict.map]

/-- Two parts are valid together when each of them is. -/
theorem valid_seq {f : Verdict (α → β)} {v : Verdict α} {b : β} :
    f <*> v = .valid b ↔ ∃ g a, f = .valid g ∧ v = .valid a ∧ g a = b := by
  show Verdict.both f v = .valid b ↔ _
  cases f <;> cases v <;> simp [Verdict.both]

theorem valid_map₂ {γ : Type} {f : α → β → γ} {v : Verdict α} {w : Verdict β} {c : γ} :
    f <$> v <*> w = .valid c ↔ ∃ a b, v = .valid a ∧ w = .valid b ∧ f a b = c := by
  cases v <;> cases w <;> simp [valid_seq, valid_map]

theorem valid_map₃ {γ δ : Type} {f : α → β → γ → δ} {v : Verdict α} {w : Verdict β}
    {x : Verdict γ} {d : δ} :
    f <$> v <*> w <*> x = .valid d ↔
      ∃ a b c, v = .valid a ∧ w = .valid b ∧ x = .valid c ∧ f a b c = d := by
  rw [valid_seq]
  simp only [valid_map₂]
  constructor
  · rintro ⟨_, c, ⟨a, b, first, second, rfl⟩, third, same⟩
    exact ⟨a, b, c, first, second, third, same⟩
  · rintro ⟨a, b, c, first, second, third, same⟩
    exact ⟨_, c, ⟨a, b, first, second, rfl⟩, third, same⟩

theorem valid_map₄ {γ δ ε : Type} {f : α → β → γ → δ → ε} {v : Verdict α} {w : Verdict β}
    {x : Verdict γ} {y : Verdict δ} {e : ε} :
    f <$> v <*> w <*> x <*> y = .valid e ↔
      ∃ a b c d, v = .valid a ∧ w = .valid b ∧ x = .valid c ∧ y = .valid d ∧ f a b c d = e := by
  rw [valid_seq]
  simp only [valid_map₃]
  constructor
  · rintro ⟨_, d, ⟨a, b, c, first, second, third, rfl⟩, fourth, same⟩
    exact ⟨a, b, c, d, first, second, third, fourth, same⟩
  · rintro ⟨a, b, c, d, first, second, third, fourth, same⟩
    exact ⟨_, d, ⟨a, b, c, first, second, third, rfl⟩, fourth, same⟩

theorem valid_collect {verdicts : List (Verdict α)} {values : List α} :
    collect verdicts = .valid values ↔ verdicts = values.map .valid := by
  induction verdicts generalizing values with
  | nil => cases values <;> simp [collect]
  | cons v rest ih =>
      simp only [collect, valid_seq, valid_map]
      constructor
      · rintro ⟨_, _, ⟨first, rfl, rfl⟩, others, rfl⟩
        simp [ih.mp others]
      · intro all
        cases values with
        | nil => cases all
        | cons a as =>
            obtain ⟨rfl, others⟩ := List.cons.inj all
            exact ⟨_, as, ⟨a, rfl, rfl⟩, ih.mpr others, rfl⟩

end Verdict

namespace Check

variable {α : Type}

/-- The check of data nested at most `n` deep finds a value exactly where the data
describes it. -/
def Reads (n : Nat) (check : Check α) (describes : α → Json → Prop) : Prop :=
  ∀ path data a, data.depth ≤ n → (check path data = .valid a ↔ describes a data)

theorem reads_text (n : Nat) : Reads n text fun t data => data = .str t := by
  intro path data t _
  cases data <;> simp [text, wrongSort]

theorem reads_bool (n : Nat) : Reads n bool fun b data => data = .bool b := by
  intro path data b _
  cases data <;> simp [bool, wrongSort]

theorem reads_identifier (n : Nat) : Reads n identifier Json.Named := by
  intro path data t _
  cases data with
  | str u =>
      by_cases spelled : isIdentifier u = true
      · simp only [identifier, spelled, if_true, Verdict.valid.injEq, Json.Named, Json.str.injEq]
        constructor
        · rintro rfl
          exact ⟨rfl, spelled⟩
        · exact fun named => named.1
      · simp only [identifier, spelled, Json.Named, Json.str.injEq]
        constructor
        · exact nofun
        · rintro ⟨rfl, named⟩
          exact absurd named spelled
  | _ => simp [identifier, wrongSort, Json.Named]

theorem reads_finite (n : Nat) :
    Reads n finite fun x data => data = .num x ∧ x.isInf = false ∧ x.isNaN = false := by
  intro path data x _
  cases data with
  | num y =>
      by_cases outside : (y.isInf || y.isNaN) = true
      · simp only [finite, outside, if_true, Json.num.injEq]
        constructor
        · exact nofun
        · rintro ⟨rfl, bounded, number⟩
          rw [bounded, number] at outside
          cases outside
      · simp only [finite, outside, Json.num.injEq]
        obtain ⟨bounded, number⟩ := Bool.or_eq_false_iff.mp (Bool.eq_false_iff.mpr outside)
        constructor
        · intro same
          cases same
          exact ⟨rfl, bounded, number⟩
        · rintro ⟨rfl, _⟩
          rfl
  | _ => simp [finite, wrongSort]

theorem reads_whole (n : Nat) {least : Nat} (small : least ≤ 1) :
    Reads n (whole least) (Json.Counts least) := by
  intro path data k _
  cases data with
  | num x =>
      cases known : wholeOf? x with
      | none =>
          simp only [whole, known, Json.Counts, Json.num.injEq]
          constructor
          · exact nofun
          · rintro ⟨y, rfl, some, _⟩
            cases known.symm.trans some
      | some z =>
          have below : x < Float.ofNat least ↔ z < least := by
            match least, small with
            | 0, _ => exact Double.lt_zero_iff known
            | 1, _ => exact Double.lt_one_iff known
          by_cases short : z < least
          · simp only [whole, known, below, short, if_true, Json.Counts, Json.num.injEq]
            constructor
            · exact nofun
            · rintro ⟨y, rfl, same, enough⟩
              cases known.symm.trans same
              omega
          · simp only [whole, known, below, short, if_false, Json.Counts, Json.num.injEq]
            constructor
            · intro same
              cases same
              exact ⟨x, rfl, by rw [known, Int.toNat_of_nonneg (by omega)], by omega⟩
            · rintro ⟨y, rfl, same, enough⟩
              cases known.symm.trans same
              rfl
  | _ => simp [whole, wrongSort, Json.Counts]

theorem reads_word (n : Nat) {word? : Text → Option α} {spelling : α → Text}
    (spells : ∀ t a, word? t = some a ↔ t = spelling a) :
    Reads n (word word?) fun a data => data = .str (spelling a) := by
  intro path data a _
  cases data with
  | str t =>
      cases found : word? t with
      | none =>
          simp only [word, found, Json.str.injEq]
          constructor
          · exact nofun
          · intro same
            rw [(spells t a).mpr same] at found
            cases found
      | some b =>
          simp only [word, found, Verdict.valid.injEq, Json.str.injEq, ← spells, Option.some.injEq]
  | _ => simp [word, wrongSort]

variable {n : Nat} {check : Check α} {describes : α → Json → Prop}

theorem Reads.mono {m : Nat} (reads : Reads n check describes) (less : m ≤ n) :
    Reads m check describes :=
  fun path data a shallow => reads path data a (Nat.le_trans shallow less)

theorem Reads.nullable (reads : Reads n check describes) (solid : ∀ a, ¬ describes a .null) :
    Reads n (nullable check) (Json.Maybe describes) := by
  intro path data a shallow
  by_cases nothing : data = .null
  · subst nothing
    cases a <;> simp [Check.nullable, Json.Maybe, solid]
  · have some : Check.nullable check path data = Option.some <$> check path data := by
      cases data with
      | null => exact absurd rfl nothing
      | _ => rfl
    rw [some, Verdict.valid_map]
    cases a with
    | none => simp [Json.Maybe, nothing]
    | some a => simp [Json.Maybe, reads path data a shallow]

theorem eachFrom_eq (reads : Reads n check describes) {items : List Json} (path : List Text)
    (i : Nat) (shallow : ∀ item ∈ items, item.depth ≤ n) (values : List α) :
    eachFrom check path i items = values.map .valid ↔ List.Forall₂ describes values items := by
  induction items generalizing i values with
  | nil => cases values <;> simp [eachFrom]
  | cons item rest ih =>
      cases values with
      | nil => simp [eachFrom]
      | cons a as =>
          simp only [eachFrom, List.map_cons, List.cons.injEq, List.forall₂_cons,
            reads _ item a (shallow item (.head _)),
            ih (i + 1) (fun item member => shallow item (.tail _ member)) as]

theorem Reads.list (reads : Reads n check describes) :
    Reads n (list check) fun values data => data.Lists (List.Forall₂ describes values) := by
  intro path data values shallow
  cases data with
  | arr items =>
      have within : ∀ item ∈ items, item.depth ≤ n := fun item member =>
        Nat.le_trans (Json.depth_le_of_mem member) (Nat.le_of_succ_le shallow)
      simp [Check.list, Verdict.valid_collect, eachFrom_eq reads path 0 within, Json.Lists]
  | _ => simp [Check.list, wrongSort, Json.Lists]

theorem Reads.filledList (reads : Reads n check describes) :
    Reads n (filledList check) fun values data =>
      values ≠ [] ∧ data.Lists (List.Forall₂ describes values) := by
  intro path data values shallow
  have listed := reads.list path data values shallow
  cases data with
  | arr items =>
      cases items with
      | nil => cases values <;> simp [Check.filledList, Json.Lists]
      | cons item rest =>
          have filled : values = [] →
              ¬ (Json.arr (item :: rest)).Lists (List.Forall₂ describes values) := by
            rintro rfl ⟨_, same, none⟩
            cases same
            cases none
          have same : Check.filledList check path (.arr (item :: rest)) =
              Check.list check path (.arr (item :: rest)) := rfl
          rw [same, listed]
          exact ⟨fun holds => ⟨fun empty => filled empty holds, holds⟩, fun holds => holds.2⟩
  | _ => simp [Check.filledList, Check.list, wrongSort, Json.Lists]

theorem field_iff (reads : Reads n check describes) {path : List Text} {data : Json} {key : Text}
    {a : α} (shallow : data.depth ≤ n + 1) :
    field key check path data = .valid a ↔ data.Has key (describes a) := by
  cases found : data.field? key with
  | none => simp [field, found, Json.Has]
  | some value =>
      have within : value.depth ≤ n :=
        Nat.le_of_lt_succ (Nat.lt_of_lt_of_le (Json.depth_field found) shallow)
      simp [field, found, Json.Has, reads _ value a within]

theorem tag_iff {path : List Text} {data : Json} {key expected : Text} {u : Unit} :
    tag key expected path data = .valid u ↔ data.Has key (· = .str expected) := by
  cases found : data.field? key with
  | none => simp [tag, found, Json.Has]
  | some value =>
      cases value with
      | str t => by_cases same : t = expected <;> simp [tag, found, Json.Has, same]
      | _ => simp [tag, found, Json.Has]

theorem object_iff {path : List Text} {data : Json} {a : α} :
    object check path data = .valid a ↔
      check path data = .valid a ∧ ∃ fields, data = .obj fields := by
  cases data <;> simp [object, wrongSort]

/-- One of several shapes is taken exactly when it is the one that the data names. -/
theorem oneOf_iff {path : List Text} {data : Json} {key : Text} {shape? : Text → Option (Check α)}
    {a : α} :
    oneOf key shape? path data = .valid a ↔ ∃ kind shape, data.Has key (· = .str kind) ∧
      shape? kind = some shape ∧ shape path data = .valid a := by
  cases found : data.field? key with
  | none => simp [oneOf, found, Json.Has]
  | some value =>
      cases value with
      | str kind =>
          cases known : shape? kind with
          | none => simp [oneOf, found, known, Json.Has]
          | some shape =>
              cases verdict : shape path data <;> simp [oneOf, found, known, verdict, Json.Has]
      | _ => simp [oneOf, found, Json.Has]

/-! One of several shapes as a union. The union tries every member, but all that do not bear the
name that the data gives are out of the question, whatever else is wrong with the data. -/

/-- A record of the shape that its name stands for. -/
def member (key kind : Text) (shape : Check α) : Check α :=
  object fun path data => (fun _ a => a) <$> tag key kind path data <*> shape path data

section

variable {path : List Text} {data : Json} {key kind : Text} {rest : List (Check α)}

theorem union_of_valid {a : α} (valid : check path data = .valid a) :
    union (check :: rest) path data = .valid a := by
  simp [union, valid, List.find?, Verdict.isValid]

theorem union_of_aborted {issues : List Issue} (aborted : check path data = .aborted issues) :
    union (check :: rest) path data = union rest path data := by
  simp [union, aborted, Verdict.isValid, Verdict.isDirty]

theorem union_of_none {members : List (Check α)}
    (refused : ∀ member ∈ members, ∃ issues, member path data = .aborted issues) :
    union members path data = .aborted [⟨path, .invalidInput⟩] := by
  induction members with
  | nil => rfl
  | cons first rest ih =>
      obtain ⟨issues, aborted⟩ := refused first (.head _)
      rw [union_of_aborted aborted, ih fun member later => refused member (.tail _ later)]

/-- A member that alone comes into question decides. -/
theorem union_of_one (others : ∀ member ∈ rest, ∃ issues, member path data = .aborted issues) :
    union (check :: rest) path data =
      match check path data with
      | .aborted _ => .aborted [⟨path, .invalidInput⟩]
      | verdict => verdict := by
  have missed : (rest.map fun member => member path data).find? Verdict.isValid = none := by
    rw [List.find?_eq_none]
    intro verdict listed
    obtain ⟨member, within, rfl⟩ := List.mem_map.mp listed
    obtain ⟨issues, aborted⟩ := others member within
    simp [aborted, Verdict.isValid]
  cases verdict : check path data with
  | valid a => exact union_of_valid verdict
  | dirty issues =>
      simp [union, verdict, missed, List.find?_cons, Verdict.isValid, Verdict.isDirty]
  | aborted issues => rw [union_of_aborted verdict, union_of_none others]

theorem member_of_named (named : data.field? key = some (.str kind)) :
    member key kind check path data = check path data := by
  cases data with
  | obj fields =>
      simp only [member, object, tag, named, if_true]
      cases check path (.obj fields) <;> rfl
  | _ => cases named

theorem member_of_other (other : data.field? key ≠ some (.str kind)) :
    ∃ issues, member key kind check path data = .aborted issues := by
  have wrong : ∃ issues, tag key kind path data = .aborted issues := by
    cases found : data.field? key with
    | none => exact ⟨_, by rw [tag, found]⟩
    | some value =>
        cases value with
        | str t =>
            have differs : t ≠ kind := fun same => other (by rw [found, same])
            exact ⟨_, by rw [tag, found]; exact if_neg differs⟩
        | _ => exact ⟨_, by rw [tag, found]⟩
  obtain ⟨issues, aborted⟩ := wrong
  cases data with
  | obj fields =>
      simp only [member, object, aborted]
      cases check path (.obj fields) <;> exact ⟨_, rfl⟩
  | _ => exact ⟨_, rfl⟩

/-- Under different names a union of shapes is the shape that the data names. -/
theorem union_eq_oneOf (key : Text) (table : Table (Check α))
    (distinct : (table.map Prod.fst).Nodup) :
    union (table.map fun entry => member key entry.1 entry.2) =
      oneOf key fun kind => Table.find? kind table := by
  funext path data
  by_cases named : ∃ kind, data.field? key = some (.str kind)
  · obtain ⟨kind, named⟩ := named
    simp only [oneOf, named]
    -- the shapes in front of the named one refuse the data, and so do those behind it
    induction table with
    | nil => rfl
    | cons entry rest ih =>
        obtain ⟨first, shape⟩ := entry
        obtain ⟨fresh, distinct⟩ := List.nodup_cons.mp distinct
        rw [List.map_cons, Table.find?]
        by_cases same : first = kind
        · subst same
          have others : ∀ check ∈ rest.map fun entry => member key entry.1 entry.2,
              ∃ issues, check path data = .aborted issues := by
            intro check within
            obtain ⟨entry, listed, rfl⟩ := List.mem_map.mp within
            refine member_of_other fun also => fresh ?_
            have same : first = entry.1 := Json.str.inj (Option.some.inj (named.symm.trans also))
            exact List.mem_map.mpr ⟨entry, listed, same.symm⟩
          have alone : union (member key first shape :: _) path data = _ := union_of_one others
          rw [member_of_named named] at alone
          rw [if_pos rfl]
          exact alone
        · have other : data.field? key ≠ some (.str first) := fun also =>
            same (Json.str.inj (Option.some.inj (also.symm.trans named)))
          have refused : ∃ issues, member key first shape path data = .aborted issues :=
            member_of_other other
          obtain ⟨issues, aborted⟩ := refused
          rw [union_of_aborted aborted, ih distinct, if_neg same]
  · have none : ∀ check ∈ table.map fun entry => member key entry.1 entry.2,
        ∃ issues, check path data = .aborted issues := by
      intro check within
      obtain ⟨entry, _, rfl⟩ := List.mem_map.mp within
      exact member_of_other fun found => named ⟨_, found⟩
    rw [union_of_none none, oneOf]
    split
    · exact absurd ⟨_, ‹_›⟩ named
    · rfl

end

end Check

end Loom
