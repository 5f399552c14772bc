import Loom.Text

/-!
Tables keep their keys in the order in which they came. Storing under a key that is present
replaces the value where it stands.
-/

namespace Loom

abbrev Table (α : Type) := List (Text × α)

namespace Table

variable {α : Type}

def find? (key : Text) : Table α → Option α
  | [] => none
  | (k, a) :: rest => if k = key then some a else find? key rest

def insert (key : Text) (value : α) : Table α → Table α
  | [] => [(key, value)]
  | (k, a) :: rest => if k = key then (k, value) :: rest else (k, a) :: insert key value rest

def erase (key : Text) (table : Table α) : Table α :=
  table.filter (fun entry => entry.1 ≠ key)

def keys (table : Table α) : List Text := table.map (·.1)

def has (key : Text) (table : Table α) : Bool := (find? key table).isSome

/-- A repeated key keeps its first place and its last value. -/
def ofEntries (entries : List (Text × α)) : Table α :=
  entries.foldl (fun table entry => insert entry.1 entry.2 table) []

theorem find?_insert (key other : Text) (value : α) (table : Table α) :
    find? other (insert key value table) =
      if key = other then some value else find? other table := by
  induction table with
  | nil => simp [insert, find?]
  | cons entry rest ih =>
      obtain ⟨k, a⟩ := entry
      by_cases same : k = key
      · subst k; by_cases hit : key = other <;> simp [insert, find?, hit]
      · by_cases hit : k = other
        · subst k; simp [insert, find?, same, Ne.symm same]
        · simp [insert, find?, same, hit, ih]

theorem mem_of_find? (key : Text) (value : α) (table : Table α)
    (found : find? key table = some value) : (key, value) ∈ table := by
  induction table with
  | nil => simp [find?] at found
  | cons entry rest ih =>
      obtain ⟨k, a⟩ := entry
      by_cases hit : k = key
      · simp only [find?, hit, if_true, Option.some.injEq] at found
        simp [hit, found]
      · simp only [find?, hit, if_false] at found
        exact .tail _ (ih found)

theorem mem_keys_of_find? {table : Table α} {key : Text} {value : α}
    (found : find? key table = some value) : key ∈ table.keys :=
  List.mem_map_of_mem (mem_of_find? key value table found)

/-- An entry after a store is the one stored or one from before. -/
theorem mem_insert (key : Text) (value : α) (table : Table α) (entry : Text × α)
    (member : entry ∈ insert key value table) : entry.2 = value ∨ entry ∈ table := by
  induction table with
  | nil => simp_all [insert]
  | cons first rest ih =>
      obtain ⟨k, a⟩ := first
      by_cases hit : k = key
      · simp only [insert, hit, if_true, List.mem_cons] at member
        rcases member with rfl | later
        · exact .inl rfl
        · exact .inr (.tail _ later)
      · simp only [insert, hit, if_false, List.mem_cons] at member
        rcases member with rfl | later
        · exact .inr (.head _)
        · rcases ih later with new | old
          · exact .inl new
          · exact .inr (.tail _ old)

end Table

end Loom
