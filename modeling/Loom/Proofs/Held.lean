import Loom.Proofs.Scoping
import Loom.State

/-!
What holds of every value that a state keeps: in cells, on the heap, as handlers
and as modules. Each change of a state keeps such a property if it holds of the
values that the change brings in.
-/

namespace Loom

namespace Table

variable {α : Type} {P : α → Prop}

theorem forall_insert (key : Text) (value : α) (table : Table α)
    (held : ∀ entry ∈ table, P entry.2) (new : P value) :
    ∀ entry ∈ insert key value table, P entry.2 := by
  intro entry member
  rcases mem_insert key value table entry member with same | old
  · rw [same]
    exact new
  · exact held entry old

theorem forall_erase (key : Text) (table : Table α) (held : ∀ entry ∈ table, P entry.2) :
    ∀ entry ∈ erase key table, P entry.2 :=
  fun entry member => held entry (List.mem_filter.mp member).1

theorem mem_keys_insert (key other : Text) (value : α) (table : Table α) :
    other ∈ (insert key value table).keys ↔ other = key ∨ other ∈ table.keys := by
  induction table with
  | nil => simp [insert, keys]
  | cons entry rest ih =>
      obtain ⟨k, a⟩ := entry
      by_cases same : k = key
      · simp [insert, keys, same]
      · simp only [keys] at ih
        simp [insert, keys, same, ih, or_left_comm]

theorem nodup_insert (key : Text) (value : α) {table : Table α} (distinct : table.keys.Nodup) :
    (insert key value table).keys.Nodup := by
  induction table with
  | nil => simp [insert, keys]
  | cons entry rest ih =>
      obtain ⟨k, a⟩ := entry
      obtain ⟨fresh, distinct⟩ := List.nodup_cons.mp distinct
      unfold insert
      split
      · exact List.nodup_cons.mpr ⟨fresh, distinct⟩
      · rename_i other
        refine List.nodup_cons.mpr ⟨fun later => ?_, ih distinct⟩
        rcases (mem_keys_insert key k value rest).mp later with same | old
        · exact other same
        · exact fresh old

theorem nodup_ofEntries (entries : List (Text × α)) : (ofEntries entries).keys.Nodup := by
  suffices stored : ∀ table : Table α, table.keys.Nodup →
      (keys (entries.foldl (fun table entry => insert entry.1 entry.2 table) table)).Nodup from
    stored [] List.nodup_nil
  induction entries with
  | nil => exact fun table distinct => distinct
  | cons entry rest ih => exact fun table distinct => ih _ (nodup_insert entry.1 entry.2 distinct)

theorem forall_ofEntries (entries : List (Text × α)) (held : ∀ entry ∈ entries, P entry.2) :
    ∀ entry ∈ ofEntries entries, P entry.2 := by
  suffices stored : ∀ table : Table α, (∀ entry ∈ table, P entry.2) →
      ∀ entry ∈ entries.foldl (fun table entry => insert entry.1 entry.2 table) table,
        P entry.2 from
    stored [] (by simp)
  induction entries with
  | nil => exact fun table all => all
  | cons entry rest ih =>
      exact fun table all => ih (fun entry member => held entry (.tail _ member)) _
        (forall_insert entry.1 entry.2 table all (held entry (.head _)))

theorem holds_of_find? (key : Text) (value : α) (table : Table α)
    (held : ∀ entry ∈ table, P entry.2) (found : find? key table = some value) : P value :=
  held _ (mem_of_find? key value table found)

end Table

variable {P Q : Value → Prop}

/-- What holds of every value on a heap. A slot that holds nothing counts as one
that holds a missing value. -/
structure Heap.All (P : Value → Prop) (heap : Heap) : Prop where
  slots : ∀ ref, ∀ slot ∈ heap.array ref, P slot.read
  entries : ∀ ref, ∀ entry ∈ heap.hash ref, P entry.2

namespace Heap

theorem All.imp {heap : Heap} (held : heap.All P) (step : ∀ v, P v → Q v) : heap.All Q :=
  ⟨fun ref slot member => step _ (held.slots ref slot member),
    fun ref entry member => step _ (held.entries ref entry member)⟩

theorem all_empty : Heap.empty.All P := by
  constructor
  · simp [empty, array]
  · simp [empty, hash]

theorem All.newArray {heap : Heap} (held : heap.All P) (elements : Array Slot)
    (new : ∀ slot ∈ elements, P slot.read) : (heap.newArray elements).2.All P := by
  constructor
  · intro ref slot member
    rw [array_newArray] at member
    split at member
    · exact new slot member
    · exact held.slots ref slot member
  · exact held.entries

theorem All.newHash {heap : Heap} (held : heap.All P) (entries : Table Value)
    (new : ∀ entry ∈ entries, P entry.2) : (heap.newHash entries).2.All P := by
  constructor
  · exact held.slots
  · intro ref entry member
    rw [hash_newHash] at member
    split at member
    · exact new entry member
    · exact held.entries ref entry member

theorem All.modifyArray {heap : Heap} (held : heap.All P) (ref : Nat)
    (f : Array Slot → Array Slot) (new : ∀ slot ∈ f (heap.array ref), P slot.read) :
    (heap.modifyArray ref f).All P := by
  constructor
  · intro other slot member
    rw [array_modifyArray] at member
    by_cases here : other = ref ∧ ref < heap.arrays.size
    · rw [if_pos here, here.1] at member
      exact new slot member
    · rw [if_neg here] at member
      exact held.slots other slot member
  · exact held.entries

theorem All.modifyHash {heap : Heap} (held : heap.All P) (ref : Nat)
    (f : Table Value → Table Value) (new : ∀ entry ∈ f (heap.hash ref), P entry.2) :
    (heap.modifyHash ref f).All P := by
  constructor
  · exact held.slots
  · intro other entry member
    rw [hash_modifyHash] at member
    by_cases here : other = ref ∧ ref < heap.hashes.size
    · rw [if_pos here, here.1] at member
      exact new entry member
    · rw [if_neg here] at member
      exact held.entries other entry member

theorem forall_storeAt (elements : Array Slot) (position : Nat) (v : Value)
    (held : ∀ slot ∈ elements, P slot.read) (new : P v)
    (gap : elements.size < position → P .missing) :
    ∀ slot ∈ storeAt elements position v, P slot.read := by
  intro slot member
  unfold storeAt at member
  split at member
  · rcases Array.mem_or_eq_of_mem_setIfInBounds member with old | same
    · exact held slot old
    · rw [same]
      exact new
  · rcases Array.mem_push.mp member with front | same
    · rcases Array.mem_append.mp front with old | empty
      · exact held slot old
      · -- a slot between the old end and the position, which holds nothing
        obtain ⟨some, same⟩ := Array.mem_replicate.mp empty
        rw [same]
        exact gap (by omega)
    · rw [same]
      exact new

theorem forall_eraseAt (elements : Array Slot) (position : Nat)
    (held : ∀ slot ∈ elements, P slot.read) :
    ∀ slot ∈ elements.eraseIdxIfInBounds position, P slot.read := by
  intro slot member
  unfold Array.eraseIdxIfInBounds at member
  split at member
  · exact held slot (Array.mem_of_mem_eraseIdx member)
  · exact held slot member

end Heap

/-! Plain data brings in nothing but data. -/

/-- Whether a value is data: neither a function nor missing. -/
def Value.isData : Value → Bool
  | null | bool _ | number _ _ | string _ | array _ | hash _ => true
  | function _ _ | native _ _ | missing => false

mutual

theorem Value.all_ofHost (data : ∀ v : Value, v.isData = true → P v) :
    (json : Json) → (heap : Heap) → (n : Nat) → heap.All P →
      (Value.ofHost json.host heap n).2.All P ∧ P (Value.ofHost json.host heap n).1
  | .null, _, _, held => ⟨held, data _ rfl⟩
  | .bool _, _, _, held => ⟨held, data _ rfl⟩
  | .num _, _, _, held => ⟨held, data _ rfl⟩
  | .str _, _, _, held => ⟨held, data _ rfl⟩
  | .arr items, heap, n, held => by
      obtain ⟨held, slots⟩ := Value.all_allOfHost data items heap n held
      exact ⟨held.newArray _ (by simpa using slots), data _ rfl⟩
  | .obj fields, heap, n, held => by
      obtain ⟨held, entries⟩ := Value.all_fieldsOfHost data fields heap n held
      exact ⟨held.newHash _ entries, data _ rfl⟩

theorem Value.all_allOfHost (data : ∀ v : Value, v.isData = true → P v) :
    (items : List Json) → (heap : Heap) → (n : Nat) → heap.All P →
      (Value.allOfHost (Json.hostItems items) heap n).2.All P ∧
        ∀ slot ∈ (Value.allOfHost (Json.hostItems items) heap n).1, P slot.read
  | [], _, _, held => ⟨held, by simp [Json.hostItems, Value.allOfHost]⟩
  | item :: rest, heap, n, held => by
      obtain ⟨held, first⟩ := Value.all_ofHost data item heap n held
      obtain ⟨held, others⟩ := Value.all_allOfHost data rest _ (n + item.host.nans) held
      exact ⟨held, List.forall_mem_cons.mpr ⟨first, others⟩⟩

theorem Value.all_fieldsOfHost (data : ∀ v : Value, v.isData = true → P v) :
    (fields : List (Text × Json)) → (heap : Heap) → (n : Nat) → heap.All P →
      (Value.fieldsOfHost (Json.hostFields fields) heap n).2.All P ∧
        ∀ entry ∈ (Value.fieldsOfHost (Json.hostFields fields) heap n).1, P entry.2
  | [], _, _, held => ⟨held, by simp [Json.hostFields, Value.fieldsOfHost]⟩
  | (_, item) :: rest, heap, n, held => by
      obtain ⟨held, first⟩ := Value.all_ofHost data item heap n held
      obtain ⟨held, others⟩ := Value.all_fieldsOfHost data rest _ (n + item.host.nans) held
      exact ⟨held, List.forall_mem_cons.mpr ⟨first, others⟩⟩

end

namespace ScopeTree

/-- What holds of every value in a cell. -/
def All (P : Value → Prop) (tree : ScopeTree) : Prop := ∀ v ∈ tree.cells, P v

theorem All.write {tree : ScopeTree} (held : tree.All P) (cell : Nat) (v : Value) (new : P v) :
    (tree.write cell v).All P := by
  intro w member
  rcases Array.mem_or_eq_of_mem_setIfInBounds member with old | same
  · exact held w old
  · rw [same]
    exact new

theorem All.define {tree : ScopeTree} (held : tree.All P) (id : Nat) (name : Text) (v : Value)
    (new : P v) : (tree.define id name v).All P := by
  intro w member
  rcases Array.mem_push.mp member with old | same
  · exact held w old
  · rw [same]
    exact new

theorem All.defineAll {tree : ScopeTree} (held : tree.All P) (id : Nat)
    (entries : List (Text × Value)) (new : ∀ entry ∈ entries, P entry.2) :
    (tree.defineAll id entries).All P := by
  induction entries generalizing tree with
  | nil => exact held
  | cons entry rest ih =>
      obtain ⟨name, v⟩ := entry
      have defined := held.define id name v (new _ (.head _))
      exact ih defined (fun entry member => new entry (.tail _ member))

theorem All.assign {tree : ScopeTree} (held : tree.All P) (id : Nat) (name : Text) (v : Value)
    (new : P v) : (tree.assign id name v).All P := by
  unfold ScopeTree.assign
  split
  · exact held.write _ v new
  · exact held.define _ name v new

theorem All.share {tree : ScopeTree} (held : tree.All P) (id : Nat) (name : Text)
    (null : P .null) : (tree.share id name).All P := by
  unfold ScopeTree.share
  split
  · exact held
  · exact held.define (tree.root id) name .null null

theorem All.declare {tree : ScopeTree} (held : tree.All P) (id : Nat) (name : Text)
    (first? : Option Value) (null : P .null) (new : ∀ v ∈ first?, P v) :
    (tree.declare id name first?).2.All P := by
  unfold ScopeTree.declare
  cases tree.lookup? id name with
  | some cell =>
      cases first? with
      | some v => exact held.write cell v (new v rfl)
      | none => exact held
  | none =>
      cases first? with
      | some v => exact (held.define id name .null null).write _ v (new v rfl)
      | none => exact held.define id name .null null

theorem All.get? {tree : ScopeTree} (held : tree.All P) (null : P .null) (id : Nat) (name : Text)
    (v : Value) (found : tree.get? id name = some v) : P v := by
  obtain ⟨cell, _, same⟩ := Option.map_eq_some_iff.mp found
  rw [← same]
  unfold ScopeTree.read Array.getD
  split
  · exact held _ (Array.getElem_mem _)
  · exact null

end ScopeTree

/-- What holds of every value that a state keeps. -/
structure State.All (P : Value → Prop) (s : State) : Prop where
  cells : s.scopes.All P
  heap : s.heap.All P
  handlers : ∀ loop ∈ s.loops, ∀ entry ∈ loop.handlers, P entry.2
  natives : ∀ entry ∈ s.nativeCache, P entry.2
  modules : ∀ entry ∈ s.moduleCache, P entry.2

theorem State.All.imp {s : State} (held : s.All P) (step : ∀ v, P v → Q v) : s.All Q :=
  ⟨fun v member => step v (held.cells v member), held.heap.imp step,
    fun loop here entry member => step _ (held.handlers loop here entry member),
    fun entry member => step _ (held.natives entry member),
    fun entry member => step _ (held.modules entry member)⟩

/-- Values are kept in five parts of a state only. -/
theorem State.All.of_same {s t : State} (held : s.All P) (scopes : t.scopes = s.scopes)
    (heap : t.heap = s.heap) (loops : t.loops = s.loops) (natives : t.nativeCache = s.nativeCache)
    (modules : t.moduleCache = s.moduleCache) : t.All P :=
  ⟨scopes ▸ held.cells, heap ▸ held.heap, loops ▸ held.handlers, natives ▸ held.natives,
    modules ▸ held.modules⟩

theorem State.All.withScopes {s : State} (held : s.All P) {scopes : ScopeTree}
    (cells : scopes.All P) : ({ s with scopes := scopes } : State).All P :=
  ⟨cells, held.heap, held.handlers, held.natives, held.modules⟩

theorem State.All.withHeap {s : State} (held : s.All P) {heap : Heap} (all : heap.All P) :
    ({ s with heap := heap } : State).All P :=
  ⟨held.cells, all, held.handlers, held.natives, held.modules⟩

theorem mem_of_mem_modify {α : Type} (xs : Array α) (i : Nat) (f : α → α) (a : α)
    (member : a ∈ xs.modify i f) : a ∈ xs ∨ ∃ old ∈ xs, a = f old := by
  obtain ⟨j, inside, same⟩ := Array.mem_iff_getElem.mp member
  rw [Array.size_modify] at inside
  rw [Array.getElem_modify] at same
  split at same
  · exact .inr ⟨xs[j], Array.getElem_mem inside, same.symm⟩
  · exact .inl (same ▸ Array.getElem_mem inside)

/-- What holds of the handlers of all loops still does when those of one loop
are changed. -/
theorem forall_handlers (loops : Array EventLoop) (loop : Nat) (f : EventLoop → EventLoop)
    (held : ∀ l ∈ loops, ∀ entry ∈ l.handlers, P entry.2)
    (new : ∀ l ∈ loops, ∀ entry ∈ (f l).handlers, P entry.2) :
    ∀ l ∈ loops.modify loop f, ∀ entry ∈ l.handlers, P entry.2 := by
  intro l member
  rcases mem_of_mem_modify loops loop f l member with old | ⟨old, here, same⟩
  · exact held l old
  · rw [same]
    exact new old here

theorem State.All.setRunning {s : State} (held : s.All P) (loop : Nat) (running : Bool) :
    (Eval.setRunning loop running s).All P := by
  have handlers := forall_handlers s.loops loop (fun l => { l with running := running })
    held.handlers held.handlers
  exact ⟨held.cells, held.heap, handlers, held.natives, held.modules⟩

end Loom
