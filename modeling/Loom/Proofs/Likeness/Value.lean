import Loom.Proofs.Revision
import Loom.Proofs.Sufficiency
import Loom.Proofs.Zero
import Loom.State
import Mathlib.Data.List.Forall2

/-!
Values that runs cannot tell apart. In one run everything that is known by a number, such
as a scope or an array, may have come behind others that were there before, so that the
same thing has a greater number; and it may be overlooked which of the two zeros a number
is. Programs never see these numbers, and of a zero they never see the sign: the type, the
truth, the text and the equality of values are the same for values that are alike.
-/

namespace Loom

/-- How many things there are of each kind that is counted. -/
structure Extent where
  scopes : Nat
  cells : Nat
  arrays : Nat
  hashes : Nat
  loops : Nat
  stamps : Nat
  programs : Nat

/-- In which way one run is like another. -/
structure Likeness where
  /-- Whether the sign of zero is overlooked. -/
  blind : Bool
  /-- What was there before the other run. -/
  before : Extent
  /-- What had been put out before, last one first. -/
  emitted : List Emission

namespace Likeness

/-- Whether two things are the same, or can be taken for the same: `look` is how they look
when zero has lost its sign. -/
def Same {α : Type} (l : Likeness) (look : α → α) (a b : α) : Prop :=
  a = b ∨ l.blind = true ∧ look a = look b

variable {l : Likeness} {α β γ : Type} {look : α → α} {look' : β → β} {look'' : γ → γ}

theorem Same.refl (a : α) : l.Same look a a := .inl rfl

theorem Same.looks {a b : α} (same : l.Same look a b) : look a = look b := by
  rcases same with rfl | ⟨_, same⟩
  · rfl
  · exact same

theorem Same.eq {a b : α} (same : l.Same look a b) (sees : l.blind = false) : a = b := by
  rcases same with same | ⟨blind, _⟩
  · exact same
  · rw [sees] at blind
    cases blind

theorem Same.map {a b : α} (same : l.Same look a b) (f : α → β)
    (keeps : look a = look b → look' (f a) = look' (f b)) : l.Same look' (f a) (f b) := by
  rcases same with rfl | ⟨blind, same⟩
  · exact .inl rfl
  · exact .inr ⟨blind, keeps same⟩

theorem Same.map₂ {a b : α} {a' b' : β} (left : l.Same look a b) (right : l.Same look' a' b')
    (f : α → β → γ)
    (keeps : look a = look b → look' a' = look' b' → look'' (f a a') = look'' (f b b')) :
    l.Same look'' (f a a') (f b b') := by
  rcases left with rfl | ⟨blind, left⟩
  · exact right.map (f a) (keeps rfl)
  · exact .inr ⟨blind, keeps left right.looks⟩

/-- The stamp that a number has in the other run; numbers without one stay without. -/
def stamp (l : Likeness) : Nat → Nat
  | 0 => 0
  | n + 1 => l.before.stamps + n + 1

theorem stamp_inj {m n : Nat} : l.stamp m = l.stamp n ↔ m = n := by
  cases m <;> cases n <;> simp only [stamp] <;> omega

theorem beq_shift (n a b : Nat) : (n + a == n + b) = (a == b) := by
  rw [Bool.eq_iff_iff, beq_iff_eq, beq_iff_eq, Nat.add_left_cancel_iff]

/-- The site that a procedure has in the other run. Programs that the host has made bring
their sites along; those that were read come behind the ones from before. -/
def site (l : Likeness) : Site → Site
  | ⟨.host program, number⟩ => ⟨.host program, number⟩
  | ⟨.read program, number⟩ => ⟨.read (l.before.programs + program), number⟩

theorem site_inj {m n : Site} : l.site m = l.site n ↔ m = n := by
  obtain ⟨origin, number⟩ := m
  obtain ⟨origin', number'⟩ := n
  cases origin <;> cases origin' <;> simp [site]

def renumbering (l : Likeness) : Renumbering where
  site := l.site
  site_next := by
    rintro ⟨origin, number⟩
    cases origin <;> rfl

/-- Whether a tree of the other run can come of a revision of the tree of this one. -/
structure Admits (l : Likeness) (r : Revision) : Prop where
  number : ∀ x, l.Same plainNumber x (r.number x)
  site : ∀ n, r.site n = l.site n

/-- A revision that keeps numbers, but maybe for the sign of zero, is admitted once the
sites are those of the other run. -/
theorem admits_numbered {r : Revision} (numbers : ∀ x, l.Same plainNumber x (r.number x)) :
    l.Admits (r.numbered l.site) := ⟨numbers, fun _ => rfl⟩

end Likeness

/-- The same container, with the number that it has in the other run. -/
def Container.behind (l : Likeness) : Container → Container
  | .array ref => .array (l.before.arrays + ref)
  | .hash ref => .hash (l.before.hashes + ref)

theorem Container.behind_inj {l : Likeness} {c d : Container} :
    c.behind l = d.behind l ↔ c = d := by
  cases c <;> cases d <;> simp [behind]

/-- The same native function. What number its owner is depends on what it does. -/
def Native.behind (l : Likeness) (n : Native) : Native :=
  { n with
    owner := match n.action with
      | .builtin _ => l.before.scopes + n.owner
      | .setHandler | .startLoop => l.before.loops + n.owner
      | .callBack | .listArguments => l.before.stamps + n.owner
      | .host _ => n.owner }

theorem Native.behind_inj {l : Likeness} {m n : Native} : m.behind l = n.behind l ↔ m = n := by
  obtain ⟨action, owner⟩ := m
  obtain ⟨action', owner'⟩ := n
  constructor
  · intro same
    obtain ⟨rfl, owners⟩ := Native.mk.inj same
    cases action <;> simp_all
  · exact congrArg _

/-- The same function. -/
structure Closure.Like (l : Likeness) (f g : Closure) : Prop where
  name : g.name = f.name
  procedure : ∃ r, l.Admits r ∧ g.procedure = f.procedure.revised r
  scope : g.scope = l.before.scopes + f.scope
  file : g.file = f.file

/-- Procedures of a tree and of a revision of it, made in the same scope, are the same
function. -/
theorem Closure.like_revised {l : Likeness} {r : Revision} (admitted : l.Admits r) (name : Text)
    (procedure : Procedure) (scope : Nat) (file : Option Text) :
    Closure.Like l ⟨name, procedure, scope, file⟩
      ⟨name, procedure.revised r, l.before.scopes + scope, file⟩ :=
  ⟨rfl, ⟨r, admitted, rfl⟩, rfl, rfl⟩

/-- Values that stand for the same in the two runs. -/
inductive Value.Like (l : Likeness) : Value → Value → Prop
  | null : Like l .null .null
  | bool (b : Bool) : Like l (.bool b) (.bool b)
  | number {x y : Float} (same : l.Same plainNumber x y) (stamp : Nat) :
      Like l (.number x stamp) (.number y (l.stamp stamp))
  | string (t : Text) : Like l (.string t) (.string t)
  | array (ref : Nat) : Like l (.array ref) (.array (l.before.arrays + ref))
  | hash (ref : Nat) : Like l (.hash ref) (.hash (l.before.hashes + ref))
  | function {f g : Closure} (same : f.Like l g) (method : Bool) :
      Like l (.function f method) (.function g method)
  | native (n : Native) (method : Bool) : Like l (.native n method) (.native (n.behind l) method)
  | missing : Like l .missing .missing

variable {l : Likeness}

theorem Likeness.Same.ofFloat {x y : Float} (same : l.Same plainNumber x y) :
    Value.Like l (.ofFloat x) (.ofFloat y) := .number same 0

theorem Value.like_ofFloat (x : Float) : Value.Like l (.ofFloat x) (.ofFloat x) :=
  .number (.refl x) 0

namespace Value.Like

variable {v w : Value} (same : Value.Like l v w)
include same

theorem type?_eq : v.type? = w.type? := by
  cases same <;> rfl

theorem hostName?_eq : v.hostName? = w.hostName? := by
  cases same with
  | function code method => simp only [Value.hostName?, code.name]
  | _ => rfl

theorem isCallable_eq : v.isCallable = w.isCallable := by
  cases same <;> rfl

theorem isMethod_eq : v.isMethod = w.isMethod := by
  cases same <;> rfl

theorem asMethod : Value.Like l v.asMethod w.asMethod := by
  cases same with
  | function code method => exact .function code true
  | native n method => exact .native n true
  | null => exact .null
  | bool b => exact .bool b
  | number value stamp => exact .number value stamp
  | string t => exact .string t
  | array ref => exact .array ref
  | hash ref => exact .hash ref
  | missing => exact .missing

theorem present? : Option.Rel (Value.Like l) v.present? w.present? := by
  cases same with
  | missing => exact .none
  | null => exact .some .null
  | bool b => exact .some (.bool b)
  | number value stamp => exact .some (.number value stamp)
  | string t => exact .some (.string t)
  | array ref => exact .some (.array ref)
  | hash ref => exact .some (.hash ref)
  | function code method => exact .some (.function code method)
  | native n method => exact .some (.native n method)

end Value.Like

/-! Tables and arrays of values. -/

section

variable {α β : Type} {r : α → β → Prop} {a? : Option α} {b? : Option β}
  (found : Option.Rel r a? b?)
include found

/-- Either both are there, or neither. -/
theorem related_cases : (a? = none ∧ b? = none) ∨ ∃ a b, a? = some a ∧ b? = some b ∧ r a b := by
  cases found with
  | none => exact .inl ⟨rfl, rfl⟩
  | @some a b same => exact .inr ⟨a, b, rfl, rfl, same⟩

theorem related_getD {a : α} {b : β} (default : r a b) : r (a?.getD a) (b?.getD b) := by
  cases found with
  | none => exact default
  | some same => exact same

theorem related_bind {γ δ : Type} {q : γ → δ → Prop} {f : α → Option γ} {g : β → Option δ}
    (rest : ∀ a b, r a b → Option.Rel q (f a) (g b)) : Option.Rel q (a?.bind f) (b?.bind g) := by
  cases found with
  | none => exact .none
  | some same => exact rest _ _ same

end

/-- Tables with the same keys, in the same order, for like values. -/
def Table.Like (l : Likeness) (table other : Table Value) : Prop :=
  List.Forall₂ (fun a b => a.1 = b.1 ∧ Value.Like l a.2 b.2) table other

namespace Table.Like

variable {table other : Table Value} (same : Table.Like l table other)
include same

theorem find? (key : Text) :
    Option.Rel (Value.Like l) (Table.find? key table) (Table.find? key other) := by
  induction same with
  | nil => exact .none
  | @cons a b _ _ first _ ih =>
      simp only [Table.find?, first.1]
      split
      · exact .some first.2
      · exact ih

theorem present? (key : Text) :
    Option.Rel (Value.Like l) ((Table.find? key table).bind Value.present?)
      ((Table.find? key other).bind Value.present?) :=
  related_bind (same.find? key) (fun _ _ like => like.present?)

theorem has_eq (key : Text) : Table.has key table = Table.has key other := by
  rcases related_cases (same.find? key) with ⟨none, none'⟩ | ⟨v, w, some, some', _⟩
  · rw [Table.has, none, Table.has, none']
  · rw [Table.has, some, Table.has, some']
    rfl

theorem insert (key : Text) {v w : Value} (like : Value.Like l v w) :
    Table.Like l (Table.insert key v table) (Table.insert key w other) := by
  induction same with
  | nil => exact .cons ⟨rfl, like⟩ .nil
  | @cons a b _ _ first others ih =>
      simp only [Table.insert, first.1]
      split
      · exact .cons ⟨rfl, like⟩ others
      · exact .cons ⟨rfl, first.2⟩ ih

theorem erase (key : Text) : Table.Like l (Table.erase key table) (Table.erase key other) := by
  induction same with
  | nil => exact .nil
  | @cons a b _ _ first _ ih =>
      simp only [Table.erase, List.filter_cons, first.1] at ih ⊢
      split
      · exact .cons first ih
      · exact ih

theorem keys_eq : Table.keys table = Table.keys other := by
  induction same with
  | nil => rfl
  | cons first _ ih =>
      simp only [Table.keys, List.map_cons, first.1] at ih ⊢
      rw [ih]

theorem length_eq : table.length = other.length := List.Forall₂.length_eq same

theorem isEmpty_eq : table.isEmpty = other.isEmpty := by
  cases same <;> rfl

end Table.Like

/-- Slots that hold like values, or nothing. -/
abbrev Slot.Like (l : Likeness) : Slot → Slot → Prop := Option.Rel (Value.Like l)

theorem Slot.Like.read {slot slot' : Slot} (same : Slot.Like l slot slot') :
    Value.Like l slot.read slot'.read := related_getD same .missing

/-- Arrays of like slots. -/
def Slot.AllLike (l : Likeness) (slots slots' : Array Slot) : Prop :=
  List.Forall₂ (Slot.Like l) slots.toList slots'.toList

theorem Slot.all_like_of_values {values values' : List Value}
    (same : List.Forall₂ (Value.Like l) values values') :
    Slot.AllLike l (values.map some).toArray (values'.map some).toArray := by
  induction same with
  | nil => exact .nil
  | cons first _ ih => exact .cons (.some first) ih

namespace Slot.AllLike

variable {slots slots' : Array Slot} (same : Slot.AllLike l slots slots')
include same

theorem size_eq : slots.size = slots'.size := by
  simpa using List.Forall₂.length_eq same

theorem getElem? (i : Nat) : Option.Rel (Slot.Like l) slots[i]? slots'[i]? := by
  have each : ∀ {xs ys : List Slot}, List.Forall₂ (Slot.Like l) xs ys → ∀ i : Nat,
      Option.Rel (Slot.Like l) xs[i]? ys[i]? := by
    intro xs ys same
    induction same with
    | nil => exact fun _ => .none
    | cons first _ ih =>
        intro i
        cases i with
        | zero => exact .some first
        | succ i => exact ih i
  simpa using each same i

theorem getElem (i : Nat) (inside : i < slots.size) (inside' : i < slots'.size) :
    Slot.Like l slots[i] slots'[i] := by
  have found := same.getElem? i
  rw [Array.getElem?_eq_getElem inside, Array.getElem?_eq_getElem inside'] at found
  cases found with
  | some like => exact like

/-- What stands at a position, or nothing behind the end. -/
theorem valueAt (i : Nat) :
    Value.Like l (slots[i]?.join.getD .missing) (slots'[i]?.join.getD .missing) := by
  rcases related_cases (same.getElem? i) with ⟨none, none'⟩ | ⟨slot, slot', some, some', like⟩
  · rw [none, none']
    exact .missing
  · rw [some, some']
    exact Slot.Like.read like

theorem push {v w : Value} (last : Value.Like l v w) :
    Slot.AllLike l (slots.push (some v)) (slots'.push (some w)) := by
  simp only [Slot.AllLike, Array.toList_push]
  exact List.rel_append same (.cons (.some last) .nil)

theorem eraseIdx (i : Nat) :
    Slot.AllLike l (slots.eraseIdxIfInBounds i) (slots'.eraseIdxIfInBounds i) := by
  simp only [Slot.AllLike, Array.toList_eraseIdxIfInBounds, List.eraseIdx_eq_take_drop_succ]
  exact List.rel_append (List.forall₂_take i same) (List.forall₂_drop (i + 1) same)

theorem storeAt (i : Nat) {v w : Value} (like : Value.Like l v w) :
    Slot.AllLike l (Heap.storeAt slots i v) (Heap.storeAt slots' i w) := by
  have set : ∀ {xs ys : List Slot}, List.Forall₂ (Slot.Like l) xs ys → ∀ i : Nat,
      List.Forall₂ (Slot.Like l) (xs.set i (some v)) (ys.set i (some w)) := by
    intro xs ys same
    induction same with
    | nil => exact fun _ => .nil
    | cons first others ih =>
        intro i
        cases i with
        | zero => exact .cons (.some like) others
        | succ i => exact .cons first (ih i)
  have gap : ∀ n : Nat, List.Forall₂ (Slot.Like l) (List.replicate n none)
      (List.replicate n none) := by
    intro n
    induction n with
    | zero => exact .nil
    | succ n ih => exact .cons .none ih
  unfold Heap.storeAt
  rw [same.size_eq]
  split
  · simp only [Slot.AllLike, Array.toList_setIfInBounds]
    exact set same i
  · simp only [Slot.AllLike, Array.toList_push, Array.toList_append, Array.toList_replicate]
    exact List.rel_append (List.rel_append same (gap _)) (.cons (.some like) .nil)

end Slot.AllLike

/-! The heap. -/

/-- A heap in front of which others were there. -/
structure Heap.Like (l : Likeness) (heap other : Heap) : Prop where
  arrays : other.arrays.size = l.before.arrays + heap.arrays.size
  hashes : other.hashes.size = l.before.hashes + heap.hashes.size
  array : ∀ ref, Slot.AllLike l (heap.array ref) (other.array (l.before.arrays + ref))
  hash : ∀ ref, Table.Like l (heap.hash ref) (other.hash (l.before.hashes + ref))

namespace Heap.Like

variable {heap other : Heap} (same : heap.Like l other)
include same

theorem size_le : heap.size ≤ other.size := by
  have arrays := same.arrays
  have hashes := same.hashes
  simp only [Heap.size]
  omega

theorem entry? (ref : Nat) (key : Text) :
    Option.Rel (Value.Like l) (heap.entry? ref key) (other.entry? (l.before.hashes + ref) key) :=
  (same.hash ref).present? key

theorem newArray {elements elements' : Array Slot} (slots : Slot.AllLike l elements elements') :
    Value.Like l (heap.newArray elements).1 (other.newArray elements').1 ∧
      (heap.newArray elements).2.Like l (other.newArray elements').2 := by
  constructor
  · simp only [Heap.newArray, same.arrays]
    exact .array _
  · constructor
    case arrays => simp [Heap.newArray, same.arrays, Nat.add_assoc]
    case hashes => exact same.hashes
    case array =>
      intro ref
      rw [Heap.array_newArray, Heap.array_newArray, same.arrays]
      simp only [Nat.add_left_cancel_iff]
      split
      · exact slots
      · exact same.array ref
    case hash => exact same.hash

theorem newHash {entries entries' : Table Value} (tables : Table.Like l entries entries') :
    Value.Like l (heap.newHash entries).1 (other.newHash entries').1 ∧
      (heap.newHash entries).2.Like l (other.newHash entries').2 := by
  constructor
  · simp only [Heap.newHash, same.hashes]
    exact .hash _
  · constructor
    case arrays => exact same.arrays
    case hashes => simp [Heap.newHash, same.hashes, Nat.add_assoc]
    case array => exact same.array
    case hash =>
      intro ref
      rw [Heap.hash_newHash, Heap.hash_newHash, same.hashes]
      simp only [Nat.add_left_cancel_iff]
      split
      · exact tables
      · exact same.hash ref

theorem modifyArray (ref : Nat) {f g : Array Slot → Array Slot}
    (step : ∀ slots slots', Slot.AllLike l slots slots' → Slot.AllLike l (f slots) (g slots')) :
    (heap.modifyArray ref f).Like l (other.modifyArray (l.before.arrays + ref) g) := by
  constructor
  case arrays => simpa [Heap.modifyArray] using same.arrays
  case hashes => exact same.hashes
  case array =>
    intro other
    rw [Heap.array_modifyArray, Heap.array_modifyArray, same.arrays]
    simp only [Nat.add_left_cancel_iff, Nat.add_lt_add_iff_left]
    split
    · exact step _ _ (same.array other)
    · exact same.array other
  case hash => exact same.hash

theorem modifyHash (ref : Nat) {f g : Table Value → Table Value}
    (step : ∀ table table', Table.Like l table table' → Table.Like l (f table) (g table')) :
    (heap.modifyHash ref f).Like l (other.modifyHash (l.before.hashes + ref) g) := by
  constructor
  case arrays => exact same.arrays
  case hashes => simpa [Heap.modifyHash] using same.hashes
  case array => exact same.array
  case hash =>
    intro other
    rw [Heap.hash_modifyHash, Heap.hash_modifyHash, same.hashes]
    simp only [Nat.add_left_cancel_iff, Nat.add_lt_add_iff_left]
    split
    · exact step _ _ (same.hash other)
    · exact same.hash other

end Heap.Like

/-! Values made of the data of a host. -/

mutual

theorem Value.ofHost_like (data : HostData) {heap other : Heap} (same : heap.Like l other)
    (n : Nat) :
    Value.Like l (Value.ofHost data heap n).1 (Value.ofHost data other (l.before.stamps + n)).1 ∧
      (Value.ofHost data heap n).2.Like l (Value.ofHost data other (l.before.stamps + n)).2 := by
  match data with
  | .null => exact ⟨.null, same⟩
  | .bool b => exact ⟨.bool b, same⟩
  | .num x =>
      have stamps : l.stamp (if x.isNaN then n + 1 else 0) =
          if x.isNaN then l.before.stamps + n + 1 else 0 := by
        split <;> rfl
      simp only [Value.ofHost, ← stamps]
      exact ⟨.number (.refl x) _, same⟩
  | .str t => exact ⟨.string t, same⟩
  | .arr items =>
      obtain ⟨slots, heaps⟩ := Value.allOfHost_like items same n
      exact heaps.newArray (by simpa only [Slot.AllLike] using slots)
  | .obj fields =>
      obtain ⟨entries, heaps⟩ := Value.fieldsOfHost_like fields same n
      exact heaps.newHash entries

theorem Value.allOfHost_like (items : List (Option HostData)) {heap other : Heap}
    (same : heap.Like l other) (n : Nat) :
    List.Forall₂ (Slot.Like l) (Value.allOfHost items heap n).1
        (Value.allOfHost items other (l.before.stamps + n)).1 ∧
      (Value.allOfHost items heap n).2.Like l
        (Value.allOfHost items other (l.before.stamps + n)).2 := by
  match items with
  | [] => exact ⟨.nil, same⟩
  | none :: rest =>
      obtain ⟨others, after⟩ := Value.allOfHost_like rest same n
      exact ⟨.cons .none others, after⟩
  | some item :: rest =>
      obtain ⟨first, heaps⟩ := Value.ofHost_like item same n
      obtain ⟨others, after⟩ := Value.allOfHost_like rest heaps (n + item.nans)
      rw [← Nat.add_assoc] at others after
      exact ⟨.cons (.some first) others, after⟩

theorem Value.fieldsOfHost_like (fields : List (Text × HostData)) {heap other : Heap}
    (same : heap.Like l other) (n : Nat) :
    Table.Like l (Value.fieldsOfHost fields heap n).1
        (Value.fieldsOfHost fields other (l.before.stamps + n)).1 ∧
      (Value.fieldsOfHost fields heap n).2.Like l
        (Value.fieldsOfHost fields other (l.before.stamps + n)).2 := by
  match fields with
  | [] => exact ⟨.nil, same⟩
  | (key, item) :: rest =>
      obtain ⟨first, heaps⟩ := Value.ofHost_like item same n
      obtain ⟨others, after⟩ := Value.fieldsOfHost_like rest heaps (n + item.nans)
      rw [← Nat.add_assoc] at others after
      exact ⟨.cons ⟨rfl, first⟩ others, after⟩

end

end Loom
