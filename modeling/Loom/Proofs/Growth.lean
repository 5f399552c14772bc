import Loom.Eval.Statement
import Loom.Proofs.Steps

/-!
What is still there later. Heaps grow by new arrays and hashes, which no operator does to
what a heap holds already; most operators do not touch a heap at all.
-/

namespace Loom

namespace Heap

/-- What a heap holds is still there later. -/
structure Grows (heap later : Heap) : Prop where
  arrays : heap.arrays.size ≤ later.arrays.size
  hashes : heap.hashes.size ≤ later.hashes.size
  array : ∀ ref < heap.arrays.size, later.array ref = heap.array ref
  hash : ∀ ref < heap.hashes.size, later.hash ref = heap.hash ref

theorem grows_refl (heap : Heap) : heap.Grows heap :=
  ⟨Nat.le_refl _, Nat.le_refl _, fun _ _ => rfl, fun _ _ => rfl⟩

theorem Grows.trans {heap middle later : Heap} (first : heap.Grows middle)
    (second : middle.Grows later) : heap.Grows later where
  arrays := Nat.le_trans first.arrays second.arrays
  hashes := Nat.le_trans first.hashes second.hashes
  array ref inside := by
    rw [second.array ref (Nat.lt_of_lt_of_le inside first.arrays), first.array ref inside]
  hash ref inside := by
    rw [second.hash ref (Nat.lt_of_lt_of_le inside first.hashes), first.hash ref inside]

theorem Grows.size {heap later : Heap} (grows : heap.Grows later) : heap.size ≤ later.size :=
  Nat.add_le_add grows.arrays grows.hashes

theorem grows_newArray (heap : Heap) (slots : Array Slot) : heap.Grows (heap.newArray slots).2 where
  arrays := by simp [newArray]
  hashes := Nat.le_refl _
  array ref inside := by rw [array_newArray, if_neg (Nat.ne_of_lt inside)]
  hash _ _ := rfl

theorem grows_newHash (heap : Heap) (entries : Table Value) :
    heap.Grows (heap.newHash entries).2 where
  arrays := Nat.le_refl _
  hashes := by simp [newHash]
  array _ _ := rfl
  hash ref inside := by rw [hash_newHash, if_neg (Nat.ne_of_lt inside)]

theorem Grows.newArray {heap later : Heap} {slots : Array Slot}
    (grows : (heap.newArray slots).2.Grows later) : later.array heap.arrays.size = slots := by
  rw [grows.array _ (by simp [Heap.newArray]), array_newArray, if_pos rfl]

theorem Grows.newHash {heap later : Heap} {entries : Table Value}
    (grows : (heap.newHash entries).2.Grows later) : later.hash heap.hashes.size = entries := by
  rw [grows.hash _ (by simp [Heap.newHash]), hash_newHash, if_pos rfl]

mutual

theorem grows_ofHost : ∀ (data : HostData) (heap : Heap) (n : Nat),
    heap.Grows (Value.ofHost data heap n).2
  | .null, heap, _ => grows_refl heap
  | .bool _, heap, _ => grows_refl heap
  | .num _, heap, _ => grows_refl heap
  | .str _, heap, _ => grows_refl heap
  | .arr items, heap, n => (grows_allOfHost items heap n).trans (grows_newArray _ _)
  | .obj fields, heap, n => (grows_fieldsOfHost fields heap n).trans (grows_newHash _ _)

theorem grows_allOfHost : ∀ (items : List (Option HostData)) (heap : Heap) (n : Nat),
    heap.Grows (Value.allOfHost items heap n).2
  | [], heap, _ => grows_refl heap
  | none :: rest, heap, n => grows_allOfHost rest heap n
  | some item :: rest, heap, n => (grows_ofHost item heap n).trans (grows_allOfHost rest _ _)

theorem grows_fieldsOfHost : ∀ (fields : List (Text × HostData)) (heap : Heap) (n : Nat),
    heap.Grows (Value.fieldsOfHost fields heap n).2
  | [], heap, _ => grows_refl heap
  | (_, item) :: rest, heap, n => (grows_ofHost item heap n).trans (grows_fieldsOfHost rest _ _)

end

end Heap

namespace Eval

variable {α β : Type}

/-! Steps that change nothing. -/

/-- A step that leaves every state as it is, whether it gives something or fails. -/
def Still (x : Eval α) : Prop :=
  ∀ s, (∃ a, x s = .ok a s) ∨ ∃ failure, x s = .error (.failed failure) s

theorem still_pure (a : α) : Still (pure a : Eval α) := fun _ => .inl ⟨a, rfl⟩

theorem still_failWith (failure : Failure) : Still (failWith failure : Eval α) :=
  fun _ => .inr ⟨failure, rfl⟩

theorem still_get : Still (get : Eval State) := fun s => .inl ⟨s, rfl⟩

theorem still_bind {x : Eval α} {f : α → Eval β} (first : Still x) (rest : ∀ a, Still (f a)) :
    Still (x >>= f) := by
  intro s
  rcases first s with ⟨a, ran⟩ | ⟨failure, ran⟩
  · rw [bind_ok ran]
    exact rest a s
  · rw [bind_error ran]
    exact .inr ⟨failure, rfl⟩

theorem Still.state_eq {x : Eval α} (still : Still x) {s t : State} {a : α}
    (ran : x s = .ok a t) : t = s := by
  rcases still s with ⟨b, same⟩ | ⟨failure, same⟩
  · cases ran.symm.trans same
    rfl
  · cases ran.symm.trans same

theorem still_fault (cause : Fault) : Still (fault cause : Eval α) := still_failWith _

theorem still_present (result : Option α) : Still (present result) := by
  cases result with
  | none => exact still_failWith _
  | some a => exact still_pure a

theorem still_typeOf (v : Value) : Still (typeOf v) := still_present _

theorem still_typeFault (v : Value) (cause : TypeName → TypeFault) :
    Still (do typeFault (cause (← typeOf v)) : Eval α) :=
  still_bind (still_typeOf v) fun _ => still_fault _

theorem still_truthy (v : Value) : Still (truthy v) :=
  still_bind still_get fun _ => still_present _

theorem still_textOf (v : Value) : Still (textOf v) :=
  still_bind still_get fun _ => still_present _

theorem still_equal (v w : Value) : Still (equal v w) :=
  still_bind still_get fun _ => still_present _

theorem still_array (ref : Nat) : Still (array ref) :=
  still_bind still_get fun _ => still_pure _

theorem still_hash (ref : Nat) : Still (hash ref) :=
  still_bind still_get fun _ => still_pure _

theorem still_entry (ref : Nat) (key : Text) : Still (entry ref key) :=
  still_bind still_get fun _ => still_pure _

theorem still_lookup (scope : Nat) (name : Text) : Still (lookup scope name) := by
  refine still_bind still_get fun s => ?_
  cases s.scopes.get? scope name with
  | none => exact still_fault _
  | some v => exact still_pure v

theorem still_expectNumber (v : Value) (operation : Text) : Still (expectNumber v operation) := by
  cases v with
  | number x n => exact still_pure x
  | _ => exact still_typeFault _ _

theorem still_operands (op : BinaryOp) (left right : Value) : Still (operands op left right) :=
  still_bind (still_expectNumber _ _) fun _ =>
    still_bind (still_expectNumber _ _) fun _ => still_pure _

theorem still_standing (left right : Value) : Still (standing left right) := by
  unfold standing
  split
  · exact still_pure _
  · exact still_pure _
  · exact still_bind (still_typeOf _) fun _ => still_typeFault _ _

theorem still_compare (op : BinaryOp) (left right : Value) : Still (compare op left right) :=
  still_bind (still_standing left right) fun _ => still_pure _

theorem still_readField (object : Value) (name : Text) : Still (readField object name) := by
  cases object with
  | hash ref => exact still_entry ref name
  | _ => exact still_typeFault _ _

theorem still_readIndex (object position : Value) : Still (readIndex object position) := by
  cases object with
  | array ref =>
      refine still_bind (still_expectNumber _ _) fun x =>
        still_bind (still_array ref) fun slots => ?_
      split
      · split <;> exact still_pure _
      · exact still_pure _
  | hash ref => exact still_bind (still_textOf position) fun key => still_entry ref key
  | string t =>
      refine still_bind (still_expectNumber _ _) fun x => ?_
      split <;> exact still_pure _
  | _ => exact still_typeFault _ _

theorem still_elementPosition (ref : Nat) (position : Value) :
    Still (elementPosition ref position) := by
  refine still_bind (still_expectNumber _ _) fun x => still_bind (still_array ref) fun slots => ?_
  cases indexOf? x with
  | none => exact still_fault _
  | some i =>
      dsimp only
      split
      · exact still_pure i
      · exact still_fault _

/-! Steps that only add. -/

/-- A step that gives something or fails, however much it has to do. -/
def Concludes (x : Eval α) : Prop := ∀ s t, x s ≠ .error .outOfFuel t

/-- A step that, where it has a result, leaves the variables and what the heap holds as they
are. -/
structure Adds (x : Eval α) : Prop where
  concludes : Concludes x
  scopes : ∀ {s t : State} {a : α}, x s = .ok a t → t.scopes = s.scopes
  heap : ∀ {s t : State} {a : α}, x s = .ok a t → s.heap.Grows t.heap

theorem concludes_bind {x : Eval α} {f : α → Eval β} (first : Concludes x)
    (rest : ∀ a, Concludes (f a)) : Concludes (x >>= f) := by
  intro s u
  cases ran : x s with
  | ok a t =>
      rw [bind_ok ran]
      exact rest a t u
  | error e t =>
      rw [bind_error ran]
      rintro same
      cases same
      exact first s u ran

theorem Still.concludes {x : Eval α} (still : Still x) : Concludes x := by
  intro s t same
  rcases still s with ⟨a, ran⟩ | ⟨failure, ran⟩
  · cases ran.symm.trans same
  · cases ran.symm.trans same

theorem Still.adds {x : Eval α} (still : Still x) : Adds x where
  concludes := still.concludes
  scopes ran := by rw [still.state_eq ran]
  heap ran := by
    rw [still.state_eq ran]
    exact Heap.grows_refl _

theorem adds_bind {x : Eval α} {f : α → Eval β} (first : Adds x) (rest : ∀ a, Adds (f a)) :
    Adds (x >>= f) where
  concludes := concludes_bind first.concludes fun a => (rest a).concludes
  scopes ran := by
    obtain ⟨a, t, ran, ran'⟩ := bind_eq_ok ran
    exact ((rest a).scopes ran').trans (first.scopes ran)
  heap ran := by
    obtain ⟨a, t, ran, ran'⟩ := bind_eq_ok ran
    exact (first.heap ran).trans ((rest a).heap ran')

theorem concludes_modifyGet (change : State → α × State) :
    Concludes (modifyGet change : Eval α) := by
  intro s t same
  cases same

theorem concludes_modify (change : State → State) : Concludes (modify change) :=
  concludes_modifyGet _

theorem adds_pure (a : α) : Adds (pure a : Eval α) := (still_pure a).adds

theorem adds_fault (cause : Fault) : Adds (fault cause : Eval α) := (still_fault cause).adds

theorem adds_number (x : Float) : Adds (number x) := by
  unfold number
  split
  · refine adds_bind ?_ fun _ => adds_pure _
    constructor
    · exact concludes_modifyGet _
    · intro s t n ran
      cases ran
      rfl
    · intro s t n ran
      cases ran
      exact Heap.grows_refl _
  · exact adds_pure _

theorem adds_newArray (elements : Array Slot) : Adds (newArray elements) where
  concludes := concludes_modifyGet _
  scopes ran := by
    cases ran
    rfl
  heap {s _ _} ran := by
    cases ran
    exact s.heap.grows_newArray elements

theorem adds_newHash (entries : Table Value) : Adds (newHash entries) where
  concludes := concludes_modifyGet _
  scopes ran := by
    cases ran
    rfl
  heap {s _ _} ran := by
    cases ran
    exact s.heap.grows_newHash entries

theorem adds_arithmetic (op : BinaryOp) (left right : Value) {f : Float × Float → Eval Value}
    (result : ∀ pair, Adds (f pair)) : Adds (operands op left right >>= f) :=
  adds_bind (still_operands op left right).adds result

theorem adds_unless (c : Bool) (cause : RuntimeFault) (x : Float) :
    Adds (if c then runtimeFault cause else number x) := by
  cases c with
  | true => exact adds_fault _
  | false => exact adds_number x

theorem adds_negate (operand : Value) : Adds (negate operand) :=
  adds_bind (still_expectNumber _ _).adds fun _ => adds_number _

theorem adds_binary (op : BinaryOp) (left right : Value) : Adds (binary op left right) := by
  cases op with
  | add => exact adds_arithmetic .add left right fun _ => adds_number _
  | subtract => exact adds_arithmetic .subtract left right fun _ => adds_number _
  | multiply => exact adds_arithmetic .multiply left right fun _ => adds_number _
  | divide => exact adds_arithmetic .divide left right fun ⟨a, b⟩ => adds_unless (b == 0) _ (a / b)
  | remainder =>
      exact adds_arithmetic .remainder left right fun ⟨a, b⟩ => adds_unless (b == 0) _ _
  | less => exact (still_compare .less left right).adds
  | lessEqual => exact (still_compare .lessEqual left right).adds
  | greater => exact (still_compare .greater left right).adds
  | greaterEqual => exact (still_compare .greaterEqual left right).adds
  | equal | notEqual => exact adds_bind (still_equal left right).adds fun _ => adds_pure _
  | and =>
      refine adds_bind (still_truthy left).adds fun a => ?_
      cases a with
      | true => exact adds_bind (still_truthy right).adds fun _ => adds_pure _
      | false => exact adds_pure _
  | or =>
      refine adds_bind (still_truthy left).adds fun a => ?_
      cases a with
      | true => exact adds_pure _
      | false => exact adds_bind (still_truthy right).adds fun _ => adds_pure _
  | xor =>
      exact adds_bind (still_truthy left).adds fun _ =>
        adds_bind (still_truthy right).adds fun _ => adds_pure _
  | concat =>
      exact adds_bind (still_textOf left).adds fun _ =>
        adds_bind (still_textOf right).adds fun _ => adds_pure _

theorem adds_assigned (op : AssignOp) {old : Eval Value} (reads : Adds old) (v : Value) :
    Adds (assigned op old v) := by
  unfold assigned
  cases op.binary? with
  | none => exact adds_pure v
  | some op => exact adds_bind reads fun w => adds_binary op w v

end Eval

end Loom
