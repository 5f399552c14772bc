import Mathlib.Data.List.Induction
import Loom.Interpreter
import Loom.Proofs.Growth
import Loom.Proofs.Held
import Loom.Proofs.Steps
import Loom.Proofs.Sufficiency

/-!
Hashes as ordered maps. What was done to a hash is a list of edits, which says by itself
which keys the hash has, in which order, and what stands under each. However it was
accessed, and whatever happened in between, a hash is at each point as its edits say, and
everything that reads it agrees with them.
-/

namespace Loom

namespace Table

variable {α : Type}

theorem keys_insert (key : Text) (value : α) (table : Table α) :
    (insert key value table).keys =
      if key ∈ table.keys then table.keys else table.keys ++ [key] := by
  induction table with
  | nil => rfl
  | cons entry rest ih =>
      obtain ⟨k, a⟩ := entry
      by_cases same : k = key
      · simp [insert, keys, same]
      · have other : key ≠ k := fun back => same back.symm
        have cons : (insert key value ((k, a) :: rest)).keys =
            k :: (insert key value rest).keys := by
          simp [insert, keys, same]
        rw [cons, ih]
        by_cases known : key ∈ keys rest
        · simp [keys] at known
          simp [keys, known]
        · simp [keys] at known
          simp [keys, known, other]

theorem not_mem_keys_of_find? {key : Text} {table : Table α} (missing : find? key table = none) :
    key ∉ table.keys := by
  induction table with
  | nil => simp [keys]
  | cons entry rest ih =>
      rw [find?] at missing
      split at missing
      · cases missing
      · rename_i other
        intro member
        rcases List.mem_cons.mp member with same | later
        · exact other same.symm
        · exact ih missing later

theorem insert_new {key : Text} (value : α) {table : Table α} (new : key ∉ table.keys) :
    insert key value table = table ++ [(key, value)] := by
  induction table with
  | nil => rfl
  | cons entry rest ih =>
      obtain ⟨k, a⟩ := entry
      have other : k ≠ key := fun same => new (same ▸ List.mem_cons_self)
      have later : key ∉ keys rest := fun known => new (.tail _ known)
      rw [insert, if_neg other, ih later]
      rfl

theorem keys_erase (key : Text) (table : Table α) :
    (erase key table).keys = table.keys.filter (· ≠ key) := by
  rw [keys, keys, erase, List.filter_map]
  rfl

theorem find?_erase (key other : Text) (table : Table α) :
    find? other (erase key table) = if key = other then none else find? other table := by
  induction table with
  | nil => simp [erase, find?]
  | cons entry rest ih =>
      obtain ⟨k, a⟩ := entry
      by_cases gone : k = key
      · have skipped : erase key ((k, a) :: rest) = erase key rest := by simp [erase, gone]
        rw [skipped, ih, find?]
        by_cases same : key = other
        · rw [if_pos same, if_pos same]
        · rw [if_neg same, if_neg same, if_neg (gone ▸ same)]
      · have kept : erase key ((k, a) :: rest) = (k, a) :: erase key rest := by
          simp [erase, gone]
        rw [kept, find?, find?, ih]
        by_cases here : k = other
        · rw [if_pos here, if_neg (here ▸ Ne.symm gone), if_pos here]
        · rw [if_neg here, if_neg here]

theorem has_iff_mem_keys (key : Text) (table : Table α) :
    has key table = true ↔ key ∈ table.keys := by
  induction table with
  | nil => simp [has, find?, keys]
  | cons entry rest ih =>
      obtain ⟨k, a⟩ := entry
      simp only [has, keys] at ih
      by_cases here : k = key
      · simp [has, find?, keys, here]
      · simp [has, find?, keys, here, Ne.symm here, ih]

end Table

/-! What edits say. -/

/-- A value is stored under a key, or a key is taken out. -/
inductive Edit where
  | stored (key : Text) (v : Value)
  | removed (key : Text)

namespace Edit

def key : Edit → Text
  | stored key _ => key
  | removed key => key

def value? : Edit → Option Value
  | stored _ v => some v
  | removed _ => none

/-- Whether a key is taken out. -/
def removes (key : Text) : Edit → Bool
  | stored _ _ => false
  | removed other => other == key

/-- The value last stored under a key, unless the key was taken out since then. -/
def latest? (key : Text) (edits : List Edit) : Option Value :=
  (edits.reverse.find? fun edit => edit.key == key).bind value?

/-- The keys in the order of their first insertion since they were last taken out. -/
def order : List Edit → List Text
  | [] => []
  | .removed _ :: rest => order rest
  | .stored key _ :: rest =>
      if rest.any (removes key) then order rest
      else key :: (order rest).filter (· ≠ key)

/-- What reading a key gives. -/
def held (key : Text) (edits : List Edit) : Value :=
  ((latest? key edits).bind Value.present?).getD .null

/-- A hash is changed by an edit. -/
def apply (table : Table Value) : Edit → Table Value
  | stored key v => Table.insert key v table
  | removed key => Table.erase key table

/-- The hash that edits lead to. -/
def replay (edits : List Edit) : Table Value := edits.foldl apply []

theorem replay_append (edits : List Edit) (edit : Edit) :
    replay (edits ++ [edit]) = apply (replay edits) edit := by
  rw [replay, List.foldl_append]
  rfl

theorem latest?_append (key : Text) (edits : List Edit) (edit : Edit) :
    latest? key (edits ++ [edit]) = if edit.key = key then edit.value? else latest? key edits := by
  rw [latest?, List.reverse_append, List.reverse_singleton, List.singleton_append, List.find?_cons]
  by_cases same : edit.key = key
  · rw [if_pos same, same, beq_self_eq_true]
    rfl
  · rw [if_neg same, beq_eq_false_iff_ne.mpr same]
    rfl

theorem order_stored (edits : List Edit) (key : Text) (v : Value) :
    order (edits ++ [.stored key v]) =
      if key ∈ order edits then order edits else order edits ++ [key] := by
  induction edits with
  | nil => rfl
  | cons edit rest ih =>
      cases edit with
      | removed other => exact ih
      | stored other w =>
          have still : (rest ++ [stored key v]).any (removes other) = rest.any (removes other) := by
            rw [List.any_append]
            exact Bool.or_false _
          rw [List.cons_append, order, order, still, ih]
          by_cases gone : rest.any (removes other) = true
          · rw [if_pos gone, if_pos gone]
          · rw [if_neg gone, if_neg gone]
            by_cases same : key = other
            · by_cases known : other ∈ order rest
              · simp [same, known]
              · simp [same, known, List.filter_append]
            · by_cases known : key ∈ order rest
              · simp [known, same]
              · simp [known, same, List.filter_append]

theorem order_removed (edits : List Edit) (key : Text) :
    order (edits ++ [.removed key]) = (order edits).filter (· ≠ key) := by
  induction edits with
  | nil => rfl
  | cons edit rest ih =>
      cases edit with
      | removed other => exact ih
      | stored other w =>
          rw [List.cons_append, order, order, List.any_append, ih]
          by_cases gone : rest.any (removes other) = true
          · rw [gone, Bool.true_or, if_pos rfl, if_pos rfl]
          · rw [Bool.eq_false_iff.mpr gone, Bool.false_or, if_neg Bool.false_ne_true]
            by_cases same : key = other
            · simp [removes, same, List.filter_filter]
            · simp [removes, same, Ne.symm same, List.filter_filter, Bool.and_comm]

theorem keys_replay (edits : List Edit) : (replay edits).keys = order edits := by
  induction edits using List.reverseRecOn with
  | nil => rfl
  | append_singleton edits edit ih =>
      rw [replay_append]
      cases edit with
      | stored key v => rw [apply, Table.keys_insert, order_stored, ih]
      | removed key => rw [apply, Table.keys_erase, order_removed, ih]

theorem find?_replay (key : Text) (edits : List Edit) :
    Table.find? key (replay edits) = latest? key edits := by
  induction edits using List.reverseRecOn with
  | nil => rfl
  | append_singleton edits edit ih =>
      rw [replay_append, latest?_append]
      cases edit with
      | stored other v =>
          rw [apply, Table.find?_insert, ih]
          rfl
      | removed other =>
          rw [apply, Table.find?_erase, ih]
          rfl

theorem nodup_order (edits : List Edit) : (order edits).Nodup := by
  rw [← keys_replay]
  induction edits using List.reverseRecOn with
  | nil => exact List.nodup_nil
  | append_singleton edits edit ih =>
      rw [replay_append]
      cases edit with
      | stored key v => exact Table.nodup_insert key v ih
      | removed key =>
          rw [apply, Table.keys_erase]
          exact ih.filter _

/-- Entries are stored one by one. -/
def storing (entries : List (Text × Value)) : List Edit :=
  entries.map fun entry => .stored entry.1 entry.2

theorem replay_storing {table : Table Value} (distinct : table.keys.Nodup) :
    replay (storing table) = table := by
  induction table using List.reverseRecOn with
  | nil => rfl
  | append_singleton table entry ih =>
      have keys : Table.keys (table ++ [entry]) = Table.keys table ++ [entry.1] := List.map_append
      rw [keys, List.nodup_append] at distinct
      have new : entry.1 ∉ Table.keys table := fun known =>
        distinct.2.2 _ known _ (List.mem_singleton_self _) rfl
      have edits : storing (table ++ [entry]) = storing table ++ [.stored entry.1 entry.2] :=
        List.map_append
      rw [edits, replay_append, ih distinct.1]
      exact Table.insert_new entry.2 new

end Edit

open Eval Edit

/-! What is done to a hash. -/

/-- The entries of a literal and what they were evaluated to. -/
inductive Evaluated (m : Machine) (scope : Nat) (methods : Bool) :
    List Entry → State → List (Text × Value) → State → Prop where
  | nil (s : State) : Evaluated m scope methods [] s [] s
  | cons {key : Text} {e : Expr} {rest : List Entry} {v : Value} {s t u : State}
      {values : List (Text × Value)} (first : m.eval e scope s = .ok v t)
      (others : Evaluated m scope methods rest t values u) :
      Evaluated m scope methods (⟨key, e⟩ :: rest) s
        ((key, if methods && e.isRef then v.asMethod else v) :: values) u

/-- The hash at a place of the heap has come to a state by edits. In between there may be
anything that leaves its entries alone, which are reads of it, but also whatever else a
program does; the machine says what nested expressions come to. -/
inductive Course (m : Machine) (ref : Nat) : List Edit → State → Prop where
  /-- A hash as it is found. -/
  | found {s : State} (there : ref < s.heap.hashes.size) (keyed : (s.heap.hash ref).keys.Nodup) :
      Course m ref (storing (s.heap.hash ref)) s
  /-- A hash that a literal has made; a key may be repeated in it. -/
  | literal {entries : List Entry} {scope : Nat} {loc : Location} {s t u : State}
      {values : List (Text × Value)} (evaluated : Evaluated m scope false entries s values t)
      (ran : evalExpr m (.hash entries loc) scope s = .ok (.hash ref) u) :
      Course m ref (storing values) u
  | new {entries : List Entry} {scope : Nat} {loc loc' : Location} {s t u : State}
      {values : List (Text × Value)} (evaluated : Evaluated m scope true entries s values t)
      (ran : evalExpr m (.new entries loc loc') scope s = .ok (.hash ref) u) :
      Course m ref (storing values) u
  | elsewhere {edits : List Edit} {t u : State} (before : Course m ref edits t)
      (there : ref < u.heap.hashes.size) (same : u.heap.hash ref = t.heap.hash ref) :
      Course m ref edits u
  /-- An assignment to a field, plain or compound. -/
  | field {edits : List Edit} {object value : Expr} {name : Text} {loc : Location} {op : AssignOp}
      {scope : Nat} {s s₁ t t' u : State} {v w : Value}
      (target : m.eval object scope s = .ok (.hash ref) s₁)
      (evaluated : m.eval value scope s₁ = .ok v t) (before : Course m ref edits t)
      (combined : assigned op (pure (held name edits)) v t = .ok w t')
      (ran : execAssign m (.field object name loc) op value scope s = .ok () u) :
      Course m ref (edits ++ [.stored name w]) u
  /-- An assignment to an entry, plain or compound, under the text of the index. -/
  | index {edits : List Edit} {object position value : Expr} {loc : Location} {op : AssignOp}
      {scope : Nat} {s s₁ s₂ t t' u : State} {x v w : Value} {key : Text}
      (target : m.eval object scope s = .ok (.hash ref) s₁)
      (indexed : m.eval position scope s₁ = .ok x s₂) (text : textOf x s₂ = .ok key s₂)
      (evaluated : m.eval value scope s₂ = .ok v t) (before : Course m ref edits t)
      (combined : assigned op (pure (held key edits)) v t = .ok w t')
      (ran : execAssign m (.index object position loc) op value scope s = .ok () u) :
      Course m ref (edits ++ [.stored key w]) u
  | removed {edits : List Edit} {t u : State} {x w : Value} {key : Text} {fuel : Nat}
      (before : Course m ref edits t) (text : textOf x t = .ok key t)
      (ran : Builtin.run fuel .remove [.hash ref, x] t = .ok w u) :
      Course m ref (edits ++ [.removed key]) u

/-! What hashes are. -/

variable {m : Machine} {ref : Nat} {edits : List Edit} {s t : State}

theorem replay_storing_eq (entries : List (Text × Value)) :
    replay (storing entries) = Table.ofEntries entries := by
  rw [replay, storing, List.foldl_map]
  rfl

theorem evalEntries_of_evaluated {scope : Nat} {methods : Bool} {entries : List Entry}
    {values : List (Text × Value)} (evaluated : Evaluated m scope methods entries s values t)
    (table : Table Value) :
    evalEntries m scope methods table entries s =
      .ok (values.foldl (fun table entry => Table.insert entry.1 entry.2 table) table) t := by
  induction evaluated generalizing table with
  | nil s => rfl
  | cons first others ih =>
      rw [evalEntries, bind_ok first]
      exact ih _

/-- A new hash is at the end of the heap, with the entries that it was given. -/
theorem newHash_eq_ok {entries : Table Value} (ran : newHash entries s = .ok (.hash ref) t) :
    ref < t.heap.hashes.size ∧ t.heap.hash ref = entries := by
  cases ran
  constructor
  · simp
  · exact (s.heap.hash_newHash entries _).trans (if_pos rfl)

section

variable (replayed : s.heap.hash ref = replay edits)
include replayed

theorem entry_replayed (key : Text) : entry ref key s = .ok (held key edits) s := by
  show EStateM.Result.ok _ s = _
  rw [Heap.entry?, replayed, find?_replay]
  rfl

theorem assigned_replayed (op : AssignOp) (key : Text) (v : Value) :
    assigned op (entry ref key) v s = assigned op (pure (held key edits)) v s := by
  unfold assigned
  cases op.binary? with
  | none => rfl
  | some op => exact bind_ok (entry_replayed replayed key)

/-- A value is stored once its operator has given it. -/
theorem stored_replayed {op : AssignOp} {key : Text} {v w : Value} {t' u : State}
    (there : ref < s.heap.hashes.size)
    (combined : assigned op (pure (held key edits)) v s = .ok w t')
    (ran : (assigned op (entry ref key) v >>= fun w => modifyHash ref (Table.insert key w)) s =
      .ok () u) :
    ref < u.heap.hashes.size ∧ u.heap.hash ref = replay (edits ++ [.stored key w]) := by
  have grows := (adds_assigned op (adds_pure (held key edits)) v).heap combined
  rw [bind_ok ((assigned_replayed replayed op key v).trans combined)] at ran
  have room := Nat.lt_of_lt_of_le there grows.hashes
  cases ran
  constructor
  · simpa [Heap.modifyHash] using room
  · rw [Heap.hash_modifyHash, if_pos ⟨rfl, room⟩, grows.hash ref there, replayed, replay_append]
    rfl

end

theorem execAssign_field {object value : Expr} {name : Text} {loc : Location} {op : AssignOp}
    {scope : Nat} {v : Value} {s₁ : State} (target : m.eval object scope s = .ok (.hash ref) s₁)
    (evaluated : m.eval value scope s₁ = .ok v t) :
    execAssign m (.field object name loc) op value scope s =
      (assigned op (entry ref name) v >>= fun w => modifyHash ref (Table.insert name w)) t := by
  rw [execAssign, bind_ok target]
  dsimp only
  rw [bind_ok evaluated]

theorem execAssign_index {object position value : Expr} {loc : Location} {op : AssignOp}
    {scope : Nat} {x v : Value} {key : Text} {s₁ s₂ : State}
    (target : m.eval object scope s = .ok (.hash ref) s₁)
    (indexed : m.eval position scope s₁ = .ok x s₂) (text : textOf x s₂ = .ok key s₂)
    (evaluated : m.eval value scope s₂ = .ok v t) :
    execAssign m (.index object position loc) op value scope s =
      (assigned op (entry ref key) v >>= fun w => modifyHash ref (Table.insert key w)) t := by
  rw [execAssign, bind_ok target, bind_ok indexed]
  dsimp only
  rw [bind_ok text, bind_ok evaluated]

theorem remove_run {fuel : Nat} {x : Value} {key : Text} (text : textOf x s = .ok key s) :
    Builtin.run fuel .remove [.hash ref, x] s =
      .ok ((s.heap.entry? ref key).getD .null)
        { s with heap := s.heap.modifyHash ref (Table.erase key) } := by
  show Builtin.removeFrom (.hash ref) x s = _
  rw [Builtin.removeFrom, bind_ok text]
  rfl

/-- A hash is as its edits say, at each point of its course. -/
theorem Course.replayed (course : Course m ref edits t) :
    ref < t.heap.hashes.size ∧ t.heap.hash ref = replay edits := by
  induction course with
  | found there keyed => exact ⟨there, (replay_storing keyed).symm⟩
  | literal evaluated ran =>
      rw [evalExpr, bind_ok (evalEntries_of_evaluated evaluated [])] at ran
      rw [replay_storing_eq]
      exact newHash_eq_ok ran
  | new evaluated ran =>
      rw [evalExpr, bind_ok (evalEntries_of_evaluated evaluated [])] at ran
      rw [replay_storing_eq]
      exact newHash_eq_ok ran
  | elsewhere before there same ih => exact ⟨there, same.trans ih.2⟩
  | field target evaluated before combined ran ih =>
      rw [execAssign_field target evaluated] at ran
      exact stored_replayed ih.2 ih.1 combined ran
  | index target indexed text evaluated before combined ran ih =>
      rw [execAssign_index target indexed text evaluated] at ran
      exact stored_replayed ih.2 ih.1 combined ran
  | removed before text ran ih =>
      rw [remove_run text] at ran
      cases ran
      constructor
      · simpa [Heap.modifyHash] using ih.1
      · rw [Heap.hash_modifyHash, if_pos ⟨rfl, ih.1⟩, ih.2, replay_append]
        rfl

/-! What is read of hashes. -/

/-- The line of an entry in the text of a hash. -/
def Edit.line? (inner : Value → Option Text) (key : Text) (v? : Option Value) : Option Text :=
  v?.bind fun v => (inner v).map fun text => key ++ ": " ++ text

/-- The lines of a hash's text, one for each key. -/
def Edit.lines? (inner : Value → Option Text) (edits : List Edit) : Option (List Text) :=
  (order edits).mapM fun key => line? inner key (latest? key edits)

theorem mapM_congr {α β : Type} {f g : α → Option β} {list : List α}
    (same : ∀ a ∈ list, f a = g a) : list.mapM f = list.mapM g := by
  induction list with
  | nil => rfl
  | cons a rest ih =>
      rw [List.mapM_cons, List.mapM_cons, same a (.head _),
        ih fun b later => same b (.tail _ later)]

/-- The lines of a table are those of its keys with what stands under them. -/
theorem entries?_eq_mapM (inner : Value → Option Text) {table : Table Value}
    (distinct : table.keys.Nodup) :
    Written.entries? inner table =
      table.keys.mapM fun key => line? inner key (Table.find? key table) := by
  induction table with
  | nil => rfl
  | cons entry rest ih =>
      obtain ⟨k, v⟩ := entry
      obtain ⟨fresh, distinct⟩ := List.nodup_cons.mp distinct
      have here : Table.find? k ((k, v) :: rest) = some v := if_pos rfl
      have others : ∀ key ∈ Table.keys rest,
          line? inner key (Table.find? key ((k, v) :: rest)) =
            line? inner key (Table.find? key rest) := by
        intro key later
        have apart : k ≠ key := fun same => fresh (same ▸ later)
        rw [Table.find?, if_neg apart]
      show _ = List.mapM _ (k :: Table.keys rest)
      rw [List.mapM_cons, mapM_congr others, ← ih distinct, here, Written.entries?, line?,
        Option.bind_some]
      cases inner v with
      | none => rfl
      | some text => rfl

section

variable (replayed : t.heap.hash ref = replay edits)
include replayed

theorem hash_replayed : hash ref t = .ok (replay edits) t := by
  rw [← replayed]
  rfl

theorem keysOf_replayed : Builtin.keysOf (.hash ref) t =
    newArray ((order edits).map fun key => some (.string key)).toArray t := by
  rw [Builtin.keysOf, bind_ok (hash_replayed replayed), keys_replay]

theorem countOf_replayed :
    Builtin.countOf (.hash ref) t = .ok (.ofNat (order edits).length) t := by
  rw [Builtin.countOf, bind_ok (hash_replayed replayed), ← keys_replay, Table.keys,
    List.length_map]
  rfl

theorem itemsOf_replayed : itemsOf (.hash ref) t = .ok ((order edits).map .string) t := by
  rw [itemsOf, bind_ok (hash_replayed replayed), keys_replay]
  rfl

theorem findIn_replayed {x : Value} {key : Text} (text : textOf x t = .ok key t) :
    Builtin.findIn (.hash ref) x t = .ok (.bool (key ∈ order edits)) t := by
  have known : Table.has key (replay edits) = decide (key ∈ order edits) := by
    rw [Bool.eq_iff_iff, Table.has_iff_mem_keys, keys_replay, decide_eq_true_iff]
  rw [Builtin.findIn, bind_ok text, bind_ok (hash_replayed replayed), known]
  rfl

theorem text_replayed : (Value.hash ref).text? t.heap =
    (lines? (Written.within t.heap t.heap.size [.hash ref]) edits).map fun lines =>
      "\x7b" ++ Text.join ", " lines ++ "\x7d" := by
  have distinct : (replay edits).keys.Nodup := keys_replay edits ▸ nodup_order edits
  have lines := entries?_eq_mapM (Written.within t.heap t.heap.size [.hash ref]) distinct
  rw [keys_replay] at lines
  simp only [find?_replay] at lines
  rw [text?_eq (Nat.le_succ _), lines?, ← lines]
  show Written.level t.heap (Written.within t.heap t.heap.size) [] (.hash ref) = _
  rw [Written.level, if_neg (List.not_mem_nil), replayed]
  cases Written.entries? (Written.within t.heap t.heap.size [.hash ref]) (replay edits) with
  | none => rfl
  | some lines => rfl

/-- What an operator has given can be stored. -/
theorem stores_replayed {op : AssignOp} {key : Text} {v w : Value} {t' : State}
    (combined : assigned op (pure (held key edits)) v t = .ok w t') :
    ∃ u, (assigned op (entry ref key) v >>= fun w => modifyHash ref (Table.insert key w)) t =
      .ok () u := by
  rw [bind_ok ((assigned_replayed replayed op key v).trans combined)]
  exact ⟨_, rfl⟩

end

/-- Everything that reads a hash agrees with what was done to it. -/
structure Agrees (m : Machine) (ref : Nat) (edits : List Edit) (t : State) : Prop where
  distinct : (order edits).Nodup
  keys : ∀ fuel, Builtin.run fuel .keys [.hash ref] t =
    newArray ((order edits).map fun key => some (.string key)).toArray t
  count : ∀ fuel, Builtin.run fuel .count [.hash ref] t = .ok (.ofNat (order edits).length) t
  loop : ∀ item subject body loc scope s, m.eval subject scope s = .ok (.hash ref) t →
    execStmt m (.forEach item subject body loc) scope s =
      execForEach m item body scope ((order edits).map .string) t
  text : (Value.hash ref).text? t.heap =
    (lines? (Written.within t.heap t.heap.size [.hash ref]) edits).map fun lines =>
      "\x7b" ++ Text.join ", " lines ++ "\x7d"
  find : ∀ fuel x key, textOf x t = .ok key t →
    Builtin.run fuel .find [.hash ref, x] t = .ok (.bool (key ∈ order edits)) t
  field : ∀ object name loc scope s, m.eval object scope s = .ok (.hash ref) t →
    evalExpr m (.field object name loc) scope s = .ok (held name edits) t
  index : ∀ object position loc scope s s₁ x key, m.eval object scope s = .ok (.hash ref) s₁ →
    m.eval position scope s₁ = .ok x t → textOf x t = .ok key t →
    evalExpr m (.index object position loc) scope s = .ok (held key edits) t
  /-- A key that is there keeps its place when it is stored under, a new one comes last. -/
  assignField : ∀ object value name loc op scope s s₁ v w t',
    m.eval object scope s = .ok (.hash ref) s₁ → m.eval value scope s₁ = .ok v t →
    assigned op (pure (held name edits)) v t = .ok w t' →
    ∃ u, execAssign m (.field object name loc) op value scope s = .ok () u ∧
      Course m ref (edits ++ [.stored name w]) u ∧
      order (edits ++ [.stored name w]) =
        if name ∈ order edits then order edits else order edits ++ [name]
  assignIndex : ∀ object position value loc op scope s s₁ s₂ x key v w t',
    m.eval object scope s = .ok (.hash ref) s₁ → m.eval position scope s₁ = .ok x s₂ →
    textOf x s₂ = .ok key s₂ → m.eval value scope s₂ = .ok v t →
    assigned op (pure (held key edits)) v t = .ok w t' →
    ∃ u, execAssign m (.index object position loc) op value scope s = .ok () u ∧
      Course m ref (edits ++ [.stored key w]) u ∧
      order (edits ++ [.stored key w]) =
        if key ∈ order edits then order edits else order edits ++ [key]
  remove : ∀ fuel x key, textOf x t = .ok key t →
    ∃ u, Builtin.run fuel .remove [.hash ref, x] t = .ok (held key edits) u ∧
      Course m ref (edits ++ [.removed key]) u ∧
      order (edits ++ [.removed key]) = (order edits).filter (· ≠ key)

theorem hash_is_ordered_map (course : Course m ref edits t) : Agrees m ref edits t := by
  obtain ⟨there, replayed⟩ := course.replayed
  constructor
  case distinct => exact nodup_order edits
  case keys => exact fun _ => keysOf_replayed replayed
  case count => exact fun _ => countOf_replayed replayed
  case loop =>
    intro item subject body loc scope s evaluated
    rw [execStmt, bind_ok evaluated, bind_ok (itemsOf_replayed replayed)]
  case text => exact text_replayed replayed
  case find => exact fun _ x key text => findIn_replayed replayed text
  case field =>
    intro object name loc scope s evaluated
    rw [evalExpr, bind_ok evaluated]
    exact entry_replayed replayed name
  case index =>
    intro object position loc scope s s₁ x key evaluated indexed text
    rw [evalExpr, bind_ok evaluated, bind_ok indexed, readIndex, bind_ok text]
    exact entry_replayed replayed key
  case assignField =>
    intro object value name loc op scope s s₁ v w t' target evaluated combined
    obtain ⟨u, ran⟩ := stores_replayed replayed combined
    rw [← execAssign_field target evaluated] at ran
    exact ⟨u, ran, .field target evaluated course combined ran, order_stored edits name w⟩
  case assignIndex =>
    intro object position value loc op scope s s₁ s₂ x key v w t' target indexed text evaluated
      combined
    obtain ⟨u, ran⟩ := stores_replayed replayed combined
    rw [← execAssign_index target indexed text evaluated] at ran
    exact ⟨u, ran, .index target indexed text evaluated course combined ran,
      order_stored edits key w⟩
  case remove =>
    intro fuel x key text
    have gives : (t.heap.entry? ref key).getD .null = held key edits := by
      rw [Heap.entry?, replayed, find?_replay]
      rfl
    have ran : Builtin.run fuel .remove [.hash ref, x] t = _ := remove_run text
    rw [gives] at ran
    exact ⟨_, ran, .removed course text ran, order_removed edits key⟩

/-- A literal that repeats a key. -/
def repeating : List Entry :=
  [⟨"a", .bool true ⟨1, 0⟩⟩, ⟨"b", .null ⟨1, 0⟩⟩, ⟨"a", .bool false ⟨1, 0⟩⟩]

theorem repeating_then_removed :
    ∃ u, Course (Machine.of Host.plain 1) 0
        [.stored "a" (.bool true), .stored "b" .null, .stored "a" (.bool false), .removed "a"] u ∧
      Builtin.run 0 .keys [.hash 0] u = newArray #[some (.string "b")] u := by
  have evaluated : Evaluated (Machine.of Host.plain 1) 0 false repeating (Interpreter.blankState [])
      [("a", .bool true), ("b", .null), ("a", .bool false)] (Interpreter.blankState []) :=
    .cons rfl (.cons rfl (.cons rfl (.nil _)))
  have ran : evalExpr (Machine.of Host.plain 1) (.hash repeating ⟨1, 0⟩) 0
      (Interpreter.blankState []) = .ok (.hash 0)
        { Interpreter.blankState [] with
          heap := ⟨#[], #[[("a", .bool false), ("b", .null)]]⟩ } := rfl
  have made := Course.literal evaluated ran
  obtain ⟨u, -, course, -⟩ := (hash_is_ordered_map made).remove 0 (.string "a") "a" rfl
  exact ⟨u, course, (hash_is_ordered_map course).keys 0⟩

end Loom
