import Mathlib.Data.List.Induction
import Loom.Command.Arguments
import Loom.Proofs.Held
import Loom.Proofs.PropertyOrder
import Loom.Proofs.Similarity

/-!
The options of a run. They are given in groups of one or two arguments. What is asked for
depends on the last group of each option only, so groups that set different things can
change places.
-/

namespace Loom

/-- The name of a variable in an assignment, which goes up to the first equals sign. -/
structure VarName where
  text : Text
  filled : text ≠ []
  plain : 0x3D ∉ text

/-- A file that is given by itself, and is not taken for an option. -/
structure BareFile where
  text : Text
  bare : text.head? ≠ some 0x2D

/-- A complete option of a run. -/
inductive OptionGroup where
  | code (brief : Bool) (t : Text)
  | events (path : Text)
  | var (name : VarName) (value : Text)
  | tree
  | file (bare : BareFile)

namespace OptionGroup

/-- How a group is given. What stands behind an option may be any text, also one that looks
like an option. -/
def arguments : OptionGroup → List Text
  | .code brief t => [if brief then "-e" else "--eval", t]
  | .events path => ["--events", path]
  | .var name value => ["--var", name.text ++ [0x3D] ++ value]
  | .tree => ["--ast"]
  | .file bare => [bare.text]

/-- What groups set: each option one thing, and `--var` one for each name. -/
inductive Slot where
  | code
  | events
  | var (name : Text)
  | tree
  | file
  deriving DecidableEq

def slot : OptionGroup → Slot
  | .code _ _ => .code
  | .events _ => .events
  | .var name _ => .var name.text
  | .tree => .tree
  | .file _ => .file

def code? : OptionGroup → Option Text
  | .code _ t => some t
  | _ => none

def events? : OptionGroup → Option Text
  | .events path => some path
  | _ => none

def file? : OptionGroup → Option Text
  | .file bare => some bare.text
  | _ => none

/-- The value that a group gives to a variable. -/
def value? (name : Text) : OptionGroup → Option Json
  | .var name' value => if name'.text = name then some (varValue value) else none
  | _ => none

/-- Settings as a group changes them. -/
def apply (settings : Settings) : OptionGroup → Settings
  | .code _ t => { settings with code := some t }
  | .events path => { settings with eventsFile := some path }
  | .var name value => settings.setVar name.text (varValue value)
  | .tree => { settings with tree := true }
  | .file bare => { settings with file := some bare.text }

end OptionGroup

namespace Command

open OptionGroup

/-- An assignment is cut at the first equals sign, whatever the value is. -/
theorem splitVar?_assignment (name : VarName) (value : Text) :
    splitVar? (name.text ++ [0x3D] ++ value) = some (name.text, value) := by
  have cut : (name.text ++ [0x3D] ++ value).takeWhile (· != 0x3D) = name.text := by
    rw [List.append_assoc, List.takeWhile_append_of_pos, List.singleton_append,
      List.takeWhile_cons_of_neg (by decide), List.append_nil]
    intro u member
    exact bne_iff_ne.mpr fun same => name.plain (same ▸ member)
  have filled : name.text.isEmpty = false := List.isEmpty_eq_false_iff.mpr name.filled
  have behind : (name.text ++ [0x3D] ++ value).drop name.text.length = 0x3D :: value := by
    rw [List.append_assoc, List.drop_left]
    rfl
  simp only [splitVar?, cut, behind, filled, Bool.false_eq_true, if_false]

/-- A bare file is none of the options. -/
theorem ofOptions_file (settings : Settings) (file : BareFile) (rest : List Text) :
    ofOptions settings (file.text :: rest) =
      if settings.file.isSome then .refused (.unexpectedArgument file.text)
      else ofOptions { settings with file := some file.text } rest := by
  have other {option : Text} (dash : option.head? = some 0x2D) : file.text ≠ option :=
    fun same => file.bare (same ▸ dash)
  rw [ofOptions.eq_def]
  simp only []
  rw [if_neg (not_or.mpr ⟨other rfl, other rfl⟩), if_neg (other rfl),
    if_neg (other rfl), if_neg (other rfl), if_neg file.bare]

/-- A group changes the settings, unless it is a second file. -/
theorem ofOptions_group (settings : Settings) (group : OptionGroup) (rest : List Text)
    (free : group.file? = none ∨ settings.file = none) :
    ofOptions settings (group.arguments ++ rest) = ofOptions (group.apply settings) rest := by
  cases group with
  | code brief t => cases brief <;> rfl
  | events path => rfl
  | var name value =>
      show ofOptions settings ("--var" :: (name.text ++ [0x3D] ++ value) :: rest) = _
      rw [ofOptions, if_neg (by decide), if_neg (by decide), if_pos rfl]
      simp only [splitVar?_assignment]
      rfl
  | tree =>
      show ofOptions settings ("--ast" :: rest) = _
      rw [ofOptions.eq_def]
      simp only []
      rw [if_neg (by decide), if_neg (by decide), if_neg (by decide), if_pos trivial]
      rfl
  | file bare =>
      have free : settings.file.isSome = false := by simpa [file?] using free
      exact (ofOptions_file settings bare rest).trans (by rw [free]; rfl)

end Command

namespace Settings

/-- Settings that a run accepts: a file or code but not both, and a file if it is a tree. -/
structure Consistent (settings : Settings) : Prop where
  one : settings.file.isSome = !settings.code.isSome
  tree : settings.tree = true → settings.file.isSome = true

theorem command_eq_run_iff (settings final : Settings) :
    settings.command = .run final ↔ settings = final ∧ settings.Consistent := by
  obtain ⟨file, code, tree, events, vars⟩ := settings
  constructor
  · intro run
    cases file <;> cases code <;> cases tree <;> cases run <;>
      exact ⟨rfl, rfl, by simp⟩
  · rintro ⟨rfl, one, ast⟩
    cases file <;> cases code <;> cases tree <;>
      first | rfl | exact absurd (ast rfl) Bool.false_ne_true | cases one

/-- Variables stand under their names once. -/
def Keyed (settings : Settings) : Prop := settings.vars.keys.Nodup

/-- Setting a variable changes the variables only. -/
theorem setVar_eq (settings : Settings) (name : Text) (value : Json) :
    settings.setVar name value = { settings with vars := (settings.setVar name value).vars } := by
  unfold setVar
  split <;> rfl

/-- Setting a variable changes no other one. -/
theorem find?_setVar {settings : Settings} (keyed : settings.Keyed) {name : Text}
    (ordinary : name ≠ Json.ancestorKey) (value : Json) (other : Text) :
    Table.find? other (settings.setVar name value).vars =
      if name = other then some value else Table.find? other settings.vars := by
  rw [setVar, if_neg ordinary]
  rw [Table.find?_perm (Table.nodup_insert name value keyed) (Json.propertyOrder_perm _).symm,
    Table.find?_insert]

theorem Keyed.setVar {settings : Settings} (keyed : settings.Keyed) (name : Text) (value : Json) :
    (settings.setVar name value).Keyed := by
  unfold Settings.setVar
  split
  · exact keyed
  · have reordered := Json.propertyOrder_perm (Table.insert name value settings.vars)
    exact (reordered.map Prod.fst).nodup_iff.mpr (Table.nodup_insert name value keyed)

end Settings

namespace OptionGroup

theorem keyed_apply {settings : Settings} (keyed : settings.Keyed) (group : OptionGroup) :
    (apply settings group).Keyed := by
  cases group with
  | var name value => exact keyed.setVar name.text (varValue value)
  | _ => exact keyed

/-! What groups set is what the last one of them says. -/

section Last

variable {α : Type} {tells : OptionGroup → Option α}

theorem view_foldl (view : Settings → Option α) {settings : Settings} (keyed : settings.Keyed)
    (groups : List OptionGroup) (step : ∀ settings, settings.Keyed → ∀ group,
      view (apply settings group) = (tells group).or (view settings)) :
    view (groups.foldl apply settings) =
      (groups.filterMap tells).getLast?.or (view settings) := by
  induction groups generalizing settings with
  | nil => rfl
  | cons group rest ih =>
      rw [List.foldl_cons, ih (keyed_apply keyed group), step settings keyed, ← Option.or_assoc]
      cases told : tells group with
      | none => rw [List.filterMap_cons_none told, Option.or_none]
      | some a =>
          rw [List.filterMap_cons_some told, List.getLast?_cons]
          cases (rest.filterMap tells).getLast? <;> rfl

/-- Groups of which one at most tells something can change places. -/
theorem filterMap_exchange (before after : List OptionGroup) {a b : OptionGroup}
    (silent : tells a = none ∨ tells b = none) :
    (before ++ b :: a :: after).filterMap tells = (before ++ a :: b :: after).filterMap tells := by
  rw [List.filterMap_append, List.filterMap_append]
  rcases silent with none | none <;>
    simp only [List.filterMap_cons, none]

/-- What only groups of one slot say, one of two groups of different slots does not. -/
theorem silent_of_apart {slot' : Slot} (only : ∀ group, tells group ≠ none → group.slot = slot')
    {a b : OptionGroup} (apart : a.slot ≠ b.slot) : tells a = none ∨ tells b = none := by
  by_contra both
  obtain ⟨left, right⟩ := not_or.mp both
  exact apart ((only a left).trans (only b right).symm)

end Last

theorem file?_slot (group : OptionGroup) (said : group.file? ≠ none) : group.slot = .file := by
  cases group with
  | file _ => rfl
  | _ => exact absurd rfl said

theorem code?_slot (group : OptionGroup) (said : group.code? ≠ none) : group.slot = .code := by
  cases group with
  | code _ _ => rfl
  | _ => exact absurd rfl said

theorem events?_slot (group : OptionGroup) (said : group.events? ≠ none) :
    group.slot = .events := by
  cases group with
  | events _ => rfl
  | _ => exact absurd rfl said

theorem value?_slot (name : Text) (group : OptionGroup) (said : group.value? name ≠ none) :
    group.slot = .var name := by
  cases group with
  | var name' value =>
      by_contra other
      exact said (if_neg fun same => other (congrArg Slot.var same))
  | _ => exact absurd rfl said

theorem file_apply (settings : Settings) (group : OptionGroup) :
    (apply settings group).file = group.file?.or settings.file := by
  cases group with
  | var name value => rw [apply, settings.setVar_eq]; rfl
  | _ => rfl

theorem code_apply (settings : Settings) (group : OptionGroup) :
    (apply settings group).code = group.code?.or settings.code := by
  cases group with
  | var name value => rw [apply, settings.setVar_eq]; rfl
  | _ => rfl

theorem eventsFile_apply (settings : Settings) (group : OptionGroup) :
    (apply settings group).eventsFile = group.events?.or settings.eventsFile := by
  cases group with
  | var name value => rw [apply, settings.setVar_eq]; rfl
  | _ => rfl

theorem tree_apply (settings : Settings) (group : OptionGroup) :
    (apply settings group).tree = true ↔ group = .tree ∨ settings.tree = true := by
  cases group with
  | var name value => rw [apply, settings.setVar_eq]; simp
  | _ => simp [apply]

theorem tree_foldl (settings : Settings) (groups : List OptionGroup) :
    (groups.foldl apply settings).tree = true ↔ .tree ∈ groups ∨ settings.tree = true := by
  induction groups generalizing settings with
  | nil => simp
  | cons group rest ih =>
      rw [List.foldl_cons, ih, tree_apply, List.mem_cons, eq_comm (a := group), or_assoc,
        or_left_comm]

theorem find?_apply {settings : Settings} (keyed : settings.Keyed) {name : Text}
    (ordinary : name ≠ Json.ancestorKey) (group : OptionGroup) :
    Table.find? name (apply settings group).vars =
      (group.value? name).or (Table.find? name settings.vars) := by
  cases group with
  | var name' value =>
      by_cases same : name'.text = name
      · rw [apply, Settings.find?_setVar keyed (same ▸ ordinary), value?, if_pos same, if_pos same,
          Option.some_or]
      · rw [value?, if_neg same, Option.none_or, apply]
        by_cases ancestor : name'.text = Json.ancestorKey
        · rw [Settings.setVar, if_pos ancestor]
        · rw [Settings.find?_setVar keyed ancestor, if_neg same]
  | _ => rfl

end OptionGroup

namespace Settings

open OptionGroup

/-- Settings that hold what the last group of each option says, and for each variable what the
last assignment to it says. The ancestor key is left out. -/
structure LastOf (settings : Settings) (groups : List OptionGroup) : Prop where
  file : settings.file = (groups.filterMap file?).getLast?
  code : settings.code = (groups.filterMap code?).getLast?
  events : settings.eventsFile = (groups.filterMap events?).getLast?
  tree : settings.tree = true ↔ .tree ∈ groups
  vars : ∀ name, name ≠ Json.ancestorKey →
    Table.find? name settings.vars = (groups.filterMap (value? name)).getLast?

/-- Settings that ask for the same run, whatever the order of their variables. -/
structure Agrees (settings other : Settings) : Prop where
  file : settings.file = other.file
  code : settings.code = other.code
  events : settings.eventsFile = other.eventsFile
  tree : settings.tree = other.tree
  vars : ∀ name, name ≠ Json.ancestorKey →
    Table.find? name settings.vars = Table.find? name other.vars

theorem keyed_initial : Settings.initial.Keyed := List.nodup_nil

theorem lastOf_foldl (groups : List OptionGroup) : (groups.foldl apply .initial).LastOf groups where
  file :=
    (view_foldl Settings.file keyed_initial groups fun s _ => file_apply s).trans Option.or_none
  code :=
    (view_foldl Settings.code keyed_initial groups fun s _ => code_apply s).trans Option.or_none
  events :=
    (view_foldl Settings.eventsFile keyed_initial groups fun s _ => eventsFile_apply s).trans
      Option.or_none
  tree := (tree_foldl .initial groups).trans (or_iff_left Bool.false_ne_true)
  vars := fun name ordinary =>
    (view_foldl (fun s => Table.find? name s.vars) keyed_initial groups
      fun _ keyed => find?_apply keyed ordinary).trans Option.or_none

/-- Two groups that set different things change places. -/
theorem LastOf.exchange {settings other : Settings} {before after : List OptionGroup}
    {a b : OptionGroup} (first : settings.LastOf (before ++ b :: a :: after))
    (second : other.LastOf (before ++ a :: b :: after)) (apart : a.slot ≠ b.slot) :
    settings.Agrees other where
  file := by
    rw [first.file, second.file, filterMap_exchange _ _ (silent_of_apart file?_slot apart)]
  code := by
    rw [first.code, second.code, filterMap_exchange _ _ (silent_of_apart code?_slot apart)]
  events := by
    rw [first.events, second.events, filterMap_exchange _ _ (silent_of_apart events?_slot apart)]
  tree := by
    have exchanged : (before ++ b :: a :: after).Perm (before ++ a :: b :: after) :=
      (List.Perm.swap a b after).append_left before
    rw [Bool.eq_iff_iff, first.tree, second.tree, exchanged.mem_iff]
  vars := fun name ordinary => by
    rw [first.vars name ordinary, second.vars name ordinary,
      filterMap_exchange _ _ (silent_of_apart (value?_slot name) apart)]

theorem Agrees.consistent {settings other : Settings} (agrees : settings.Agrees other)
    (consistent : other.Consistent) : settings.Consistent := by
  refine ⟨?_, fun tree => ?_⟩
  · rw [agrees.file, agrees.code, consistent.one]
  · rw [agrees.file, consistent.tree (agrees.tree ▸ tree)]

end Settings

namespace Command

open OptionGroup

/-- Groups are read one after the other. They make up a run exactly if there is one bare file
at most and what they come to is consistent. -/
theorem ofOptions_eq_run_iff (groups : List OptionGroup) (settings final : Settings) :
    ofOptions settings (groups.flatMap arguments) = .run final ↔
      settings.file.toList.length + (groups.filterMap file?).length ≤ 1 ∧
        groups.foldl apply settings = final ∧ (groups.foldl apply settings).Consistent := by
  induction groups generalizing settings with
  | nil =>
      have single : settings.file.toList.length ≤ 1 := by cases settings.file <;> simp
      rw [List.flatMap_nil, ofOptions, Settings.command_eq_run_iff]
      exact (and_iff_right single).symm
  | cons group rest ih =>
      rw [List.flatMap_cons, List.foldl_cons]
      cases named : group.file? with
      | none =>
          rw [ofOptions_group settings group _ (.inl named), ih, file_apply, named, Option.none_or,
            List.filterMap_cons_none named]
      | some path =>
          rw [List.filterMap_cons_some named, List.length_cons]
          cases taken : settings.file with
          | none =>
              rw [ofOptions_group settings group _ (.inr taken), ih, file_apply, named]
              simp only [Option.some_or, Option.toList_some, Option.toList_none, List.length_cons,
                List.length_nil, Nat.zero_add, Nat.add_comm]
          | some other =>
              cases group with
              | file bare =>
                  have refused : ofOptions settings (bare.text :: rest.flatMap arguments) =
                      .refused (.unexpectedArgument bare.text) := by
                    rw [ofOptions_file, taken]
                    rfl
                  constructor
                  · intro run
                    cases refused.symm.trans run
                  · rintro ⟨single, -⟩
                    exact absurd single (by simp)
              | _ => cases named

theorem ofArguments_run (args : List Text) :
    ofArguments ("run" :: args) = ofOptions .initial args := by
  rfl

/-- The options of a run come to what the last of each says, and not to both a file and code,
nor to neither, nor to a tree without a file. Neighbouring groups that set different things can
change places. -/
theorem run_of_groups (groups : List OptionGroup) (settings : Settings)
    (run : ofArguments ("run" :: groups.flatMap arguments) = .run settings) :
    settings.Consistent ∧ settings.LastOf groups ∧
      ∀ before a b after, groups = before ++ a :: b :: after → a.slot ≠ b.slot →
        ∃ settings', settings'.Agrees settings ∧
          ofArguments ("run" :: (before ++ b :: a :: after).flatMap arguments) =
            .run settings' := by
  rw [ofArguments_run, ofOptions_eq_run_iff] at run
  obtain ⟨single, rfl, consistent⟩ := run
  refine ⟨consistent, Settings.lastOf_foldl groups, ?_⟩
  rintro before a b after rfl apart
  have agrees := (Settings.lastOf_foldl (before ++ b :: a :: after)).exchange
    (Settings.lastOf_foldl (before ++ a :: b :: after)) apart
  refine ⟨_, agrees, ?_⟩
  rw [ofArguments_run, ofOptions_eq_run_iff,
    filterMap_exchange _ _ (silent_of_apart file?_slot apart)]
  exact ⟨single, rfl, agrees.consistent consistent⟩

def pageVar : VarName := ⟨"page", by decide, by decide⟩

def pageFile : BareFile := ⟨"page.json", by decide⟩

/-- The options of a tree that is run with a variable given twice. -/
def pageGroups : List OptionGroup :=
  [.var pageVar "first", .tree, .file pageFile, .var pageVar "--ast", .events "-e"]

theorem page_run_exchanged :
    ∃ settings settings',
      ofArguments ("run" :: pageGroups.flatMap arguments) = .run settings ∧
        settings.file = some "page.json" ∧ settings.code = none ∧
        settings.eventsFile = some "-e" ∧ settings.tree = true ∧
        Table.find? "page" settings.vars = some (.str "--ast") ∧
        ofArguments ["run", "--var", "page=first", "--ast", "--var", "page=--ast", "page.json",
          "--events", "-e"] = .run settings' ∧ settings'.Agrees settings := by
  have run : ofArguments ("run" :: pageGroups.flatMap arguments) =
      .run (pageGroups.foldl apply .initial) := by
    rw [ofArguments_run, ofOptions_eq_run_iff]
    exact ⟨by decide, rfl, rfl, fun _ => rfl⟩
  obtain ⟨-, last, exchanged⟩ := run_of_groups pageGroups _ run
  obtain ⟨settings', agrees, run'⟩ := exchanged [.var pageVar "first", .tree] (.file pageFile)
    (.var pageVar "--ast") [.events "-e"] rfl (by decide)
  refine ⟨_, settings', run, last.file, last.code, last.events, last.tree.mpr (.tail _ (.head _)),
    ?_, run', agrees⟩
  rw [last.vars "page" (by decide)]
  rfl

end Command

end Loom
