import Loom.Host
import Loom.Proofs.AnyData
import Loom.Proofs.PropertyOrder

/-!
Lists of events read from plain data. Exactly the lists of events are read, and of any other
list every element that is no event is reported at its place.
-/

namespace Loom

theorem Text.ofNat_injective {m n : Nat} (same : Text.ofNat m = Text.ofNat n) : m = n := by
  rw [← Text.ofNat_spells m, same, Text.ofNat_spells]

namespace Verdict

variable {α β : Type}

theorem issues_map (f : α → β) (v : Verdict α) : (f <$> v).issues = v.issues := by
  show (Verdict.map f v).issues = v.issues
  cases v <;> rfl

/-- Of two parts both are told of. -/
theorem issues_both (f : Verdict (α → β)) (v : Verdict α) :
    (f <*> v).issues = f.issues ++ v.issues := by
  show (Verdict.both f v).issues = f.issues ++ v.issues
  cases f <;> cases v <;> simp [Verdict.both, issues]

theorem issues_collect (verdicts : List (Verdict α)) :
    (collect verdicts).issues = verdicts.flatMap issues := by
  induction verdicts with
  | nil => rfl
  | cons v rest ih => rw [collect, issues_both, issues_map, ih, List.flatMap_cons]

/-- What is wrong is told of, and what is told of lies at a path or below it. -/
structure ReportsAt (path : List Text) (v : Verdict α) : Prop where
  below : ∀ issue ∈ v.issues, path <+: issue.path
  told : v.issues = [] → v.isValid = true

theorem reportsAt_valid {path : List Text} {a : α} : (valid a).ReportsAt path :=
  ⟨by simp [issues], fun _ => rfl⟩

theorem reportsAt_aborted {path : List Text} {issue : Issue} (below : path <+: issue.path) :
    (aborted [issue] : Verdict α).ReportsAt path :=
  ⟨by simpa [issues] using below, by simp [issues]⟩

theorem reportsAt_dirty {path : List Text} {issue : Issue} (below : path <+: issue.path) :
    (dirty [issue] : Verdict α).ReportsAt path :=
  ⟨by simpa [issues] using below, by simp [issues]⟩

theorem ReportsAt.map {path : List Text} {v : Verdict α} (reports : v.ReportsAt path)
    (f : α → β) : (f <$> v).ReportsAt path := by
  show (Verdict.map f v).ReportsAt path
  cases v with
  | valid a => exact reportsAt_valid
  | _ => exact ⟨reports.below, reports.told⟩

theorem ReportsAt.both {path : List Text} {f : Verdict (α → β)} {v : Verdict α}
    (first : f.ReportsAt path) (second : v.ReportsAt path) : (f <*> v).ReportsAt path := by
  constructor
  · intro issue member
    rw [issues_both] at member
    exact (List.mem_append.mp member).elim (first.below issue) (second.below issue)
  · intro none
    obtain ⟨noneFirst, noneSecond⟩ := List.append_eq_nil_iff.mp (issues_both f v ▸ none)
    have valid := first.told noneFirst
    have valid' := second.told noneSecond
    cases f with
    | valid f =>
        cases v with
        | valid a => rfl
        | _ => cases valid'
    | _ => cases valid

theorem ReportsAt.within {path path' : List Text} {v : Verdict α} (reports : v.ReportsAt path')
    (below : path <+: path') : v.ReportsAt path :=
  ⟨fun issue member => below.trans (reports.below issue member), reports.told⟩

end Verdict

namespace Check

variable {α : Type} {path : List Text} {data : Json}

/-! What checks report. -/

/-- A check that reports what it finds wrong, at the place of the data or within it. -/
def Reports (check : Check α) : Prop := ∀ path data, (check path data).ReportsAt path

theorem reportsAt_wrongSort (path : List Text) (sort : DataSort) (data : Json) :
    (wrongSort path sort data : Verdict α).ReportsAt path :=
  Verdict.reportsAt_aborted (List.prefix_refl path)

theorem reports_filledText : Reports filledText := by
  intro path data
  cases data with
  | str t =>
      by_cases empty : t.isEmpty = true
      · simpa [filledText, empty] using Verdict.reportsAt_dirty (List.prefix_refl path)
      · simpa [filledText, empty] using Verdict.reportsAt_valid
  | _ => exact reportsAt_wrongSort path .string _

theorem Reports.object {check : Check α} (reports : Reports check) : Reports (object check) := by
  intro path data
  cases data with
  | obj fields => exact reports path _
  | _ => exact reportsAt_wrongSort path .object _

theorem Reports.field {check : Check α} (reports : Reports check) (key : Text) :
    Reports (field key check) := by
  intro path data
  have below : path <+: path ++ [key] := List.prefix_append path [key]
  cases found : data.field? key with
  | none => simpa [Check.field, found] using Verdict.reportsAt_aborted below
  | some value => simpa [Check.field, found] using (reports _ value).within below

theorem Reports.fieldOr {check : Check α} (reports : Reports check) (key : Text) (absent : α) :
    Reports (fieldOr key absent check) := by
  intro path data
  cases found : data.field? key with
  | none => simpa [Check.fieldOr, found] using Verdict.reportsAt_valid
  | some value =>
      simpa [Check.fieldOr, found] using (reports _ value).within (List.prefix_append path [key])

theorem reads_filledText (n : Nat) : Reads n filledText fun t data => data = .str t ∧ t ≠ [] := by
  intro path data t _
  cases data with
  | str u =>
      cases u with
      | nil =>
          simp only [filledText, List.isEmpty_nil, if_true, Json.str.injEq]
          constructor
          · exact nofun
          · rintro ⟨rfl, filled⟩
            exact absurd rfl filled
      | cons first rest =>
          simp only [filledText, List.isEmpty_cons, Bool.false_eq_true, if_false,
            Verdict.valid.injEq, Json.str.injEq]
          exact ⟨fun same => ⟨same, same ▸ List.cons_ne_nil first rest⟩, fun is => is.1⟩
  | _ => simp [filledText, wrongSort]

/-- A field that may be absent is absent, or as its check reads it. -/
theorem fieldOr_iff {n : Nat} {check : Check α} {describes : α → Json → Prop}
    (reads : Reads n check describes) {key : Text} {absent a : α} (shallow : data.depth ≤ n + 1) :
    fieldOr key absent check path data = .valid a ↔
      (data.field? key = none ∧ a = absent) ∨ data.Has key (describes a) := by
  have there : field key check path data = .valid a ↔ data.Has key (describes a) :=
    field_iff reads shallow
  rw [← there]
  cases found : data.field? key with
  | none => simp [fieldOr, field, found, eq_comm]
  | some value => simp [fieldOr, field, found]

theorem mem_eachFrom {check : Check α} (i : Nat) {items : List Json} {v : Verdict α} :
    v ∈ eachFrom check path i items ↔
      ∃ k item, items[k]? = some item ∧ v = check (path ++ [Text.ofNat (i + k)]) item := by
  induction items generalizing i with
  | nil => simp [eachFrom]
  | cons first rest ih =>
      rw [eachFrom, List.mem_cons, ih]
      constructor
      · rintro (rfl | ⟨k, item, found, rfl⟩)
        · exact ⟨0, first, rfl, rfl⟩
        · exact ⟨k + 1, item, found, by rw [Nat.add_right_comm, Nat.add_assoc]⟩
      · rintro ⟨k, item, found, rfl⟩
        cases k with
        | zero =>
            cases found
            exact .inl rfl
        | succ k => exact .inr ⟨k, item, found, by rw [Nat.add_right_comm, Nat.add_assoc]⟩

/-- What is told of a list is what is told of its items, each at its place. -/
theorem mem_issues_list {check : Check α} {items : List Json} {issue : Issue} :
    issue ∈ (list check path (.arr items)).issues ↔
      ∃ (i : Nat) (item : Json), items[i]? = some item ∧
        issue ∈ (check (path ++ [Text.ofNat i]) item).issues := by
  simp only [list, Verdict.issues_collect, List.mem_flatMap, mem_eachFrom, Nat.zero_add]
  constructor
  · rintro ⟨_, ⟨i, item, found, rfl⟩, told⟩
    exact ⟨i, item, found, told⟩
  · rintro ⟨i, item, found, told⟩
    exact ⟨_, ⟨i, item, found, rfl⟩, told⟩

end Check

namespace Json

def IsRecord (data : Json) : Prop := ∃ fields, data = .obj fields

/-- A record with a name that is a text of at least one character and, if it has a payload,
a record for it. -/
structure IsEvent (data : Json) : Prop where
  named : data.Has "name" fun name => ∃ t, name = .str t ∧ t ≠ []
  payload : ∀ given, data.field? "payload" = some given → given.IsRecord

def IsEventList (data : Json) : Prop := data.Lists fun items => ∀ item ∈ items, item.IsEvent

end Json

namespace HostEvent

/-- An event with the name and the payload of the data, but for the ancestor keys in it. -/
structure ReadFrom (event : HostEvent) (data : Json) : Prop where
  name : data.field? "name" = some (.str event.name)
  payload : event.payload = (data.field? "payload").map Json.withoutAncestors

/-- An event as plain data. -/
def toJson (event : HostEvent) : Json :=
  .obj (("name", .str event.name) :: event.payload.toList.map fun data => ("payload", data))

open Check

theorem payload_valid (path : List Text) (fields : List (Text × Json)) :
    HostEvent.payloadCheck path (.obj fields) = .valid (Json.obj fields).withoutAncestors := by
  have inner : record anyData path (.obj fields) = .valid (Json.withoutAncestorFields fields) := by
    rw [Json.withoutAncestorFields_eq]
    exact record_valid fun _ value _ path => anyData_valid path value
  exact as_valid inner

theorem reads_payloadCheck (n : Nat) :
    Reads n payloadCheck fun given data => data.IsRecord ∧ given = data.withoutAncestors := by
  intro path data given _
  cases data with
  | obj fields =>
      rw [payload_valid, Verdict.valid.injEq]
      exact ⟨fun same => ⟨⟨fields, rfl⟩, same.symm⟩, fun is => is.2.symm⟩
  | _ => simp [payloadCheck, as, Verdict.valid_map, record, wrongSort, Json.IsRecord]

theorem reports_payloadCheck : Reports payloadCheck := by
  intro path data
  cases data with
  | obj fields =>
      rw [payload_valid]
      exact Verdict.reportsAt_valid
  | _ => exact reportsAt_wrongSort path .object _

theorem reports_eventCheck : Reports eventCheck :=
  Reports.object fun path data =>
    (((reports_filledText.field "name") path data).map _).both
      (Reports.fieldOr (fun path data => (reports_payloadCheck path data).map _) "payload" none
        path data)

/-- The check finds an event exactly where the data is one, and finds what the data says. -/
theorem reads_eventCheck (n : Nat) :
    Reads n eventCheck fun event data => data.IsEvent ∧ event.ReadFrom data := by
  intro path data event _
  have payload : Reads data.depth (fun path data => some <$> payloadCheck path data)
      fun payload given => given.IsRecord ∧ payload = some given.withoutAncestors := by
    intro path given payload shallow
    rw [Verdict.valid_map]
    simp only [reads_payloadCheck data.depth path given _ shallow]
    constructor
    · rintro ⟨_, ⟨record, rfl⟩, rfl⟩
      exact ⟨record, rfl⟩
    · rintro ⟨record, rfl⟩
      exact ⟨_, ⟨record, rfl⟩, rfl⟩
  rw [eventCheck, object_iff, Verdict.valid_map₂]
  simp only [field_iff (reads_filledText data.depth) (Nat.le_succ _),
    fieldOr_iff payload (Nat.le_succ _)]
  constructor
  · rintro ⟨⟨t, given, ⟨_, name, rfl, filled⟩, found, rfl⟩, -⟩
    refine ⟨⟨⟨_, name, t, rfl, filled⟩, ?_⟩, name, ?_⟩
    · intro data' payload'
      rcases found with ⟨none, -⟩ | ⟨data'', payload'', record, -⟩
      · cases none.symm.trans payload'
      · cases payload''.symm.trans payload'
        exact record
    · rcases found with ⟨none, rfl⟩ | ⟨data', payload', -, rfl⟩
      · rw [none, Option.map_none]
      · rw [payload', Option.map_some]
  · rintro ⟨is, from_⟩
    obtain ⟨_, name, t, rfl, filled⟩ := is.named
    cases from_.name.symm.trans name
    refine ⟨⟨_, _, ⟨_, name, rfl, filled⟩, ?_, rfl⟩, is.named.isRecord⟩
    cases payload' : data.field? "payload" with
    | none => exact .inl ⟨rfl, by rw [from_.payload, payload', Option.map_none]⟩
    | some given =>
        refine .inr ⟨given, payload', is.payload given payload', ?_⟩
        rw [from_.payload, payload', Option.map_some]

theorem listOfJson_of_valid {data : Json} {events : List HostEvent}
    (valid : Check.list eventCheck [] data = .valid events) : listOfJson data = .ok events := by
  rw [listOfJson, valid]

/-- What is not read is refused with all that is told of it. -/
theorem listOfJson_of_invalid {data : Json}
    (invalid : (Check.list eventCheck [] data).isValid = false) :
    listOfJson data = .error (.invalidEvents (Check.list eventCheck [] data).issues) := by
  rw [listOfJson]
  cases verdict : Check.list eventCheck [] data with
  | valid events =>
      rw [verdict] at invalid
      cases invalid
  | _ => rfl

/-- Exactly the events that the elements of a list describe are read. -/
theorem listOfJson_eq_ok_iff (data : Json) (events : List HostEvent) :
    listOfJson data = .ok events ↔
      data.Lists (List.Forall₂ (fun event item => item.IsEvent ∧ event.ReadFrom item) events) := by
  have listed := (reads_eventCheck data.depth).list [] data events (Nat.le_refl _)
  refine Iff.trans ⟨fun read => ?_, listOfJson_of_valid⟩ listed
  cases verdict : Check.list eventCheck [] data with
  | valid events' =>
      rw [listOfJson_of_valid verdict] at read
      rw [Except.ok.inj read]
  | _ =>
      rw [listOfJson_of_invalid (by rw [verdict]; rfl)] at read
      cases read

/-- The event that data says, if it is one. -/
theorem exists_readFrom {data : Json} (is : data.IsEvent) :
    ∃ event : HostEvent, event.ReadFrom data := by
  obtain ⟨_, name, t, rfl, -⟩ := is.named
  exact ⟨⟨t, _⟩, name, rfl⟩

theorem exists_events {items : List Json} (each : ∀ item ∈ items, item.IsEvent) :
    ∃ events, List.Forall₂ (fun (event : HostEvent) item => item.IsEvent ∧ event.ReadFrom item)
      events items := by
  induction items with
  | nil => exact ⟨[], .nil⟩
  | cons item rest ih =>
      obtain ⟨event, read⟩ := exists_readFrom (each item (.head _))
      obtain ⟨events, others⟩ := ih fun item member => each item (.tail _ member)
      exact ⟨event :: events, .cons ⟨each item (.head _), read⟩ others⟩

/-- An event that was read is an event again, and the same one is read from it. -/
theorem ReadFrom.toJson {event : HostEvent} {data : Json} (is : data.IsEvent)
    (read : event.ReadFrom data) : event.toJson.IsEvent ∧ event.ReadFrom event.toJson := by
  obtain ⟨_, name, t, rfl, filled⟩ := is.named
  cases read.name.symm.trans name
  have own : event.toJson.field? "name" = some (.str event.name) := by
    rw [HostEvent.toJson, Json.field?, Table.find?, if_pos rfl]
  have own' : event.toJson.field? "payload" = event.payload := by
    rw [HostEvent.toJson, Json.field?, Table.find?, if_neg (by decide)]
    cases event.payload with
    | none => rfl
    | some given => exact if_pos rfl
  refine ⟨⟨⟨_, own, _, rfl, filled⟩, fun given found => ?_⟩, own, ?_⟩
  · rw [own', read.payload] at found
    obtain ⟨first, there, rfl⟩ := Option.map_eq_some_iff.mp found
    obtain ⟨fields, rfl⟩ := is.payload first there
    exact ⟨_, rfl⟩
  · rw [own', read.payload, Option.map_map]
    cases data.field? "payload" with
    | none => rfl
    | some given => exact congrArg some given.withoutAncestors_twice.symm

theorem issues_eventCheck (path : List Text) (data : Json) :
    (eventCheck path data).issues = [] ↔ data.IsEvent := by
  constructor
  · intro none
    have valid := (reports_eventCheck path data).told none
    cases verdict : eventCheck path data with
    | valid event =>
        exact ((reads_eventCheck data.depth path data event (Nat.le_refl _)).mp verdict).1
    | _ =>
        rw [verdict] at valid
        cases valid
  · intro is
    obtain ⟨event, read⟩ := exists_readFrom is
    rw [(reads_eventCheck data.depth path data event (Nat.le_refl _)).mpr ⟨is, read⟩]
    rfl

/-- The elements of a list at whose places something is told of are those that are no events. -/
theorem reported_iff {items : List Json} {i : Nat} {item : Json} (there : items[i]? = some item) :
    (∃ issue ∈ (Check.list eventCheck [] (.arr items)).issues, [Text.ofNat i] <+: issue.path) ↔
      ¬ item.IsEvent := by
  rw [← issues_eventCheck ([] ++ [Text.ofNat i])]
  constructor
  · rintro ⟨issue, told, place⟩ none
    obtain ⟨j, other, there', told⟩ := mem_issues_list.mp told
    have place' := (reports_eventCheck _ other).below issue told
    obtain rfl : i = j := by
      have same := List.prefix_of_prefix_length_le place place' (Nat.le_refl _)
      exact Text.ofNat_injective (List.cons.inj (same.eq_of_length rfl)).1
    cases there.symm.trans there'
    rw [none] at told
    cases told
  · intro some
    obtain ⟨issue, told⟩ := List.exists_mem_of_ne_nil _ some
    exact ⟨issue, mem_issues_list.mpr ⟨i, item, there, told⟩,
      (reports_eventCheck _ item).below issue told⟩

theorem read_iff (data : Json) : (∃ events, listOfJson data = .ok events) ↔ data.IsEventList := by
  constructor
  · rintro ⟨events, read⟩
    obtain ⟨items, rfl, described⟩ := (listOfJson_eq_ok_iff data events).mp read
    clear read
    refine ⟨items, rfl, ?_⟩
    induction described with
    | nil => exact nofun
    | cons first _ ih => exact List.forall_mem_cons.mpr ⟨first.1, ih⟩
  · rintro ⟨items, rfl, each⟩
    obtain ⟨events, described⟩ := exists_events each
    exact ⟨events, (listOfJson_eq_ok_iff _ events).mpr ⟨items, rfl, described⟩⟩

/-- Events that were read are read again from what they are as plain data. -/
theorem read_again {data : Json} {events : List HostEvent} (read : listOfJson data = .ok events) :
    listOfJson (.arr (events.map toJson)) = .ok events := by
  obtain ⟨items, rfl, described⟩ := (listOfJson_eq_ok_iff data events).mp read
  refine (listOfJson_eq_ok_iff _ events).mpr ⟨_, rfl, ?_⟩
  clear read
  induction described with
  | nil => exact .nil
  | cons first _ ih => exact .cons (first.2.toJson first.1) ih

/-- What is refused is refused with something that is wrong. -/
theorem refused {data : Json} (other : ¬ data.IsEventList) :
    listOfJson data = .error (.invalidEvents (Check.list eventCheck [] data).issues) ∧
      (Check.list eventCheck [] data).issues ≠ [] := by
  constructor
  · apply listOfJson_of_invalid
    cases verdict : Check.list eventCheck [] data with
    | valid events => exact absurd ((read_iff data).mp ⟨events, listOfJson_of_valid verdict⟩) other
    | _ => rfl
  · cases data with
    | arr items =>
        intro none
        refine other ⟨items, rfl, fun item member => ?_⟩
        obtain ⟨i, there⟩ := List.mem_iff_getElem?.mp member
        by_contra offends
        obtain ⟨issue, told, -⟩ := (reported_iff there).mpr offends
        rw [none] at told
        cases told
    | _ => exact List.cons_ne_nil _ _

/-- Exactly the lists of events are read. What is read lists the events of the data in their
order, each with its name and its payload, but for fields that events do not have and for the
ancestor keys in payloads, and it is read again as it is. Any other data is refused, and of a
list exactly the elements that are no events are reported. -/
theorem event_list_read_iff (data : Json) :
    ((∃ events, listOfJson data = .ok events) ↔ data.IsEventList) ∧
    (∀ events, listOfJson data = .ok events →
      data.Lists (List.Forall₂ ReadFrom events) ∧
        listOfJson (.arr (events.map toJson)) = .ok events) ∧
    (¬ data.IsEventList → ∃ issues, listOfJson data = .error (.invalidEvents issues) ∧
      issues ≠ [] ∧
      ∀ items, data = .arr items → ∀ (i : Nat) item, items[i]? = some item →
        ((∃ issue ∈ issues, [Text.ofNat i] <+: issue.path) ↔ ¬ item.IsEvent)) := by
  refine ⟨read_iff data, fun events read => ⟨?_, read_again read⟩, fun other => ?_⟩
  · obtain ⟨items, rfl, described⟩ := (listOfJson_eq_ok_iff data events).mp read
    exact ⟨items, rfl, described.imp fun _ _ both => both.2⟩
  · obtain ⟨refused, told⟩ := refused other
    refine ⟨_, refused, told, ?_⟩
    rintro items rfl i item there
    exact reported_iff there

/-- An event with a field too many and with an ancestor key in its payload. -/
def loosePage : Json :=
  .obj [("name", .str "page"), ("extra", .bool true),
    ("payload", .obj [("_page", .str "2"), ("__proto__", .null)])]

def nameless : Json := .obj [("payload", .obj [])]

theorem loose_page_read :
    let page : HostEvent := ⟨"page", some (.obj [("_page", .str "2")])⟩
    listOfJson (.arr [loosePage]) = .ok [page] ∧ listOfJson (.arr [page.toJson]) = .ok [page] ∧
      ∃ issues, listOfJson (.arr [loosePage, nameless]) = .error (.invalidEvents issues) ∧
        (∃ issue ∈ issues, [Text.ofNat 1] <+: issue.path) ∧
        ¬ ∃ issue ∈ issues, [Text.ofNat 0] <+: issue.path := by
  intro page
  have read : listOfJson (.arr [loosePage]) = .ok [page] := by rfl
  have event : loosePage.IsEvent := by
    refine ⟨⟨_, rfl, "page", rfl, by decide⟩, fun given found => ?_⟩
    cases found
    exact ⟨_, rfl⟩
  have other : ¬ nameless.IsEvent := by
    rintro ⟨⟨name, found, -⟩, -⟩
    cases found
  have no_list : ¬ (Json.arr [loosePage, nameless]).IsEventList := by
    rintro ⟨items, same, each⟩
    cases same
    exact other (each nameless (.tail _ (.head _)))
  obtain ⟨issues, refused, -, reported⟩ := (event_list_read_iff _).2.2 no_list
  refine ⟨read, ((event_list_read_iff _).2.1 _ read).2, issues, refused, ?_, ?_⟩
  · exact (reported _ rfl 1 nameless rfl).mpr other
  · exact fun told => (reported _ rfl 0 loosePage rfl).mp told event

end HostEvent

end Loom
