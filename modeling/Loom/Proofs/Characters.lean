import Loom.Proofs.Visiting

/-!
The characters of a text. There is one way only to cut a text into surrogate pairs and
single units so that no pair is cut in two. A loop over a string, its count and its index
all go by the pieces of that cut.
-/

namespace Loom

namespace Text

/-- A piece that may stand in front of a rest: a high and a low surrogate, or a unit that is
not the high one of a pair that the rest completes. -/
def IsCharacter (piece rest : Text) : Prop :=
  (∃ u v, piece = [u, v] ∧ isHigh u = true ∧ isLow v = true) ∨
    ∃ u, piece = [u] ∧ ¬ (isHigh u = true ∧ ∃ v, rest.head? = some v ∧ isLow v = true)

/-- A text cut into characters: nothing is lost, and each piece is one. -/
structure IsCut (t : Text) (pieces : List Text) : Prop where
  whole : pieces.flatten = t
  each : ∀ before piece after, pieces = before ++ piece :: after →
    piece.IsCharacter after.flatten

theorem isCut_nil : IsCut [] [] :=
  ⟨rfl, fun before _ _ same => by cases before <;> cases same⟩

theorem isCut_cons {t piece : Text} {pieces : List Text} :
    IsCut t (piece :: pieces) ↔
      ∃ rest, t = piece ++ rest ∧ piece.IsCharacter rest ∧ IsCut rest pieces := by
  constructor
  · intro cut
    refine ⟨pieces.flatten, cut.whole.symm, cut.each [] piece pieces rfl, rfl, ?_⟩
    intro before other after same
    exact cut.each (piece :: before) other after (by rw [same, List.cons_append])
  · rintro ⟨rest, rfl, character, cut⟩
    refine ⟨by rw [List.flatten_cons, cut.whole], fun before other after same => ?_⟩
    cases before with
    | nil =>
        cases same
        exact cut.whole ▸ character
    | cons first before =>
        obtain ⟨-, same⟩ := List.cons.inj same
        exact cut.each before other after same

theorem characters_append {piece rest : Text} (character : piece.IsCharacter rest) :
    characters (piece ++ rest) = piece :: characters rest := by
  rcases character with ⟨u, v, rfl, high, low⟩ | ⟨u, rfl, single⟩
  · simp [characters, high, low]
  · cases rest with
    | nil => rfl
    | cons v rest =>
        have apart : ¬ (isHigh u = true ∧ isLow v = true) :=
          fun pair => single ⟨pair.1, v, rfl, pair.2⟩
        simp [characters, apart]

theorem isCut_characters (t : Text) : IsCut t t.characters := by
  fun_induction characters t with
  | case1 => exact isCut_nil
  | case2 u => exact isCut_cons.mpr ⟨[], rfl, .inr ⟨u, rfl, by simp⟩, isCut_nil⟩
  | case3 u v rest pair ih =>
      obtain ⟨high, low⟩ := Bool.and_eq_true_iff.mp pair
      exact isCut_cons.mpr ⟨rest, rfl, .inl ⟨u, v, rfl, high, low⟩, ih⟩
  | case4 u v rest apart ih =>
      refine isCut_cons.mpr ⟨v :: rest, rfl, .inr ⟨u, rfl, ?_⟩, ih⟩
      rintro ⟨high, w, ⟨⟩, low⟩
      exact apart (Bool.and_eq_true_iff.mpr ⟨high, low⟩)

/-- A text can be cut into characters in one way only. -/
theorem IsCut.eq_characters {t : Text} {pieces : List Text} (cut : IsCut t pieces) :
    pieces = t.characters := by
  induction pieces generalizing t with
  | nil => rw [← cut.whole]; rfl
  | cons piece rest ih =>
      obtain ⟨rest', rfl, character, cut⟩ := isCut_cons.mp cut
      rw [characters_append character, ih cut]

end Text

open Eval

theorem readIndex_string (t : Text) (x : Float) (stamp : Nat) (s : State) :
    readIndex (.string t) (.number x stamp) s =
      .ok (((indexOf? x).bind fun i => t.characters[i]?).elim .null .string) s := by
  unfold readIndex
  simp only [expectNumber, pure_bind]
  cases (indexOf? x).bind fun i => t.characters[i]? <;> rfl

theorem indexOf?_eq_some_iff (x : Float) (i : Nat) :
    indexOf? x = some i ↔ wholeOf? x = some (i : Int) := by
  unfold indexOf?
  split
  · rename_i n whole
    rw [whole, Option.some.injEq, Option.some.injEq]
    exact Int.ofNat_inj.symm
  · rename_i other
    constructor
    · exact nofun
    · exact fun whole => absurd whole (other i)

theorem evalExpr_index {m : Machine} {object position : Expr} {loc : Location} {scope : Nat}
    {s u w : State} {v p : Value} (worked : m.eval object scope s = .ok v u)
    (worked' : m.eval position scope u = .ok p w) :
    evalExpr m (.index object position loc) scope s = readIndex v p w := by
  calc evalExpr m (.index object position loc) scope s
      = (m.eval position scope >>= readIndex v) u := bind_ok worked
    _ = readIndex v p w := bind_ok worked'

/-- All views of the characters of a string agree. There is exactly one way to cut a text into
surrogate pairs and other units, and its pieces are what a loop goes through, as many as the
count, and what the index gives at each position below the count; at any other number the index
gives null. -/
theorem character_views_agree (t : Text) :
    ∃ pieces : List Text, t.IsCut pieces ∧ (∀ other, t.IsCut other → other = pieces) ∧
      (∀ (m : Machine) owner method name (s : State),
        callValue m (.native ⟨.builtin .count, owner⟩ method) [.string t] name s =
          .ok (.ofNat pieces.length) s) ∧
      (∀ (m : Machine) name subject body loc scope (s u : State),
        m.eval subject scope s = .ok (.string t) u →
        let loop : ForEach := ⟨m, name, body, scope⟩
        let visits := loop.visits (pieces.map .string) u
        execStmt m (.forEach name subject body loc) scope s = loop.ended visits u ∧
          visits.map Visit.item <+: pieces.map .string ∧
          ((∀ p ∈ visits, ¬ EndsLoop (loop.result p)) →
            visits.map Visit.item = pieces.map .string)) ∧
      ∀ (m : Machine) object position loc scope (s u w : State) x stamp,
        m.eval object scope s = .ok (.string t) u →
        m.eval position scope u = .ok (.number x stamp) w →
        (∀ (i : Nat) (below : i < pieces.length), wholeOf? x = some (i : Int) →
          evalExpr m (.index object position loc) scope s = .ok (.string pieces[i]) w) ∧
        ((∀ i : Nat, i < pieces.length → wholeOf? x ≠ some (i : Int)) →
          evalExpr m (.index object position loc) scope s = .ok .null w) := by
  refine ⟨t.characters, t.isCut_characters, fun other cut => cut.eq_characters, ?_, ?_, ?_⟩
  · intro m owner method name s
    rfl
  · intro m name subject body loc scope s u worked loop visits
    refine ⟨?_, loop.visits_prefix _ u, ForEach.visits_all⟩
    calc execStmt m (.forEach name subject body loc) scope s
        = (itemsOf (.string t) >>= execForEach m name body scope) u := bind_ok worked
      _ = execForEach m name body scope (t.characters.map .string) u := rfl
      _ = loop.ended visits u := loop.execForEach_eq _ u
  · intro m object position loc scope s u w x stamp worked worked'
    rw [evalExpr_index worked worked', readIndex_string]
    constructor
    · intro i below whole
      rw [(indexOf?_eq_some_iff x i).mpr whole, Option.bind_some, List.getElem?_eq_getElem below]
      rfl
    · intro outside
      cases found : indexOf? x with
      | none => rfl
      | some i =>
          have whole := (indexOf?_eq_some_iff x i).mp found
          have beyond : t.characters.length ≤ i :=
            Nat.le_of_not_lt fun below => outside i below whole
          rw [Option.bind_some, List.getElem?_eq_none beyond]
          rfl

def mixedText : Text := [0x61, 0xD83D, 0xDE00, 0xDE00, 0xD83D]

def spelling : ForEach where
  machine := .of .plain 6
  name := "c"
  body := ⟨[.emit (.ident "c" .origin) none .origin], .origin⟩
  scope := 0

theorem mixed_text_viewed :
    let subject : Expr := .string [.text mixedText] .origin
    let at_ (x : Float) := evalExpr spelling.machine (.index subject (.number x .origin) .origin) 0
    mixedText.IsCut [[0x61], [0xD83D, 0xDE00], [0xDE00], [0xD83D]] ∧
      at_ 1 freshState = .ok (.string [0xD83D, 0xDE00]) freshState ∧
      at_ 4 freshState = .ok .null freshState ∧
      (spelling.visits (mixedText.characters.map .string) freshState).map Visit.item =
        ([[0x61], [0xD83D, 0xDE00], [0xDE00], [0xD83D]] : List Text).map .string := by
  intro subject at_
  obtain ⟨pieces, cut, -, -, loops, positions⟩ := character_views_agree mixedText
  obtain rfl : pieces = [[0x61], [0xD83D, 0xDE00], [0xDE00], [0xD83D]] := cut.eq_characters
  have worked : spelling.machine.eval subject 0 freshState = .ok (.string mixedText) freshState :=
    rfl
  have number (x : Float) (some : x.isNaN = false) :
      spelling.machine.eval (.number x .origin) 0 freshState = .ok (.number x 0) freshState := by
    show Eval.number x freshState = _
    simp only [Eval.number, some, Bool.false_eq_true, if_false, pure_run]
  refine ⟨cut, ?_, ?_, ?_⟩
  · exact (positions spelling.machine subject (.number 1 .origin) .origin 0 freshState freshState
      freshState 1 0 worked (number 1 (by decide +kernel))).1 1 (by decide) (by decide +kernel)
  · refine (positions spelling.machine subject (.number 4 .origin) .origin 0 freshState freshState
      freshState 4 0 worked (number 4 (by decide +kernel))).2 ?_
    intro i below whole
    have four : wholeOf? 4 = some (4 : Int) := by decide +kernel
    have same : (4 : Int) = i := Option.some.inj (four.symm.trans whole)
    have below : i < 4 := below
    omega
  · obtain ⟨-, inOrder, -⟩ :=
      loops spelling.machine "c" subject spelling.body .origin 0 freshState freshState worked
    have passes : (spelling.visits (mixedText.characters.map .string) freshState).length = 4 := by
      decide +kernel
    exact inOrder.eq_of_length (by rw [List.length_map]; exact passes)

end Loom
