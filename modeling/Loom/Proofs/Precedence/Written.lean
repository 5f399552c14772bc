import Loom.Grammar.Statement
import Loom.Proofs.Tiling

/-!
Expressions as they are written. An operand stands in parentheses if and only if it
binds less tightly than its place asks for; nothing else is put in parentheses.
-/

namespace Loom

/-- How tightly an operator binds; `&` binds least. -/
def BinaryOp.level : BinaryOp → Nat
  | concat => 0
  | or | xor => 1
  | and => 2
  | less | lessEqual | greater | greaterEqual | equal | notEqual => 4
  | add | subtract => 5
  | multiply | divide | remainder => 6

def UnaryOp.level : UnaryOp → Nat
  | not => 3
  | negate => 7

/-- How tightly the parts of an expression are held together. -/
def Expr.level : Expr → Nat
  | binary op _ _ _ => op.level
  | unary op _ _ => op.level
  | call _ _ _ | field _ _ _ | index _ _ _ => 8
  | _ => 9

def BinaryOp.lexeme : BinaryOp → Lexeme
  | add => .symbol .plus
  | subtract => .symbol .minus
  | multiply => .symbol .star
  | divide => .symbol .slash
  | remainder => .symbol .percent
  | less => .symbol .less
  | lessEqual => .symbol .lessEqual
  | greater => .symbol .greater
  | greaterEqual => .symbol .greaterEqual
  | equal => .symbol .equal
  | notEqual => .symbol .notEqual
  | and => .keyword .andKw
  | or => .keyword .orKw
  | xor => .keyword .xorKw
  | concat => .symbol .ampersand

def UnaryOp.lexeme : UnaryOp → Lexeme
  | not => .keyword .notKw
  | negate => .symbol .minus

def Expr.IsNumber : Expr → Prop
  | number _ _ => True
  | _ => False

/-- A lexeme that stands for a key of a hash: a word, a number, or a string without code. -/
def Lexeme.IsKey (key : Text) : Lexeme → Prop
  | ident name => name = key
  | keyword word => word.text = key
  | number digits => digits = key
  | string _ parts => Grammar.plainText? parts = some key
  | _ => False

/-- Lexemes at a place: in parentheses if the place asks for a higher level. -/
def Placed (level place : Nat) (bare : List Lexeme → Prop) (written : List Lexeme) : Prop :=
  if level < place then
    ∃ inner, bare inner ∧
      written = .symbol .openParen :: (inner ++ [.symbol .closeParen])
  else bare written

mutual

/-- What an expression is written as, if no parentheses are put around it. -/
def Expr.Bare : Expr → List Lexeme → Prop
  | .number value _ => fun written =>
      ∃ digits, Lexer.IsNumber digits ∧ Decimal.literalValue digits = value ∧
        written = [.number digits]
  | .bool value _ => fun written => written = [.keyword (if value then .trueKw else .falseKw)]
  | .null _ => fun written => written = [.keyword .nullKw]
  | .string segments _ => fun written =>
      ∃ (texts : List Text) (literal : Text), segments = texts.map Segment.text ∧
        written = [.string literal (texts.map StringPart.text)]
  | .ident name _ => fun written => written = [.ident name]
  | .array elements _ => fun written =>
      ∃ inner, Expr.AllBare elements inner ∧
        written = .symbol .openBracket :: (inner ++ [.symbol .closeBracket])
  | .hash entries _ => fun written =>
      ∃ inner, Entry.AllBare entries inner ∧
        written = .symbol .openBrace :: (inner ++ [.symbol .closeBrace])
  | .call callee args _ => fun written =>
      ∃ front inner, Placed callee.level 8 callee.Bare front ∧ Expr.AllBare args inner ∧
        written = front ++ .symbol .openParen :: (inner ++ [.symbol .closeParen])
  | .field object name _ => fun written =>
      ∃ front, Placed object.level 8 object.Bare front ∧
        written = front ++ [.symbol .dot, .ident name]
  | .index object position _ => fun written =>
      ∃ front inner, Placed object.level 8 object.Bare front ∧ position.Bare inner ∧
        written = front ++ .symbol .openBracket :: (inner ++ [.symbol .closeBracket])
  | .choice condition consequent alternate _ => fun written =>
      ∃ first second third, condition.Bare first ∧ consequent.Bare second ∧
        alternate.Bare third ∧
        written = .keyword .ifKw :: .symbol .openParen :: (first ++ .symbol .comma ::
          (second ++ .symbol .comma :: (third ++ [.symbol .closeParen])))
  | .unary op operand _ => fun written =>
      ∃ inner, Placed operand.level op.level operand.Bare inner ∧
        -- a minus over a number would be read as a part of it
        (op = .negate → ¬ operand.IsNumber) ∧ written = op.lexeme :: inner
  | .binary op left right _ => fun written =>
      ∃ front back, Placed left.level op.level left.Bare front ∧
        Placed right.level (op.level + 1) right.Bare back ∧
        written = front ++ op.lexeme :: back
  | .new _ _ _ | .ref _ _ _ | .lambda _ _ => fun _ => False

/-- Elements with commas between them. -/
def Expr.AllBare : List Expr → List Lexeme → Prop
  | [] => fun written => written = []
  | [e] => fun written => e.Bare written
  | e :: rest => fun written =>
      ∃ first others, e.Bare first ∧ Expr.AllBare rest others ∧
        written = first ++ .symbol .comma :: others

/-- Entries with commas between them. -/
def Entry.AllBare : List Entry → List Lexeme → Prop
  | [] => fun written => written = []
  | [⟨key, value⟩] => fun written =>
      ∃ name first, Lexeme.IsKey key name ∧ value.Bare first ∧
        written = name :: .symbol .colon :: first
  | ⟨key, value⟩ :: rest => fun written =>
      ∃ name first others, Lexeme.IsKey key name ∧ value.Bare first ∧
        Entry.AllBare rest others ∧
        written = name :: .symbol .colon :: (first ++ .symbol .comma :: others)

end

/-! Every tree without functions, references and code in strings is written in some way. -/

mutual

/-- Made of names, digits, constants, strings without code, operators, calls, accesses,
arrays, hashes and conditionals. -/
def Expr.IsPlain : Expr → Prop
  | .number value _ =>
      ∃ digits, Lexer.IsNumber digits ∧ Decimal.literalValue digits = value
  | .string segments _ => ∃ texts : List Text, segments = texts.map Segment.text
  | .bool _ _ | .null _ | .ident _ _ => True
  | .array elements _ => Expr.AllPlain elements
  | .hash entries _ => Entry.AllPlain entries
  | .call callee args _ => callee.IsPlain ∧ Expr.AllPlain args
  | .field object _ _ => object.IsPlain
  | .index object position _ => object.IsPlain ∧ position.IsPlain
  | .choice condition consequent alternate _ =>
      condition.IsPlain ∧ consequent.IsPlain ∧ alternate.IsPlain
  | .unary op operand _ => operand.IsPlain ∧ (op = .negate → ¬ operand.IsNumber)
  | .binary _ left right _ => left.IsPlain ∧ right.IsPlain
  | .new _ _ _ | .ref _ _ _ | .lambda _ _ => False

def Expr.AllPlain : List Expr → Prop
  | [] => True
  | e :: rest => e.IsPlain ∧ Expr.AllPlain rest

def Entry.AllPlain : List Entry → Prop
  | [] => True
  | ⟨_, value⟩ :: rest => value.IsPlain ∧ Entry.AllPlain rest

end

theorem exists_placed {level : Nat} (place : Nat) {bare : List Lexeme → Prop}
    (some : ∃ written, bare written) : ∃ written, Placed level place bare written := by
  obtain ⟨inner, is⟩ := some
  by_cases loose : level < place
  · exact ⟨.symbol .openParen :: (inner ++ [.symbol .closeParen]), by
      rw [Placed, if_pos loose]
      exact ⟨inner, is, rfl⟩⟩
  · exact ⟨inner, by rwa [Placed, if_neg loose]⟩

/-- A string token without code writes any key. -/
theorem isKey_string (key : Text) : Lexeme.IsKey key (.string [] [.text key]) := by
  simp [Lexeme.IsKey, Grammar.plainText?]

mutual

theorem Expr.exists_bare (e : Expr) (plain : e.IsPlain) : ∃ written, e.Bare written := by
  match e with
  | .number value _ =>
      simp only [Expr.IsPlain] at plain
      obtain ⟨digits, number, is⟩ := plain
      exact ⟨_, digits, number, is, rfl⟩
  | .string segments _ =>
      simp only [Expr.IsPlain] at plain
      obtain ⟨texts, is⟩ := plain
      exact ⟨_, texts, [], is, rfl⟩
  | .bool _ _ => exact ⟨_, rfl⟩
  | .null _ => exact ⟨_, rfl⟩
  | .ident _ _ => exact ⟨_, rfl⟩
  | .array elements _ =>
      simp only [Expr.IsPlain] at plain
      obtain ⟨inner, is⟩ := Expr.exists_allBare elements plain
      exact ⟨_, inner, is, rfl⟩
  | .hash entries _ =>
      simp only [Expr.IsPlain] at plain
      obtain ⟨inner, is⟩ := Entry.exists_allBare entries plain
      exact ⟨_, inner, is, rfl⟩
  | .call callee args _ =>
      simp only [Expr.IsPlain] at plain
      obtain ⟨front, called⟩ := exists_placed 8 (Expr.exists_bare callee plain.1)
      obtain ⟨inner, is⟩ := Expr.exists_allBare args plain.2
      exact ⟨_, front, inner, called, is, rfl⟩
  | .field object _ _ =>
      simp only [Expr.IsPlain] at plain
      obtain ⟨front, of⟩ := exists_placed 8 (Expr.exists_bare object plain)
      exact ⟨_, front, of, rfl⟩
  | .index object position _ =>
      simp only [Expr.IsPlain] at plain
      obtain ⟨front, of⟩ := exists_placed 8 (Expr.exists_bare object plain.1)
      obtain ⟨inner, at_⟩ := Expr.exists_bare position plain.2
      exact ⟨_, front, inner, of, at_, rfl⟩
  | .choice condition consequent alternate _ =>
      simp only [Expr.IsPlain] at plain
      obtain ⟨first, is⟩ := Expr.exists_bare condition plain.1
      obtain ⟨second, is'⟩ := Expr.exists_bare consequent plain.2.1
      obtain ⟨third, is''⟩ := Expr.exists_bare alternate plain.2.2
      exact ⟨_, first, second, third, is, is', is'', rfl⟩
  | .unary op operand _ =>
      simp only [Expr.IsPlain] at plain
      obtain ⟨inner, is⟩ := exists_placed op.level (Expr.exists_bare operand plain.1)
      exact ⟨_, inner, is, plain.2, rfl⟩
  | .binary op left right _ =>
      simp only [Expr.IsPlain] at plain
      obtain ⟨front, is⟩ := exists_placed op.level (Expr.exists_bare left plain.1)
      obtain ⟨back, is'⟩ := exists_placed (op.level + 1) (Expr.exists_bare right plain.2)
      exact ⟨_, front, back, is, is', rfl⟩
  | .new _ _ _ | .ref _ _ _ | .lambda _ _ =>
      simp only [Expr.IsPlain] at plain

theorem Expr.exists_allBare (list : List Expr) (plain : Expr.AllPlain list) :
    ∃ written, Expr.AllBare list written := by
  match list with
  | [] => exact ⟨[], rfl⟩
  | [e] =>
      simp only [Expr.AllPlain] at plain
      exact Expr.exists_bare e plain.1
  | e :: next :: rest =>
      simp only [Expr.AllPlain] at plain
      obtain ⟨first, is⟩ := Expr.exists_bare e plain.1
      obtain ⟨others, are⟩ := Expr.exists_allBare (next :: rest) (by
        simp only [Expr.AllPlain]
        exact plain.2)
      exact ⟨_, first, others, is, are, rfl⟩

theorem Entry.exists_allBare (list : List Entry) (plain : Entry.AllPlain list) :
    ∃ written, Entry.AllBare list written := by
  match list with
  | [] => exact ⟨[], rfl⟩
  | [⟨key, value⟩] =>
      simp only [Entry.AllPlain] at plain
      obtain ⟨first, is⟩ := Expr.exists_bare value plain.1
      exact ⟨_, .string [] [.text key], first, isKey_string key, is, rfl⟩
  | ⟨key, value⟩ :: next :: rest =>
      simp only [Entry.AllPlain] at plain
      obtain ⟨first, is⟩ := Expr.exists_bare value plain.1
      obtain ⟨others, are⟩ := Entry.exists_allBare (next :: rest) (by
        obtain ⟨name, other⟩ := next
        simp only [Entry.AllPlain]
        exact plain.2)
      exact ⟨_, .string [] [.text key], first, others, isKey_string key, is, are, rfl⟩

end

/-! What an expression begins with. -/

/-- Whether an expression of a level may begin with a lexeme: a prefix operator begins
no expression that binds more tightly than it does. -/
def Lexeme.begins (level : Nat) : Lexeme → Bool
  | number _ | string _ _ | ident _ => true
  | keyword .trueKw | keyword .falseKw | keyword .nullKw | keyword .ifKw => true
  | keyword .notKw => level ≤ 3
  | symbol .openParen | symbol .openBracket | symbol .openBrace => true
  | symbol .minus => level ≤ 7
  | _ => false

theorem Lexeme.begins_of_le {k j : Nat} {lexeme : Lexeme} (begins : lexeme.begins j = true)
    (le : k ≤ j) : lexeme.begins k = true := by
  unfold Lexeme.begins at begins ⊢
  split at begins <;> simp_all <;> omega

theorem begins_placed {level place : Nat} {bare : List Lexeme → Prop} {written : List Lexeme}
    (is : Placed level place bare written)
    (inside : ∀ inner, bare inner → ∃ first rest, inner = first :: rest ∧
      first.begins level = true) :
    ∃ first rest, written = first :: rest ∧ first.begins place = true := by
  unfold Placed at is
  split at is
  · obtain ⟨inner, _, rfl⟩ := is
    exact ⟨_, _, rfl, rfl⟩
  · rename_i tight
    obtain ⟨first, rest, rfl, begins⟩ := inside written is
    exact ⟨first, rest, rfl, Lexeme.begins_of_le begins (Nat.le_of_not_lt tight)⟩

theorem Expr.begins_bare (e : Expr) (written : List Lexeme) (is : e.Bare written) :
    ∃ first rest, written = first :: rest ∧ first.begins e.level = true := by
  match e with
  | .number _ _ =>
      obtain ⟨digits, _, _, rfl⟩ := is
      exact ⟨_, _, rfl, rfl⟩
  | .string _ _ =>
      obtain ⟨texts, literal, _, rfl⟩ := is
      exact ⟨_, _, rfl, rfl⟩
  | .bool value _ =>
      cases is
      exact ⟨_, _, rfl, by cases value <;> rfl⟩
  | .null _ | .ident _ _ =>
      cases is
      exact ⟨_, _, rfl, rfl⟩
  | .array _ _ | .hash _ _ =>
      obtain ⟨inner, _, rfl⟩ := is
      exact ⟨_, _, rfl, rfl⟩
  | .call callee args _ =>
      obtain ⟨front, inner, called, _, rfl⟩ := is
      obtain ⟨first, rest, rfl, begins⟩ := begins_placed called (Expr.begins_bare callee)
      exact ⟨_, _, rfl, begins⟩
  | .field object _ _ =>
      obtain ⟨front, of, rfl⟩ := is
      obtain ⟨first, rest, rfl, begins⟩ := begins_placed of (Expr.begins_bare object)
      exact ⟨_, _, rfl, begins⟩
  | .index object _ _ =>
      obtain ⟨front, inner, of, _, rfl⟩ := is
      obtain ⟨first, rest, rfl, begins⟩ := begins_placed of (Expr.begins_bare object)
      exact ⟨_, _, rfl, begins⟩
  | .choice _ _ _ _ =>
      obtain ⟨first, second, third, _, _, _, rfl⟩ := is
      exact ⟨_, _, rfl, rfl⟩
  | .unary op _ _ =>
      obtain ⟨inner, _, _, rfl⟩ := is
      exact ⟨_, _, rfl, by cases op <;> rfl⟩
  | .binary op left _ _ =>
      obtain ⟨front, back, is, _, rfl⟩ := is
      obtain ⟨first, rest, rfl, begins⟩ := begins_placed is (Expr.begins_bare left)
      exact ⟨_, _, rfl, begins⟩
  | .new _ _ _ | .ref _ _ _ | .lambda _ _ => cases is

end Loom
