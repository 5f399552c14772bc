import Loom.Text

/-!
What can be wrong with data that ought to have a given shape, and where in it.
-/

namespace Loom

inductive DataSort where
  | null | boolean | number | string | array | object
  deriving DecidableEq, Repr

def DataSort.text : DataSort → Text
  | null => "null"
  | boolean => "boolean"
  | number => "number"
  | string => "string"
  | array => "array"
  | object => "object"

inductive Mismatch where
  | required
  | wrongSort (expected received : DataSort)
  | notWhole
  | below (least : Nat)
  | tooFewItems
  | tooShort
  | infinite
  | wrongTag (expected : Text)
  | invalidIdentifier
  | invalidInput
  deriving DecidableEq, Repr

def Mismatch.message : Mismatch → Text
  | required => "Required"
  | wrongSort expected received => "Expected " ++ expected.text ++ ", received " ++ received.text
  | notWhole => "Expected integer, received float"
  | below least => "Number must be greater than or equal to " ++ Text.ofNat least
  | tooFewItems => "Array must contain at least 1 element(s)"
  | tooShort => "String must contain at least 1 character(s)"
  | infinite => "Number must be finite"
  | wrongTag expected => "Invalid literal value, expected \"" ++ expected ++ "\""
  | invalidIdentifier => "invalid identifier"
  | invalidInput => "Invalid input"

/-- The path leads to the place from the outside; steps into a list are written as numbers. -/
structure Issue where
  path : List Text
  mismatch : Mismatch
  deriving DecidableEq, Repr

def Issue.place (issue : Issue) : Text :=
  if issue.path.isEmpty then "<root>" else Text.join "." issue.path

end Loom
