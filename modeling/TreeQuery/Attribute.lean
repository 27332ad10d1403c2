import TreeQuery.Text.Blank
import TreeQuery.Text.Lowercase

/-!
# Attribute conditions

A condition in square brackets compares the value of an attribute with an operand. With the flag for
ignoring case both are put into small letters first, each as a whole text.
-/

namespace TreeQuery

/-- How the value of an attribute is compared with the operand. -/
inductive Comparator where
  /-- Any value will do. -/
  | present
  /-- The value is the operand. -/
  | equals
  /-- The value starts with the operand. -/
  | startsWith
  /-- The value ends with the operand. -/
  | endsWith
  /-- The operand occurs in the value. -/
  | contains
  /-- The operand is one of the words of the value. -/
  | hasWord
  /-- The value is the operand, or the operand and a hyphen start it. -/
  | startsWithCode
  deriving DecidableEq, Repr, Inhabited

namespace Comparator

/-- The comparator of an equals sign with this character in front of it, if there is one. -/
def ofOperator? : Option Char → Option Comparator
  | none => some equals
  | some '^' => some startsWith
  | some '$' => some endsWith
  | some '*' => some contains
  | some '~' => some hasWord
  | some '|' => some startsWithCode
  | some _ => none

/-- The operator as written. -/
def text : Comparator → String
  | present => ""
  | equals => "="
  | startsWith => "^="
  | endsWith => "$="
  | contains => "*="
  | hasWord => "~="
  | startsWithCode => "|="

/-- The comparators for which an empty operand makes the condition impossible. -/
def isAnchored : Comparator → Bool
  | startsWith | endsWith | contains => true
  | _ => false

/-- Whether a text occurs in another. -/
def occursIn (part : List Char) : List Char → Bool
  | [] => part.isEmpty
  | c :: s => part.isPrefixOf (c :: s) || occursIn part s

/-- Whether the value is the code, or the code and a hyphen start it. -/
def isCodeOf (code value : List Char) : Bool :=
  code.isPrefixOf value && match value.drop code.length with
    | [] => true
    | c :: _ => c == '-'

/-- Whether the comparison holds. -/
def compare (comparator : Comparator) (value operand : List Char) : Bool :=
  match comparator with
  | present => true
  | equals => value == operand
  | startsWith => operand.isPrefixOf value
  | endsWith => operand.isSuffixOf value
  | contains => occursIn operand value
  | hasWord => (Text.words value).contains operand
  | startsWithCode => isCodeOf operand value

end Comparator

/-- A condition on one attribute. -/
structure AttributeTest where
  name : String
  comparator : Comparator
  operand : String
  ignoreCase : Bool
  deriving DecidableEq, Repr, Inhabited

namespace AttributeTest

/-- The condition that an attribute is there. -/
def present (name : String) : AttributeTest := ⟨name, .present, "", false⟩

/-- Whether a value of the attribute satisfies the condition. -/
def accepts (test : AttributeTest) (value : String) : Bool :=
  if test.ignoreCase then
    test.comparator.compare (Text.lowercase value).toList (Text.lowercase test.operand).toList
  else test.comparator.compare value.toList test.operand.toList

/-- A condition that the attribute equals its operand, with regard to case. -/
def isPlainEquality (test : AttributeTest) : Bool :=
  test.comparator == .equals && !test.ignoreCase

/-- A condition that no value satisfies, because its comparator needs a text to look for. -/
def isImpossible (test : AttributeTest) : Bool :=
  test.operand == "" && test.comparator.isAnchored

end AttributeTest
end TreeQuery
