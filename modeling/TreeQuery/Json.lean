/-!
# Structured documents

The values of JSON as they are written: the members of an object keep their order and their repeats,
a number keeps its digits, and a string may hold escapes that no text has.
-/

namespace TreeQuery

/-- A value of JSON as written. -/
inductive Json where
  | null
  | bool (b : Bool)
  /-- The number with its sign, fraction and exponent. -/
  | number (written : String)
  /-- The text of the string; nothing when an escaped surrogate stands alone in it. -/
  | string (text : Option String)
  | array (elements : List Json)
  /-- The members in order; a key without a text is like a string without one. -/
  | object (members : List (Option String × Json))

namespace Json

instance : Inhabited Json := ⟨.null⟩

/-- The truth value, if it is one. -/
def bool? : Json → Option Bool
  | bool b => some b
  | _ => none

/-- The text, if it is a string that has one. -/
def text? : Json → Option String
  | string text => text
  | _ => none

/-- What `read` makes of the value, and nothing for null. -/
def orNull {α : Type} (read : Json → Option α) : Json → Option (Option α)
  | null => some none
  | json => (read json).map some

/-- The members of an object whose keys all have a text. -/
def members? : Json → Option (List (String × Json))
  | object members => members.mapM fun m => m.1.map (·, m.2)
  | _ => none

/-- The values of the named fields of a record, each if it is given. A record is an object, where no
field may be given twice and other members do not count, or an array of the first fields. -/
def record? (names : List String) : Json → Option (List (Option Json))
  | array elements =>
    if elements.length ≤ names.length then
      some (elements.map some ++ List.replicate (names.length - elements.length) none)
    else none
  | json => do
    let members ← json.members?
    names.mapM fun name => match members.filter (·.1 == name) with
      | [] => some none
      | [member] => some (some member.2)
      | _ => none

/-- A field that takes a default value when it is not given. -/
def fieldOr {α : Type} (default : α) (read : Json → Option α) : Option Json → Option α
  | none => some default
  | some json => read json

end Json
end TreeQuery
