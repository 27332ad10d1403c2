import TreeQuery.Text.Ascii

/-!
# Language codes
-/

namespace TreeQuery

/-- Whether a language code is the wanted one or one of its subtags, without regard to the case of
ASCII letters. -/
def isLanguage (wanted code : String) : Bool :=
  match Text.dropLetters? wanted.toList code.toList with
  | none => false
  | some [] => true
  | some (c :: _) => c == '-'

end TreeQuery
