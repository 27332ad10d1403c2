import TreeQuery.Text.Escape

/-!
# Identifiers

The names of elements, ids, classes, attributes and pseudo-classes. An identifier is kept as it is
written, because a host evaluator is handed the written form; what it names is the written form
with its escapes resolved.
-/

namespace TreeQuery

/-- A name as written, escapes included. -/
structure Ident where
  raw : String
  deriving DecidableEq, Repr, Inhabited

/-- The name that an identifier stands for. -/
def Ident.value (i : Ident) : String := String.ofList (Text.unescape i.raw.toList)

namespace Text

/-- The characters that an identifier may hold unescaped: ASCII letters and digits, the hyphen, the
underscore, and everything outside ASCII. -/
def isIdentChar (c : Char) : Bool := c.isAlphanum || c == '-' || c == '_' || 0x80 ≤ c.toNat

/-- Splits a text after its longest run of identifier characters and escapes. -/
def identSpan : List Char → List Char × List Char
  | [] => ([], [])
  | ['\\'] => ([], ['\\'])
  | '\\' :: c :: s => (identSpan s).map ('\\' :: c :: ·) id
  | c :: s => if isIdentChar c then (identSpan s).map (c :: ·) id else ([], c :: s)

/-- The two halves of the split make up the text. -/
theorem identSpan_append (s : List Char) : (identSpan s).1 ++ (identSpan s).2 = s := by
  fun_induction identSpan s <;> simp_all

/-- Reads an identifier, which has at least one character. -/
def ident? (s : List Char) : Option (Ident × List Char) :=
  match identSpan s with
  | ([], _) => none
  | (raw@(_ :: _), rest) => some (⟨String.ofList raw⟩, rest)

/-- Reading an identifier consumes something. -/
theorem length_ident?_lt {s rest : List Char} {i : Ident} (h : ident? s = some (i, rest)) :
    rest.length < s.length := by
  have happ := identSpan_append s
  unfold ident? at h
  split at h
  · simp at h
  · next c raw tail heq =>
    cases h
    rw [heq] at happ
    rw [← happ]
    simp only [List.cons_append, List.length_cons, List.length_append]
    omega

end Text
end TreeQuery
