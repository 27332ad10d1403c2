import TreeQuery.PseudoClass
import TreeQuery.Text.Ascii

/-!
# The registry of pseudo-class names

A registry says which names a selector may write after a colon, which pseudo-class each one stands
for and how its argument is read. The entries also carry what a prober of host evaluators needs.
-/

namespace TreeQuery

/-- How the text between the parentheses of a pseudo-class is read. -/
inductive ArgumentGrammar where
  /-- No parentheses. -/
  | none
  /-- A literal text. -/
  | text
  /-- A positional formula. -/
  | formula
  /-- A selector list. -/
  | nested
  /-- No parentheses; the argument is the rest of the part. -/
  | relative
  /-- A positional formula, counted over the rest of the part. -/
  | relativeFormula
  /-- An optional number of path segments. -/
  | linkDepth
  deriving DecidableEq, Repr, Inhabited

/-- What is known about one registered name. -/
structure Entry where
  pseudo : PseudoClass
  grammar : ArgumentGrammar
  /-- Whether the pseudo-class can list its candidates without a scan of the tree. -/
  hasGetter : Bool
  /-- Other names under which a host may know the pseudo-class. -/
  vendorNames : List String
  /-- Arguments for a prober to try, in increasing order of difficulty. -/
  testValues : List String
  /-- Markup for a prober to search. -/
  probeMarkup : Option String
  /-- The one element that a prober should find there. -/
  probeResult : Option String
  deriving DecidableEq, Repr, Inhabited

namespace Entry

/-- An entry without a getter and without anything for a prober. -/
def plain (pseudo : PseudoClass) (grammar : ArgumentGrammar) : Entry :=
  ⟨pseudo, grammar, false, [], [], none, none⟩

/-- The test values of the pseudo-classes with a formula. -/
def formulaTests : List String := ["2n+1"]

/-- The test values of the pseudo-classes with a selector list. -/
def nestedTests : List String := ["a", "a,a", "a a", ":not(a)"]

/-- The markup that shows whether a host takes hidden inputs for disabled. -/
def formMarkup : String := "<input type='hidden'>"

/-- The standard entry of a pseudo-class. -/
def standard (pseudo : PseudoClass) : Entry :=
  match pseudo with
  | .anyLink =>
    { plain pseudo .none with vendorNames := ["-moz-any-link", "-webkit-any-link"] }
  | .localLink => plain pseudo .linkDepth
  | .nthChild | .nthLastChild | .nthOfType | .nthLastOfType =>
    { plain pseudo .formula with testValues := formulaTests }
  | .firstMatch | .lastMatch | .onlyMatch => plain pseudo .relative
  | .nthMatch | .nthLastMatch => { plain pseudo .relativeFormula with testValues := formulaTests }
  | .disabled => { plain pseudo .none with probeMarkup := some formMarkup }
  | .enabled =>
    { plain pseudo .none with probeMarkup := some formMarkup, probeResult := some "input" }
  | .checked =>
    { plain pseudo .none with
      probeMarkup := some "<select><option selected></option></select>"
      probeResult := some "option" }
  | .focus | .target | .root => { plain pseudo .none with hasGetter := true }
  | .not => { plain pseudo .nested with testValues := nestedTests }
  | .matchesAny =>
    { plain pseudo .nested with
      hasGetter := true
      testValues := nestedTests
      vendorNames := ["-webkit-any", "-moz-any"] }
  | .lang => { plain pseudo .text with testValues := ["de"] }
  | .dir => { plain pseudo .text with testValues := ["ltr"] }
  | .firstChild | .lastChild | .onlyChild | .firstOfType | .lastOfType | .onlyOfType
  | .indeterminate | .empty => plain pseudo .none

end Entry

/-- The registered names with their entries; no name occurs twice. -/
structure Registry where
  entries : List (String × Entry)
  deriving DecidableEq, Repr, Inhabited

namespace Registry

/-- The registry without names. -/
def empty : Registry := ⟨[]⟩

/-- The registry of every pseudo-class under its standard name. -/
def standard : Registry := ⟨PseudoClass.all.map fun p => (p.name, Entry.standard p)⟩

/-- The entry of exactly this name. -/
def get? (r : Registry) (name : String) : Option Entry := r.entries.lookup name

/-- The entry that a selector means by a name: the one of exactly this name, else the one of the
name in small ASCII letters. -/
def lookup (r : Registry) (name : String) : Option Entry :=
  r.get? name <|> r.get? (Text.foldAscii name)

/-- Registers an entry under a name, in place of the entry that it had. -/
def insert (r : Registry) (name : String) (entry : Entry) : Registry :=
  ⟨(name, entry) :: r.entries.filter (·.1 != name)⟩

/-- The number of registered names. -/
def size (r : Registry) : Nat := r.entries.length

end Registry
end TreeQuery
