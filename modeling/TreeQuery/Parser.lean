import TreeQuery.Profile
import TreeQuery.Registry

/-!
# Parsers

What a selector text is read with: the names that it may use, and the profile of the host. The profile
never changes what is read. It decides whether the classes of a part count as a lookup, and so which
texts have too many of them.
-/

namespace TreeQuery

/-- What a selector text is read with. -/
structure Parser where
  registry : Registry
  profile : Profile
  deriving DecidableEq, Repr

/-- The parser with the standard names, for a host without an evaluator. -/
def Parser.standard : Parser := ⟨.standard, .manual⟩

end TreeQuery
