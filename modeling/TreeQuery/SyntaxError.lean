import TreeQuery.PseudoClass

/-!
# What can be wrong with a selector text

A text may break the rules, or ask too much: a counter of eight bits goes up with the conditions of a
part, and a text that would bring one of them to 256 has no reading at all.
-/

namespace TreeQuery

/-- Why a text is not a selector list. -/
inductive SyntaxCause where
  /-- A branch of the list is blank. -/
  | emptySelector
  /-- Nothing follows a combinator. -/
  | danglingCombinator
  | unexpectedCharacter (c : Char)
  | unexpectedEnd
  | invalidId
  | invalidClass
  | invalidAttribute
  | invalidPseudo
  /-- The name is not registered. -/
  | unknownPseudo (name : String)
  | missingArgument (pseudo : PseudoClass)
  | unexpectedArgument (pseudo : PseudoClass)
  | invalidFormula (text : String)
  | invalidLinkDepth (text : String)
  deriving DecidableEq, Repr, Inhabited

/-- The wording of each cause. -/
def SyntaxCause.message : SyntaxCause → String
  | emptySelector => "empty selector"
  | danglingCombinator => "dangling combinator"
  | unexpectedCharacter c => "unexpected character `" ++ c.toString ++ "`"
  | unexpectedEnd => "unexpected end of input"
  | invalidId => "invalid id"
  | invalidClass => "invalid class"
  | invalidAttribute => "invalid attribute"
  | invalidPseudo => "invalid pseudo"
  | unknownPseudo name => "unknown pseudo `:" ++ name ++ "`"
  | missingArgument pseudo => "missing argument for `:" ++ pseudo.name ++ "`"
  | unexpectedArgument pseudo => "unexpected argument for `:" ++ pseudo.name ++ "`"
  | invalidFormula text => "invalid nth value `" ++ text ++ "`"
  | invalidLinkDepth text => "invalid link depth `" ++ text ++ "`"

/-- The cause that stands in front of an unreadable text. -/
def SyntaxCause.atStartOf : List Char → SyntaxCause
  | [] => unexpectedEnd
  | c :: _ => unexpectedCharacter c

/-- Why reading fails. -/
inductive ReadError (α : Type) where
  /-- The text is not a selector list. -/
  | malformed (cause : α)
  /-- A part has more conditions than a counter of eight bits can count. -/
  | overflow
  deriving DecidableEq, Repr

/-- Changes the cause. -/
def ReadError.map {α β : Type} (f : α → β) : ReadError α → ReadError β
  | malformed cause => malformed (f cause)
  | overflow => overflow

/-- A text that is not a selector list, with the whole text. -/
structure SyntaxError where
  cause : SyntaxCause
  selector : String
  deriving DecidableEq, Repr, Inhabited

/-- The wording of the error. -/
def SyntaxError.message (e : SyntaxError) : String :=
  e.cause.message ++ " in selector `" ++ e.selector ++ "`"

end TreeQuery
