import TreeQuery.Profile
import TreeQuery.Selector

/-!
# Compiled selectors

A selector can be stored together with everything that a profile says about it: the text for the host,
what of it the host supports, and how its parts are looked up. Here the conditions of a part are sorted by
kind, and the lookups that could serve it are counted in eight bits.
-/

namespace TreeQuery
namespace Compiled

mutual

/-- The argument of a pseudo-class. -/
inductive Argument where
  | none
  | text (text : String)
  | formula (formula : Formula)
  | nested (list : List Branch)
  /-- The part that like siblings satisfy, with an optional formula. -/
  | relative (formula : Option Formula) (shape : Part)
  | linkDepth (depth : Option Nat)

/-- A pseudo-class with its argument, and the tier that a host must reach to evaluate it. -/
structure Pseudo where
  pseudo : PseudoClass
  tier : UInt8
  argument : Argument

/-- A pseudo-class that lists the candidates for its part. -/
structure Getter where
  pseudo : PseudoClass
  argument : Argument

/-- The conditions on one element, sorted by kind, and how to look such an element up. -/
structure Part where
  combinator : Option Combinator
  subject : Bool
  tag : Option String
  id : Option String
  classes : List String
  attributes : List AttributeTest
  pseudos : List Pseudo
  containment : Option Branch
  searchName : Option String
  getter : Option Getter
  directLookups : UInt8
  prefersNative : Bool

/-- A chain of parts with its text for the host. -/
structure Branch where
  parts : List Part
  native : String
  fullSupport : Bool
  usesNative : Bool
  idPosition : Option Nat

end

/-- A condition as it stands in the text. -/
inductive Clause where
  | id (name : Ident)
  | hasClass (name : Ident)
  | attribute (name : Ident) (comparator : Comparator) (operand : String) (ignoreCase : Bool)
  | pseudo (hasGetter : Bool) (written : Option String) (pseudo : Pseudo)

/-- The part without conditions. -/
def Part.empty : Part := ⟨none, false, none, none, [], [], [], none, none, none, 0, false⟩

instance : Inhabited Part := ⟨.empty⟩
instance : Inhabited Branch := ⟨⟨[], "", true, false, none⟩⟩

/-- Whether the host evaluates the pseudo-class with its argument. -/
def Pseudo.isSupported (p : Profile) (pseudo : Pseudo) : Bool := pseudo.tier ≤ p.tier pseudo.pseudo

/-! ## Shapes -/

/-- What like siblings satisfy: the part without the pseudo-classes that compare with them. -/
def Part.shape (part : Part) : Part :=
  { part with
    combinator := none
    subject := false
    pseudos := part.pseudos.filter (!·.pseudo.isRelative)
    getter := none }

/-- Puts a shape into the argument of a pseudo-class that compares with like siblings. -/
def Pseudo.attach (shape : Part) : Pseudo → Pseudo
  | ⟨pseudo, tier, .relative formula old⟩ =>
    ⟨pseudo, tier, .relative formula (if pseudo.isRelative then shape else old)⟩
  | pseudo => pseudo

/-- Puts the shape of the part into all its pseudo-classes that compare with like siblings. -/
def Part.attachShapes (part : Part) : Part :=
  { part with pseudos := part.pseudos.map (·.attach part.shape) }

/-! ## Lookups -/

/-- Counts one more lookup, if the counter does not overflow. -/
def Part.count? (part : Part) : Option Part :=
  if part.directLookups = 255 then none
  else some { part with directLookups := part.directLookups + 1 }

/-- Counts the classes of the part as one lookup if the tree has an index of them. Else the host serves
them better. -/
def Part.countClasses? (p : Profile) (part : Part) : Option Part :=
  if part.classes.isEmpty then some part
  else if p.classLookup then part.count?
  else some { part with prefersNative := true }

/-- Whether the host is asked for a chain of parts before the tree: not for a single part that one lookup
serves, and not where a pseudo-class lists the candidates. -/
def Part.useNative (parts : List Part) : Bool :=
  let lookupServes := match parts with
    | [part] => !part.prefersNative && part.directLookups < 2
    | _ => false
  let getterServes := parts.getLast?.any (·.getter.isSome)
  !(lookupServes || getterServes)

/-- Whether some part has a pseudo-class with a selector list as argument. -/
def Branch.nestsLists (branch : Branch) : Bool :=
  branch.parts.any fun part => part.pseudos.any (·.pseudo.isSelfReferential)

/-- The tier that a host must reach to evaluate a list as an argument. -/
def listTier (list : List Branch) : UInt8 :=
  if list.isEmpty || !list.all (·.fullSupport) then 5
  else if list.any (·.nestsLists) then 4
  else if list.any (1 < ·.parts.length) then 3
  else if 1 < list.length then 2
  else 1

end Compiled
end TreeQuery
