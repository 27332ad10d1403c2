import TreeQuery.Profile
import TreeQuery.Selector

/-!
# Selectors for a host evaluator

A host evaluator is handed a selector as text. The text leaves out every condition that the profile
does not grant, and a selector that lost one in this way is not fully supported: what the host finds
for it must be tested again.

Conditions with a selector list as argument come in five tiers: one plain part, several branches,
branches with combinators, lists inside lists, and lists that the host cannot evaluate.
-/

namespace TreeQuery

namespace Selector

/-- Whether some part has a pseudo-class with a selector list as argument. -/
def nestsLists (selector : Selector) : Bool :=
  selector.parts.any fun part => part.pseudos.any (·.pseudo.isSelfReferential)

/-- The tier of a list that the host can evaluate. -/
def listTier (list : List Selector) : UInt8 :=
  if list.any nestsLists then 4
  else if list.any (1 < ·.parts.length) then 3
  else if 1 < list.length then 2
  else 1

end Selector

mutual

/-- The tier that a host must reach to evaluate a pseudo-class with this argument. -/
def Argument.tier (p : Profile) : Argument → UInt8
  | .nested list =>
    if list.isEmpty || !Selector.allSupported p list then 5 else Selector.listTier list
  | _ => 1

/-- Whether the host evaluates the pseudo-class. -/
def PseudoClause.isSupported (p : Profile) : PseudoClause → Bool
  | ⟨pseudo, _, _, argument⟩ => argument.tier p ≤ p.tier pseudo

/-- Whether the host evaluates the condition. -/
def Clause.isSupported (p : Profile) : Clause → Bool
  | .id _ => true
  | .hasClass _ => true
  | .attribute _ _ _ ignoreCase => !ignoreCase || p.ignoresCase
  | .pseudo clause => clause.isSupported p

/-- Whether the host evaluates all these conditions. -/
def Clause.allSupported (p : Profile) : List Clause → Bool
  | [] => true
  | clause :: rest => clause.isSupported p && Clause.allSupported p rest

/-- Whether the host evaluates a containment. -/
def Selector.isSupportedWithin (p : Profile) : Option Selector → Bool
  | none => true
  | some inner => p.marksSubject && inner.isSupported p

/-- Whether the host evaluates the conditions and the containment of the part. -/
def Part.isSupported (p : Profile) : Part → Bool
  | ⟨_, _, _, clauses, containment⟩ =>
    Clause.allSupported p clauses && Selector.isSupportedWithin p containment

/-- Whether the host evaluates all these parts. -/
def Part.allSupported (p : Profile) : List Part → Bool
  | [] => true
  | part :: rest => part.isSupported p && Part.allSupported p rest

/-- Whether the host evaluates the whole selector. A leading combinator relates to the scope, of
which a host text knows nothing. -/
def Selector.isSupported (p : Profile) : Selector → Bool
  | ⟨parts⟩ => !(parts.head?.any (·.combinator.isSome)) && Part.allSupported p parts

/-- Whether the host evaluates all these selectors. -/
def Selector.allSupported (p : Profile) : List Selector → Bool
  | [] => true
  | selector :: rest => selector.isSupported p && Selector.allSupported p rest

end

/-- A list of conditions is supported when each of them is. -/
theorem Clause.allSupported_eq_all (p : Profile) (clauses : List Clause) :
    Clause.allSupported p clauses = clauses.all (·.isSupported p) := by
  induction clauses with
  | nil => rfl
  | cons clause rest ih => rw [Clause.allSupported, ih, List.all_cons]

/-- A chain of parts is supported when each of them is. -/
theorem Part.allSupported_eq_all (p : Profile) (parts : List Part) :
    Part.allSupported p parts = parts.all (·.isSupported p) := by
  induction parts with
  | nil => rfl
  | cons part rest ih => rw [Part.allSupported, ih, List.all_cons]

/-- A list of selectors is supported when each of them is. -/
theorem Selector.allSupported_eq_all (p : Profile) (list : List Selector) :
    Selector.allSupported p list = list.all (·.isSupported p) := by
  induction list with
  | nil => rfl
  | cons selector rest ih => rw [Selector.allSupported, ih, List.all_cons]

/-! ## The text for the host -/

/-- The text of a condition, empty when the host does not evaluate it. -/
def Clause.native (p : Profile) : Clause → String
  | .id name => "#" ++ name.raw
  | .hasClass name => "." ++ name.raw
  | clause@(.attribute name comparator operand ignoreCase) =>
    if clause.isSupported p then
      let comparison :=
        if comparator == .present then ""
        else comparator.text ++ String.ofList (Text.quote operand.toList)
          ++ if ignoreCase then " i" else ""
      "[" ++ name.raw ++ comparison ++ "]"
    else ""
  | .pseudo clause =>
    if clause.isSupported p then
      ":" ++ p.hostName clause.pseudo
        ++ (clause.written.map fun text => "(" ++ text ++ ")").getD ""
    else ""

/-- The text of a part without its combinator and containment. -/
def Part.nativeHead (p : Profile) (part : Part) : String :=
  (if part.subject && p.marksSubject then "$" else "")
    ++ (part.tag.map (·.raw)).getD "*"
    ++ String.join (part.clauses.map (·.native p))

/-- The text of the combinator of a part. -/
def Part.nativeLink (part : Part) : String := (part.combinator.map (·.text)).getD ""

mutual

/-- The text of a containment, empty when the host does not evaluate it. -/
def Selector.nativeWithin (p : Profile) : Option Selector → String
  | none => ""
  | some inner => if p.marksSubject && inner.isSupported p then " " ++ inner.native p else ""

/-- The text of a part without its combinator. -/
def Part.native (p : Profile) : Part → String
  | ⟨combinator, subject, tag, clauses, containment⟩ =>
    Part.nativeHead p ⟨combinator, subject, tag, clauses, none⟩
      ++ Selector.nativeWithin p containment

/-- The text of parts that follow another. -/
def Part.nativeRest (p : Profile) : List Part → String
  | [] => ""
  | part :: rest => part.nativeLink ++ part.native p ++ Part.nativeRest p rest

/-- The text of a selector for the host. -/
def Selector.native (p : Profile) : Selector → String
  | ⟨[]⟩ => ""
  | ⟨part :: rest⟩ => part.native p ++ Part.nativeRest p rest

end

/-! ## The choice between the host and the tree -/

/-- Whether the pseudo-class lists the candidates for its part: it can do so, and the host does not
evaluate it. -/
def PseudoClause.listsCandidates (p : Profile) (clause : PseudoClause) : Bool :=
  clause.hasGetter && !clause.isSupported p

/-- Whether the condition lists the candidates for its part. -/
def Clause.listsCandidates (p : Profile) (clause : Clause) : Bool :=
  clause.pseudo?.any (·.listsCandidates p)

namespace Part

/-- The pseudo-class that lists the candidates for the part, the last one if there are several. -/
def getter? (p : Profile) (part : Part) : Option PseudoClause :=
  (part.pseudos.filter (·.listsCandidates p)).getLast?

/-- How many conditions of the part a lookup in the tree could serve: the name counts, and so do all
classes together if the tree can list the elements of given classes. -/
def directLookups (p : Profile) (part : Part) : Nat :=
  part.tag.toList.length + part.clauses.countP Clause.isLookup
    + (!part.classes.isEmpty && p.classLookup).toNat

/-- Whether the host serves the part better than any lookup. -/
def prefersNative (p : Profile) (part : Part) : Bool :=
  part.clauses.any (fun clause => clause.attribute?.isSome && clause.searchName?.isNone)
    || part.pseudos.any (·.isSupported p)
    || (!part.classes.isEmpty && !p.classLookup)

end Part

/-- Whether the host is asked before the tree: not for a single part that one lookup serves, and not
where a pseudo-class lists the candidates. -/
def Selector.usesNative (p : Profile) (selector : Selector) : Bool :=
  let lookupServes := match selector.parts with
    | [part] => !part.prefersNative p && part.directLookups p < 2
    | _ => false
  let getterServes := selector.lastPart?.any fun part => (part.getter? p).isSome
  !(lookupServes || getterServes)

end TreeQuery
