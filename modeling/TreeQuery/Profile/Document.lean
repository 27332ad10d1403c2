import TreeQuery.Json.Reader
import TreeQuery.Profile

/-!
# Profiles as documents

A capability profile is kept in a document of JSON. Fields that are not given take the values of the
manual profile, and members that are no fields are passed over.
-/

namespace TreeQuery

open Json

namespace PseudoSupport

/-- Reads the support of one pseudo-class. The tier must be given. -/
def ofJson? (json : Json) : Option PseudoSupport := do
  match ← json.record? ["tier", "name"] with
  | [some tier, name] => do
    let tier ← tier.natBelow? 256
    let name ← fieldOr none (orNull text?) name
    some ⟨UInt8.ofNat tier, name⟩
  | _ => none

/-- Writes the support of one pseudo-class. -/
def write (support : PseudoSupport) : String :=
  let name := match support.name with
    | none => ""
    | some name => ",\"name\":" ++ quote name
  "\x7b\"tier\":" ++ toString support.tier ++ name ++ "\x7d"

end PseudoSupport

namespace Profile

/-- Reads the supported pseudo-classes. A pseudo-class may be given twice, and the last one
counts. -/
def supportOfJson? (json : Json) : Option (List (PseudoClass × PseudoSupport)) := do
  let members ← json.members?
  let supports ← members.mapM fun m => do
    let pseudo ← PseudoClass.ofName? m.1
    let support ← PseudoSupport.ofJson? m.2
    some (pseudo, support)
  some (supports.foldl (fun p s => p.withSupport s.1 s.2) manual).pseudoSupport

/-- The names of the fields, in their order. -/
def fields : List String :=
  ["pseudo_support", "attribute_case_insensitive", "native_evaluator", "class_lookup",
    "wildcard_includes_non_elements", "containment_target"]

/-- Reads a profile. -/
def ofJson? (json : Json) : Option Profile := do
  match ← json.record? fields with
  | [support, ignoresCase, hasEvaluator, classLookup, wildcardListsAll, marksSubject] => do
    let support ← fieldOr manual.pseudoSupport supportOfJson? support
    let ignoresCase ← fieldOr manual.ignoresCase bool? ignoresCase
    let hasEvaluator ← fieldOr manual.hasEvaluator bool? hasEvaluator
    let classLookup ← fieldOr manual.classLookup bool? classLookup
    let wildcardListsAll ← fieldOr manual.wildcardListsAll bool? wildcardListsAll
    let marksSubject ← fieldOr manual.marksSubject bool? marksSubject
    some ⟨support, ignoresCase, hasEvaluator, classLookup, wildcardListsAll, marksSubject⟩
  | _ => none

/-- Reads a profile from a document. -/
def read? (document : String) : Option Profile := (Json.read? document).bind ofJson?

/-- Writes a profile as a document. -/
def write (p : Profile) : String :=
  let supports := p.pseudoSupport.map fun s => quote s.1.name ++ ":" ++ s.2.write
  let values := ["\x7b" ++ ",".intercalate supports ++ "\x7d", toString p.ignoresCase,
    toString p.hasEvaluator, toString p.classLookup, toString p.wildcardListsAll,
    toString p.marksSubject]
  let members := (fields.zip values).map fun m => quote m.1 ++ ":" ++ m.2
  "\x7b" ++ ",".intercalate members ++ "\x7d"

end Profile
end TreeQuery
