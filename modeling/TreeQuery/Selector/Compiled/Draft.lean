import TreeQuery.Selector.Compiled

/-!
# Drafts of compiled selectors

While a branch is read, its compiled form is put together piece by piece: every condition adds its text
for the host, or takes full support from the branch, and changes the part that it stands in. A draft
holds the state in between. A piece whose lookup can no longer be counted is not taken.
-/

namespace TreeQuery.Compiled

/-! ## Pieces of parts -/

/-- The part of a name, without conditions. -/
def Part.named (combinator : Option Combinator) (subject : Bool) (tag : Option Ident) : Part :=
  { Part.empty with
    combinator
    subject
    tag := tag.map (·.value)
    directLookups := if tag.isSome then 1 else 0 }

/-- Adds the id to the part. -/
def Part.addId? (part : Part) (name : Ident) : Option Part :=
  { part with id := some name.value }.count?

/-- Adds an attribute condition to the part. A plain one for the attribute `name` can be looked up. -/
def Part.addTest? (part : Part) (test : AttributeTest) : Option Part :=
  let part := { part with attributes := part.attributes ++ [test] }
  if test.isPlainEquality && test.name == "name" then
    { part with searchName := some test.operand }.count?
  else some { part with prefersNative := true }

/-- Adds a pseudo-class to the part. One that the host does not evaluate may list the candidates. -/
def Part.addPseudo (p : Profile) (part : Part) (hasGetter : Bool) (pseudo : Pseudo) : Part :=
  let part :=
    if pseudo.isSupported p then { part with prefersNative := true }
    else if hasGetter then { part with getter := some ⟨pseudo.pseudo, pseudo.argument⟩ }
    else part
  { part with pseudos := part.pseudos ++ [pseudo] }

/-! ## Drafts -/

/-- A branch as far as it is read: the finished parts, the part that is being read, and what is known of
the branch so far. -/
structure Draft where
  parts : List Part
  part : Part
  native : String
  fullSupport : Bool
  idPosition : Option Nat

namespace Draft

/-- Nothing is read yet. -/
def start : Draft := ⟨[], .empty, "", true, none⟩

/-- Adds a text for the host if the host understands it, and else takes full support from the branch. -/
def tell (d : Draft) (understood : Bool) (text : String) : Draft :=
  if understood then { d with native := d.native ++ text } else { d with fullSupport := false }

/-- Begins a part with its combinator, its mark and its name. A leading combinator relates to the scope,
of which a host text knows nothing. -/
def begin (p : Profile) (combinator : Option Combinator) (subject : Bool) (tag : Option Ident)
    (d : Draft) : Draft :=
  let link := if d.parts.isEmpty then "" else (combinator.map (·.text)).getD ""
  let mark := if subject && p.marksSubject then "$" else ""
  { d with
    native := d.native ++ link ++ mark ++ (tag.map (·.raw)).getD "*"
    fullSupport := d.fullSupport && !(d.parts.isEmpty && combinator.isSome)
    part := .named combinator subject tag }

/-- Adds a condition to the part that is being read. -/
def add? (p : Profile) (d : Draft) : Clause → Option Draft
  | .id name =>
    (d.part.addId? name).map fun part =>
      { d with
        native := d.native ++ ("#" ++ name.raw)
        idPosition := some d.parts.length
        part }
  | .hasClass name =>
    some { d with
      native := d.native ++ ("." ++ name.raw)
      part := { d.part with classes := d.part.classes ++ [name.value] } }
  | .attribute name comparator operand ignoreCase =>
    let comparison :=
      if comparator == .present then ""
      else comparator.text ++ String.ofList (Text.quote operand.toList) ++ if ignoreCase then " i" else ""
    let told := d.tell (!ignoreCase || p.ignoresCase) ("[" ++ name.raw ++ comparison ++ "]")
    (d.part.addTest? ⟨name.value, comparator, operand, ignoreCase⟩).map fun part => { told with part }
  | .pseudo hasGetter written pseudo =>
    let told := d.tell (pseudo.isSupported p) (":" ++ p.hostName pseudo.pseudo
      ++ (written.map fun text => "(" ++ text ++ ")").getD "")
    some { told with part := d.part.addPseudo p hasGetter pseudo }

/-- Adds the containment to the part that is being read. -/
def contain (p : Profile) (d : Draft) : Option Branch → Draft
  | none => d
  | some inner =>
    let told := d.tell (p.marksSubject && inner.fullSupport) (" " ++ inner.native)
    { told with part := { d.part with containment := some inner } }

/-- Ends the part that is being read. -/
def endPart? (p : Profile) (d : Draft) : Option Draft :=
  (d.part.countClasses? p).map fun part =>
    { d with parts := d.parts ++ [part.attachShapes], part := .empty }

/-- The branch of a draft. -/
def branch (d : Draft) : Branch :=
  ⟨d.parts, d.native, d.fullSupport, Part.useNative d.parts, d.idPosition⟩

end Draft
end TreeQuery.Compiled
