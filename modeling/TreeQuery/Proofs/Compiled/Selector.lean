import TreeQuery.Selector.Compiled
import TreeQuery.Selector.Native

/-!
# What selectors compile to

`Selector.compiled` collects what a profile says about a selector. `neutral` blanks these values again, and
what remains is the same under all profiles (`Selector.neutral_compiled`).
-/

namespace TreeQuery
namespace Compiled

/-- The pseudo-class in a condition that is one. -/
def Clause.pseudo? : Clause → Option Pseudo
  | .pseudo _ _ found => some found
  | _ => none

/-- The pseudo-class in a condition by which candidates are listed. -/
def Clause.getter? (p : Profile) : Clause → Option Getter
  | .pseudo true _ found =>
    if found.isSupported p then none else some ⟨found.pseudo, found.argument⟩
  | _ => none

@[simp]
theorem Pseudo.pseudo_attach (shape : Part) (pseudo : Pseudo) :
    (pseudo.attach shape).pseudo = pseudo.pseudo := by
  unfold attach
  split <;> rfl

/-! ## What no profile decides -/

/-- Whether an argument is a selector list. -/
def Argument.isNested : Argument → Bool
  | .nested _ => true
  | _ => false

mutual

/-- The argument with neutral selectors. -/
def Argument.neutral : Argument → Argument
  | .none => .none
  | .text text => .text text
  | .formula formula => .formula formula
  | .nested list => .nested (Branch.neutralAll list)
  | .relative formula shape => .relative formula shape.neutral
  | .linkDepth depth => .linkDepth depth

/-- The pseudo-class with a neutral argument, and without the tier if this is a selector list. -/
def Pseudo.neutral : Pseudo → Pseudo
  | ⟨pseudo, tier, argument⟩ => ⟨pseudo, if argument.isNested then 0 else tier, argument.neutral⟩

/-- The neutral forms of pseudo-classes. -/
def Pseudo.neutralAll : List Pseudo → List Pseudo
  | [] => []
  | pseudo :: rest => pseudo.neutral :: Pseudo.neutralAll rest

/-- The neutral form of a containment. -/
def Branch.neutralWithin : Option Branch → Option Branch
  | none => none
  | some inner => some inner.neutral

/-- The part without its getter, the count of lookups and the preference for the host. -/
def Part.neutral : Part → Part
  | ⟨combinator, subject, tag, id, classes, attributes, pseudos, containment, searchName, _, _, _⟩ =>
    ⟨combinator, subject, tag, id, classes, attributes, Pseudo.neutralAll pseudos,
      Branch.neutralWithin containment, searchName, none, 0, false⟩

/-- The neutral forms of parts. -/
def Part.neutralAll : List Part → List Part
  | [] => []
  | part :: rest => part.neutral :: Part.neutralAll rest

/-- The branch without its text for the host, its support and the choice of the host. -/
def Branch.neutral : Branch → Branch
  | ⟨parts, _, _, _, idPosition⟩ => ⟨Part.neutralAll parts, "", false, false, idPosition⟩

/-- The neutral forms of branches. -/
def Branch.neutralAll : List Branch → List Branch
  | [] => []
  | branch :: rest => branch.neutral :: Branch.neutralAll rest

end

theorem Pseudo.neutralAll_eq_map (pseudos : List Pseudo) :
    Pseudo.neutralAll pseudos = pseudos.map Pseudo.neutral := by
  induction pseudos with
  | nil => rfl
  | cons pseudo rest ih => rw [Pseudo.neutralAll, ih, List.map_cons]

@[simp]
theorem Pseudo.pseudo_neutral (pseudo : Pseudo) : pseudo.neutral.pseudo = pseudo.pseudo := by
  obtain ⟨_, _, _⟩ := pseudo
  rfl

/-- The neutral form of a shape is the shape of the neutral form. -/
theorem Part.neutral_shape (part : Part) : part.shape.neutral = part.neutral.shape := by
  obtain ⟨_, _, _, _, _, _, pseudos, _, _, _, _, _⟩ := part
  simp only [Part.shape, Part.neutral, Pseudo.neutralAll_eq_map, List.filter_map, Function.comp_def,
    Pseudo.pseudo_neutral]

theorem Pseudo.neutral_attach (shape : Part) (pseudo : Pseudo) :
    (pseudo.attach shape).neutral = pseudo.neutral.attach shape.neutral := by
  obtain ⟨kind, tier, argument⟩ := pseudo
  cases argument with
  | relative formula old =>
    simp only [Pseudo.attach, Pseudo.neutral, Argument.neutral, apply_ite Part.neutral]
    rfl
  | _ => rfl

/-- Shapes are put into neutral parts as into all parts. -/
theorem Part.neutral_attachShapes (part : Part) :
    part.attachShapes.neutral = part.neutral.attachShapes := by
  have hshape := part.neutral_shape
  obtain ⟨_, _, _, _, _, _, pseudos, _, _, _, _, _⟩ := part
  simp only [Part.attachShapes, Part.neutral, Pseudo.neutralAll_eq_map, List.map_map] at hshape ⊢
  congr 1
  refine List.map_congr_left fun pseudo _ => ?_
  simp only [Function.comp_apply, Pseudo.neutral_attach, hshape]

end Compiled

/-! ## Compilation -/

mutual

/-- The compiled form of an argument. A shape is attached with the part. -/
def Argument.compiled (p : Profile) : Argument → Compiled.Argument
  | .none => .none
  | .text text => .text text
  | .formula formula => .formula formula
  | .nested list => .nested (Selector.compiledAll p list)
  | .relative formula => .relative formula .empty
  | .linkDepth depth => .linkDepth depth

/-- The compiled form of a condition. -/
def Clause.compiled (p : Profile) : Clause → Compiled.Clause
  | .id name => .id name
  | .hasClass name => .hasClass name
  | .attribute name comparator operand ignoreCase => .attribute name comparator operand ignoreCase
  | .pseudo ⟨pseudo, hasGetter, written, argument⟩ =>
    .pseudo hasGetter written ⟨pseudo, argument.tier p, argument.compiled p⟩

/-- The compiled forms of conditions. -/
def Clause.compiledAll (p : Profile) : List Clause → List Compiled.Clause
  | [] => []
  | clause :: rest => clause.compiled p :: Clause.compiledAll p rest

/-- The compiled form of a containment. -/
def Selector.compiledWithin (p : Profile) : Option Selector → Option Compiled.Branch
  | none => none
  | some inner => some (inner.compiled p)

/-- The compiled form of a part. Its lookups fit into eight bits, as a part with more of them is not read. -/
def Part.compiled (p : Profile) : Part → Compiled.Part
  | ⟨combinator, subject, tag, clauses, containment⟩ =>
    let part : Part := ⟨combinator, subject, tag, clauses, containment⟩
    let conditions := Clause.compiledAll p clauses
    Compiled.Part.attachShapes {
      combinator
      subject
      tag := tag.map (·.value)
      id := part.id?.map (·.value)
      classes := part.classes.map (·.value)
      attributes := part.attributes
      pseudos := conditions.filterMap Compiled.Clause.pseudo?
      containment := Selector.compiledWithin p containment
      searchName := part.searchName?
      getter := (conditions.filterMap (Compiled.Clause.getter? p)).getLast?
      directLookups := UInt8.ofNat (part.directLookups p)
      prefersNative := part.prefersNative p }

/-- The compiled forms of parts. -/
def Part.compiledAll (p : Profile) : List Part → List Compiled.Part
  | [] => []
  | part :: rest => part.compiled p :: Part.compiledAll p rest

/-- The compiled form of a selector. -/
def Selector.compiled (p : Profile) : Selector → Compiled.Branch
  | ⟨parts⟩ =>
    let selector : Selector := ⟨parts⟩
    { parts := Part.compiledAll p parts
      native := selector.native p
      fullSupport := selector.isSupported p
      usesNative := selector.usesNative p
      idPosition := selector.idPosition? }

/-- The compiled forms of selectors. -/
def Selector.compiledAll (p : Profile) : List Selector → List Compiled.Branch
  | [] => []
  | selector :: rest => selector.compiled p :: Selector.compiledAll p rest

end

theorem Clause.compiledAll_eq_map (p : Profile) (clauses : List Clause) :
    Clause.compiledAll p clauses = clauses.map (·.compiled p) := by
  induction clauses with
  | nil => rfl
  | cons clause rest ih => rw [Clause.compiledAll, ih, List.map_cons]

theorem Part.compiledAll_eq_map (p : Profile) (parts : List Part) :
    Part.compiledAll p parts = parts.map (·.compiled p) := by
  induction parts with
  | nil => rfl
  | cons part rest ih => rw [Part.compiledAll, ih, List.map_cons]

theorem Selector.compiledAll_eq_map (p : Profile) (list : List Selector) :
    Selector.compiledAll p list = list.map (·.compiled p) := by
  induction list with
  | nil => rfl
  | cons selector rest ih => rw [Selector.compiledAll, ih, List.map_cons]

@[simp]
theorem Part.directLookups_compiled (p : Profile) (part : Part) :
    (part.compiled p).directLookups = UInt8.ofNat (part.directLookups p) := by
  cases part
  rfl

@[simp]
theorem Part.prefersNative_compiled (p : Profile) (part : Part) :
    (part.compiled p).prefersNative = part.prefersNative p := by
  cases part
  rfl

/-- The candidates for a compiled part are listed by the same pseudo-class as those for the part. -/
theorem Part.getter_compiled (p : Profile) (part : Part) :
    (part.compiled p).getter =
      (part.getter? p).map fun getter => ⟨getter.pseudo, getter.argument.compiled p⟩ := by
  obtain ⟨combinator, subject, tag, clauses, containment⟩ := part
  show ((Clause.compiledAll p clauses).filterMap (Compiled.Clause.getter? p)).getLast? =
    (((clauses.filterMap Clause.pseudo?).filter (·.listsCandidates p)).getLast?).map _
  rw [← List.getLast?_map, Clause.compiledAll_eq_map, List.filterMap_map]
  congr 1
  induction clauses with
  | nil => rfl
  | cons clause rest ih =>
    cases clause with
    | pseudo clause =>
      obtain ⟨pseudo, hasGetter, written, argument⟩ := clause
      have hsupported : (Compiled.Pseudo.mk pseudo (argument.tier p) (argument.compiled p)).isSupported p =
          PseudoClause.isSupported p ⟨pseudo, hasGetter, written, argument⟩ := rfl
      rw [List.filterMap_cons, List.filterMap_cons, Function.comp_apply, Clause.compiled,
        Clause.pseudo?, List.filter_cons, PseudoClause.listsCandidates]
      cases hasGetter with
      | false => simpa [Compiled.Clause.getter?] using ih
      | true =>
        rw [Compiled.Clause.getter?, hsupported]
        cases PseudoClause.isSupported p ⟨pseudo, true, written, argument⟩ <;> simpa using ih
    | _ => exact ih

/-! ## Two profiles -/

section Profiles

variable (p q : Profile)

/-- The tier of an argument depends on the profile only if it is a selector list. -/
theorem Argument.neutral_tier (argument : Argument) :
    (if (argument.compiled p).isNested then 0 else argument.tier p) =
      (if (argument.compiled q).isNested then 0 else argument.tier q) := by
  cases argument <;> rfl

mutual

theorem Argument.neutral_compiled (argument : Argument) :
    (argument.compiled p).neutral = (argument.compiled q).neutral := by
  cases argument with
  | nested list =>
    simp only [Argument.compiled, Compiled.Argument.neutral, Selector.neutral_compiledAll list]
  | _ => rfl

/-- The pseudo-classes among conditions are the same under all profiles, but for the tiers of lists. -/
theorem Clause.neutral_pseudos (clauses : List Clause) :
    ((Clause.compiledAll p clauses).filterMap Compiled.Clause.pseudo?).map Compiled.Pseudo.neutral =
      ((Clause.compiledAll q clauses).filterMap Compiled.Clause.pseudo?).map
        Compiled.Pseudo.neutral := by
  cases clauses with
  | nil => rfl
  | cons clause rest =>
    cases clause with
    | pseudo clause =>
      obtain ⟨pseudo, hasGetter, written, argument⟩ := clause
      simp only [Clause.compiledAll, Clause.compiled, List.filterMap_cons, Compiled.Clause.pseudo?,
        List.map_cons, Clause.neutral_pseudos rest, Compiled.Pseudo.neutral,
        Argument.neutral_compiled argument, argument.neutral_tier p q]
    | _ => exact Clause.neutral_pseudos rest

theorem Selector.neutral_compiledWithin (containment : Option Selector) :
    Compiled.Branch.neutralWithin (Selector.compiledWithin p containment) =
      Compiled.Branch.neutralWithin (Selector.compiledWithin q containment) := by
  cases containment with
  | none => rfl
  | some inner =>
    simp only [Selector.compiledWithin, Compiled.Branch.neutralWithin, Selector.neutral_compiled inner]

theorem Part.neutral_compiled (part : Part) :
    (part.compiled p).neutral = (part.compiled q).neutral := by
  obtain ⟨combinator, subject, tag, clauses, containment⟩ := part
  simp only [Part.compiled, Compiled.Part.neutral_attachShapes]
  simp only [Compiled.Part.neutral, Compiled.Pseudo.neutralAll_eq_map, Clause.neutral_pseudos clauses,
    Selector.neutral_compiledWithin containment]

theorem Part.neutral_compiledAll (parts : List Part) :
    Compiled.Part.neutralAll (Part.compiledAll p parts) =
      Compiled.Part.neutralAll (Part.compiledAll q parts) := by
  cases parts with
  | nil => rfl
  | cons part rest =>
    simp only [Part.compiledAll, Compiled.Part.neutralAll, Part.neutral_compiled part,
      Part.neutral_compiledAll rest]

/-- What a selector compiles to is the same under all profiles, but for what is there for the host. -/
theorem Selector.neutral_compiled (selector : Selector) :
    (selector.compiled p).neutral = (selector.compiled q).neutral := by
  obtain ⟨parts⟩ := selector
  simp only [Selector.compiled, Compiled.Branch.neutral, Part.neutral_compiledAll parts]

theorem Selector.neutral_compiledAll (list : List Selector) :
    Compiled.Branch.neutralAll (Selector.compiledAll p list) =
      Compiled.Branch.neutralAll (Selector.compiledAll q list) := by
  cases list with
  | nil => rfl
  | cons selector rest =>
    simp only [Selector.compiledAll, Compiled.Branch.neutralAll, Selector.neutral_compiled selector,
      Selector.neutral_compiledAll rest]

end

end Profiles
end TreeQuery
