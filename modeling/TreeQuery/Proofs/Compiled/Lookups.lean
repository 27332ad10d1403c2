import TreeQuery.Proofs.Compiled.Exact
import TreeQuery.Proofs.Reader.Overflow
import TreeQuery.Proofs.Reader.Profiles

/-!
# The count of lookups

While a part is read, a counter of eight bits goes up with its name, its id and each plain test of the
attribute `name`, and at the end of the part once more if it has classes that the tree can look up. At every
moment the counter holds the number of these conditions (`Draft.isCounted_of_reads`). So whether the host is asked
is decided on their number, and reading overflows exactly at a 256th one (`lookups_exact`).
-/

namespace TreeQuery.Compiled

open Relation Text

/-! ## What is counted -/

/-- Whether a lookup by the attribute `name` serves the test. -/
def isNameTest (test : AttributeTest) : Bool := test.isPlainEquality && test.name == "name"

/-- Whether the condition is counted when it is read. -/
def Clause.isCounted : Clause → Bool
  | .id _ => true
  | .attribute name comparator operand ignoreCase =>
    isNameTest ⟨name.value, comparator, operand, ignoreCase⟩
  | _ => false

namespace Part

/-- The number of conditions of the part that are counted when they are read. -/
def counted (part : Part) : Nat :=
  part.tag.toList.length + part.id.toList.length + part.attributes.countP isNameTest

/-- The number of conditions of the part that a lookup in the tree could serve, all classes taken as one. -/
def lookups (p : Profile) (part : Part) : Nat :=
  part.counted + (!part.classes.isEmpty && p.classLookup).toNat

/-- The counter of a part whose classes are not yet counted holds the number of the other conditions. -/
def IsCounted (part : Part) : Prop := part.directLookups.toNat = part.counted

/-- The counter of a finished part holds the number of its lookups. -/
def IsExact (p : Profile) (part : Part) : Prop := part.directLookups.toNat = part.lookups p

variable {p : Profile} {part part' : Part}

theorem isCounted_named (combinator : Option Combinator) (subject : Bool) (tag : Option Ident) :
    (named combinator subject tag).IsCounted := by
  cases tag <;> rfl

/-- Counting changes the counter only. -/
theorem count?_eq_some : part.count? = some part' ↔ part.directLookups.toNat + 1 < UInt8.size ∧
    part' = { part with directLookups := part.directLookups + 1 } := by
  rw [count?_eq]
  split
  · next hlt => simp [hlt, eq_comm]
  · next hlt => simp [hlt]

theorem toNat_count? (h : part.count? = some part') :
    part'.directLookups.toNat = part.directLookups.toNat + 1 := by
  obtain ⟨hlt, rfl⟩ := count?_eq_some.1 h
  exact (UInt8.toNat_add _ _).trans (Nat.mod_eq_of_lt hlt)

theorem isExact_countClasses? (h : part.IsCounted) (hpart : part.countClasses? p = some part') :
    part'.IsExact p := by
  rw [countClasses?_eq] at hpart
  split at hpart
  · next hlt =>
    obtain rfl := Option.some.inj hpart
    have hcounter : (part.directLookups + UInt8.ofNat (!part.classes.isEmpty && p.classLookup).toNat).toNat =
        part.directLookups.toNat + (!part.classes.isEmpty && p.classLookup).toNat := by
      rw [UInt8.toNat_add, UInt8.toNat_ofNat_of_lt' (Nat.lt_of_le_of_lt (Nat.le_add_left _ _) hlt)]
      exact Nat.mod_eq_of_lt hlt
    exact hcounter.trans (congrArg (· + _) h)
  · cases hpart

end Part

/-! ## What stands in a part -/

/-- A branch or a part. -/
inductive Piece where
  | branch (branch : Branch)
  | part (part : Part)

/-- A branch of a list, or the shape of like siblings. -/
def Argument.Holds : Argument → Piece → Prop
  | .nested list, .branch inner => inner ∈ list
  | .relative _ shape, .part part => part = shape
  | _, _ => False

/-- What stands in the containment, or in the argument of a pseudo-class. -/
def Part.Holds (part : Part) (piece : Piece) : Prop :=
  (∃ inner, part.containment = some inner ∧ piece = .branch inner) ∨
    (∃ pseudo ∈ part.pseudos, pseudo.argument.Holds piece) ∨
      ∃ getter, part.getter = some getter ∧ getter.argument.Holds piece

/-- The parts of a branch, and what stands in a part. -/
def Piece.Holds : Piece → Piece → Prop
  | .branch outer, .part inner => inner ∈ outer.parts
  | .branch _, .branch _ => False
  | .part outer, piece => outer.Holds piece

/-- The counter of a part is right, and a branch is decided on the counters of its parts. -/
def Piece.IsExact (p : Profile) : Piece → Prop
  | .branch found => found.usesNative = Part.useNative found.parts
  | .part found => found.IsExact p

/-- Everything in a piece is right, at any depth. -/
def Piece.IsExactWithin (p : Profile) (piece : Piece) : Prop :=
  ∀ inner, ReflTransGen Piece.Holds piece inner → inner.IsExact p

variable {parser : Parser} {p : Profile} {nested : ListReader} {d d' : Draft} {s rest : List Char}
  {clause : Clause}

/-- A part without containment and pseudo-classes holds nothing. -/
theorem Part.not_holds {part : Part} (hcontainment : part.containment = none) (hpseudos : part.pseudos = [])
    (hgetter : part.getter = none) (piece : Piece) : ¬part.Holds piece := by
  rintro (⟨_, hinner, -⟩ | ⟨_, hmem, -⟩ | ⟨_, hlists, -⟩)
  · rw [hcontainment] at hinner
    cases hinner
  · rw [hpseudos] at hmem
    cases hmem
  · rw [hgetter] at hlists
    cases hlists

theorem Piece.isExactWithin_iff {piece : Piece} : piece.IsExactWithin p ↔
    piece.IsExact p ∧ ∀ inner, piece.Holds inner → inner.IsExactWithin p := by
  constructor
  · intro h
    exact ⟨h piece .refl, fun inner hinner deep hdeep => h deep (.head hinner hdeep)⟩
  · rintro ⟨hself, hinner⟩ deep hdeep
    rcases hdeep.cases_head with rfl | ⟨inner, hfirst, hrest⟩
    · exact hself
    · exact hinner inner hfirst deep hrest

/-- The shape of a part holds nothing that the part does not hold. -/
theorem Part.holds_of_shape {part : Part} {piece : Piece} (h : part.shape.Holds piece) :
    part.Holds piece := by
  rcases h with hcontainment | ⟨pseudo, hmem, hargument⟩ | ⟨getter, hgetter, -⟩
  · exact .inl hcontainment
  · exact .inr (.inl ⟨pseudo, List.mem_of_mem_filter hmem, hargument⟩)
  · cases hgetter

/-- With its shape in its pseudo-classes a part holds nothing more than the shape. -/
theorem Part.holds_attachShapes {part : Part} {piece : Piece} (h : part.attachShapes.Holds piece) :
    part.Holds piece ∨ piece = .part part.shape := by
  rcases h with hcontainment | ⟨attached, hmem, hargument⟩ | hgetter
  · exact .inl (.inl hcontainment)
  · obtain ⟨⟨kind, tier, argument⟩, hpseudo, rfl⟩ := List.mem_map.1 hmem
    unfold Pseudo.attach at hargument
    split at hargument
    · next formula old heq =>
      obtain ⟨rfl, rfl, rfl⟩ := heq
      cases piece with
      | branch => cases hargument
      | part found =>
        obtain rfl : found = _ := hargument
        split
        · exact .inr rfl
        · exact .inl (.inr (.inl ⟨_, hpseudo, rfl⟩))
    · exact .inl (.inr (.inl ⟨_, hpseudo, hargument⟩))
  · exact .inl (.inr (.inr hgetter))

/-! ## One step -/

/-- Reading what comes next in a part: a condition, or the containment. -/
inductive Reads (parser : Parser) (nested : ListReader) : Draft × List Char → Draft × List Char → Prop
  | clause {d d' : Draft} {s rest : List Char} {clause : Clause}
      (h : readClause? parser nested d.part.id.isSome s = some (.done clause rest))
      (hadd : d.add? parser.profile clause = some d') : Reads parser nested (d, s) (d', rest)
  | containment {d : Draft} {s : List Char} {inner : Branch} {others : List Branch}
      (h : nested (branchSpan s).1 = .ok (inner :: others)) :
      Reads parser nested (d, s) (d.contain parser.profile (some inner), (branchSpan s).2)

/-- What condition is read, no id where there is one already. -/
theorem readClause?_cases {hasId : Bool}
    (h : readClause? parser nested hasId s = some (.done clause rest)) :
    (∃ name, clause = .id name ∧ hasId = false) ∨ (∃ name, clause = .hasClass name) ∨
      (∃ name comparator operand ignoreCase, clause = .attribute name comparator operand ignoreCase) ∨
        ∃ hasGetter written pseudo entry inner? t, clause = .pseudo hasGetter written pseudo ∧
          readArgument nested entry inner? t = .done pseudo rest := by
  unfold readClause? at h
  split at h
  · split at h
    · cases h
    · next hid =>
      obtain ⟨_, hread, rfl⟩ := Reading.map_eq_done.1 (Option.some.inj h)
      obtain ⟨name, -, rfl⟩ := Reader.readId_eq_done hread
      exact .inl ⟨name, rfl, eq_false_of_ne_true hid⟩
  · obtain ⟨_, hread, rfl⟩ := Reading.map_eq_done.1 (Option.some.inj h)
    obtain ⟨name, -, rfl⟩ := Reader.readClass_eq_done hread
    exact .inr (.inl ⟨name, rfl⟩)
  · obtain ⟨_, hread, rfl⟩ := Reading.map_eq_done.1 (Option.some.inj h)
    obtain ⟨_, _, _, _, _, -, rfl, -⟩ := Reader.readAttribute_eq_done hread
    exact .inr (.inr (.inl ⟨_, _, _, _, rfl⟩))
  · have h := Option.some.inj h
    unfold readPseudo at h
    split at h
    · cases h
    · obtain ⟨inner?, t, -, h⟩ := Reading.andThen_eq_done.1 h
      split at h
      · cases h
      · obtain ⟨pseudo, hpseudo, rfl⟩ := Reading.map_eq_done.1 h
        exact .inr (.inr (.inr ⟨_, _, pseudo, _, inner?, t, rfl, hpseudo⟩))
  · cases h

/-- A condition that is counted adds one to the counter. -/
theorem Draft.directLookups_add? (h : d.add? p clause = some d') :
    d'.part.directLookups.toNat = d.part.directLookups.toNat + clause.isCounted.toNat := by
  rcases clause with name | name | ⟨name, comparator, operand, ignoreCase⟩ | ⟨hasGetter, written, pseudo⟩
  · obtain ⟨part, hpart, rfl⟩ := Option.map_eq_some_iff.1 h
    have hcounter := Part.toNat_count? hpart
    exact hcounter
  · obtain rfl := Option.some.inj h
    rfl
  · obtain ⟨part, hpart, rfl⟩ := Option.map_eq_some_iff.1 h
    rw [Clause.isCounted, isNameTest]
    unfold Part.addTest? at hpart
    dsimp only at hpart
    split at hpart
    · next hname =>
      rw [hname]
      have hcounter := Part.toNat_count? hpart
      exact hcounter
    · next hname =>
      obtain rfl := Option.some.inj hpart
      rw [eq_false_of_ne_true hname]
      rfl
  · obtain rfl := Option.some.inj h
    show (Part.addPseudo p d.part hasGetter pseudo).directLookups.toNat = _
    unfold Part.addPseudo
    split_ifs <;> rfl

/-- And one to the number, unless it is a second id. -/
theorem Draft.counted_add? (h : d.add? p clause = some d')
    (hid : ∀ name, clause = .id name → d.part.id = none) :
    d'.part.counted = d.part.counted + clause.isCounted.toNat := by
  rcases clause with name | name | ⟨name, comparator, operand, ignoreCase⟩ | ⟨hasGetter, written, pseudo⟩
  · obtain ⟨part, hpart, rfl⟩ := Option.map_eq_some_iff.1 h
    obtain ⟨-, rfl⟩ := Part.count?_eq_some.1 hpart
    simp only [Part.counted, hid name rfl, Clause.isCounted, Option.toList_some, Option.toList_none,
      List.length_singleton, List.length_nil, Bool.toNat_true]
    omega
  · obtain rfl := Option.some.inj h
    rfl
  · obtain ⟨part, hpart, rfl⟩ := Option.map_eq_some_iff.1 h
    let test : AttributeTest := ⟨name.value, comparator, operand, ignoreCase⟩
    have hcounted : part.counted = d.part.tag.toList.length + d.part.id.toList.length +
        (d.part.attributes ++ [test]).countP isNameTest := by
      unfold Part.addTest? at hpart
      split at hpart
      · obtain ⟨-, rfl⟩ := Part.count?_eq_some.1 hpart
        rfl
      · obtain rfl := Option.some.inj hpart
        rfl
    rw [hcounted, List.countP_append, List.countP_singleton, Clause.isCounted, Part.counted]
    cases isNameTest test <;> rfl
  · obtain rfl := Option.some.inj h
    show (Part.addPseudo p d.part hasGetter pseudo).counted = _
    unfold Part.addPseudo
    split_ifs <;> rfl

/-- What is read next leaves the counter right. -/
theorem Draft.isCounted_of_step {a b : Draft × List Char} (hstep : Reads parser nested a b)
    (h : a.1.part.IsCounted) : b.1.part.IsCounted := by
  cases hstep with
  | @clause d d' s rest clause hread hadd =>
    -- a second id would count twice but stand in the part once; the reader takes none
    have hid : ∀ name, clause = .id name → d.part.id = none := by
      rintro name rfl
      rcases readClause?_cases hread with ⟨_, -, hid⟩ | ⟨_, heq⟩ | ⟨_, _, _, _, heq⟩ | ⟨_, _, _, _, _, _, heq, -⟩
      · rwa [Option.isSome_eq_false_iff, Option.isNone_iff_eq_none] at hid
      all_goals cases heq
    exact (directLookups_add? hadd).trans ((congrArg (· + _) h).trans (counted_add? hadd hid).symm)
  | containment hread =>
    rw [contain, tell]
    split <;> exact h

/-! ## The run -/

/-- The counter is right at every moment. -/
theorem Draft.isCounted_of_reads {a b : Draft × List Char}
    (hreads : ReflTransGen (Reads parser nested) a b) (h : a.1.part.IsCounted) :
    b.1.part.IsCounted := by
  induction hreads with
  | refl => exact h
  | tail _ hstep ih => exact isCounted_of_step hstep ih

theorem reads_of_readClauses (h : readClauses parser nested d s = .done d' rest) :
    ReflTransGen (Reads parser nested) (d, s) (d', rest) := by
  fun_induction readClauses parser nested d s with
  | case1 d s =>
    cases h
    exact .refl
  | case2 => cases h
  | case3 => cases h
  | case4 => cases h
  | case5 d s clause t hclause _ d' hadd ih => exact .head (.clause hclause hadd) (ih h)

theorem reads_of_readContainment (h : readContainment parser.profile nested d s = .done d' rest) :
    ∃ t, ReflTransGen (Reads parser nested) (d, s) (d', t) := by
  unfold readContainment at h
  dsimp only at h
  split at h
  · cases h
    exact ⟨s, .refl⟩
  · split at h
    · cases h
    · cases h
    · next hlist =>
      cases h
      exact ⟨_, .single (.containment hlist)⟩

theorem endPart_eq_done (h : endPart p d s = .done d' rest) : d.endPart? p = some d' := by
  unfold endPart at h
  split at h
  · cases h
  · next hend =>
    cases h
    exact hend

/-- A part is read step by step from its name to its end. -/
theorem reads_of_readPart {combinator : Option Combinator}
    (h : readPart parser nested d combinator s = .done d' rest) :
    ∃ subject tag t last end?, ReflTransGen (Reads parser nested)
      (d.begin parser.profile combinator subject tag, t) (last, end?) ∧
        last.endPart? parser.profile = some d' := by
  obtain ⟨middle, u, hclauses, h⟩ := Reading.andThen_eq_done.1 h
  have hreads := reads_of_readClauses hclauses
  split at h
  · obtain ⟨last, w, hlast, hend⟩ := Reading.andThen_eq_done.1 h
    obtain ⟨v, hcontainment⟩ := reads_of_readContainment hlast
    exact ⟨_, _, _, last, v, hreads.trans hcontainment, endPart_eq_done hend⟩
  · split at h
    · exact ⟨_, _, _, middle, _, hreads, endPart_eq_done h⟩
    · cases h

/-! ## All depths -/

/-- All that a reader of lists returns is right. -/
def IsExactReader (p : Profile) (nested : ListReader) : Prop :=
  ∀ s list, nested s = .ok list → ∀ branch ∈ list, (Piece.branch branch).IsExactWithin p

/-- The finished parts of a draft are right, and so is all that the part holds that is being read. -/
structure Draft.IsExactSoFar (p : Profile) (d : Draft) : Prop where
  parts : ∀ part ∈ d.parts, (Piece.part part).IsExactWithin p
  held : ∀ piece, d.part.Holds piece → piece.IsExactWithin p

theorem exact_of_readArgument (hnested : IsExactReader p nested) {entry : Entry}
    {inner? : Option (List Char)} {pseudo : Pseudo}
    (h : readArgument nested entry inner? s = .done pseudo rest) {piece : Piece}
    (hpiece : pseudo.argument.Holds piece) : piece.IsExactWithin p := by
  unfold readArgument at h
  split at h
  · split at h
    · cases h
    · split at h
      · next list hlist =>
        cases h
        cases piece with
        | branch inner => exact hnested _ _ hlist inner hpiece
        | part => cases hpiece
      · cases h
  · obtain ⟨argument, -, rfl⟩ := Reading.map_eq_done.1 h
    cases piece with
    | branch inner =>
      cases argument with
      | nested list => exact absurd hpiece List.not_mem_nil
      | _ => cases hpiece
    | part part =>
      cases argument with
      | relative formula =>
        obtain rfl : part = .empty := hpiece
        exact Piece.isExactWithin_iff.2
          ⟨rfl, fun inner hinner => absurd hinner (Part.not_holds rfl rfl rfl inner)⟩
      | _ => cases hpiece

theorem exact_of_readClause? (hnested : IsExactReader p nested) {hasId hasGetter : Bool}
    {written : Option String} {pseudo : Pseudo}
    (h : readClause? parser nested hasId s = some (.done (.pseudo hasGetter written pseudo) rest))
    {piece : Piece} (hpiece : pseudo.argument.Holds piece) : piece.IsExactWithin p := by
  rcases readClause?_cases h with ⟨_, heq, -⟩ | ⟨_, heq⟩ | ⟨_, _, _, _, heq⟩ |
    ⟨_, _, _, _, _, _, heq, hargument⟩
  · cases heq
  · cases heq
  · cases heq
  · cases heq
    exact exact_of_readArgument hnested hargument hpiece

/-- A condition adds to a part what its argument holds. -/
theorem Draft.holds_add? (h : d.add? p clause = some d') {piece : Piece} (hpiece : d'.part.Holds piece) :
    d.part.Holds piece ∨ ∃ hasGetter written pseudo, clause = .pseudo hasGetter written pseudo ∧
      pseudo.argument.Holds piece := by
  rcases clause with name | name | ⟨name, comparator, operand, ignoreCase⟩ | ⟨hasGetter, written, pseudo⟩
  · obtain ⟨part, hpart, rfl⟩ := Option.map_eq_some_iff.1 h
    obtain ⟨-, rfl⟩ := Part.count?_eq_some.1 hpart
    exact .inl hpiece
  · obtain rfl := Option.some.inj h
    exact .inl hpiece
  · obtain ⟨part, hpart, rfl⟩ := Option.map_eq_some_iff.1 h
    unfold Part.addTest? at hpart
    split at hpart
    · obtain ⟨-, rfl⟩ := Part.count?_eq_some.1 hpart
      exact .inl hpiece
    · obtain rfl := Option.some.inj hpart
      exact .inl hpiece
  · obtain rfl := Option.some.inj h
    have hpseudos : ∀ found ∈ d.part.pseudos ++ [pseudo], found.argument.Holds piece →
        d.part.Holds piece ∨ pseudo.argument.Holds piece := by
      intro found hmem hfound
      rcases List.mem_append.1 hmem with hmem | hmem
      · exact .inl (.inr (.inl ⟨found, hmem, hfound⟩))
      · exact .inr (List.mem_singleton.1 hmem ▸ hfound)
    have hholds : d.part.Holds piece ∨ pseudo.argument.Holds piece := by
      have hpiece : (d.part.addPseudo p hasGetter pseudo).Holds piece := hpiece
      rw [Part.addPseudo] at hpiece
      rcases hpiece with hcontainment | ⟨found, hmem, hfound⟩ | ⟨getter, hgetter, hargument⟩
      · refine .inl (.inl ?_)
        split_ifs at hcontainment <;> exact hcontainment
      · refine hpseudos found ?_ hfound
        split_ifs at hmem <;> exact hmem
      · split_ifs at hgetter
        · exact .inl (.inr (.inr ⟨getter, hgetter, hargument⟩))
        · cases hgetter
          exact .inr hargument
        · exact .inl (.inr (.inr ⟨getter, hgetter, hargument⟩))
    exact hholds.imp_right fun hargument => ⟨_, _, _, rfl, hargument⟩

/-- A condition leaves the finished parts. -/
theorem Draft.parts_add? (h : d.add? p clause = some d') : d'.parts = d.parts := by
  rcases clause with name | name | ⟨name, comparator, operand, ignoreCase⟩ | ⟨hasGetter, written, pseudo⟩
  · obtain ⟨part, -, rfl⟩ := Option.map_eq_some_iff.1 h
    rfl
  · obtain rfl := Option.some.inj h
    rfl
  · obtain ⟨part, -, rfl⟩ := Option.map_eq_some_iff.1 h
    simp only [tell_eq]
  · obtain rfl := Option.some.inj h
    simp only [tell_eq]

namespace Draft

theorem IsExactSoFar.begin (h : d.IsExactSoFar p) (combinator : Option Combinator) (subject : Bool)
    (tag : Option Ident) : (d.begin p combinator subject tag).IsExactSoFar p := by
  exact ⟨h.parts, fun piece hpiece => absurd hpiece (Part.not_holds rfl rfl rfl piece)⟩

/-- What is read next is right if the lists in it are. -/
theorem IsExactSoFar.step (hnested : IsExactReader parser.profile nested) {a b : Draft × List Char}
    (hstep : Reads parser nested a b) (h : a.1.IsExactSoFar parser.profile) :
    b.1.IsExactSoFar parser.profile := by
  cases hstep with
  | @clause d d' s rest clause hread hadd =>
    refine ⟨fun part hpart => h.parts part (parts_add? hadd ▸ hpart), fun piece hpiece => ?_⟩
    rcases holds_add? hadd hpiece with hheld | ⟨_, _, pseudo, rfl, hargument⟩
    · exact h.held piece hheld
    · exact exact_of_readClause? hnested hread hargument
  | @containment d s inner others hread =>
    rw [contain, tell_eq]
    refine ⟨h.parts, ?_⟩
    rintro piece (⟨found, hfound, rfl⟩ | hpseudo)
    · obtain rfl := Option.some.inj hfound
      exact hnested _ _ hread _ List.mem_cons_self
    · exact h.held piece (.inr hpseudo)

theorem IsExactSoFar.reads (hnested : IsExactReader parser.profile nested) {a b : Draft × List Char}
    (hreads : ReflTransGen (Reads parser nested) a b) (h : a.1.IsExactSoFar parser.profile) :
    b.1.IsExactSoFar parser.profile := by
  induction hreads with
  | refl => exact h
  | tail _ hstep ih => exact ih.step hnested hstep

/-- A part is right at its end. -/
theorem IsExactSoFar.endPart? (h : d.IsExactSoFar p) (hcounted : d.part.IsCounted)
    (hend : d.endPart? p = some d') : d'.IsExactSoFar p := by
  obtain ⟨counted, hcount, rfl⟩ := Option.map_eq_some_iff.1 hend
  have hexact := Part.isExact_countClasses? hcounted hcount
  -- the classes at the end, and the shapes, change nothing of what the part holds but for the shapes
  have hheld : ∀ piece, counted.Holds piece → piece.IsExactWithin p := by
    intro piece hpiece
    rw [Part.countClasses?_eq] at hcount
    split at hcount
    · obtain rfl := Option.some.inj hcount
      exact h.held piece hpiece
    · cases hcount
  have hshape : (Piece.part counted.shape).IsExactWithin p :=
    Piece.isExactWithin_iff.2 ⟨hexact, fun inner hinner => hheld inner (Part.holds_of_shape hinner)⟩
  refine ⟨fun part hpart => ?_, fun piece hpiece => absurd hpiece (Part.not_holds rfl rfl rfl piece)⟩
  rcases List.mem_append.1 hpart with hpart | hpart
  · exact h.parts part hpart
  · obtain rfl := List.mem_singleton.1 hpart
    -- a shape is the part without some pseudo-classes, which have no share in the counter
    refine Piece.isExactWithin_iff.2 ⟨hexact, fun inner hinner => ?_⟩
    rcases Part.holds_attachShapes hinner with hinner | rfl
    · exact hheld inner hinner
    · exact hshape

theorem IsExactSoFar.branch (h : d.IsExactSoFar p) : (Piece.branch d.branch).IsExactWithin p := by
  refine Piece.isExactWithin_iff.2 ⟨rfl, fun inner hinner => ?_⟩
  cases inner with
  | branch => cases hinner
  | part part => exact h.parts part hinner

end Draft

/-! ## Lists -/

theorem exact_of_readPart (hnested : IsExactReader parser.profile nested) {combinator : Option Combinator}
    (hd : d.IsExactSoFar parser.profile) (h : readPart parser nested d combinator s = .done d' rest) :
    d'.IsExactSoFar parser.profile := by
  obtain ⟨subject, tag, t, last, u, hreads, hend⟩ := reads_of_readPart h
  exact ((hd.begin combinator subject tag).reads hnested hreads).endPart?
    (Draft.isCounted_of_reads hreads (Part.isCounted_named combinator subject tag)) hend

theorem exact_of_readParts (hnested : IsExactReader parser.profile nested)
    (hd : d.IsExactSoFar parser.profile) (h : readParts parser nested d s = .done d' rest) :
    d'.IsExactSoFar parser.profile := by
  fun_induction readParts parser nested d s with
  | case1 =>
    cases h
    exact hd
  | case2 => cases h
  | case3 => cases h
  | case4 d s _ middle t hpart _ ih =>
    obtain ⟨combinator, u, -, hpart⟩ := Reading.andThen_eq_done.1 hpart
    exact ih (exact_of_readPart hnested hd hpart) h

theorem exact_of_readBranch (hnested : IsExactReader parser.profile nested) {branch? : Option Branch}
    (h : readBranch parser nested s = .ok (branch?, rest)) :
    ∀ branch ∈ branch?, (Piece.branch branch).IsExactWithin parser.profile := by
  have hstart : Draft.start.IsExactSoFar parser.profile :=
    ⟨fun part hpart => absurd hpart List.not_mem_nil,
      fun piece hpiece => absurd hpiece (Part.not_holds rfl rfl rfl piece)⟩
  unfold readBranch at h
  split at h
  · cases h
  · split at h
    · next hparts =>
      cases h
      rintro branch ⟨⟩
      exact (exact_of_readParts hnested hstart hparts).branch
    · cases h
      rintro branch ⟨⟩
    · cases h

theorem exact_of_readBranches (hnested : IsExactReader parser.profile nested) {list : List Branch}
    (h : readBranches parser nested s = .ok list) :
    ∀ branch ∈ list, (Piece.branch branch).IsExactWithin parser.profile := by
  fun_induction readBranches parser nested s generalizing list with
  | case1 => cases h
  | case2 s branch? rest hbranch hrest =>
    cases h
    exact fun branch hmem => exact_of_readBranch hnested hbranch branch (Option.mem_toList.1 hmem)
  | case3 s branch? rest hbranch c more hrest hcomma _ ih =>
    cases hmore : readBranches parser nested more with
    | error => rw [hmore] at h; cases h
    | ok others =>
      rw [hmore] at h
      cases h
      intro branch hmem
      rcases List.mem_append.1 hmem with hmem | hmem
      · exact exact_of_readBranch hnested hbranch branch (Option.mem_toList.1 hmem)
      · exact ih hmore branch hmem
  | case4 => cases h

theorem exact_readAt (parser : Parser) (levels : Nat) :
    IsExactReader parser.profile (readAt parser levels) := by
  induction levels with
  | zero =>
    intro s list h
    cases h
    exact fun _ hmem => absurd hmem List.not_mem_nil
  | succ levels ih =>
    intro s list h
    rw [readAt, readList] at h
    split at h
    · cases h
      exact fun _ hmem => absurd hmem List.not_mem_nil
    · exact exact_of_readBranches ih h

/-! ## At most 255 lookups -/

/-- Whether the host is asked for a chain of parts before the tree, decided on the number of lookups and not
on the counter. -/
def Part.useNativeByNumber (p : Profile) (parts : List Part) : Bool :=
  let lookupServes := match parts with
    | [part] => !part.prefersNative && part.lookups p < 2
    | _ => false
  let getterServes := parts.getLast?.any (·.getter.isSome)
  !(lookupServes || getterServes)

theorem Part.useNative_eq {parts : List Part} (h : ∀ part ∈ parts, part.IsExact p) :
    Part.useNative parts = Part.useNativeByNumber p parts := by
  match parts with
  | [] => rfl
  | [part] =>
    have hpart : decide (part.directLookups < 2) = decide (part.lookups p < 2) := by
      rw [← show part.directLookups.toNat = part.lookups p from h part (List.mem_singleton_self part)]
      rfl
    unfold useNative useNativeByNumber
    dsimp only
    rw [hpart]
  | _ :: _ :: _ => rfl

/-- Everything that is read is right, at any depth. -/
theorem isExactWithin_of_read {parser : Parser} {text : String} {list : List Branch}
    (h : read parser text = .ok list) : ∀ branch ∈ list, (Piece.branch branch).IsExactWithin parser.profile := by
  rw [read] at h
  split at h
  · next hlist =>
    cases h
    exact exact_readAt parser _ _ _ hlist
  · cases h

/-- Reading overflows exactly if the reader comes by a part with a 256th lookup. In all that is read otherwise,
at any depth, the counter of a part is the number of its lookups, and a branch is decided on these numbers. -/
theorem lookups_exact (parser : Parser) :
    (∀ text, read parser text = .error .overflow ↔
      Reader.Stage.MeetsLimit parser (.list text.toList)) ∧
    ∀ text list, read parser text = .ok list → ∀ branch ∈ list,
      (∀ part, ReflTransGen Piece.Holds (.branch branch) (.part part) →
        part.directLookups.toNat = part.lookups parser.profile) ∧
      ∀ inner, ReflTransGen Piece.Holds (.branch branch) (.branch inner) →
        inner.usesNative = Part.useNativeByNumber parser.profile inner.parts := by
  refine ⟨fun text => read_eq_error_iff.trans Selector.read_eq_overflow_iff, ?_⟩
  intro text list hread branch hbranch
  have hwithin := isExactWithin_of_read hread branch hbranch
  refine ⟨fun part hholds => hwithin (.part part) hholds, fun inner hinner => ?_⟩
  have hdecided : inner.usesNative = Part.useNative inner.parts := hwithin (.branch inner) hinner
  rw [hdecided]
  exact Part.useNative_eq fun part hmem => hwithin (.part part) (hinner.tail hmem)

/-- A class and 254 conditions `[name=x]` are 255 lookups, and the counter goes so far. -/
theorem lookups_exact_classAndNameTests : ∃ branch part,
    read .standard (classAndNameTestsText 254) = .ok [branch] ∧ part ∈ branch.parts ∧
      part.lookups .manual = 255 ∧ part.directLookups = 255 ∧
        branch.usesNative = Part.useNativeByNumber .manual branch.parts := by
  have hread : read .standard (classAndNameTestsText 254) =
      .ok [(Selector.classAndNameTests 254).compiled .manual] :=
    read_eq_ok_iff.2 ⟨_, Selector.read_classAndNameTests (by decide), rfl⟩
  obtain ⟨hparts, hbranches⟩ := (lookups_exact .standard).2 _ _ hread _ List.mem_cons_self
  let part : TreeQuery.Part := ⟨none, false, none, .hasClass ⟨"c"⟩ :: List.replicate 254 .nameTest, none⟩
  have hmem : part.compiled .manual ∈ ((Selector.classAndNameTests 254).compiled .manual).parts :=
    List.mem_cons_self
  have hcounter : (part.compiled .manual).directLookups = 255 := by
    rw [Part.directLookups_compiled, Part.directLookups_classAndNameTests]
    rfl
  have hlookups : (part.compiled .manual).lookups .manual = 255 := by
    refine (hparts _ (.single hmem)).symm.trans ?_
    rw [hcounter]
    rfl
  exact ⟨_, _, hread, hmem, hlookups, hcounter, hbranches _ .refl⟩

end TreeQuery.Compiled

/-! ## Too many lookups -/

namespace TreeQuery

open Text

namespace Reader

theorem startsWith_nameTests (parser : Parser) (hasId : Bool) (n : Nat) :
    StartsWith parser hasId (nameTestsText n) (List.replicate n .nameTest) [] := by
  induction n generalizing hasId with
  | zero => exact .nil
  | succ n ih =>
    rw [nameTestsText, List.replicate_succ, List.flatten_cons, List.replicate_succ]
    exact .cons (readClause?_nameTest parser (readLists parser) hasId (nameTestsText n)) (ih _)

theorem isTrimmed_nameTestsText (n : Nat) : IsTrimmed (nameTestsText (n + 1)) := by
  refine ⟨fun c hc => ?_, fun c hc => ?_⟩
  · rw [nameTestsText, List.replicate_succ, List.flatten_cons] at hc
    obtain rfl := Option.some.inj hc
    decide
  · rw [getLast?_nameTestsText] at hc
    obtain rfl := Option.some.inj hc
    decide

/-- So many conditions `[name=x]` overflow, whatever the profile. -/
theorem readLists_nameTests (parser : Parser) {n : Nat} (h : UInt8.size ≤ n + 1) :
    readLists parser (nameTestsText (n + 1)) = .error .overflow := by
  have htext : nameTestsText (n + 1) = '[' :: ("name=x]".toList ++ nameTestsText n) := by
    rw [nameTestsText, List.replicate_succ, List.flatten_cons]
    rfl
  have hstarts := startsWith_nameTests parser false (n + 1)
  have htrim := (isTrimmed_nameTestsText n).trim_eq
  rw [htext] at hstarts htrim
  rw [htext]
  refine readLists_of_startsWith (.inr (.inr (.inl rfl))) htrim hstarts ?_
  rwa [List.countP_replicate, if_pos (by decide)]

end Reader

/-- The 256th condition `[name=x]` of a part is one too many. -/
theorem Compiled.overflow_nameTests :
    read .standard (String.ofList (nameTestsText 256)) = .error .overflow := by
  rw [read_eq_error_iff, Selector.read_eq_overflow_iff, ← Reader.readLists_eq_overflow_iff, String.toList_ofList]
  exact Reader.readLists_nameTests .standard (by decide)

end TreeQuery
