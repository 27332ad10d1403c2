import TreeQuery.Proofs.Match.Conditions
import TreeQuery.Proofs.Reader.Legible
import TreeQuery.Selector.Native
import Mathlib.Logic.Relation

/-!
# The invariants of what is read

The matcher and the search rely on many facts about a selector without checking them: which part has the
last id, where a subject and a containment may stand, that no test is impossible, that every pseudo-class
has an argument of its kind. They hold of every selector that is read, and of all selectors that stand in
it at any depth: in the list of a pseudo-class, in a containment, or in the shape that like siblings are
compared with.

A shape keeps the containment of its part and not the mark of the subject. So a containment stands in a
subject or in the shape of one.
-/

namespace TreeQuery

/-! ## The invariants -/

/-- The attribute conditions of a part, put together by the names of the attributes. -/
def Part.attributeEntries (part : Part) : List (String × List AttributeTest) :=
  (part.attributes.map (·.name)).eraseDups.map fun name =>
    (name, part.attributes.filter (·.name == name))

/-- The selectors that stand in a part: those in its pseudo-classes and its containment. -/
def Part.inner (part : Part) : List Selector :=
  part.pseudos.flatMap (fun clause => clause.argument.nested?.getD []) ++ part.containment.toList

/-- The selectors that stand in a part of a selector or in the shape of a part. -/
def Selector.inner (selector : Selector) : List Selector :=
  selector.parts.flatMap fun part => part.inner ++ part.shape.inner

/-- The second selector is the first, or stands in it at some depth. -/
def Selector.Nests : Selector → Selector → Prop :=
  Relation.ReflTransGen fun selector inner => inner ∈ selector.inner

/-- What holds of the conditions of a part. -/
structure Part.WellFormed (p : Profile) (part : Part) : Prop where
  attributes : ∀ name tests, (name, tests) ∈ part.attributeEntries →
    tests ≠ [] ∧ ∀ test ∈ tests, test.name = name ∧ test.isImpossible = false
  searchName : ∀ value, part.searchName? = some value ↔
    ∃ before name behind, part.clauses = before ++ .attribute name .equals value false :: behind ∧
      name.value = "name" ∧
        ∀ other operand, other.value = "name" → .attribute other .equals operand false ∉ behind
  arguments : ∀ clause ∈ part.pseudos, clause.argument.Fits (Entry.standard clause.pseudo).grammar
  getter : ∀ clause, part.getter? p = some clause → clause ∈ part.pseudos ∧
    (Entry.standard clause.pseudo).hasGetter = true ∧ p.tier clause.pseudo < clause.argument.tier p

/-- What holds of the parts of a selector. -/
structure Selector.WellFormed (p : Profile) (selector : Selector) : Prop where
  nonempty : selector.parts ≠ []
  linked : ∀ part ∈ selector.parts.tail, part.combinator ≠ none
  lastId : ∀ position, selector.idPosition? = some position ↔
    ∃ before part behind, selector.parts = before ++ part :: behind ∧ before.length = position ∧
      part.id? ≠ none ∧ ∀ later ∈ behind, later.id? = none
  noId : selector.idPosition? = none ↔ ∀ part ∈ selector.parts, part.id? = none
  leading : selector.hasLeadingCombinator = true → selector.isSupported p = false
  subject : ∀ part ∈ selector.parts.dropLast, part.subject = false
  containment : ∀ part ∈ selector.parts, part.containment ≠ none ∨ part.shape.containment ≠ none →
    part.subject = true
  parts : ∀ part ∈ selector.parts, part.WellFormed p ∧ part.shape.WellFormed p

variable {p : Profile} {part : Part} {selector inner : Selector} {quiet : Prop}

/-! ## What is written last -/

/-- The last value that is found in a list. -/
theorem getLast?_filterMap_eq_some {α β : Type} {f : α → Option β} {list : List α} {value : β} :
    (list.filterMap f).getLast? = some value ↔
      ∃ before a behind, list = before ++ a :: behind ∧ f a = some value ∧ ∀ x ∈ behind, f x = none := by
  rw [List.getLast?_filterMap, List.findSome?_eq_some_iff]
  constructor
  · rintro ⟨behind, a, before, hlist, ha, hbehind⟩
    refine ⟨before.reverse, a, behind.reverse, ?_, ha, fun x hx => hbehind x (List.mem_reverse.1 hx)⟩
    rw [List.reverse_eq_iff.1 hlist]
    simp
  · rintro ⟨before, a, behind, rfl, ha, hbehind⟩
    exact ⟨behind.reverse, a, before.reverse, by simp, ha, fun x hx => hbehind x (List.mem_reverse.1 hx)⟩

theorem Part.searchName?_eq_some (part : Part) (value : String) :
    part.searchName? = some value ↔
      ∃ before name behind, part.clauses = before ++ .attribute name .equals value false :: behind ∧
        name.value = "name" ∧
          ∀ other operand, other.value = "name" → .attribute other .equals operand false ∉ behind := by
  rw [searchName?, getLast?_filterMap_eq_some]
  constructor
  · rintro ⟨before, clause, behind, hsplit, hclause, hbehind⟩
    obtain ⟨name, rfl, hname⟩ := Clause.searchName?_eq_some.1 hclause
    refine ⟨before, name, behind, hsplit, hname, fun other operand hother hmem => ?_⟩
    have hnone := hbehind _ hmem
    rw [Clause.searchName?_eq_some.2 ⟨other, rfl, hother⟩] at hnone
    cases hnone
  · rintro ⟨before, name, behind, hsplit, hname, hbehind⟩
    refine ⟨before, _, behind, hsplit, Clause.searchName?_eq_some.2 ⟨name, rfl, hname⟩, ?_⟩
    intro clause hmem
    by_contra hsome
    obtain ⟨operand, hoperand⟩ := Option.ne_none_iff_exists'.1 hsome
    obtain ⟨other, rfl, hother⟩ := Clause.searchName?_eq_some.1 hoperand
    exact hbehind other operand hother hmem

namespace Selector

theorem idPosition?_eq_some (selector : Selector) (position : Nat) :
    selector.idPosition? = some position ↔
      ∃ before part behind, selector.parts = before ++ part :: behind ∧ before.length = position ∧
        part.id? ≠ none ∧ ∀ later ∈ behind, later.id? = none := by
  rw [idPosition?, Option.map_eq_some_iff, ← List.filterMap_eq_filter]
  constructor
  · rintro ⟨⟨part, _⟩, hlast, rfl⟩
    obtain ⟨before, last, behind, hsplit, hpart, hbehind⟩ := getLast?_filterMap_eq_some.1 hlast
    obtain ⟨rfl, hid⟩ := Option.guard_eq_some_iff.1 hpart
    obtain ⟨parts, tail, hparts, -, htail⟩ := List.zipIdx_eq_append_iff.1 hsplit
    obtain ⟨first, rest, rfl, hfirst, hrest⟩ := List.zipIdx_eq_cons_iff.1 htail.symm
    obtain ⟨rfl, rfl⟩ := Prod.mk.inj hfirst
    refine ⟨parts, part, rest, hparts, (Nat.zero_add _).symm, Option.isSome_iff_ne_none.1 hid, ?_⟩
    intro later hmem
    rw [← List.zipIdx_map_fst (0 + parts.length + 1) rest, ← hrest] at hmem
    obtain ⟨x, hx, rfl⟩ := List.mem_map.1 hmem
    simpa using hbehind x hx
  · rintro ⟨before, part, behind, hsplit, rfl, hid, hbehind⟩
    refine ⟨(part, before.length), getLast?_filterMap_eq_some.2 ⟨before.zipIdx, (part, before.length),
      behind.zipIdx (before.length + 1), ?_, ?_, fun x hx => ?_⟩, rfl⟩
    · rw [hsplit, List.zipIdx_append, List.zipIdx_cons, Nat.zero_add]
    · exact Option.guard_eq_some_iff.2 ⟨rfl, Option.isSome_iff_ne_none.2 hid⟩
    · have hmem : x.1 ∈ behind := List.fst_mem_of_mem_zipIdx hx
      simpa using hbehind _ hmem

theorem idPosition?_eq_none (selector : Selector) :
    selector.idPosition? = none ↔ ∀ part ∈ selector.parts, part.id? = none := by
  rw [idPosition?, Option.map_eq_none_iff, List.getLast?_eq_none_iff, List.filter_eq_nil_iff]
  constructor
  · intro hnone part hmem
    rw [← List.zipIdx_map_fst 0 selector.parts] at hmem
    obtain ⟨x, hx, rfl⟩ := List.mem_map.1 hmem
    simpa using hnone x hx
  · intro hnone x hx
    simpa using hnone _ (List.fst_mem_of_mem_zipIdx hx)

end Selector

/-! ## Selectors that were read -/

/-- Conditions as the reader leaves them are well-formed. -/
theorem Part.wellFormed_of_legible (h : ∀ clause ∈ part.clauses, clause.Legible p quiet) :
    part.WellFormed p where
  attributes := by
    intro name tests hmem
    obtain ⟨key, hkey, heq⟩ := List.mem_map.1 hmem
    obtain ⟨rfl, rfl⟩ := Prod.mk.inj heq
    obtain ⟨found, hfound, rfl⟩ := List.mem_map.1 (List.mem_eraseDups.1 hkey)
    refine ⟨List.ne_nil_of_mem (List.mem_filter.2 ⟨hfound, beq_self_eq_true _⟩), fun test htest => ?_⟩
    obtain ⟨htest, hname⟩ := List.mem_filter.1 htest
    obtain ⟨clause, hclause, hattribute⟩ := List.mem_filterMap.1 htest
    obtain ⟨_, _, _, _, rfl, rfl⟩ := Clause.attribute?_eq_some.1 hattribute
    exact ⟨beq_iff_eq.1 hname, (h _ hclause).2.2.2⟩
  searchName := part.searchName?_eq_some
  arguments := by
    intro clause hmem
    have hlegible := h _ (mem_pseudos.1 hmem)
    exact Reader.fits_readArgument (PseudoClause.Legible.argument hlegible [])
  getter := by
    intro clause hgetter
    obtain ⟨hmem, hlists⟩ := List.mem_filter.1 (List.mem_of_getLast? hgetter)
    have hlegible := h _ (mem_pseudos.1 hmem)
    obtain ⟨hhas, hunsupported⟩ := Bool.and_eq_true_iff.1 hlists
    refine ⟨hmem, ?_, ?_⟩
    · rw [← PseudoClause.Legible.hasGetter hlegible, hhas]
    · obtain ⟨pseudo, hasGetter, written, argument⟩ := clause
      rw [PseudoClause.isSupported] at hunsupported
      simpa using hunsupported

/-- The conditions of a shape are among those of the part. -/
theorem Part.mem_clauses_of_shape {clause : Clause} (h : clause ∈ part.shape.clauses) :
    clause ∈ part.clauses := (List.mem_filter.1 h).1

/-- A shape holds no selectors but those of the part. -/
theorem Part.mem_inner_of_shape (h : inner ∈ part.shape.inner) : inner ∈ part.inner := by
  rcases List.mem_append.1 h with hnested | hcontained
  · obtain ⟨clause, hclause, hlist⟩ := List.mem_flatMap.1 hnested
    have hwhole := mem_pseudos.2 (mem_clauses_of_shape (mem_pseudos.1 hclause))
    exact List.mem_append_left _ (List.mem_flatMap.2 ⟨clause, hwhole, hlist⟩)
  · exact List.mem_append_right _ hcontained

theorem Selector.Legible.wellFormed (h : selector.Legible p quiet) : selector.WellFormed p := by
  cases h with
  | intro nonempty linked subject legible contained =>
    next parts =>
    refine ⟨nonempty, linked, idPosition?_eq_some _, idPosition?_eq_none _, fun hlead => ?_, subject,
      fun part hmem hcontainment => ?_, fun part hmem => ⟨?_, ?_⟩⟩
    · rw [isSupported, show parts.head?.any (·.combinator.isSome) = true from hlead]
      rfl
    · -- the shape has the containment of the part
      have hsome : part.containment ≠ none := hcontainment.elim id id
      by_contra hfalse
      exact hsome ((legible part hmem).containment (Bool.eq_false_iff.2 hfalse))
    · exact Part.wellFormed_of_legible (legible part hmem).clauses
    · exact Part.wellFormed_of_legible fun clause hclause =>
        (legible part hmem).clauses clause (Part.mem_clauses_of_shape hclause)

/-- What stands in a legible selector was read, too. -/
theorem Selector.Legible.of_mem_inner (h : selector.Legible p quiet) (hmem : inner ∈ selector.inner) :
    inner.Legible p False := by
  cases h with
  | intro _ _ _ legible contained =>
    obtain ⟨part, hpart, hinner⟩ := List.mem_flatMap.1 hmem
    have hstands : inner ∈ part.inner := (List.mem_append.1 hinner).elim id Part.mem_inner_of_shape
    rcases List.mem_append.1 hstands with hnested | hcontained
    · obtain ⟨clause, hclause, hlist⟩ := List.mem_flatMap.1 hnested
      have hlegible := (legible part hpart).clauses _ (Part.mem_pseudos.1 hclause)
      have hread := PseudoClause.Legible.argument hlegible []
      cases hargument : clause.argument with
      | nested list =>
        rw [hargument] at hread hlist
        obtain ⟨-, s, -, -, hs⟩ := Reader.readArgument_eq_nested hread
        exact (Reader.legible_standardLists _ hs inner hlist).mono False.elim
      | _ =>
        rw [hargument] at hlist
        cases hlist
    · exact (contained part hpart inner (Option.mem_toList.1 hcontained)).mono False.elim

/-- The invariants hold of the selector and of all that stand in it. -/
def Selector.WellFormedWithin (p : Profile) (selector : Selector) : Prop :=
  ∀ inner, selector.Nests inner → inner.WellFormed p

theorem Selector.WellFormedWithin.of_mem_inner (h : selector.WellFormedWithin p)
    (hmem : inner ∈ selector.inner) : inner.WellFormedWithin p :=
  fun deep hdeep => h deep (.head hmem hdeep)

/-- Every selector that is read is well-formed, and so are the selectors that stand in it at any depth. -/
theorem Selector.Legible.wellFormedWithin (h : selector.Legible p False) : selector.WellFormedWithin p := by
  intro inner hnests
  have hlegible : inner.Legible p False := by
    induction hnests with
    | refl => exact h
    | tail _ hinner ih => exact ih.of_mem_inner hinner
  exact hlegible.wellFormed

end TreeQuery
