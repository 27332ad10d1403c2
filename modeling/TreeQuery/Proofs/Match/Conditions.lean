import TreeQuery.Match

/-!
# The conditions of a part

A part is satisfied by an element that has its name, satisfies its conditions one by one, and has what
the containment asks for below it. This module takes the tests of a part apart, and says what the
conditions that a lookup can serve require of an element.
-/

namespace TreeQuery

variable {sc : Scene} {part : Part} {clause : Clause} {node : NodeId}

/-! ## The conditions of a kind -/

namespace Clause

theorem pseudo?_eq_some {pseudo : PseudoClause} : clause.pseudo? = some pseudo ↔ clause = .pseudo pseudo := by
  cases clause <;> simp [pseudo?]

theorem attribute?_eq_some {test : AttributeTest} :
    clause.attribute? = some test ↔ ∃ name comparator operand ignoreCase,
      clause = .attribute name comparator operand ignoreCase ∧
        test = ⟨name.value, comparator, operand, ignoreCase⟩ := by
  constructor
  · intro h
    obtain _ | _ | ⟨name, comparator, operand, ignoreCase⟩ | _ := clause
    · cases h
    · cases h
    · exact ⟨name, comparator, operand, ignoreCase, rfl, (Option.some.inj h).symm⟩
    · cases h
  · rintro ⟨name, comparator, operand, ignoreCase, rfl, rfl⟩
    rfl

/-- A condition that a lookup by the attribute `name` serves is an equality with regard to case. -/
theorem searchName?_eq_some {value : String} :
    clause.searchName? = some value ↔
      ∃ name, clause = .attribute name .equals value false ∧ name.value = "name" := by
  rw [searchName?, Option.map_eq_some_iff]
  constructor
  · rintro ⟨test, htest, rfl⟩
    obtain ⟨hattribute, hplain⟩ := Option.filter_eq_some_iff.1 htest
    obtain ⟨name, comparator, operand, ignoreCase, rfl, rfl⟩ := attribute?_eq_some.1 hattribute
    obtain ⟨⟨rfl, rfl⟩, hkey⟩ := by simpa [AttributeTest.isPlainEquality] using hplain
    exact ⟨name, rfl, hkey⟩
  · rintro ⟨name, rfl, hkey⟩
    refine ⟨_, Option.filter_eq_some_iff.2 ⟨rfl, ?_⟩, rfl⟩
    simp [AttributeTest.isPlainEquality, hkey]

end Clause

namespace Part

theorem mem_pseudos {pseudo : PseudoClause} : pseudo ∈ part.pseudos ↔ .pseudo pseudo ∈ part.clauses := by
  rw [pseudos, List.mem_filterMap]
  constructor
  · rintro ⟨clause, hmem, hpseudo⟩
    rwa [← Clause.pseudo?_eq_some.1 hpseudo]
  · exact fun hmem => ⟨_, hmem, rfl⟩

/-! ## What a satisfied part says of an element -/

theorem isLike_iff :
    part.isLike sc node = true ↔
      sc.view.isElement node = true ∧ (∀ name, part.tag = some name →
        sc.view.hasTag node name.value = true) ∧
        (∀ clause ∈ part.clauses, clause.accepts sc node = true) ∧
          Selector.acceptsBelow sc part.containment node = true := by
  obtain ⟨combinator, subject, tag, clauses, containment⟩ := part
  rw [isLike, Clause.allAccept_eq_all]
  simp only [Bool.and_eq_true, List.all_eq_true, and_assoc, Option.all_eq_true_iff_get]
  refine and_congr_right fun _ => and_congr_left fun _ => ?_
  constructor
  · rintro htag name rfl
    exact htag rfl
  · intro htag hsome
    exact htag _ (Option.some_get hsome).symm

theorem accepts_iff :
    part.accepts sc node = true ↔ part.isLike sc node = true ∧
      ∀ clause ∈ part.pseudos, sc.compares (part.isLike sc) clause node = true := by
  rw [accepts, Bool.and_eq_true, List.all_eq_true]

/-- Only an element satisfies a part. -/
theorem isElement_of_accepts (h : part.accepts sc node = true) : sc.view.isElement node = true :=
  (isLike_iff.1 (accepts_iff.1 h).1).1

theorem hasTag_of_accepts (h : part.accepts sc node = true) {name : Ident}
    (htag : part.tag = some name) : sc.view.hasTag node name.value = true :=
  (isLike_iff.1 (accepts_iff.1 h).1).2.1 name htag

theorem clause_of_accepts (h : part.accepts sc node = true) (hmem : clause ∈ part.clauses) :
    clause.accepts sc node = true :=
  (isLike_iff.1 (accepts_iff.1 h).1).2.2.1 clause hmem

/-- An element that is like those of a part has the id of the part. -/
theorem id_of_isLike (h : part.isLike sc node = true) {name : Ident} (hid : part.id? = some name) :
    sc.view.id node = some name.value := by
  obtain ⟨clause, hmem, hclause⟩ := List.exists_of_findSome?_eq_some hid
  have haccepts := (isLike_iff.1 h).2.2.1 clause hmem
  cases clause with
  | id other =>
    obtain rfl : other = name := Option.some.inj hclause
    simpa [Clause.accepts] using haccepts
  | _ => cases hclause

/-- An element that satisfies a part has the id of the part. -/
theorem id_of_accepts (h : part.accepts sc node = true) {name : Ident} (hid : part.id? = some name) :
    sc.view.id node = some name.value := id_of_isLike (accepts_iff.1 h).1 hid

/-- An element that satisfies a part has all classes of the part. -/
theorem hasClass_of_accepts (h : part.accepts sc node = true) {name : Ident}
    (hmem : name ∈ part.classes) : sc.view.hasClass node name.value = true := by
  obtain ⟨clause, hmem, hclause⟩ := List.mem_filterMap.1 hmem
  have haccepts := clause_of_accepts h hmem
  cases clause with
  | hasClass other =>
    obtain rfl : other = name := Option.some.inj hclause
    simpa [Clause.accepts] using haccepts
  | _ => cases hclause

/-- An element that satisfies a part has the required value of the attribute `name`. -/
theorem attr_name_of_accepts (h : part.accepts sc node = true) {value : String}
    (hname : part.searchName? = some value) : sc.view.attr node "name" = some value := by
  obtain ⟨clause, hmem, hclause⟩ := List.mem_filterMap.1 (List.mem_of_getLast? hname)
  have haccepts := clause_of_accepts h hmem
  obtain ⟨name, rfl, hkey⟩ := Clause.searchName?_eq_some.1 hclause
  rw [Clause.accepts, hkey, Option.any_eq_true] at haccepts
  obtain ⟨found, hattr, hequal⟩ := haccepts
  rw [hattr]
  simpa [AttributeTest.accepts, Comparator.compare, String.toList_inj] using hequal

/-- An element that satisfies a part satisfies its pseudo-classes. -/
theorem satisfies_of_accepts (h : part.accepts sc node = true) {pseudo : PseudoClause}
    (hmem : pseudo ∈ part.pseudos) :
    sc.satisfies pseudo.pseudo pseudo.argument (pseudo.argument.inList? sc) node = true := by
  have haccepts := clause_of_accepts h (mem_pseudos.1 hmem)
  obtain ⟨kind, _, _, argument⟩ := pseudo
  rwa [Clause.accepts] at haccepts

end Part
end TreeQuery
