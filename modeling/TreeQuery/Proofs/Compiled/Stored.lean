import TreeQuery.Proofs.Compiled.Lookups
import TreeQuery.Proofs.Compiled.Shape
import TreeQuery.Proofs.Reader.Join
import TreeQuery.Proofs.Selector.WellFormed

/-!
# What is stored of a selector

Reading stores a compiled form of each branch: the parts with their conditions sorted by kind, the position of the
last id, what the host is told, how the parts are looked up. The invariants of selectors hold of all that is
stored, in lists, containments and shapes at any depth (`Selector.wellFormed_of_read`). Whatever is stored of two
lists is stored of the lists joined by a comma (`Selector.read_comma`).
-/

namespace TreeQuery

open Relation Text

variable {p : Profile}

/-! ## The invariants -/

namespace Compiled

/-- An argument of the kind that the grammar asks for. Its formula selects some position. -/
def Argument.Fits : ArgumentGrammar → Argument → Prop
  | .none, .none => True
  | .text, .text _ => True
  | .formula, .formula f => f.isSatisfiable = true
  | .nested, .nested _ => True
  | .relative, .relative Option.none _ => True
  | .relativeFormula, .relative (some f) _ => f.isSatisfiable = true
  | .linkDepth, .linkDepth _ => True
  | _, _ => False

/-- What holds of a stored part. -/
structure Part.WellFormed (p : Profile) (part : Part) : Prop where
  attributes : ∀ test ∈ part.attributes, test.isImpossible = false
  searchName : part.searchName = ((part.attributes.filter isNameTest).getLast?).map (·.operand)
  arguments : ∀ pseudo ∈ part.pseudos, pseudo.argument.Fits (Entry.standard pseudo.pseudo).grammar
  getter : ∀ getter, part.getter = some getter → (Entry.standard getter.pseudo).hasGetter = true ∧
    ∃ pseudo ∈ part.pseudos, pseudo.pseudo = getter.pseudo ∧ p.tier pseudo.pseudo < pseudo.tier
  lookups : part.directLookups.toNat = part.lookups p

/-- What holds of a stored branch. -/
structure Branch.WellFormed (branch : Branch) : Prop where
  nonempty : branch.parts ≠ []
  linked : ∀ part ∈ branch.parts.tail, part.combinator ≠ none
  lastId : ∀ position, branch.idPosition = some position ↔
    ∃ before part behind, branch.parts = before ++ part :: behind ∧ before.length = position ∧
      part.id ≠ none ∧ ∀ later ∈ behind, later.id = none
  noId : branch.idPosition = none ↔ ∀ part ∈ branch.parts, part.id = none
  leading : ∀ first ∈ branch.parts.head?, first.combinator ≠ none → branch.fullSupport = false
  subject : ∀ part ∈ branch.parts.dropLast, part.subject = false
  containment : ∀ part ∈ branch.parts, part.containment ≠ none → part.subject = true
  shapes : ∀ part ∈ branch.parts, ∀ pseudo ∈ part.pseudos, ∀ formula shape,
    pseudo.argument = .relative formula shape → shape.containment ≠ none → part.subject = true

/-- The invariants hold of a branch or a part. -/
def Piece.WellFormed (p : Profile) : Piece → Prop
  | .branch found => found.WellFormed
  | .part found => found.WellFormed p

end Compiled

/-- What a selector stores: its branch, its parts and their shapes. A pseudo-class that is given no shape stores
an empty one. -/
def Compiled.Piece.StoredOf (p : Profile) (selector : Selector) : Compiled.Piece → Prop
  | .branch found => found = selector.compiled p
  | .part found => found = .empty ∨ ∃ part ∈ selector.parts,
    found = part.compiled p ∨ found = (part.unshaped p).shape

variable {part : Part} {selector inner : Selector} {piece : Compiled.Piece}

/-! ## Parts -/

namespace Part

theorem mem_pseudos_unshaped {pseudo : Compiled.Pseudo} : pseudo ∈ (part.unshaped p).pseudos ↔
    ∃ clause ∈ part.pseudos, ⟨clause.pseudo, clause.argument.tier p, clause.argument.compiled p⟩ = pseudo := by
  have hcompiled : (Clause.compiledAll p part.clauses).filterMap Compiled.Clause.pseudo? =
      part.pseudos.map fun clause => ⟨clause.pseudo, clause.argument.tier p, clause.argument.compiled p⟩ := by
    rw [Clause.compiledAll_eq_map, List.filterMap_map, pseudos, List.map_filterMap]
    refine List.filterMap_congr fun clause _ => ?_
    rcases clause with _ | _ | _ | ⟨_, _, _, _⟩ <;> rfl
  rw [unshaped, hcompiled, List.mem_map]

theorem getter_unshaped (p : Profile) (part : Part) : (part.unshaped p).getter =
    (part.getter? p).map fun getter => ⟨getter.pseudo, getter.argument.compiled p⟩ := by
  rw [← getter_compiled, compiled_eq]
  rfl

/-- The value for a lookup by name is that of the last test that is counted. -/
theorem searchName?_eq (part : Part) :
    part.searchName? = ((part.attributes.filter Compiled.isNameTest).getLast?).map (·.operand) := by
  rw [searchName?, attributes, ← List.filterMap_eq_filter, List.filterMap_filterMap, ← List.getLast?_map,
    List.map_filterMap]
  congr 1
  refine List.filterMap_congr fun clause _ => ?_
  rw [Clause.searchName?]
  cases clause.attribute? with
  | none => rfl
  | some test =>
    show Option.map _ (Option.filter Compiled.isNameTest (some test)) = _
    rw [Option.filter_some]
    rfl

end Part

/-- An argument is stored as one of its kind. -/
theorem Argument.fits_compiled {grammar : ArgumentGrammar} {argument : Argument} (h : argument.Fits grammar) :
    (argument.compiled p).Fits grammar := by
  cases argument with
  | relative formula => cases grammar <;> cases formula <;> exact h
  | _ => cases grammar <;> exact h

theorem Compiled.Pseudo.tier_attach (shape : Compiled.Part) (pseudo : Pseudo) :
    (pseudo.attach shape).tier = pseudo.tier := by
  unfold attach
  split <;> rfl

/-- The shape that a pseudo-class stores is the one that it is given, or the one that it had. -/
theorem Compiled.Pseudo.argument_attach {shape found : Compiled.Part} {pseudo : Pseudo}
    {formula : Option Formula} (h : (pseudo.attach shape).argument = .relative formula found) :
    found = shape ∨ pseudo.argument = .relative formula found := by
  obtain ⟨kind, tier, argument⟩ := pseudo
  cases argument with
  | relative formula' old =>
    obtain ⟨rfl, rfl⟩ := Compiled.Argument.relative.inj h
    split
    · exact .inl rfl
    · exact .inr rfl
  | _ => exact .inr h

theorem Argument.eq_empty_of_compiled {argument : Argument} {formula : Option Formula} {shape : Compiled.Part}
    (h : argument.compiled p = .relative formula shape) : shape = .empty := by
  cases argument with
  | relative => exact (Compiled.Argument.relative.inj h).2.symm
  | _ => cases h

/-- And remains of its kind when it is given a shape. -/
theorem Compiled.Pseudo.fits_attach {grammar : ArgumentGrammar} {pseudo : Pseudo} (shape : Compiled.Part)
    (h : pseudo.argument.Fits grammar) : (pseudo.attach shape).argument.Fits grammar := by
  obtain ⟨kind, tier, argument⟩ := pseudo
  cases argument with
  | relative formula old => cases grammar <;> cases formula <;> exact h
  | _ => exact h

namespace Part.WellFormed

/-- What is stored of the conditions of a part, before and after a shape is put into its pseudo-classes. -/
theorem arguments_unshaped (h : part.WellFormed p) :
    ∀ pseudo ∈ (part.unshaped p).pseudos, pseudo.argument.Fits (Entry.standard pseudo.pseudo).grammar := by
  intro pseudo hmem
  obtain ⟨clause, hclause, rfl⟩ := mem_pseudos_unshaped.1 hmem
  exact Argument.fits_compiled (h.arguments clause hclause)

theorem isImpossible (h : part.WellFormed p) {test : AttributeTest} (hmem : test ∈ part.attributes) :
    test.isImpossible = false := by
  have hentry : (test.name, part.attributes.filter (·.name == test.name)) ∈ part.attributeEntries :=
    List.mem_map.2 ⟨test.name, List.mem_eraseDups.2 (List.mem_map_of_mem hmem), rfl⟩
  have hwithin : test ∈ part.attributes.filter (·.name == test.name) :=
    List.mem_filter.2 ⟨hmem, beq_self_eq_true _⟩
  exact ((h.attributes _ _ hentry).2 test hwithin).2

/-- The invariants hold of the stored part. -/
theorem compiled (h : part.WellFormed p) (hexact : (part.compiled p).IsExact p) :
    (part.compiled p).WellFormed p where
  attributes := by
    rw [compiled_eq]
    exact fun test hmem => h.isImpossible hmem
  searchName := by
    rw [compiled_eq]
    exact part.searchName?_eq
  arguments := by
    rw [compiled_eq]
    intro pseudo hmem
    obtain ⟨stored, hstored, rfl⟩ := List.mem_map.1 hmem
    rw [Compiled.Pseudo.pseudo_attach]
    exact Compiled.Pseudo.fits_attach _ (h.arguments_unshaped stored hstored)
  getter := by
    rw [compiled_eq]
    intro getter hgetter
    obtain ⟨clause, hclause, rfl⟩ := Option.map_eq_some_iff.1 ((getter_unshaped p part).symm.trans hgetter)
    obtain ⟨hmem, hhas, htier⟩ := h.getter clause hclause
    let stored : Compiled.Pseudo := ⟨clause.pseudo, clause.argument.tier p, clause.argument.compiled p⟩
    have hstored : stored ∈ (part.unshaped p).pseudos := mem_pseudos_unshaped.2 ⟨clause, hmem, rfl⟩
    refine ⟨hhas, _, List.mem_map_of_mem hstored, Compiled.Pseudo.pseudo_attach _ _, ?_⟩
    rw [Compiled.Pseudo.pseudo_attach, Compiled.Pseudo.tier_attach]
    exact htier
  lookups := hexact

/-- The invariants hold of its shape. -/
theorem shape (h : part.WellFormed p) (hexact : (part.unshaped p).shape.IsExact p) :
    (part.unshaped p).shape.WellFormed p where
  attributes := fun _ hmem => h.isImpossible hmem
  searchName := part.searchName?_eq
  arguments := fun pseudo hmem => h.arguments_unshaped pseudo (List.mem_of_mem_filter hmem)
  getter := nofun
  lookups := hexact

end Part.WellFormed

/-! ## Branches -/

theorem Selector.parts_compiled (p : Profile) (selector : Selector) :
    (selector.compiled p).parts = selector.parts.map (·.compiled p) := by
  obtain ⟨parts⟩ := selector
  exact Part.compiledAll_eq_map p parts

theorem Selector.idPosition_compiled (p : Profile) (selector : Selector) :
    (selector.compiled p).idPosition = selector.idPosition? := by
  obtain ⟨parts⟩ := selector
  rfl

theorem Selector.fullSupport_compiled (p : Profile) (selector : Selector) :
    (selector.compiled p).fullSupport = selector.isSupported p := by
  obtain ⟨parts⟩ := selector
  rfl

theorem Part.containment_of_unshaped (h : (part.unshaped p).containment ≠ none) : part.containment ≠ none := by
  intro hnone
  have hcompiled : Selector.compiledWithin p part.containment ≠ none := h
  rw [hnone] at hcompiled
  exact hcompiled rfl

theorem Part.id_compiled (p : Profile) (part : Part) : (part.compiled p).id = part.id?.map (·.value) := by
  rw [compiled_eq]
  rfl

theorem Selector.WellFormed.compiled (h : selector.WellFormed p) : (selector.compiled p).WellFormed where
  nonempty := by
    rw [Selector.parts_compiled]
    exact fun hnil => h.nonempty (List.map_eq_nil_iff.1 hnil)
  linked := by
    rw [Selector.parts_compiled, ← List.map_tail]
    intro found hmem
    obtain ⟨part, hpart, rfl⟩ := List.mem_map.1 hmem
    rw [Part.compiled_eq]
    exact h.linked part hpart
  lastId := by
    intro position
    rw [Selector.parts_compiled, Selector.idPosition_compiled]
    refine (h.lastId position).trans ⟨?_, ?_⟩
    · rintro ⟨before, part, behind, hparts, rfl, hid, hbehind⟩
      refine ⟨before.map (·.compiled p), part.compiled p, behind.map (·.compiled p), ?_,
        List.length_map _, ?_, ?_⟩
      · rw [hparts, List.map_append, List.map_cons]
      · rw [Part.id_compiled]
        exact fun hnone => hid (Option.map_eq_none_iff.1 hnone)
      · intro found hmem
        obtain ⟨later, hlater, rfl⟩ := List.mem_map.1 hmem
        rw [Part.id_compiled, hbehind later hlater]
        rfl
    · rintro ⟨before, found, behind, hparts, rfl, hid, hbehind⟩
      obtain ⟨front, rest, hsplit, rfl, hrest⟩ := List.map_eq_append_iff.1 hparts
      obtain ⟨part, others, rfl, rfl, rfl⟩ := List.map_eq_cons_iff.1 hrest
      refine ⟨front, part, others, hsplit, (List.length_map _).symm, ?_, fun later hlater => ?_⟩
      · rw [Part.id_compiled] at hid
        exact fun hnone => hid (Option.map_eq_none_iff.2 hnone)
      · have hnone := hbehind _ (List.mem_map_of_mem hlater)
        rw [Part.id_compiled] at hnone
        exact Option.map_eq_none_iff.1 hnone
  noId := by
    rw [Selector.parts_compiled, Selector.idPosition_compiled]
    refine h.noId.trans ⟨fun hnone found hmem => ?_, fun hnone part hmem => ?_⟩
    · obtain ⟨part, hpart, rfl⟩ := List.mem_map.1 hmem
      rw [Part.id_compiled, hnone part hpart]
      rfl
    · have hfound := hnone _ (List.mem_map_of_mem hmem)
      rw [Part.id_compiled] at hfound
      exact Option.map_eq_none_iff.1 hfound
  leading := by
    rw [Selector.parts_compiled, List.head?_map, Selector.fullSupport_compiled]
    intro found hfound hlink
    obtain ⟨part, hpart, rfl⟩ := Option.map_eq_some_iff.1 hfound
    rw [Part.compiled_eq] at hlink
    refine h.leading ?_
    rw [Selector.hasLeadingCombinator, hpart]
    exact Option.isSome_iff_ne_none.2 hlink
  subject := by
    rw [Selector.parts_compiled, ← List.map_dropLast]
    intro found hmem
    obtain ⟨part, hpart, rfl⟩ := List.mem_map.1 hmem
    rw [Part.compiled_eq]
    exact h.subject part hpart
  containment := by
    rw [Selector.parts_compiled]
    intro found hmem hsome
    obtain ⟨part, hpart, rfl⟩ := List.mem_map.1 hmem
    rw [Part.compiled_eq] at hsome ⊢
    exact h.containment part hpart (.inl (Part.containment_of_unshaped hsome))
  shapes := by
    rw [Selector.parts_compiled]
    intro found hmem pseudo hpseudo formula shape hargument hsome
    obtain ⟨part, hpart, rfl⟩ := List.mem_map.1 hmem
    rw [Part.compiled_eq] at hpseudo ⊢
    obtain ⟨stored, hstored, rfl⟩ := List.mem_map.1 hpseudo
    rcases Compiled.Pseudo.argument_attach hargument with rfl | hold
    · exact h.containment part hpart (.inl (Part.containment_of_unshaped hsome))
    · -- no shape is stored but those that are put in at the end
      obtain ⟨clause, -, rfl⟩ := Part.mem_pseudos_unshaped.1 hstored
      obtain rfl := Argument.eq_empty_of_compiled hold
      exact absurd rfl hsome

/-! ## All depths -/

theorem Argument.holds_compiled {argument : Argument} (h : (argument.compiled p).Holds piece) :
    (∃ inner ∈ argument.nested?.getD [], piece = .branch (inner.compiled p)) ∨ piece = .part .empty := by
  cases argument with
  | nested list =>
    cases piece with
    | branch found =>
      have hmem : found ∈ Selector.compiledAll p list := h
      rw [Selector.compiledAll_eq_map] at hmem
      obtain ⟨inner, hinner, rfl⟩ := List.mem_map.1 hmem
      exact .inl ⟨inner, hinner, rfl⟩
    | part => cases h
  | relative formula =>
    cases piece with
    | branch => cases h
    | part found => exact .inr (congrArg _ h)
  | _ => cases piece <;> cases h

/-- In a part are stored the selectors that stand in it. -/
theorem Part.holds_unshaped (h : (part.unshaped p).Holds piece) :
    (∃ inner ∈ part.inner, piece = .branch (inner.compiled p)) ∨ piece = .part .empty := by
  have hargument : ∀ clause ∈ part.pseudos, (clause.argument.compiled p).Holds piece →
      (∃ inner ∈ part.inner, piece = .branch (inner.compiled p)) ∨ piece = .part .empty :=
    fun clause hclause hholds => (Argument.holds_compiled hholds).imp_left fun ⟨inner, hinner, heq⟩ =>
      ⟨inner, List.mem_append_left _ (List.mem_flatMap.2 ⟨clause, hclause, hinner⟩), heq⟩
  rcases h with ⟨found, hfound, rfl⟩ | ⟨pseudo, hpseudo, hholds⟩ | ⟨getter, hgetter, hholds⟩
  · have hcontained : Selector.compiledWithin p part.containment = some found := hfound
    cases hinner : part.containment with
    | none =>
      rw [hinner] at hcontained
      cases hcontained
    | some inner =>
      rw [hinner] at hcontained
      obtain rfl := Option.some.inj hcontained
      exact .inl ⟨inner, List.mem_append_right _ (Option.mem_toList.2 hinner), rfl⟩
  · obtain ⟨clause, hclause, rfl⟩ := mem_pseudos_unshaped.1 hpseudo
    exact hargument clause hclause hholds
  · obtain ⟨clause, hclause, rfl⟩ := Option.map_eq_some_iff.1 ((getter_unshaped p part).symm.trans hgetter)
    exact hargument clause (List.mem_of_mem_filter (List.mem_of_getLast? hclause)) hholds

namespace Compiled.Piece

/-- What stands in a stored piece is stored of a selector that stands in the same selector. -/
theorem StoredOf.of_holds {outer : Piece} (houter : outer.StoredOf p selector) (h : outer.Holds piece)
    (hwithin : selector.WellFormedWithin p) :
    ∃ inner, inner.WellFormedWithin p ∧ piece.StoredOf p inner := by
  have hunshaped : ∀ part ∈ selector.parts, (part.unshaped p).Holds piece →
      ∃ inner, inner.WellFormedWithin p ∧ piece.StoredOf p inner := by
    intro part hpart hholds
    rcases Part.holds_unshaped hholds with ⟨inner, hinner, rfl⟩ | rfl
    · have hmem : inner ∈ selector.inner :=
        List.mem_flatMap.2 ⟨part, hpart, List.mem_append_left _ hinner⟩
      exact ⟨inner, hwithin.of_mem_inner hmem, rfl⟩
    · exact ⟨selector, hwithin, .inl rfl⟩
  cases outer with
  | branch found =>
    obtain rfl : found = selector.compiled p := houter
    cases piece with
    | branch => cases h
    | part found =>
      have hmem : found ∈ (selector.compiled p).parts := h
      rw [Selector.parts_compiled] at hmem
      obtain ⟨part, hpart, rfl⟩ := List.mem_map.1 hmem
      exact ⟨selector, hwithin, .inr ⟨part, hpart, .inl rfl⟩⟩
  | part found =>
    rcases houter with rfl | ⟨part, hpart, rfl | rfl⟩
    · exact absurd h (Part.not_holds rfl rfl rfl piece)
    · have hholds : (part.unshaped p).attachShapes.Holds piece := Part.compiled_eq p part ▸ h
      rcases Part.holds_attachShapes hholds with hholds | rfl
      · exact hunshaped part hpart hholds
      · exact ⟨selector, hwithin, .inr ⟨part, hpart, .inr rfl⟩⟩
    · exact hunshaped part hpart (Part.holds_of_shape h)

/-- The invariants hold of what is stored of a selector of which they hold. -/
theorem StoredOf.wellFormed (h : piece.StoredOf p selector) (hwithin : selector.WellFormedWithin p)
    (hexact : piece.IsExact p) : piece.WellFormed p := by
  have hselector := hwithin selector .refl
  cases piece with
  | branch found =>
    obtain rfl : found = selector.compiled p := h
    exact hselector.compiled
  | part found =>
    rcases h with rfl | ⟨part, hpart, rfl | rfl⟩
    · exact ⟨fun _ hmem => absurd hmem List.not_mem_nil, rfl, fun _ hmem => absurd hmem List.not_mem_nil,
        nofun, rfl⟩
    · exact (hselector.parts part hpart).1.compiled hexact
    · exact (hselector.parts part hpart).1.shape hexact

end Compiled.Piece

/-- Every selector that is read is well-formed, and so are the selectors that stand in it at any depth. The same
invariants hold of all that is stored of them. -/
theorem Selector.wellFormed_of_read (p : Profile) {text : String} {list : List Selector}
    (h : Selector.read ⟨.standard, p⟩ text = .ok list) :
    (∀ selector ∈ list, ∀ inner, selector.Nests inner → inner.WellFormed p) ∧
    ∃ branches, Compiled.read ⟨.standard, p⟩ text = .ok branches ∧ ∀ branch ∈ branches, ∀ piece,
      ReflTransGen Compiled.Piece.Holds (.branch branch) piece → piece.WellFormed p := by
  have hwithin : ∀ selector ∈ list, selector.WellFormedWithin p :=
    fun selector hmem => (legible_of_read h hmem).wellFormedWithin
  have hread : Compiled.read ⟨.standard, p⟩ text = .ok (list.map (Selector.compiled p)) :=
    Compiled.read_eq_ok_iff.2 ⟨list, h, rfl⟩
  refine ⟨hwithin, _, hread, fun branch hbranch piece hholds => ?_⟩
  have hexact := Compiled.isExactWithin_of_read hread branch hbranch piece hholds
  obtain ⟨selector, hmem, rfl⟩ := List.mem_map.1 hbranch
  have hstored : ∃ inner, inner.WellFormedWithin p ∧ piece.StoredOf p inner := by
    clear hexact
    induction hholds with
    | refl => exact ⟨selector, hwithin selector hmem, rfl⟩
    | tail _ hstep ih =>
      obtain ⟨outer, houter, hfrom⟩ := ih
      exact hfrom.of_holds hstep houter
  obtain ⟨inner, hinner, hfrom⟩ := hstored
  exact hfrom.wellFormed hinner hexact

/-- The selector `q`. -/
def Selector.bareQ : Selector := ⟨[⟨none, false, some ⟨"q"⟩, [], none⟩]⟩

/-- The part `$p:first-match q`. -/
def Part.firstWithQ : Part :=
  ⟨none, true, some ⟨"p"⟩, [.pseudo ⟨.firstMatch, false, none, .relative none⟩], some .bareQ⟩

open Reader in
theorem Selector.read_firstWithQ : Selector.read .standard "$p:first-match q" = .ok [⟨[.firstWithQ]⟩] := by
  have hclauses : readClauses .standard (readLists .standard) (.start (some ⟨"p"⟩)) ":first-match q".toList =
      .done Part.firstWithQ.clauses " q".toList := by with_unfolding_all rfl
  have hinner : readContainment (readLists .standard) " q".toList = .done (some bareQ) [] := by
    with_unfolding_all rfl
  have hpart : readPart .standard (readLists .standard) none "$p:first-match q".toList = .done .firstWithQ [] := by
    show (readClauses .standard (readLists .standard) (.start (some ⟨"p"⟩)) ":first-match q".toList).andThen _ = _
    rw [hclauses]
    show (readContainment (readLists .standard) " q".toList).andThen _ = _
    rw [hinner]
    rfl
  have hparts : readParts .standard (readLists .standard) true "$p:first-match q".toList =
      .done [.firstWithQ] [] := by
    rw [readParts_eq, if_neg (by decide)]
    show (readPart .standard (readLists .standard) none "$p:first-match q".toList).andThen _ = _
    rw [hpart]
    show (readParts .standard (readLists .standard) false []).map _ = _
    rw [readParts_eq]
    rfl
  exact Selector.read_eq_ok.2 (readLists_of_readParts (by decide) (by decide) hparts)

/-- The invariants hold of the containment of `$p:first-match q`, and of what is stored of the branch. -/
theorem Selector.wellFormed_bareQ :
    Selector.read .standard "$p:first-match q" = .ok [⟨[.firstWithQ]⟩] ∧
      Selector.Nests ⟨[.firstWithQ]⟩ .bareQ ∧ Selector.bareQ.WellFormed .manual ∧
        ∃ branches, Compiled.read .standard "$p:first-match q" = .ok branches ∧
          ∀ branch ∈ branches, branch.WellFormed := by
  have hnests : Selector.Nests ⟨[.firstWithQ]⟩ .bareQ := .single List.mem_cons_self
  obtain ⟨hselectors, branches, hread, hpieces⟩ := wellFormed_of_read .manual read_firstWithQ
  exact ⟨read_firstWithQ, hnests, hselectors _ List.mem_cons_self _ hnests, branches, hread,
    fun branch hbranch => hpieces branch hbranch (.branch branch) .refl⟩

/-- The shape that `:first-match` compares siblings with has the containment of its part, and is no
subject. -/
theorem Selector.shape_firstWithQ :
    Selector.read .standard "$p:first-match q" = .ok [⟨[.firstWithQ]⟩] ∧
      Part.firstWithQ.clauses.any (·.isRelative) = true ∧
        Part.firstWithQ.shape.containment ≠ none ∧ Part.firstWithQ.shape.subject = false :=
  ⟨read_firstWithQ, rfl, Option.some_ne_none _, rfl⟩

/-! ## Two lists -/

/-- Two lists joined by a comma read as the branches of the first and those of the second, if the first
ends outside of every bracket and quote and neither is blank. What is stored of each is stored of both. -/
theorem Selector.read_comma {parser : Parser} {a b : String} {list others : List Selector}
    (ha : Selector.read parser a = .ok list) (hb : Selector.read parser b = .ok others)
    (hfirst : trim a.toList ≠ []) (hsecond : trim b.toList ≠ [])
    (hlast : ∀ c, a.toList.getLast? = some c → isBlank c = false) (hsettled : Settled a.toList) :
    Selector.read parser (a ++ "," ++ b) = .ok (list ++ others) ∧
    ∃ branches more, Compiled.read parser a = .ok branches ∧ Compiled.read parser b = .ok more ∧
      Compiled.read parser (a ++ "," ++ b) = .ok (branches ++ more) := by
  have hread := read_append_comma ha hb hfirst hsecond hlast hsettled
  have hstored := Compiled.read_eq_ok_iff.2 ⟨list, ha, rfl⟩
  have hstored' := Compiled.read_eq_ok_iff.2 ⟨others, hb, rfl⟩
  exact ⟨hread, _, _, hstored, hstored', Compiled.read_eq_ok_iff.2 ⟨_, hread, List.map_append⟩⟩

/-- The selector `> p`. -/
def Selector.childParagraph : Selector := ⟨[⟨some .child, false, some ⟨"p"⟩, [], none⟩]⟩

/-- A branch that asks for two ids is dead, and the branches around it stay as they are. -/
theorem Selector.read_comma_twoIds :
    Selector.read .standard "li:lang(de), #x#y" = .ok [germanItem] ∧
      Selector.read .standard " > p" = .ok [childParagraph] ∧
        Selector.read .standard ("li:lang(de), #x#y" ++ "," ++ " > p") =
          .ok ([germanItem] ++ [childParagraph]) ∧
        ∃ branches more, Compiled.read .standard "li:lang(de), #x#y" = .ok branches ∧
          Compiled.read .standard " > p" = .ok more ∧
            Compiled.read .standard ("li:lang(de), #x#y" ++ "," ++ " > p") = .ok (branches ++ more) := by
  have ha : Selector.read .standard "li:lang(de), #x#y" = .ok [germanItem] := by
    with_unfolding_all rfl
  have hb : Selector.read .standard " > p" = .ok [childParagraph] := by
    with_unfolding_all rfl
  have hlast : ∀ c, "li:lang(de), #x#y".toList.getLast? = some c → isBlank c = false := by
    rintro c ⟨⟩
    decide
  exact ⟨ha, hb, read_comma ha hb (by decide) (by decide) hlast (by decide)⟩

end TreeQuery
