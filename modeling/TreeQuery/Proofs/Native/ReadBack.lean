import TreeQuery.Proofs.Native.Printed

/-!
# The text for a host is read back

The text for a host reads as what is kept of the selector, if three things hold of the selector
(`Selector.Lasting`): its text does not end in a blank that a reader would trim, nor does a blank start
the name of a subject without its mark, and no argument in it ends in a backslash.
-/

namespace TreeQuery

open Text

variable {p : Profile} {quiet : Prop} {part : Part} {clause : Clause} {tail : List Char}

namespace Reader

/-! ## Attribute conditions -/

theorem comparator?_text {comparator : Comparator} (h : comparator ≠ .present) (s : List Char) :
    comparator? (comparator.text.toList ++ s) = some (comparator, s) := by
  cases comparator with
  | present => exact absurd rfl h
  | equals | startsWith | endsWith | contains | hasWord | startsWithCode => rfl

theorem operand_quote (text : String) (s : List Char) :
    operand (skipBlank (quote text.toList ++ s)) = (text, s) := by
  have hquote : skipBlank (quote text.toList ++ s) = quote text.toList ++ s := by
    rw [quote, List.cons_append, List.cons_append, skipBlank_of_not_blank (by decide)]
  rw [hquote, operand, quoted?_quote]
  dsimp only
  rw [String.ofList_toList]

theorem caseFlag_text (ignoreCase : Bool) (s : List Char) :
    caseFlag (skipBlank ((if ignoreCase then [' ', 'i'] else []) ++ ']' :: s)) = (ignoreCase, ']' :: s) := by
  cases ignoreCase <;> rfl

/-- The text behind the name of an attribute ends the name and starts with no blank. -/
theorem head_comparison (comparator : Comparator) (operand : String) (ignoreCase : Bool) (s : List Char) :
    ∃ c t, Clause.comparison comparator operand ignoreCase ++ ']' :: s = c :: t ∧
      isBlank c = false ∧ isIdentChar c = false ∧ c ≠ '\\' ∧ (comparator ≠ .present → c ≠ ']') := by
  cases comparator with
  | present => exact ⟨']', s, rfl, by decide, by decide, by decide, fun h => absurd rfl h⟩
  | equals | startsWith | endsWith | contains | hasWord | startsWithCode =>
    exact ⟨_, _, rfl, by decide, by decide, by decide, fun _ => by decide⟩

theorem readAttribute_native {name : Ident} {comparator : Comparator} {operand : String}
    {ignoreCase : Bool} (h : (Clause.attribute name comparator operand ignoreCase).Legible p quiet)
    (tail : List Char) :
    readAttribute (name.raw.toList ++ (Clause.comparison comparator operand ignoreCase ++ ']' :: tail)) =
      .done (.attribute name comparator operand ignoreCase) tail := by
  obtain ⟨hwhole, hhead, hpresent, hpossible⟩ := h
  obtain ⟨c, t, hcomparison, hblank, hident, hslash, hbracket⟩ :=
    head_comparison comparator operand ignoreCase tail
  have hname : skipBlank (name.raw.toList ++ (c :: t)) = name.raw.toList ++ (c :: t) := by
    refine skipBlank_eq_self fun d hd => hhead d ?_
    rwa [hwhole.head?_append] at hd
  have hread : ident? (name.raw.toList ++ (c :: t)) = some (name, c :: t) := by
    refine hwhole.ident?_append fun d hd => ?_
    obtain rfl := Option.some.inj hd
    exact ⟨hident, hslash⟩
  rw [hcomparison, readAttribute, hname, hread]
  dsimp only
  rw [skipBlank_of_not_blank hblank]
  -- without a comparison the bracket closes right behind the name
  by_cases hkind : comparator = .present
  · obtain ⟨rfl, rfl⟩ := hpresent hkind
    subst hkind
    rw [← hcomparison]
    rfl
  · split
    · next rest heq => exact absurd (List.cons_eq_cons.1 heq).1 (hbracket hkind)
    · rw [← hcomparison, Clause.comparison, if_neg hkind, List.append_assoc, comparator?_text hkind]
      dsimp only
      rw [List.append_assoc, operand_quote]
      dsimp only
      rw [caseFlag_text]
      dsimp only
      rw [skipBlank_of_not_blank (by decide)]
      show (if _ then _ else _) = _
      rw [if_neg (Bool.eq_false_iff.1 hpossible)]

/-! ## Pseudo-classes -/

theorem lookup_name (pseudo : PseudoClass) :
    Registry.standard.lookup (Ident.value ⟨pseudo.name⟩) = some (Entry.standard pseudo) := by
  have hall : ∀ pseudo ∈ PseudoClass.all,
      Registry.standard.lookup (Ident.value ⟨pseudo.name⟩) = some (Entry.standard pseudo) := by
    decide +kernel
  exact hall pseudo pseudo.mem_all

/-- The group of a pseudo-class is read in front of what may follow a condition. -/
theorem readGroup_group {clause : PseudoClause} (h : clause.Legible p quiet)
    (hclosed : ∀ text, clause.written = some text → EndsUnescaped text.toList) (htail : EndsClause tail) :
    readGroup (clause.group ++ tail) = .done (clause.written.map String.toList) tail := by
  unfold PseudoClause.group
  cases hwritten : clause.written with
  | none =>
    rw [Option.map_none, Option.getD_none, List.nil_append, readGroup]
    split
    · next s hs =>
      have hgroup := htail.group
      rw [hs] at hgroup
      exact absurd rfl hgroup
    · rfl
  | some text =>
    have hargument := h.written text hwritten
    have hgroup : group? ('(' :: (text.toList ++ ')' :: tail)) = some (text.toList, tail) :=
      group?_eq_some.2 ⟨rfl, hargument.passes, hargument.closed (hclosed text hwritten)⟩
    rw [Option.map_some, Option.getD_some, List.cons_append, List.append_assoc, List.singleton_append,
      readGroup, skipBlank_of_not_blank (by decide)]
    split
    · next s hs =>
      obtain rfl := (List.cons_eq_cons.1 hs).2
      rw [hgroup]
      rfl
    · next hne => exact absurd rfl (hne _)

/-- An argument is written as it was kept. -/
theorem writtenArgument_written {clause : PseudoClause} (h : clause.Legible p quiet) :
    writtenArgument (clause.written.map String.toList) = clause.written := by
  unfold writtenArgument
  cases hwritten : clause.written with
  | none => rfl
  | some text =>
    have hargument := h.written text hwritten
    rw [Option.map_some, Option.getD_some, hargument.trimmed.trim_eq]
    split
    · next hnil => exact absurd hnil hargument.nonempty
    · rw [String.ofList_toList]

theorem readPseudo_native {clause : PseudoClause} (h : clause.Legible p quiet)
    (hclosed : ∀ text, clause.written = some text → EndsUnescaped text.toList) (htail : EndsClause tail) :
    readPseudo ⟨.standard, p⟩ (standardLists p) (clause.pseudo.name.toList ++ (clause.group ++ tail)) =
      .done (.pseudo clause) tail := by
  have hname : ident? (clause.pseudo.name.toList ++ (clause.group ++ tail)) =
      some (⟨clause.pseudo.name⟩, clause.group ++ tail) := by
    refine clause.pseudo.isWhole_name.ident?_append ?_
    unfold PseudoClause.group
    cases clause.written with
    | none => exact htail.name
    | some text =>
      intro c hc
      obtain rfl := Option.some.inj hc
      decide
  unfold readPseudo
  rw [hname]
  dsimp only
  rw [readGroup_group h hclosed htail, Reading.andThen, lookup_name]
  dsimp only
  rw [h.argument, Entry.pseudo_standard, ← h.hasGetter, writtenArgument_written h]
  obtain ⟨_, _, _, _⟩ := clause
  rfl

/-! ## The conditions of a part -/

/-- A condition is read in front of what may follow it, but for a second id. -/
theorem readClause?_native (hnames : p.UsesStandardNames) (h : clause.Legible p quiet)
    (hsupported : clause.isSupported p = true)
    (hclosed : ∀ pseudo text, clause = .pseudo pseudo → pseudo.written = some text →
      EndsUnescaped text.toList) {hasId : Bool} (hid : hasId = true → clause.id? = none)
    (htail : EndsClause tail) :
    readClause? ⟨.standard, p⟩ (standardLists p) hasId ((clause.native p).toList ++ tail) =
      some (.done clause tail) := by
  obtain name | name | ⟨name, comparator, operand, ignoreCase⟩ | pseudo := clause
  · rw [Clause.toList_native_id, List.cons_append, readClause?]
    cases hasId with
    | true => cases hid rfl
    | false => rw [readId, Ident.IsWhole.ident?_append h htail.name]; rfl
  · rw [Clause.toList_native_class, List.cons_append, readClause?, readClass,
      Ident.IsWhole.ident?_append h htail.name]
  · rw [Clause.toList_native_attribute hsupported, List.cons_append, List.append_assoc,
      List.append_assoc, List.singleton_append, readClause?, readAttribute_native h]
  · rw [Clause.toList_native_pseudo hnames hsupported, List.cons_append, List.append_assoc, readClause?,
      readPseudo_native h (fun text htext => hclosed pseudo text rfl htext) htail]

/-- The conditions of a part are read in front of what may follow the part. -/
theorem readClauses_native (hnames : p.UsesStandardNames) (htail : EndsPart tail) {clauses : List Clause}
    (hlegible : ∀ clause ∈ clauses, clause.Legible p quiet)
    (hsupported : ∀ clause ∈ clauses, clause.isSupported p = true)
    (hclosed : ∀ pseudo text, Clause.pseudo pseudo ∈ clauses → pseudo.written = some text →
      EndsUnescaped text.toList) {tally : Tally}
    (hids : clauses.countP (·.id?.isSome) + tally.hasId.toNat ≤ 1)
    (hlookups : tally.lookups + clauses.countP Clause.isLookup < UInt8.size) :
    readClauses ⟨.standard, p⟩ (standardLists p) tally (Clause.nativeText p clauses ++ tail) =
      .done clauses tail := by
  induction clauses generalizing tally with
  | nil =>
    rw [Clause.nativeText, List.flatMap_nil, List.nil_append, readClauses_eq, htail.readClause?_eq_none]
  | cons clause rest ih =>
    -- what follows is the next condition or what follows the part
    have hfollows : EndsClause (Clause.nativeText p rest ++ tail) := by
      cases rest with
      | nil => exact htail.endsClause
      | cons other rest =>
        obtain ⟨c, s, hs, hc⟩ := Clause.exists_cons_native hnames
          (hsupported other (List.mem_cons_of_mem _ List.mem_cons_self))
        rw [Clause.nativeText_cons, hs]
        exact endsClause_cons hc _
    rw [List.countP_cons] at hids
    have hid : tally.hasId = true → clause.id? = none := by
      intro hhas
      rw [← Option.not_isSome_iff_eq_none]
      intro hsome
      rw [if_pos hsome, hhas] at hids
      simp at hids
    have hcount : rest.countP (·.id?.isSome) + (tally.hasId || clause.id?.isSome).toNat ≤ 1 := by
      cases hsome : clause.id?.isSome with
      | false => simpa [hsome] using hids
      | true =>
        rw [hsome, if_pos rfl] at hids
        rw [Bool.or_true, Bool.toNat_true]
        omega
    -- the lookups of the clause and of those that follow fit together
    have hsum : tally.lookups + clause.isLookup.toNat + rest.countP Clause.isLookup < UInt8.size := by
      rwa [countP_isLookup_cons, ← Nat.add_assoc] at hlookups
    have htally := Tally.add?_eq_some.2 ⟨Nat.lt_of_le_of_lt (Nat.le_add_right _ _) hsum, rfl⟩
    have hothers : readClauses ⟨.standard, p⟩ (standardLists p)
        ⟨tally.hasId || clause.id?.isSome, tally.lookups + clause.isLookup.toNat⟩
        (Clause.nativeText p rest ++ tail) = .done rest tail := ih
      (fun other hmem => hlegible other (List.mem_cons_of_mem _ hmem))
      (fun other hmem => hsupported other (List.mem_cons_of_mem _ hmem))
      (fun pseudo text hmem => hclosed pseudo text (List.mem_cons_of_mem _ hmem)) hcount hsum
    rw [Clause.nativeText_cons, List.append_assoc, readClauses_eq,
      readClause?_native hnames (hlegible clause List.mem_cons_self)
        (hsupported clause List.mem_cons_self)
        (fun pseudo text heq => hclosed pseudo text (heq ▸ List.mem_cons_self)) hid hfollows]
    dsimp only [Reading.andThen]
    rw [htally]
    dsimp only
    rw [hothers]
    rfl

/-! ## Parts -/

theorem subjectMark_of_ne {s : List Char} (h : s.head? ≠ some '$') : subjectMark s = (false, s) := by
  unfold subjectMark
  split
  · exact absurd rfl h
  · rfl

/-- The name of a part is read in front of its conditions. -/
theorem readTag_nameText (h : part.Legible p quiet) (htail : EndsName tail) :
    readTag (part.nameText ++ tail) = (part.tag, tail) := by
  rw [Part.nameText]
  cases htag : part.tag with
  | none => rfl
  | some name =>
    rw [Option.map_some, Option.getD_some]
    unfold readTag
    split
    · next rest hstar =>
      have hhead : (name.raw.toList ++ tail).head? = some '*' := by
        rw [hstar]
        rfl
      rw [(h.tag name htag).head?_append] at hhead
      exact absurd hhead ((h.tag name htag).head_ne (by decide) (by decide))
    · rw [(h.tag name htag).ident?_append htail]

/-- The name of a part does not start with the mark of a subject. -/
theorem head_nameText_ne (h : part.Legible p quiet) (tail : List Char) :
    (part.nameText ++ tail).head? ≠ some '$' := by
  rw [Part.nameText]
  cases htag : part.tag with
  | none => exact fun hstar => by cases hstar
  | some name =>
    rw [Option.map_some, Option.getD_some, (h.tag name htag).head?_append]
    exact (h.tag name htag).head_ne (by decide) (by decide)

/-- A part is read piece by piece: the mark of the subject, the name and the conditions. -/
theorem readPart_of_pieces {parser : Parser} {nested : ListReader} {s t u rest : List Char}
    {subject : Bool} {tag : Option Ident} {clauses : List Clause} (combinator : Option Combinator)
    (hmark : subjectMark s = (subject, t)) (htag : readTag t = (tag, u))
    (hclauses : readClauses parser nested (.start tag) u = .done clauses rest)
    (hcount : ∀ subject inner,
      Part.directLookups parser.profile ⟨combinator, subject, tag, clauses, inner⟩ < UInt8.size)
    (hlt : rest.length < s.length) :
    readPart parser nested combinator s =
      if subject then
        (readContainment nested rest).map fun inner => ⟨combinator, true, tag, clauses, inner⟩
      else .done ⟨combinator, false, tag, clauses, none⟩ rest := by
  have hend : ∀ subject inner, endPart parser.profile ⟨combinator, subject, tag, clauses, inner⟩ =
      .done ⟨combinator, subject, tag, clauses, inner⟩ :=
    fun subject inner => funext fun t => endPart_eq_done.2 ⟨hcount subject inner, rfl, rfl⟩
  unfold readPart
  rw [hmark]
  dsimp only
  rw [htag]
  dsimp only
  rw [hclauses, Reading.andThen, if_pos hlt, hend]
  simp only [hend]
  rfl

/-- The kept part of a part is read in front of what may follow it; behind the mark of a subject, its
containment is read next. -/
theorem readPart_nativeHead (hnames : p.UsesStandardNames) (h : part.Legible p quiet)
    (hclosed : part.PrintsClosed p) (htail : EndsPart tail) (combinator : Option Combinator) :
    readPart ⟨.standard, p⟩ (standardLists p) combinator ((part.nativeHead p).toList ++ tail) =
      if (part.kept p).subject then
        (readContainment (standardLists p) tail).map
          fun inner => ⟨combinator, true, part.tag, (part.kept p).clauses, inner⟩
      else .done ⟨combinator, false, part.tag, (part.kept p).clauses, none⟩ tail := by
  have hsublist : (part.kept p).clauses.Sublist part.clauses := List.filter_sublist
  have hle : ∀ subject inner, Part.directLookups p
      ⟨combinator, subject, part.tag, (part.kept p).clauses, inner⟩ ≤ part.directLookups p :=
    fun _ _ => Part.directLookups_le rfl hsublist
  have hcount : ∀ subject inner, Part.directLookups p
      ⟨combinator, subject, part.tag, (part.kept p).clauses, inner⟩ < UInt8.size :=
    fun subject inner => Nat.lt_of_le_of_lt (hle subject inner) h.counted
  have hclauses : readClauses ⟨.standard, p⟩ (standardLists p) (.start part.tag)
      (Clause.nativeText p (part.kept p).clauses ++ tail) = .done (part.kept p).clauses tail := by
    refine readClauses_native hnames htail
      (fun clause hmem => h.clauses clause (List.mem_filter.1 hmem).1)
      (fun clause hmem => (List.mem_filter.1 hmem).2) (fun pseudo text hmem => ?_) ?_ ?_
    · obtain ⟨hclause, hsupported⟩ := List.mem_filter.1 hmem
      exact hclosed pseudo text hclause hsupported
    · exact Nat.le_trans hsublist.countP_le h.ids
    · exact Nat.lt_of_le_of_lt (Nat.le_add_right _ _) (hcount false none)
  have hends : EndsName (Clause.nativeText p (part.kept p).clauses ++ tail) := by
    cases hkept : (part.kept p).clauses with
    | nil => exact htail.endsClause.name
    | cons clause rest =>
      have hmem : clause ∈ (part.kept p).clauses := by
        rw [hkept]
        exact List.mem_cons_self
      obtain ⟨c, s, hs, hc⟩ := Clause.exists_cons_native hnames (List.mem_filter.1 hmem).2
      rw [Clause.nativeText_cons, hs]
      exact (endsClause_cons hc _).name
  have htag := readTag_nameText h hends
  rw [Part.toList_nativeHead, List.append_assoc, List.append_assoc]
  have hname : part.nameText ≠ [] := by
    rw [Part.nameText]
    cases hcase : part.tag with
    | none => exact List.cons_ne_nil _ _
    | some name => exact (h.tag name hcase).ne_nil
  have hlength := List.length_pos_iff.2 hname
  cases hsubject : (part.kept p).subject with
  | true =>
    refine readPart_of_pieces combinator rfl htag hclauses hcount ?_
    simp only [List.length_append]
    omega
  | false =>
    have hmark := subjectMark_of_ne (head_nameText_ne h
      (Clause.nativeText p (part.kept p).clauses ++ tail))
    refine readPart_of_pieces combinator hmark htag hclauses hcount ?_
    simp only [List.length_append]
    omega

/-! ## Combinators -/

theorem isBranchEnd_of_startsPart {s : List Char} (h : StartsPart s) : isBranchEnd s = false := by
  have hcomma := h.head_ne (c := ',') (by decide)
  obtain ⟨c, t, rfl, -⟩ := h
  exact Bool.eq_false_iff.2 fun hend => hcomma (congrArg some (beq_iff_eq.1 hend))

theorem ofChar?_of_startsPart {s : List Char} (h : StartsPart s) :
    s.head?.bind Combinator.ofChar? = none := by
  have hchild := h.head_ne (c := '>') (by decide)
  have hnext := h.head_ne (c := '+') (by decide)
  have hsubsequent := h.head_ne (c := '~') (by decide)
  obtain ⟨c, t, rfl, -⟩ := h
  rw [List.head?_cons, Option.bind_some]
  unfold Combinator.ofChar?
  split
  · exact absurd rfl hchild
  · exact absurd rfl hnext
  · exact absurd rfl hsubsequent
  · rfl

/-- A combinator is read in front of a part. -/
theorem readCombinator_sign {u : List Char} (hu : StartsPart u) (link : Combinator) :
    isBranchEnd (skipBlank (' ' :: (link.sign ++ u))) = false ∧
      readCombinator false ((skipBlank (' ' :: (link.sign ++ u))).length < (' ' :: (link.sign ++ u)).length)
        (skipBlank (' ' :: (link.sign ++ u))) = .done (some link) u := by
  have hblank : skipBlank (' ' :: u) = u := by
    rw [skipBlank_of_blank (by decide), hu.skipBlank_eq]
  have hsigned : ∀ c : Char, isBlank c = false → (c == ',') = false →
      Combinator.ofChar? c = some link → link.sign = [c, ' '] →
      isBranchEnd (skipBlank (' ' :: (link.sign ++ u))) = false ∧
        readCombinator false
          ((skipBlank (' ' :: (link.sign ++ u))).length < (' ' :: (link.sign ++ u)).length)
          (skipBlank (' ' :: (link.sign ++ u))) = .done (some link) u := by
    intro c hc hcomma hlink hsign
    rw [hsign]
    have hskip : skipBlank (' ' :: ([c, ' '] ++ u)) = c :: ' ' :: u := by
      rw [skipBlank_of_blank (by decide)]
      exact skipBlank_of_not_blank hc _
    rw [hskip]
    refine ⟨hcomma, ?_⟩
    unfold readCombinator
    rw [List.head?_cons, Option.bind_some, hlink, List.drop_one, List.tail_cons, hblank]
    dsimp only
    rw [isBranchEnd_of_startsPart hu, if_neg Bool.false_ne_true]
  cases link with
  | child => exact hsigned '>' (by decide) (by decide) rfl rfl
  | nextSibling => exact hsigned '+' (by decide) (by decide) rfl rfl
  | subsequentSibling => exact hsigned '~' (by decide) (by decide) rfl rfl
  | descendant =>
    rw [Combinator.sign, List.nil_append, hblank]
    refine ⟨isBranchEnd_of_startsPart hu, ?_⟩
    unfold readCombinator
    rw [ofChar?_of_startsPart hu]
    simp

/-! ## Chains of parts -/

/-- A blank in front of a list does not matter. -/
theorem standardLists_cons_blank {c : Char} (h : isBlank c = true) (s : List Char) :
    standardLists p (c :: s) = standardLists p s := by
  have htrim : trim (c :: s) = trim s := by
    rw [trim, trim, skipBlank_of_blank h]
  rw [standardLists, readLists_eq, readLists_eq, readList, readList, htrim]

theorem trim_ne_nil_of_startsPart {s : List Char} (h : StartsPart s) : trim s ≠ [] := by
  rw [trim_eq_rdropWhile, h.skipBlank_eq, Ne, List.rdropWhile_eq_nil_iff]
  obtain ⟨c, t, rfl, hblank, -⟩ := h
  exact fun hall => Bool.eq_false_iff.1 hblank (hall c List.mem_cons_self)

/-- A containment is read to the end of the text. -/
theorem readContainment_nativeWithin {containment : Option Selector}
    (h : ∀ inner, Selector.keptWithin p containment = some inner → StartsPart (inner.native p).toList ∧
      Calm (inner.native p).toList ∧ standardLists p (inner.native p).toList = .ok [inner]) :
    readContainment (standardLists p) (Selector.nativeWithin p containment).toList =
      .done (Selector.keptWithin p containment) [] := by
  rw [Selector.toList_nativeWithin]
  cases hkept : Selector.keptWithin p containment with
  | none => rfl
  | some inner =>
    obtain ⟨hstarts, hcalm, hread⟩ := h inner hkept
    have hspace : Even [' '] := even_of_isPlain (by decide)
    have hquiet : Quiet (' ' :: (inner.native p).toList) := (hspace.calm.append hcalm).quiet
    have htrim : trim (' ' :: (inner.native p).toList) ≠ [] := by
      rw [trim, skipBlank_of_blank (by decide)]
      exact trim_ne_nil_of_startsPart hstarts
    unfold readContainment
    rw [Option.map_some, Option.getD_some, branchSpan_of_passes hquiet]
    dsimp only
    rw [if_neg (by rwa [List.isEmpty_iff]), standardLists_cons_blank (by decide), hread]

end Reader

/-- What it takes to read a part back: its first character is no blank, no argument in it ends in a
backslash, and its containment is read back. -/
structure Part.ReadsBack (p : Profile) (part : Part) : Prop where
  legible : part.Legible p False
  unblank : part.StartsUnblank p
  closed : part.PrintsClosed p
  within : EndsPart (Selector.nativeWithin p part.containment).toList
  contained : Reader.readContainment (Reader.standardLists p)
    (Selector.nativeWithin p part.containment).toList = .done (Selector.keptWithin p part.containment) []

namespace Reader

/-- Only behind the mark of a subject a containment is kept. -/
theorem keptWithin_eq_none (h : part.Legible p quiet) (hsubject : (part.kept p).subject = false) :
    Selector.keptWithin p part.containment = none := by
  cases hpart : part.subject with
  | false => rw [h.containment hpart]; rfl
  | true =>
    have hmarks : p.marksSubject = false := by simpa [Part.kept, hpart] using hsubject
    rw [Selector.keptWithin, Option.filter_eq_none_iff]
    intro inner _
    simp [hmarks]

theorem readPart_native (hnames : p.UsesStandardNames) (h : part.ReadsBack p) (htail : EndsPart tail)
    (hlast : part.subject = true → tail = []) (combinator : Option Combinator) :
    readPart ⟨.standard, p⟩ (standardLists p) combinator ((part.nativeHead p).toList ++
        ((Selector.nativeWithin p part.containment).toList ++ tail)) =
      .done ⟨combinator, (part.kept p).subject, part.tag, (part.kept p).clauses,
        Selector.keptWithin p part.containment⟩ tail := by
  -- only a marked subject is followed by a containment, and nothing else follows it
  cases hsubject : (part.kept p).subject with
  | true =>
    have hpart : part.subject = true := (Bool.and_eq_true_iff.1 hsubject).1
    rw [hlast hpart, List.append_nil, readPart_nativeHead hnames h.legible h.closed h.within,
      if_pos hsubject, h.contained]
    rfl
  | false =>
    have hnone := keptWithin_eq_none h.legible hsubject
    rw [Selector.toList_nativeWithin, hnone, Option.map_none, Option.getD_none, List.nil_append,
      readPart_nativeHead hnames h.legible h.closed htail, if_neg (Bool.eq_false_iff.1 hsubject)]

/-- Only the last part may be marked as the subject. -/
theorem subject_cons {first : Part} {rest : List Part}
    (h : ∀ part ∈ (first :: rest).dropLast, part.subject = false) :
    (first.subject = true → rest = []) ∧ ∀ part ∈ rest.dropLast, part.subject = false := by
  cases rest with
  | nil => exact ⟨fun _ => rfl, fun part hmem => absurd hmem List.not_mem_nil⟩
  | cons second rest =>
    refine ⟨fun htrue => ?_, fun part hmem => h part (List.mem_cons_of_mem _ hmem)⟩
    rw [h first List.mem_cons_self] at htrue
    cases htrue

theorem readParts_nativeRest (hnames : p.UsesStandardNames) {parts : List Part}
    (hlinked : ∀ part ∈ parts, part.combinator ≠ none)
    (hsubject : ∀ part ∈ parts.dropLast, part.subject = false)
    (h : ∀ part ∈ parts, part.ReadsBack p) :
    readParts ⟨.standard, p⟩ (standardLists p) false (Part.nativeRest p parts).toList =
      .done (parts.map (·.kept p)) [] := by
  induction parts with
  | nil =>
    rw [readParts_eq]
    rfl
  | cons part rest ih =>
    obtain ⟨link, hlink⟩ := Option.ne_none_iff_exists'.1 (hlinked part List.mem_cons_self)
    have hpart := h part List.mem_cons_self
    have hothers : ∀ other ∈ rest, other.ReadsBack p := fun other hmem => h other (List.mem_cons_of_mem _ hmem)
    obtain ⟨hlast, hsubjects⟩ := subject_cons hsubject
    have hrest := ih (fun other hmem => hlinked other (List.mem_cons_of_mem _ hmem)) hsubjects hothers
    have htail := Part.endsPart_nativeRest (fun other hmem => hlinked other (List.mem_cons_of_mem _ hmem))
      (fun other hmem => (hothers other hmem).legible) (fun other hmem => (hothers other hmem).unblank)
    have hend : part.subject = true → (Part.nativeRest p rest).toList = [] := by
      intro htrue
      rw [hlast htrue]
      rfl
    have hstarts := Part.startsPart_nativeHead hpart.legible hpart.unblank
      ((Selector.nativeWithin p part.containment).toList ++ (Part.nativeRest p rest).toList)
    obtain ⟨hopen, hcombinator⟩ := readCombinator_sign hstarts link
    rw [readParts_eq, Part.toList_nativeRest_cons hlink, hopen, if_neg Bool.false_ne_true, readLinkedPart,
      hcombinator, Reading.andThen, readPart_native hnames hpart htail hend, Reading.andThen, hrest,
      List.map_cons, ← hlink]
    rfl

/-- The parts of the text are the kept parts. -/
theorem readParts_native (hnames : p.UsesStandardNames) {parts : List Part} (hne : parts ≠ [])
    (hlinked : ∀ part ∈ parts.tail, part.combinator ≠ none)
    (hsubject : ∀ part ∈ parts.dropLast, part.subject = false)
    (h : ∀ part ∈ parts, part.ReadsBack p) :
    readParts ⟨.standard, p⟩ (standardLists p) true (Selector.native p ⟨parts⟩).toList =
      .done (Part.keptChain p parts) [] := by
  obtain ⟨part, rest, rfl⟩ := List.exists_cons_of_ne_nil hne
  have hpart := h part List.mem_cons_self
  have hothers : ∀ other ∈ rest, other.ReadsBack p := fun other hmem => h other (List.mem_cons_of_mem _ hmem)
  have hstarts := Part.startsPart_nativeHead hpart.legible hpart.unblank
    ((Selector.nativeWithin p part.containment).toList ++ (Part.nativeRest p rest).toList)
  rw [List.tail_cons] at hlinked
  obtain ⟨hlast, hsubjects⟩ := subject_cons hsubject
  have htail := Part.endsPart_nativeRest hlinked (fun other hmem => (hothers other hmem).legible)
    (fun other hmem => (hothers other hmem).unblank)
  have hrest := readParts_nativeRest hnames hlinked hsubjects hothers
  have hend : part.subject = true → (Part.nativeRest p rest).toList = [] := by
    intro htrue
    rw [hlast htrue]
    rfl
  have hcombinator : ∀ (spaced : Bool) (s : List Char), StartsPart s →
      readCombinator true spaced s = .done none s := by
    intro spaced s hs
    rw [readCombinator, ofChar?_of_startsPart hs]
    rfl
  rw [Selector.native, String.toList_append, Part.native_eq, List.append_assoc, readParts_eq,
    hstarts.skipBlank_eq, isBranchEnd_of_startsPart hstarts, if_neg Bool.false_ne_true, readLinkedPart,
    hcombinator _ _ hstarts, Reading.andThen, readPart_native hnames hpart htail hend, Reading.andThen,
    hrest]
  rfl

/-- A trimmed text that is one branch is a list of it. -/
theorem standardLists_of_branch {s : List Char} {parts : List Part} (hstarts : StartsPart s)
    (hlast : ∀ c, s.getLast? = some c → isBlank c = false)
    (hread : readParts ⟨.standard, p⟩ (standardLists p) true s = .done parts []) :
    standardLists p s = .ok [⟨parts⟩] := by
  have htrimmed : IsTrimmed s := by
    refine ⟨fun c hc => ?_, hlast⟩
    obtain ⟨d, t, rfl, hblank, -⟩ := hstarts
    obtain rfl := Option.some.inj hc
    exact hblank
  refine readLists_of_readParts htrimmed.trim_eq ?_ ?_
  · rw [hstarts.skipBlank_eq, isBranchEnd_of_startsPart hstarts]
  · rwa [hstarts.skipBlank_eq]

end Reader

/-! ## Selectors -/

/-- What it takes to read the text of a selector back: a reader trims no blank at its end, no blank starts
a name where the mark in front of it is left out, and no argument in it ends in a backslash. -/
structure Selector.Lasting (p : Profile) (selector : Selector) : Prop where
  unblank : ∀ part ∈ selector.parts, part.StartsUnblank p
  closed : ∀ text, selector.Prints p text → EndsUnescaped text.toList
  last : ∀ c, (selector.native p).toList.getLast? = some c → isBlank c = false

/-- The text of the last containment ends the text of a chain. -/
theorem Part.suffix_nativeRest {parts : List Part} (h : parts.getLast? = some part) :
    (Selector.nativeWithin p part.containment).toList <:+ (Part.nativeRest p parts).toList := by
  induction parts with
  | nil => cases h
  | cons first rest ih =>
    rw [nativeRest, String.toList_append, String.toList_append, native_eq]
    cases rest with
    | nil =>
      obtain rfl := Option.some.inj h
      rw [nativeRest, String.toList_empty, List.append_nil, ← List.append_assoc]
      exact List.suffix_append _ _
    | cons second rest => exact (ih h).trans (List.suffix_append _ _)

theorem Selector.suffix_native {parts : List Part} (h : parts.getLast? = some part) :
    (Selector.nativeWithin p part.containment).toList <:+ (Selector.native p ⟨parts⟩).toList := by
  cases parts with
  | nil => cases h
  | cons first rest =>
    rw [native, String.toList_append]
    cases rest with
    | nil =>
      obtain rfl := Option.some.inj h
      rw [Part.native_eq, Part.nativeRest, String.toList_empty, List.append_nil]
      exact List.suffix_append _ _
    | cons second rest =>
      have hrest : (second :: rest).getLast? = some part := h
      exact (Part.suffix_nativeRest hrest).trans (List.suffix_append _ _)

/-- A part with a containment is the last one. -/
theorem Selector.getLast?_of_containment {parts : List Part}
    (hsubject : ∀ part ∈ parts.dropLast, part.subject = false) (hmem : part ∈ parts)
    (h : part.subject = true) : parts.getLast? = some part := by
  have hne : parts ≠ [] := List.ne_nil_of_mem hmem
  rw [← List.dropLast_concat_getLast hne, List.mem_append, List.mem_singleton] at hmem
  rcases hmem with hmem | heq
  · rw [hsubject part hmem] at h
    cases h
  · rw [heq, List.getLast?_eq_some_getLast hne]

/-- A containment that is kept lasts if the selector does. -/
theorem Selector.Lasting.within {parts : List Part} {inner : Selector}
    (h : Selector.Lasting p ⟨parts⟩) (hsubject : ∀ part ∈ parts.dropLast, part.subject = false)
    (hlegible : ∀ part ∈ parts, part.Legible p quiet) (hinner : inner.Legible p True) (hmem : part ∈ parts)
    (hkept : keptWithin p part.containment = some inner) : inner.Lasting p := by
  obtain ⟨hcontainment, hsupported⟩ := Option.filter_eq_some_iff.1 hkept
  rw [Bool.and_eq_true] at hsupported
  refine ⟨?_, fun text hprints => h.closed text (.within hmem hkept hprints), fun c hc => h.last c ?_⟩
  · cases hinner with
    | intro _ _ _ legible _ =>
      exact fun part hmem => Part.startsUnblank_of_marksSubject hsupported.1 (legible part hmem)
  · have hpart : part.subject = true := by
      rw [← Bool.not_eq_false]
      intro hfalse
      rw [(hlegible part hmem).containment hfalse] at hcontainment
      cases hcontainment
    obtain ⟨before, hbefore⟩ := suffix_native (p := p) (getLast?_of_containment hsubject hmem hpart)
    rw [toList_nativeWithin, hkept, Option.map_some, Option.getD_some] at hbefore
    rw [← hbefore, List.getLast?_append, List.getLast?_cons_of_ne_nil ?_, hc, Option.some_or]
    rintro hnil
    rw [hnil] at hc
    cases hc

/-- A selector that was read and lasts reads from its text for a host as what is kept of it. -/
theorem Selector.standardLists_native (hnames : p.UsesStandardNames) {selector : Selector}
    (h : selector.Legible p quiet) (hlasting : selector.Lasting p) :
    Reader.standardLists p (selector.native p).toList = .ok [selector.kept p] := by
  induction h with
  | intro nonempty linked subject legible contained ih =>
    next quiet parts =>
    have hwithin : ∀ part ∈ parts, ∀ inner, keptWithin p part.containment = some inner →
        StartsPart (inner.native p).toList ∧ Calm (inner.native p).toList ∧
          Reader.standardLists p (inner.native p).toList = .ok [inner] := by
      intro part hmem inner hkept
      obtain ⟨hcontainment, hsupported⟩ := Option.filter_eq_some_iff.1 hkept
      rw [Bool.and_eq_true] at hsupported
      have hinner := contained part hmem inner hcontainment
      have hlasts := hlasting.within subject legible hinner hmem hkept
      -- a containment that is kept is supported, so nothing is lost in it
      have hread := ih part hmem inner hcontainment hlasts
      rw [kept_eq_self hsupported.1 hsupported.2] at hread
      exact ⟨startsPart_native hinner hlasts.unblank, calm_native hnames hinner trivial hlasts.closed, hread⟩
    have hparts : ∀ part ∈ parts, part.ReadsBack p := fun part hmem => {
      legible := (legible part hmem).mono False.elim
      unblank := hlasting.unblank part hmem
      closed := Selector.printsClosed_of_mem hlasting.closed hmem
      within := endsPart_nativeWithin fun inner hkept =>
        contained part hmem inner (Option.filter_eq_some_iff.1 hkept).1
      contained := Reader.readContainment_nativeWithin (hwithin part hmem) }
    have hstarts := startsPart_native (.intro nonempty linked subject legible contained) hlasting.unblank
    exact Reader.standardLists_of_branch hstarts hlasting.last
      (Reader.readParts_native hnames nonempty linked subject hparts)

end TreeQuery
