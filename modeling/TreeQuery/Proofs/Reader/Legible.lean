import TreeQuery.Proofs.Reader.Induction

/-!
# What every selector that was read is like

A selector that was read keeps some of its text: names, and the arguments of pseudo-classes. `Legible`
says which of it can be read again: names are whole, the text of an argument reads as the argument, a
part has at most one id, only the last part is a subject and has a containment. In a containment no
comma stands outside every bracket and quote, which the parameter `quiet` records.

The parser is the standard one, so the name of a pseudo-class gives its entry back.
-/

namespace TreeQuery

open Text

/-! ## Arguments as they are kept -/

/-- The text of an argument as it is kept: trimmed, without a closing parenthesis that would end it
early, and outside of brackets and quotes at its end unless an escape lost its blank there. -/
structure IsWritten (quiet : Prop) (s : List Char) : Prop where
  trimmed : IsTrimmed s
  nonempty : s ≠ []
  passes : Passes ')' .start s
  closed : (Nesting.start.run s).escaped = false → Nesting.start.run s = .start
  quiet : quiet → Passes ',' (.inBrackets 1) s

/-- The text between the parentheses of a group is kept in this way. -/
theorem isWritten_of_group {inner : List Char} {text : String} (hpass : Passes ')' .start inner)
    (hrun : Nesting.start.run inner = .start)
    (htext : Reader.writtenArgument (some inner) = some text) :
    IsWritten (Passes ',' (.inBrackets 1) inner) text.toList := by
  obtain ⟨u, v, hinner, hu, hv⟩ := trim_append inner
  have hwritten : text.toList = trim inner ∧ trim inner ≠ [] := by
    unfold Reader.writtenArgument at htext
    split at htext
    · cases htext
    · next hne =>
      obtain rfl := Option.some.inj htext
      exact ⟨String.toList_ofList, hne⟩
  obtain ⟨htext, hne⟩ := hwritten
  have heven := even_of_isBlank hu
  rw [hinner, passes_append] at hpass
  rw [hinner, Nesting.run_append, show Nesting.start.run u = .start from heven.run 0] at hrun
  rw [show Nesting.start.run u = .start from heven.run 0, passes_append] at hpass
  rw [htext]
  refine ⟨isTrimmed_trim inner, hne, hpass.2.1, fun hescaped => ?_, fun hquiet => ?_⟩
  -- the blanks that were trimmed change nothing, unless the first of them was escaped
  · rw [Nesting.run_append, Nesting.run_of_isBlank hescaped _ hv] at hrun
    · exact hrun
    · exact Nesting.isQuote_of_mark (fun m hm => by cases hm) _
  · rw [hinner, passes_append, heven.run, passes_append] at hquiet
    exact hquiet.2.1

/-- An argument of the kind that the grammar asks for. Its formula selects some position. -/
def Argument.Fits : ArgumentGrammar → Argument → Prop
  | .none, .none => True
  | .text, .text _ => True
  | .formula, .formula f => f.isSatisfiable = true
  | .nested, .nested _ => True
  | .relative, .relative Option.none => True
  | .relativeFormula, .relative (some f) => f.isSatisfiable = true
  | .linkDepth, .linkDepth _ => True
  | _, _ => False

namespace Reader

variable {nested : ListReader} {entry : Entry} {inner? : Option (List Char)} {rest rest' : List Char}

/-- An argument that was read is read in front of any text, and its reader leaves that text. -/
theorem readArgument_of_done {argument : Argument}
    (h : readArgument nested entry inner? rest = .done argument rest') (tail : List Char) :
    readArgument nested entry inner? tail = .done argument tail := by
  rw [readArgument_inFrontOf nested entry inner? rest tail, h]
  rfl

theorem withArgument_eq_done {pseudo : PseudoClass} {read : List Char → Reading Argument}
    {argument : Argument} (h : withArgument pseudo inner? read = .done argument rest) :
    ∃ inner, inner? = some inner ∧ trim inner ≠ [] ∧ read (trim inner) = .done argument rest := by
  unfold withArgument at h
  split at h
  · cases h
  · next hne =>
    cases inner? with
    | none => exact absurd rfl hne
    | some inner => exact ⟨inner, rfl, hne, h⟩

theorem isSatisfiable_readFormula {s : List Char} {f : Formula}
    (h : readFormula s rest = .done f rest') : f.isSatisfiable = true := by
  unfold readFormula at h
  split at h
  · cases h
  · split at h
    · next hsatisfiable =>
      cases h
      exact hsatisfiable
    · cases h

/-- What is read as an argument fits the grammar of the pseudo-class. -/
theorem fits_readArgument {argument : Argument}
    (h : readArgument nested entry inner? rest = .done argument rest') : argument.Fits entry.grammar := by
  unfold readArgument at h
  cases hgrammar : entry.grammar <;> rw [hgrammar] at h <;> dsimp only at h
  case none | relative =>
    unfold withoutArgument at h
    split at h <;> cases h
    trivial
  case text =>
    obtain ⟨inner, -, -, hs⟩ := withArgument_eq_done h
    cases hs
    trivial
  case formula | relativeFormula =>
    obtain ⟨inner, -, -, hs⟩ := withArgument_eq_done h
    obtain ⟨f, hf, rfl⟩ := Reading.map_eq_done.1 hs
    exact isSatisfiable_readFormula hf
  case linkDepth =>
    unfold readLinkDepth at h
    split at h
    · cases h
      trivial
    · split at h <;> cases h
      trivial
  case nested =>
    obtain ⟨inner, -, -, hs⟩ := withArgument_eq_done h
    unfold readNested at hs
    split at hs <;> cases hs
    trivial

theorem fits_nested {grammar : ArgumentGrammar} {list : List Selector}
    (h : (Argument.nested list).Fits grammar) : grammar = .nested := by
  cases grammar with
  | nested => rfl
  | _ => exact h.elim

/-- An argument that is a selector list was read by the reader of lists. -/
theorem readArgument_eq_nested {list : List Selector}
    (h : readArgument nested entry inner? rest = .done (.nested list) rest') :
    entry.grammar = .nested ∧
      ∃ inner, inner? = some inner ∧ trim inner ≠ [] ∧ nested (trim inner) = .ok list := by
  have hgrammar := fits_nested (fits_readArgument h)
  unfold readArgument at h
  rw [hgrammar] at h
  obtain ⟨inner, hinner, hblank, hs⟩ := withArgument_eq_done h
  unfold readNested at hs
  split at hs
  · next read hread =>
    cases hs
    exact ⟨hgrammar, inner, hinner, hblank, hread⟩
  · cases hs

/-- The text of an argument that is kept trims to what the argument trims to. -/
theorem trim_writtenArgument (inner? : Option (List Char)) :
    trim (((writtenArgument inner?).map String.toList).getD []) = trim (inner?.getD []) := by
  unfold writtenArgument
  split
  · next h => rw [h]; rfl
  · rw [Option.map_some, Option.getD_some, String.toList_ofList, (isTrimmed_trim _).trim_eq]

/-- An argument is read again from the text of it that is kept. -/
theorem readArgument_written {argument : Argument}
    (h : readArgument nested entry inner? rest = .done argument rest') (tail : List Char) :
    readArgument nested entry ((writtenArgument inner?).map String.toList) tail =
      .done argument tail := by
  suffices hwritten : readArgument nested entry ((writtenArgument inner?).map String.toList) rest =
      .done argument rest' from readArgument_of_done hwritten tail
  have hwithout : ∀ argument' : Argument,
      withoutArgument entry.pseudo inner? argument' rest = .done argument rest' →
        withoutArgument entry.pseudo ((writtenArgument inner?).map String.toList) argument' rest =
          .done argument rest' := by
    intro argument' h
    cases inner? with
    | none => exact h
    | some inner => cases h
  unfold readArgument at h ⊢
  cases hgrammar : entry.grammar <;> rw [hgrammar] at h <;> dsimp only at h ⊢
  case none => exact hwithout _ h
  case relative => exact hwithout _ h
  case linkDepth =>
    unfold readLinkDepth at h ⊢
    rwa [trim_writtenArgument]
  all_goals
    unfold withArgument at h ⊢
    rwa [trim_writtenArgument]

end Reader

/-! ## Legible selectors -/

/-- The reader of the lists that stand in a selector. -/
abbrev Reader.standardLists (p : Profile) : ListReader := Reader.readLists ⟨.standard, p⟩

/-- A pseudo-class as the reader leaves it: its text gives its argument again. -/
structure PseudoClause.Legible (p : Profile) (quiet : Prop) (clause : PseudoClause) : Prop where
  hasGetter : clause.hasGetter = (Entry.standard clause.pseudo).hasGetter
  argument : ∀ tail, Reader.readArgument (Reader.standardLists p) (Entry.standard clause.pseudo)
    (clause.written.map String.toList) tail = .done clause.argument tail
  written : ∀ text, clause.written = some text → IsWritten quiet text.toList

/-- A condition as the reader leaves it. -/
def Clause.Legible (p : Profile) (quiet : Prop) : Clause → Prop
  | .id name => name.IsWhole
  | .hasClass name => name.IsWhole
  | .attribute name comparator operand ignoreCase =>
    name.IsWhole ∧ (∀ c, name.raw.toList.head? = some c → isBlank c = false) ∧
      (comparator = .present → operand = "" ∧ ignoreCase = false) ∧
      (operand == "" && comparator.isAnchored) = false
  | .pseudo clause => clause.Legible p quiet

/-- A part as the reader leaves it, but for its containment. -/
structure Part.Legible (p : Profile) (quiet : Prop) (part : Part) : Prop where
  tag : ∀ name, part.tag = some name → name.IsWhole
  tagHead : part.subject = false → ∀ name, part.tag = some name →
    ∀ c, name.raw.toList.head? = some c → isBlank c = false
  clauses : ∀ clause ∈ part.clauses, clause.Legible p quiet
  ids : part.clauses.countP (·.id?.isSome) ≤ 1
  containment : part.subject = false → part.containment = none
  counted : part.directLookups p < UInt8.size

/-- A selector as the reader leaves it. -/
inductive Selector.Legible (p : Profile) : Prop → Selector → Prop
  | intro {quiet : Prop} {parts : List Part} (nonempty : parts ≠ [])
      (linked : ∀ part ∈ parts.tail, part.combinator ≠ none)
      (subject : ∀ part ∈ parts.dropLast, part.subject = false)
      (legible : ∀ part ∈ parts, part.Legible p quiet)
      (contained : ∀ part ∈ parts, ∀ inner, part.containment = some inner → Legible p True inner) :
      Legible p quiet ⟨parts⟩

variable {p : Profile} {quiet quiet' : Prop}

theorem IsWritten.mono {s : List Char} (h : IsWritten quiet s) (himp : quiet' → quiet) :
    IsWritten quiet' s := ⟨h.trimmed, h.nonempty, h.passes, h.closed, fun hq => h.quiet (himp hq)⟩

theorem Clause.Legible.mono {clause : Clause} (h : clause.Legible p quiet) (himp : quiet' → quiet) :
    clause.Legible p quiet' := by
  cases clause with
  | pseudo clause => exact ⟨h.hasGetter, h.argument, fun text htext => (h.written text htext).mono himp⟩
  | _ => exact h

theorem Part.Legible.mono {part : Part} (h : part.Legible p quiet) (himp : quiet' → quiet) :
    part.Legible p quiet' :=
  ⟨h.tag, h.tagHead, fun clause hmem => (h.clauses clause hmem).mono himp, h.ids, h.containment,
    h.counted⟩

theorem Selector.Legible.mono {selector : Selector} (h : selector.Legible p quiet)
    (himp : quiet' → quiet) : selector.Legible p quiet' := by
  cases h with
  | intro nonempty linked subject legible contained =>
    exact .intro nonempty linked subject (fun part hmem => (legible part hmem).mono himp) contained

/-! ## What is read is legible -/

@[simp]
theorem Entry.pseudo_standard (pseudo : PseudoClass) : (Entry.standard pseudo).pseudo = pseudo := by
  cases pseudo <;> rfl

/-- The standard registry holds standard entries only. -/
theorem Registry.eq_standard_of_lookup {name : String} {entry : Entry}
    (h : Registry.standard.lookup name = some entry) : entry = Entry.standard entry.pseudo := by
  have hget : ∀ name, Registry.standard.get? name = some entry → entry = .standard entry.pseudo := by
    intro name hget
    obtain ⟨before, behind, hsplit, -⟩ := List.lookup_eq_some_iff.1 hget
    have hmem : (name, entry) ∈ Registry.standard.entries := by
      rw [hsplit]
      exact List.mem_append_right _ List.mem_cons_self
    obtain ⟨pseudo, -, heq⟩ := List.mem_map.1 hmem
    obtain ⟨-, rfl⟩ := Prod.mk.inj heq
    rw [Entry.pseudo_standard]
  rw [Registry.lookup, Option.orElse_eq_orElse, Option.orElse_eq_or, Option.or_eq_some_iff] at h
  rcases h with hfirst | ⟨-, hsecond⟩
  · exact hget _ hfirst
  · exact hget _ hsecond

namespace Reader

variable {s rest : List Char} {clause : Clause}

theorem readId_eq_done (h : readId s = .done clause rest) :
    ∃ name, ident? s = some (name, rest) ∧ clause = .id name := by
  unfold readId at h
  split at h
  · next name t hname =>
    cases h
    exact ⟨name, hname, rfl⟩
  · cases h

theorem readClass_eq_done (h : readClass s = .done clause rest) :
    ∃ name, ident? s = some (name, rest) ∧ clause = .hasClass name := by
  unfold readClass at h
  split at h
  · next name t hname =>
    cases h
    exact ⟨name, hname, rfl⟩
  · cases h

/-- A comparator that was read compares with an operand. -/
theorem comparator?_ne_present {comparator : Comparator} (h : comparator? s = some (comparator, rest)) :
    comparator ≠ .present := by
  unfold comparator? at h
  split at h
  · cases h
    exact Comparator.noConfusion
  · obtain ⟨found, hfound, heq⟩ := Option.map_eq_some_iff.1 h
    obtain ⟨rfl, -⟩ := Prod.mk.inj heq
    rintro rfl
    unfold Comparator.ofOperator? at hfound
    split at hfound <;> cases hfound
  · cases h

/-- A group that was read is outside at its end and holds all closing parentheses of its text. -/
theorem readGroup_eq_done {inner? : Option (List Char)} (h : readGroup s = .done inner? rest) :
    (inner? = none ∧ rest = s) ∨ ∃ inner, inner? = some inner ∧ Skips s ('(' :: (inner ++ ')' :: rest)) ∧
      Passes ')' .start inner ∧ Nesting.start.run inner = .start := by
  have hskip := skips_skipBlank s
  unfold readGroup at h
  split at h
  · next t ht =>
    split at h
    · next inner rest' hgroup =>
      cases h
      obtain ⟨heq, hpass, hrun⟩ := group?_eq_some.1 hgroup
      rw [ht, heq] at hskip
      exact .inr ⟨inner, rfl, hskip, hpass, hrun⟩
    · cases h
  · cases h
    exact .inl ⟨rfl, rfl⟩

theorem legible_readPseudo (h : readPseudo ⟨.standard, p⟩ (standardLists p) s = .done clause rest) :
    clause.Legible p (Quiet (':' :: s)) ∧ clause.id? = none := by
  obtain ⟨name, t, inner?, entry, argument, hname, hgroup, hentry, hargument, rfl⟩ := readPseudo_eq_done.1 h
  have hstandard := Registry.eq_standard_of_lookup hentry
  refine ⟨⟨by rw [← hstandard], ?_, ?_⟩, rfl⟩
  · rw [← hstandard]
    exact readArgument_written hargument
  · intro text htext
    rcases readGroup_eq_done hgroup with ⟨rfl, -⟩ | ⟨inner, rfl, hskips, hpass, hrun⟩
    · cases htext
    · refine (isWritten_of_group hpass hrun htext).mono fun hquiet => ?_
      -- the argument stands inside of one bracket in the quiet text
      have hopened := ((skips_cons (by decide) s).trans
        ((skips_ident? hname).trans hskips)).follows.quiet hquiet
      obtain ⟨-, hinner⟩ := passes_cons.1 hopened
      exact (passes_append.1 hinner).1

/-- An attribute condition that was read has the name behind the bracket, and a comparison that some value
satisfies. -/
theorem readAttribute_eq_done (h : readAttribute s = .done clause rest) :
    ∃ name t comparator operand ignoreCase, ident? (skipBlank s) = some (name, t) ∧
      clause = .attribute name comparator operand ignoreCase ∧
        (comparator = .present → operand = "" ∧ ignoreCase = false) ∧
          (operand == "" && comparator.isAnchored) = false := by
  unfold readAttribute at h
  split at h
  · cases h
  · next name t hname =>
    split at h
    · cases h
      exact ⟨name, t, .present, "", false, hname, rfl, fun _ => ⟨rfl, rfl⟩, rfl⟩
    · split at h
      · cases h
      · next comparator u hcomparator =>
        dsimp only at h
        split at h
        · split at h
          · cases h
          · next hpossible =>
            cases h
            refine ⟨name, t, comparator, _, _, hname, rfl, fun hpresent => ?_,
              Bool.eq_false_iff.2 hpossible⟩
            exact absurd hpresent (comparator?_ne_present hcomparator)
        · cases h

theorem legible_readAttribute (quiet : Prop) (h : readAttribute s = .done clause rest) :
    clause.Legible p quiet ∧ clause.id? = none := by
  obtain ⟨name, t, comparator, operand, ignoreCase, hname, rfl, hpresent, hpossible⟩ :=
    readAttribute_eq_done h
  obtain ⟨hwhole, happ⟩ := Ident.isWhole_of_read hname
  refine ⟨⟨hwhole, fun c hc => not_blank_of_skipBlank (s := s) ?_, hpresent, hpossible⟩, rfl⟩
  rw [happ, List.head?_append, hc, Option.some_or]

/-- The id of a part is the only one that is read. -/
theorem legible_readClause? {hasId : Bool} {r : Reading Clause}
    (h : readClause? ⟨.standard, p⟩ (standardLists p) hasId s = some r) (hdone : r = .done clause rest) :
    clause.Legible p (Quiet s) ∧ (hasId = true → clause.id? = none) := by
  unfold readClause? at h
  split at h
  · obtain rfl := Option.some.inj h
    cases hasId with
    | true => cases hdone
    | false =>
      obtain ⟨name, hname, rfl⟩ := readId_eq_done hdone
      exact ⟨(Ident.isWhole_of_read hname).1, fun hid => by cases hid⟩
  · obtain rfl := Option.some.inj h
    obtain ⟨name, hname, rfl⟩ := readClass_eq_done hdone
    exact ⟨(Ident.isWhole_of_read hname).1, fun _ => rfl⟩
  · obtain rfl := Option.some.inj h
    obtain ⟨hlegible, hid⟩ := legible_readAttribute (Quiet _) hdone
    exact ⟨hlegible, fun _ => hid⟩
  · obtain rfl := Option.some.inj h
    obtain ⟨hlegible, hid⟩ := legible_readPseudo hdone
    exact ⟨hlegible, fun _ => hid⟩
  · cases h

/-- The conditions of a part are legible, and there is no second id among them. -/
theorem legible_readClauses {tally : Tally} {clauses : List Clause}
    (h : readClauses ⟨.standard, p⟩ (standardLists p) tally s = .done clauses rest) :
    (∀ clause ∈ clauses, clause.Legible p (Quiet s)) ∧
      clauses.countP (·.id?.isSome) + tally.hasId.toNat ≤ 1 := by
  refine readClauses_induction (motive := fun tally s clauses =>
    (∀ clause ∈ clauses, clause.Legible p (Quiet s)) ∧
      clauses.countP (·.id?.isSome) + tally.hasId.toNat ≤ 1) (fun tally => ?_) ?_ h
  · exact ⟨fun clause hmem => absurd hmem List.not_mem_nil, by simpa using Bool.toNat_le tally.hasId⟩
  · rintro ⟨hasId, lookups⟩ s clause t tally' others hfirst htally ⟨hlegible, hcount⟩
    rw [Tally.hasId_of_add? htally] at hcount
    have hfollows : Text.Follows s t := follows_readClause? hfirst
    obtain ⟨hclause, hid⟩ := legible_readClause? hfirst rfl
    refine ⟨fun other hmem => ?_, ?_⟩
    · rcases List.mem_cons.1 hmem with rfl | hmem
      · exact hclause
      · exact (hlegible other hmem).mono hfollows.quiet
    · rw [List.countP_cons]
      cases hasId with
      | true =>
        rw [hid rfl] at hcount ⊢
        simpa using hcount
      | false => cases hsome : clause.id?.isSome <;> simpa [hsome] using hcount

/-! ### Parts and branches -/

/-- The lists in texts with fewer characters hold legible selectors. -/
def LegibleBelow (p : Profile) (bound : Nat) : Prop :=
  ∀ u list, u.length < bound → standardLists p u = .ok list → ∀ selector ∈ list,
    selector.Legible p (Quiet u)

variable {part : Part} {bound : Nat}

/-- Behind the branch of a containment stands no blank. -/
theorem skipBlank_branchSpan (s : List Char) : skipBlank (branchSpan s).2 = (branchSpan s).2 := by
  rcases branchSpan_eq_nil_or_comma s with hnil | ⟨tail, hcomma⟩
  · rw [hnil]
    rfl
  · rw [hcomma, skipBlank_of_not_blank (by decide)]

/-- Behind the branch of a containment the branch ends. -/
theorem isBranchEnd_branchSpan (s : List Char) : isBranchEnd (skipBlank (branchSpan s).2) = true := by
  rw [skipBlank_branchSpan]
  rcases branchSpan_eq_nil_or_comma s with hnil | ⟨tail, hcomma⟩
  · rw [hnil]
    rfl
  · rw [hcomma]
    rfl

/-- A containment is the first selector of a list without commas outside. -/
theorem legible_readContainment (hlists : LegibleBelow p bound) (hs : s.length < bound)
    {contained : Option Selector} (h : readContainment (standardLists p) s = .done contained rest) :
    (∀ inner, contained = some inner → inner.Legible p True) ∧ isBranchEnd (skipBlank rest) = true := by
  have hlength : (branchSpan s).1.length < bound := by
    have happ := congrArg List.length (branchSpan_append s)
    rw [List.length_append] at happ
    omega
  obtain rfl := readContainment_eq_done h
  refine ⟨?_, isBranchEnd_branchSpan s⟩
  rintro inner rfl
  obtain ⟨-, others, hread⟩ := readContainment_eq_some h
  exact (hlists _ _ hlength hread inner List.mem_cons_self).mono fun _ => passes_branchSpan s

theorem ident?_of_readTag {name : Ident} (h : (readTag s).1 = some name) :
    ident? s = some (name, (readTag s).2) := by
  unfold readTag at h ⊢
  split at h
  · cases h
  · split at h
    · next found rest hname =>
      obtain rfl := Option.some.inj h
      exact hname
    · cases h

theorem readTag_eq_some {name : Ident} (h : (readTag s).1 = some name) :
    name.IsWhole ∧ s = name.raw.toList ++ (readTag s).2 := Ident.isWhole_of_read (ident?_of_readTag h)

theorem legible_readPart (hlists : LegibleBelow p bound) (hs : s.length ≤ bound)
    (hhead : ∀ c, s.head? = some c → isBlank c = false) {combinator : Option Combinator}
    (h : readPart ⟨.standard, p⟩ (standardLists p) combinator s = .done part rest) :
    part.Legible p (Quiet s) ∧ part.combinator = combinator ∧
      (∀ inner, part.containment = some inner → inner.Legible p True) ∧
      (part.subject = true → isBranchEnd (skipBlank rest) = true) := by
  have hfollows := ((skips_subjectMark s).trans (skips_readTag (subjectMark s).2)).follows
  unfold readPart at h
  dsimp only at h
  obtain ⟨clauses, t, hclauses, h⟩ := Reading.andThen_eq_done.1 h
  obtain ⟨hlegible, hcount⟩ := legible_readClauses hclauses
  have hmono : ∀ clause ∈ clauses, clause.Legible p (Quiet s) :=
    fun clause hmem => (hlegible clause hmem).mono hfollows.quiet
  have htag : ∀ name, (readTag (subjectMark s).2).1 = some name → name.IsWhole :=
    fun name hname => (readTag_eq_some hname).1
  split at h
  · next hsubject =>
    obtain ⟨contained, u, hcontained, h⟩ := Reading.andThen_eq_done.1 h
    obtain ⟨hcounted, rfl, rfl⟩ := endPart_eq_done.1 h
    have ht : t.length < bound := Nat.lt_of_lt_of_le (length_containment_lt hsubject hclauses) hs
    obtain ⟨hinner, hend⟩ := legible_readContainment hlists ht hcontained
    refine ⟨⟨htag, ?_, hmono, hcount, ?_, hcounted⟩, rfl, hinner, fun _ => hend⟩
    · rintro ⟨⟩
    · rintro ⟨⟩
  · next hsubject =>
    split at h
    · obtain ⟨hcounted, rfl, rfl⟩ := endPart_eq_done.1 h
      have hmark : (subjectMark s).2 = s := by
        unfold subjectMark at hsubject ⊢
        split at hsubject
        · exact absurd rfl hsubject
        · rfl
      refine ⟨⟨htag, fun _ name hname c hc => hhead c ?_, hmono, hcount, fun _ => rfl, hcounted⟩,
        rfl, ?_, ?_⟩
      · have happ := (readTag_eq_some hname).2
        rw [hmark] at happ
        rw [happ, List.head?_append, hc, Option.some_or]
      · rintro inner ⟨⟩
      · rintro ⟨⟩
    · cases h

/-- Behind a combinator stands no blank, and between parts there is always a combinator. -/
theorem readCombinator_eq_done {first spaced : Bool} {combinator : Option Combinator}
    (hhead : ∀ c, s.head? = some c → isBlank c = false)
    (h : readCombinator first spaced s = .done combinator rest) :
    (∀ c, rest.head? = some c → isBlank c = false) ∧ (first = false → combinator ≠ none) := by
  unfold readCombinator at h
  split at h
  · dsimp only at h
    split at h
    · cases h
    · cases h
      exact ⟨fun c hc => not_blank_of_skipBlank hc, fun _ => Option.some_ne_none _⟩
  · split at h
    · next hfirst =>
      cases h
      exact ⟨hhead, fun hfalse => by rw [hfirst] at hfalse; cases hfalse⟩
    · split at h
      · cases h
        exact ⟨hhead, fun _ => Option.some_ne_none _⟩
      · cases h

theorem readParts_of_isBranchEnd {parser : Parser} {nested : ListReader} (first : Bool)
    (h : isBranchEnd (skipBlank s) = true) :
    readParts parser nested first s = .done [] (skipBlank s) := by
  rw [readParts_eq, if_pos h]

theorem legible_readParts (hlists : LegibleBelow p bound) (hs : s.length ≤ bound) {first : Bool}
    {parts : List Part} (h : readParts ⟨.standard, p⟩ (standardLists p) first s = .done parts rest) :
    (∀ part ∈ parts, part.Legible p (Quiet s)) ∧
      (∀ part ∈ parts, ∀ inner, part.containment = some inner → inner.Legible p True) ∧
      (∀ part ∈ parts.dropLast, part.subject = false) ∧
      (∀ part ∈ parts.drop first.toNat, part.combinator ≠ none) := by
  revert hs
  refine readParts_induction (motive := fun first s parts => s.length ≤ bound →
    (∀ part ∈ parts, part.Legible p (Quiet s)) ∧
      (∀ part ∈ parts, ∀ inner, part.containment = some inner → inner.Legible p True) ∧
      (∀ part ∈ parts.dropLast, part.subject = false) ∧
      (∀ part ∈ parts.drop first.toNat, part.combinator ≠ none)) (fun _ _ _ _ _ => by simp) ?_ h
  intro first s part t others hpart hothers ih hs
  obtain ⟨combinator, u, hcombinator, hread⟩ := Reading.andThen_eq_done.1 hpart
  -- the part starts behind blanks and the combinator
  have hskip : Text.Follows s (skipBlank s) := (skips_skipBlank s).follows
  have hbehind := follows_readCombinator first ((skipBlank s).length < s.length) (skipBlank s)
  have hfollows := follows_readLinkedPart ⟨.standard, p⟩ (standardLists p) first
    ((skipBlank s).length < s.length) (skipBlank s)
  rw [hcombinator] at hbehind
  rw [hpart] at hfollows
  have hu : Text.Follows s u := hskip.trans hbehind
  have ht : Text.Follows s t := hskip.trans hfollows
  obtain ⟨hhead, hlinked⟩ := readCombinator_eq_done
    (fun c hc => not_blank_of_skipBlank hc) hcombinator
  obtain ⟨hlegible, hlink, hinner, hend⟩ :=
    legible_readPart hlists (hu.suffix.length_le.trans hs) hhead hread
  obtain ⟨hparts, hcontained, hsubject, hcombinators⟩ := ih (ht.suffix.length_le.trans hs)
  refine ⟨fun other hmem => ?_, fun other hmem => ?_, fun other hmem => ?_, fun other hmem => ?_⟩
  · rcases List.mem_cons.1 hmem with rfl | hmem
    · exact hlegible.mono hu.quiet
    · exact (hparts other hmem).mono ht.quiet
  · rcases List.mem_cons.1 hmem with rfl | hmem
    · exact hinner
    · exact hcontained other hmem
  · cases hcase : others with
    | nil =>
      rw [hcase] at hmem
      cases hmem
    | cons second tail =>
      rw [hcase, List.dropLast_cons_of_ne_nil (List.cons_ne_nil _ _), ← hcase] at hmem
      rcases List.mem_cons.1 hmem with rfl | hmem
      -- a subject takes the rest of the branch, so no part is read behind it
      · refine Bool.eq_false_iff.2 fun htrue => ?_
        rw [readParts_of_isBranchEnd _ (hend htrue)] at hothers
        cases hothers
        cases hcase
      · exact hsubject other hmem
  · cases first with
    | true => exact hcombinators other hmem
    | false =>
      rcases List.mem_cons.1 hmem with rfl | hmem
      · rw [hlink]
        exact hlinked rfl
      · exact hcombinators other hmem

theorem legible_readBranch (hlists : LegibleBelow p bound) (hs : s.length ≤ bound)
    {selector : Selector} (h : readBranch ⟨.standard, p⟩ (standardLists p) s = .ok (some selector, rest)) :
    selector.Legible p (Quiet s) := by
  have hshort := length_skipBlank_le s
  have hparts := readBranch_eq_some h
  obtain ⟨parts⟩ := selector
  obtain ⟨hlegible, hinner, hsubject, hlinked⟩ := legible_readParts hlists (by omega) hparts
  refine .intro ?_ ?_ hsubject ?_ hinner
  · rintro rfl
    rw [readParts_eq, skipBlank_skipBlank, isBranchEnd_of_readBranch h, if_neg Bool.false_ne_true] at hparts
    obtain ⟨part, t, -, hmap⟩ := Reading.andThen_eq_done.1 hparts
    obtain ⟨others, -, hcons⟩ := Reading.map_eq_done.1 hmap
    cases hcons
  · rw [← List.drop_one]
    exact hlinked
  · exact fun part hmem => (hlegible part hmem).mono (skips_skipBlank s).follows.quiet

theorem not_quiet_comma (s : List Char) : ¬ Quiet (',' :: s) :=
  fun h => (passes_cons.1 h).1 ⟨rfl, rfl⟩

/-- Without the blanks around it, a text has no commas outside either. -/
theorem Quiet.trim (h : Quiet s) : Quiet (trim s) := by
  obtain ⟨u, v, hs, hu, -⟩ := trim_append s
  rw [hs, Quiet, passes_append, passes_append,
    show Nesting.start.run u = .start from (even_of_isBlank hu).run 0] at h
  exact h.2.1

theorem legible_readBranches (hlists : LegibleBelow p bound) (hs : s.length ≤ bound)
    {list : List Selector} (h : readBranches ⟨.standard, p⟩ (standardLists p) s = .ok list) :
    ∀ selector ∈ list, selector.Legible p (Quiet s) := by
  have hfirst : ∀ s selector? rest, s.length ≤ bound →
      readBranch ⟨.standard, p⟩ (standardLists p) s = .ok (selector?, rest) →
        ∀ selector ∈ selector?.toList, selector.Legible p (Quiet s) := by
    intro s selector? rest hs hbranch selector hmem
    rw [Option.mem_toList.1 hmem] at hbranch
    exact legible_readBranch hlists hs hbranch
  revert hs
  refine readBranches_induction (motive := fun s list =>
    s.length ≤ bound → ∀ selector ∈ list, selector.Legible p (Quiet s)) ?_ ?_ h
  · intro s selector? rest hbranch _ hs
    exact hfirst s selector? rest hs hbranch
  · intro s selector? rest more others hbranch hcomma ih hs
    have hbehind := (follows_readBranch hbranch).trans (skips_skipBlank rest).follows
    rw [hcomma] at hbehind
    have hshort := (List.suffix_cons ',' more).length_le.trans hbehind.suffix.length_le
    intro selector hmem
    rcases List.mem_append.1 hmem with hmem | hmem
    · exact hfirst s selector? rest hs hbranch selector hmem
    · -- behind a comma outside, the whole text was not quiet
      exact (ih (hshort.trans hs) selector hmem).mono fun hquiet =>
        absurd (hbehind.quiet hquiet) (not_quiet_comma more)

/-- Every selector that is read is legible. -/
theorem legible_standardLists (s : List Char) {list : List Selector}
    (h : standardLists p s = .ok list) : ∀ selector ∈ list, selector.Legible p (Quiet s) := by
  refine readLists_induction (motive := fun s list => ∀ selector ∈ list, selector.Legible p (Quiet s))
    (fun _ => by simp) (fun s list hlists hread => ?_) h
  intro selector hmem
  exact (legible_readBranches hlists (length_trim_le s) hread selector hmem).mono Quiet.trim

end Reader

/-- Every selector of a list that is read is legible. -/
theorem Selector.legible_of_read {text : String} {list : List Selector}
    (h : Selector.read ⟨.standard, p⟩ text = .ok list) {selector : Selector} (hmem : selector ∈ list) :
    selector.Legible p False :=
  (Reader.legible_standardLists text.toList (Selector.read_eq_ok.1 h) selector hmem).mono
    fun hfalse => hfalse.elim

end TreeQuery
