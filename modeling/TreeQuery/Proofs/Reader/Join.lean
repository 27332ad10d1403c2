import TreeQuery.Proofs.Reader.Induction

/-!
# Lists joined by a comma

Two selector lists joined by a comma read as the branches of the first followed by those of the second,
dead branches left out. No reader looks beyond the comma: behind a text that ends outside of every bracket
and quote, a comma ends names, arguments, parts and branches as the end of the text does, and the scan for
commas stops at it. So every reading of the first text goes the same way with the comma behind it
(`Reading.Extends`), unless it fails.
-/

namespace TreeQuery

open Text

/-! ## Tokens in front of a comma -/

namespace Text

variable {s t content inner rest : List Char} {c mark : Char}

/-- The scan of the text ends outside of every bracket and quote, with no escape pending. -/
def Settled (s : List Char) : Prop := Nesting.start.run s = .start

instance (s : List Char) : Decidable (Settled s) := decEq (Nesting.start.run s) .start

theorem Settled.endsUnescaped (h : Settled s) : EndsUnescaped s := endsUnescaped_of_run h

theorem Follows.settled (h : Follows s rest) (hs : Settled s) : Settled rest := by
  obtain ⟨u, rfl, rfl | hu⟩ := h
  · rfl
  · rwa [Settled, Nesting.run_append, hu] at hs

theorem Follows.endsUnescaped (h : Follows s rest) (hs : EndsUnescaped s) : EndsUnescaped rest := by
  obtain ⟨u, rfl, rfl | hu⟩ := h
  · rfl
  · exact (endsUnescaped_append (endsUnescaped_of_run hu)).1 hs

/-- An open bracket changes no escape behind it. -/
theorem endsUnescaped_of_bracket (h : EndsUnescaped ('[' :: s)) : EndsUnescaped s :=
  (endsUnescaped_append (u := ['[']) (endsUnescaped_singleton (by decide))).1 h

/-- A comma behind a text is its first character only if the text is empty. -/
theorem exists_cons_of_append_comma {tail : List Char} (h : s ++ ',' :: tail = c :: t) (hc : c ≠ ',') :
    ∃ u, s = c :: u := by
  cases s with
  | nil => exact absurd (List.cons_eq_cons.1 h).1.symm hc
  | cons d s => exact ⟨s, by rw [(List.cons_eq_cons.1 h).1]⟩

theorem skipBlank_append_comma (s tail : List Char) :
    skipBlank (s ++ ',' :: tail) = skipBlank s ++ ',' :: tail := by
  induction s with
  | nil => exact skipBlank_of_not_blank (by decide) tail
  | cons c s ih =>
    rw [List.cons_append]
    by_cases hblank : isBlank c = true
    · rw [skipBlank_of_blank hblank, skipBlank_of_blank hblank, ih]
    · rw [Bool.not_eq_true] at hblank
      rw [skipBlank_of_not_blank hblank, skipBlank_of_not_blank hblank, List.cons_append]

/-- Nothing is trimmed at the end of a text that does not end in a blank. -/
theorem trim_eq_skipBlank (h : ∀ c, s.getLast? = some c → isBlank c = false) : trim s = skipBlank s := by
  obtain ⟨u, hu, -⟩ := skipBlank_append s
  rw [trim_eq_rdropWhile, List.rdropWhile_eq_self_iff]
  intro hne
  have hlast : (u ++ skipBlank s).getLast? = some ((skipBlank s).getLast hne) := by
    rw [List.getLast?_append, List.getLast?_eq_some_getLast hne, Option.some_or]
  rw [← hu] at hlast
  exact Bool.eq_false_iff.1 (h _ hlast)

/-- What stands around a comma is trimmed at its outer ends only. -/
theorem trim_append_comma (s : List Char) (hne : trim t ≠ []) :
    ∃ u, (∀ c ∈ u, isBlank c = true) ∧ trim (s ++ ',' :: t) = skipBlank s ++ ',' :: (u ++ trim t) := by
  obtain ⟨u, v, ht, hu, hv⟩ := trim_append t
  have hsplit : skipBlank s ++ ',' :: t = (skipBlank s ++ ',' :: (u ++ trim t)) ++ v := by
    nth_rewrite 1 [ht]
    simp
  have hlast : (skipBlank s ++ ',' :: (u ++ trim t)).getLast? = some ((trim t).getLast hne) := by
    rw [List.getLast?_append, List.getLast?_cons, List.getLast?_append,
      List.getLast?_eq_some_getLast hne]
    rfl
  refine ⟨u, hu, ?_⟩
  rw [trim_eq_rdropWhile, skipBlank_append_comma, hsplit, List.rdropWhile, List.reverse_append,
    List.dropWhile_append_of_pos (fun c hc => hv c (List.mem_reverse.1 hc)), ← List.rdropWhile,
    List.rdropWhile_eq_self_iff]
  intro hwhole
  rw [List.getLast?_eq_some_getLast hwhole, Option.some.injEq] at hlast
  rw [hlast]
  exact Bool.eq_false_iff.1 ((isTrimmed_trim t).last _ (List.getLast?_eq_some_getLast hne))

/-- What follows a name does not go on with it, but for a backslash at the end of the text. -/
theorem endsName_identSpan (s : List Char) : (identSpan s).2 = ['\\'] ∨ EndsName (identSpan s).2 := by
  fun_induction identSpan s with
  | case1 =>
    right
    rintro c ⟨⟩
  | case2 => exact .inl rfl
  | case3 c s ih => exact ih
  | case4 c s _ _ hc ih => exact ih
  | case5 c s hnil hcons hc =>
    right
    rintro d ⟨⟩
    refine ⟨by simpa using hc, ?_⟩
    rintro rfl
    cases s with
    | nil => exact hnil rfl rfl
    | cons d s => exact hcons d s rfl rfl

theorem skips_identSpan (s : List Char) : Skips s (identSpan s).2 :=
  ⟨(identSpan s).1, (identSpan_append s).symm, even_identSpan s⟩

/-- A comma ends a name as the end of the text does. -/
theorem ident?_append_comma (h : EndsUnescaped s) (tail : List Char) :
    ident? (s ++ ',' :: tail) = (ident? s).map fun r => (r.1, r.2 ++ ',' :: tail) := by
  have hends : EndsName ((identSpan s).2 ++ ',' :: tail) := by
    rcases endsName_identSpan s with hslash | hname
    · -- a backslash at the end would be pending
      have hrest := (skips_identSpan s).follows.endsUnescaped h
      rw [hslash] at hrest
      cases hrest
    · intro c hc
      cases hsplit : (identSpan s).2 with
      | nil =>
        rw [hsplit] at hc
        obtain rfl := Option.some.inj hc
        decide
      | cons d t =>
        rw [hsplit] at hc hname
        exact hname c hc
  have hspan := identSpan_append_of_endsName s hends
  rw [← List.append_assoc, identSpan_append] at hspan
  unfold ident?
  rw [hspan]
  cases hfirst : identSpan s with
  | mk raw rest => cases raw with
    | nil => rfl
    | cons c raw => rfl

/-- The closing quote is found with more text behind it. -/
theorem closeQuote?_append (h : closeQuote? mark s = some (content, rest)) (tail : List Char) :
    closeQuote? mark (s ++ tail) = some (content, rest ++ tail) := by
  fun_induction closeQuote? mark s generalizing content with
  | case1 => cases h
  | case2 => cases h
  | case3 c s ih =>
    obtain ⟨r, hr, heq⟩ := Option.map_eq_some_iff.1 h
    obtain ⟨rfl, rfl⟩ := Prod.mk.inj heq
    rw [List.cons_append, List.cons_append, closeQuote?, ih hr]
    rfl
  | case4 c s hnil hcons hmark =>
    cases h
    rw [List.cons_append, closeQuote?_cons (ne_backslash_of_cases hnil hcons), if_pos hmark]
  | case5 c s hnil hcons hmark ih =>
    obtain ⟨r, hr, heq⟩ := Option.map_eq_some_iff.1 h
    obtain ⟨rfl, rfl⟩ := Prod.mk.inj heq
    rw [List.cons_append, closeQuote?_cons (ne_backslash_of_cases hnil hcons), if_neg hmark, ih hr]
    rfl

theorem quoted?_append (h : quoted? s = some (content, rest)) (tail : List Char) :
    quoted? (s ++ tail) = some (content, rest ++ tail) := by
  cases s with
  | nil => cases h
  | cons c s =>
    obtain ⟨hquote, hclose⟩ := Option.ite_none_right_eq_some.1 h
    rw [List.cons_append, quoted?, if_pos hquote, closeQuote?_append hclose]

theorem group?_append (h : group? s = some (inner, rest)) (tail : List Char) :
    group? (s ++ tail) = some (inner, rest ++ tail) := by
  obtain ⟨rfl, hpass, hrun⟩ := group?_eq_some.1 h
  exact group?_eq_some.2 ⟨by simp, hpass, hrun⟩

/-- A comma behind a settled text ends its last branch. -/
theorem branchSpan_append_comma (h : Settled s) (tail : List Char) :
    branchSpan (s ++ ',' :: tail) = ((branchSpan s).1, (branchSpan s).2 ++ ',' :: tail) := by
  cases hscan : scan? ',' .start s with
  | none =>
    have hwhole : scan? ',' .start (s ++ ',' :: tail) = some (s, ',' :: tail) :=
      scan?_eq_some.2 ⟨tail, rfl, rfl, hscan, Nesting.isOutside_iff.2 h⟩
    rw [branchSpan, hwhole, branchSpan, hscan]
    rfl
  | some r =>
    obtain ⟨before, behind⟩ := r
    obtain ⟨t, rfl, rfl, hpass, hout⟩ := scan?_eq_some.1 hscan
    have hwhole : scan? ',' .start (before ++ ',' :: t ++ ',' :: tail) =
        some (before, ',' :: t ++ ',' :: tail) :=
      scan?_eq_some.2 ⟨t ++ ',' :: tail, rfl, List.append_assoc _ _ _, hpass, hout⟩
    rw [branchSpan, hwhole, branchSpan, hscan]
    rfl

end Text

/-! ## Readings in front of a comma -/

variable {α β : Type} {s tail : List Char}

/-- The other reading goes the same way and leaves `more` behind the rest, unless the reading fails. -/
def Reading.Extends (more : List Char) (r r' : Reading α) : Prop :=
  match r with
  | .done value rest => r' = .done value (rest ++ more)
  | .dead rest => r' = .dead (rest ++ more)
  | .fatal _ => True

namespace Reading.Extends

variable {more : List Char} {r r' : Reading α}

theorem andThen {next next' : α → List Char → Reading β} (h : r.Extends more r')
    (hnext : ∀ value rest, r = .done value rest →
      (next value rest).Extends more (next' value (rest ++ more))) :
    (r.andThen next).Extends more (r'.andThen next') := by
  cases r with
  | done value rest =>
    rw [show r' = .done value (rest ++ more) from h]
    exact hnext value rest rfl
  | dead rest =>
    rw [show r' = .dead (rest ++ more) from h]
    rfl
  | fatal cause => trivial

theorem map {f : α → β} (h : r.Extends more r') : (r.map f).Extends more (r'.map f) :=
  h.andThen fun _ _ _ => rfl

end Reading.Extends

namespace Reader

variable {parser : Parser} {nested : ListReader}

/-! ### Conditions -/

theorem extends_readId (h : EndsUnescaped s) (tail : List Char) :
    (readId s).Extends (',' :: tail) (readId (s ++ ',' :: tail)) := by
  unfold readId
  rw [ident?_append_comma h]
  cases ident? s with
  | none => trivial
  | some r => rfl

theorem extends_readClass (h : EndsUnescaped s) (tail : List Char) :
    (readClass s).Extends (',' :: tail) (readClass (s ++ ',' :: tail)) := by
  unfold readClass
  rw [ident?_append_comma h]
  cases ident? s with
  | none => trivial
  | some r => rfl

theorem comparator?_append {comparator : Comparator} {rest : List Char}
    (h : comparator? s = some (comparator, rest)) (more : List Char) :
    comparator? (s ++ more) = some (comparator, rest ++ more) := by
  unfold comparator? at h
  split at h
  · cases h
    rfl
  · next c t hne =>
    obtain ⟨found, hfound, heq⟩ := Option.map_eq_some_iff.1 h
    obtain ⟨rfl, rfl⟩ := Prod.mk.inj heq
    rw [List.cons_append, List.cons_append, comparator?, hfound]
    · rfl
    · exact hne
  · cases h

/-- An operand ends at a comma, unless it is a string that is not closed. -/
theorem operand_append_comma (h : EndsUnescaped s)
    (hclosed : quoted? s = none → ∀ c, s.head? = some c → isQuote c = false) (tail : List Char) :
    operand (s ++ ',' :: tail) = ((operand s).1, (operand s).2 ++ ',' :: tail) := by
  cases hquoted : quoted? s with
  | some r =>
    obtain ⟨content, rest⟩ := r
    rw [operand, quoted?_append hquoted, operand, hquoted]
  | none =>
    have hnone : quoted? (s ++ ',' :: tail) = none := by
      cases s with
      | nil => rfl
      | cons c s =>
        rw [List.cons_append, quoted?, if_neg]
        rw [hclosed hquoted c rfl]
        exact Bool.false_ne_true
    rw [operand, hnone, operand, hquoted]
    dsimp only
    rw [ident?_append_comma h]
    cases ident? s with
    | none => rfl
    | some r => rfl

theorem caseFlag_append_comma (s tail : List Char) :
    caseFlag (s ++ ',' :: tail) = ((caseFlag s).1, (caseFlag s).2 ++ ',' :: tail) := by
  cases s with
  | nil => rfl
  | cons c s =>
    rw [List.cons_append]
    by_cases hsmall : c = 'i'
    · rw [hsmall]
      rfl
    by_cases hcapital : c = 'I'
    · rw [hcapital]
      rfl
    have hflag : ∀ t, caseFlag (c :: t) = (false, c :: t) := by
      intro t
      unfold caseFlag
      split <;> simp_all
    rw [hflag, hflag, List.cons_append]

/-- Reads the rest of an attribute condition behind the comparator. -/
def readComparison (name : Ident) (comparator : Comparator) (s : List Char) : Reading Clause :=
  let compared := operand (skipBlank s)
  let flagged := caseFlag (skipBlank compared.2)
  match skipBlank flagged.2 with
  | ']' :: rest =>
    if compared.1 == "" && comparator.isAnchored then .dead rest
    else .done (.attribute name comparator compared.1 flagged.1) rest
  | _ => .fatal (.malformed .invalidAttribute)

theorem readAttribute_eq (s : List Char) :
    readAttribute s =
      match ident? (skipBlank s) with
      | none => .fatal (.malformed .invalidAttribute)
      | some (name, t) => match skipBlank t with
        | ']' :: rest => .done (.attribute name .present "" false) rest
        | u => match comparator? u with
          | none => .fatal (.malformed .invalidAttribute)
          | some (comparator, v) => readComparison name comparator v := rfl

/-- A comparison with a string that is not closed cannot be read. -/
theorem readComparison_of_open {name : Ident} {comparator : Comparator} {c : Char} {t : List Char}
    (hs : skipBlank s = c :: t) (hquote : isQuote c = true) (hopen : quoted? (c :: t) = none) :
    readComparison name comparator s = .fatal (.malformed .invalidAttribute) := by
  have hmark : operand (c :: t) = ("", c :: t) ∧ caseFlag (c :: t) = (false, c :: t) ∧ c ≠ ']' := by
    rw [operand, hopen]
    rcases Bool.or_eq_true_iff.1 hquote with hdouble | hsingle
    · obtain rfl := beq_iff_eq.1 hdouble
      exact ⟨rfl, rfl, by decide⟩
    · obtain rfl := beq_iff_eq.1 hsingle
      exact ⟨rfl, rfl, by decide⟩
  obtain ⟨hoperand, hflag, hbracket⟩ := hmark
  have hskip : skipBlank (c :: t) = c :: t := by rw [← hs, skipBlank_skipBlank]
  unfold readComparison
  simp only [hs, hoperand, hskip, hflag]
  split
  · next heq => exact absurd (List.cons_eq_cons.1 heq).1 hbracket
  · rfl

theorem extends_readComparison (h : EndsUnescaped s) (name : Ident) (comparator : Comparator)
    (tail : List Char) :
    (readComparison name comparator s).Extends (',' :: tail)
      (readComparison name comparator (s ++ ',' :: tail)) := by
  by_cases hclosed : quoted? (skipBlank s) = none → ∀ c, (skipBlank s).head? = some c → isQuote c = false
  · have hskip := (skips_skipBlank s).follows.endsUnescaped h
    unfold readComparison
    simp only [skipBlank_append_comma, operand_append_comma hskip hclosed, caseFlag_append_comma]
    split
    · next rest hrest =>
      rw [hrest]
      by_cases himpossible : ((operand (skipBlank s)).1 == "" && comparator.isAnchored) = true
      · simp only [List.cons_append, if_pos himpossible]
        rfl
      · simp only [List.cons_append, if_neg himpossible]
        rfl
    · trivial
  · push Not at hclosed
    obtain ⟨hopen, c, hc, hquote⟩ := hclosed
    obtain ⟨t, ht⟩ := List.head?_eq_some_iff.1 hc
    rw [ht] at hopen
    rw [readComparison_of_open ht (by simpa using hquote) hopen]
    trivial

theorem extends_readAttribute (h : EndsUnescaped ('[' :: s)) (tail : List Char) :
    (readAttribute s).Extends (',' :: tail) (readAttribute (s ++ ',' :: tail)) := by
  have hs := (skips_skipBlank s).follows.endsUnescaped (endsUnescaped_of_bracket h)
  rw [readAttribute_eq, readAttribute_eq, skipBlank_append_comma, ident?_append_comma hs]
  cases hname : ident? (skipBlank s) with
  | none => trivial
  | some r =>
    obtain ⟨name, t⟩ := r
    have ht := ((skips_ident? hname).trans (skips_skipBlank t)).follows.endsUnescaped hs
    rw [Option.map_some]
    dsimp only
    rw [skipBlank_append_comma]
    split
    · next rest hrest =>
      rw [hrest]
      rfl
    · next hpresent =>
      split
      · trivial
      · next comparator u hcomparator =>
        have hu := (skips_comparator? hcomparator).follows.endsUnescaped ht
        have happ := comparator?_append hcomparator (',' :: tail)
        split
        · next rest hrest =>
          obtain ⟨v, hv⟩ := exists_cons_of_append_comma hrest (by decide)
          exact (hpresent v hv).elim
        · rw [happ]
          exact extends_readComparison hu name comparator tail

theorem extends_readGroup (s tail : List Char) :
    (readGroup s).Extends (',' :: tail) (readGroup (s ++ ',' :: tail)) := by
  unfold readGroup
  rw [skipBlank_append_comma]
  split
  · next t ht =>
    rw [ht]
    split
    · next inner rest hgroup =>
      have happ := group?_append hgroup (',' :: tail)
      rw [List.cons_append] at happ
      simp only [List.cons_append, happ]
      rfl
    · trivial
  · next hopen =>
    split
    · next t ht =>
      obtain ⟨u, hu⟩ := exists_cons_of_append_comma ht (by decide)
      exact (hopen u hu).elim
    · rfl

theorem extends_readArgument (entry : Entry) (inner? : Option (List Char)) (rest more : List Char) :
    (readArgument nested entry inner? rest).Extends more
      (readArgument nested entry inner? (rest ++ more)) := by
  have hleaves := readArgument_inFrontOf nested entry inner? rest rest
  rw [readArgument_inFrontOf nested entry inner? rest (rest ++ more)]
  cases hread : readArgument nested entry inner? rest with
  | done argument t =>
    rw [hread] at hleaves
    rw [hleaves]
    rfl
  | dead t =>
    rw [hread] at hleaves
    rw [hleaves]
    rfl
  | fatal cause => trivial

theorem extends_readPseudo (h : EndsUnescaped s) (tail : List Char) :
    (readPseudo parser nested s).Extends (',' :: tail)
      (readPseudo parser nested (s ++ ',' :: tail)) := by
  unfold readPseudo
  rw [ident?_append_comma h]
  cases ident? s with
  | none => trivial
  | some r =>
    refine (extends_readGroup r.2 tail).andThen fun inner? rest _ => ?_
    split
    · trivial
    · exact (extends_readArgument _ inner? rest _).map

/-- No condition starts with a comma, and one that is read is read in front of a comma, too. -/
theorem extends_readClause? (parser : Parser) (nested : ListReader) (h : EndsUnescaped s)
    (hasId : Bool) (tail : List Char) :
    Option.Rel (Reading.Extends (',' :: tail)) (readClause? parser nested hasId s)
      (readClause? parser nested hasId (s ++ ',' :: tail)) := by
  have hbehind : ∀ c t, s = c :: t → isPlain c = true → EndsUnescaped t := by
    rintro c t rfl hplain
    exact (skips_cons hplain t).follows.endsUnescaped h
  unfold readClause?
  split
  · next t =>
    refine .some ?_
    split
    · rfl
    · exact extends_readId (hbehind _ _ rfl (by decide)) tail
  · next t => exact .some (extends_readClass (hbehind _ _ rfl (by decide)) tail)
  · next t => exact .some (extends_readAttribute h tail)
  · next t => exact .some (extends_readPseudo (hbehind _ _ rfl (by decide)) tail)
  · next hid hclass hattribute hpseudo =>
    split
    · next t ht =>
      obtain ⟨u, hu⟩ := exists_cons_of_append_comma ht (by decide)
      exact (hid u hu).elim
    · next t ht =>
      obtain ⟨u, hu⟩ := exists_cons_of_append_comma ht (by decide)
      exact (hclass u hu).elim
    · next t ht =>
      obtain ⟨u, hu⟩ := exists_cons_of_append_comma ht (by decide)
      exact (hattribute u hu).elim
    · next t ht =>
      obtain ⟨u, hu⟩ := exists_cons_of_append_comma ht (by decide)
      exact (hpseudo u hu).elim
    · exact .none

theorem extends_readClauses (parser : Parser) (nested : ListReader) (tally : Tally) (h : EndsUnescaped s)
    (tail : List Char) :
    (readClauses parser nested tally s).Extends (',' :: tail)
      (readClauses parser nested tally (s ++ ',' :: tail)) := by
  induction hlength : s.length using Nat.strongRecOn generalizing s tally with
  | ind length ih =>
    have hrel := extends_readClause? parser nested h tally.hasId tail
    rw [readClauses_eq, readClauses_eq]
    generalize hfirst : readClause? parser nested tally.hasId s = first at hrel
    generalize readClause? parser nested tally.hasId (s ++ ',' :: tail) = second at hrel
    cases hrel with
    | none => rfl
    | some hread =>
      refine hread.andThen fun clause rest hdone => ?_
      subst hdone
      have hlt : rest.length < s.length := leaves_readClause? hfirst
      have hfollows : Text.Follows s rest := follows_readClause? hfirst
      split
      · trivial
      · exact (ih rest.length (by omega) _ (hfollows.endsUnescaped h) rfl).map

/-! ### Parts -/

theorem subjectMark_append_comma (s tail : List Char) :
    subjectMark (s ++ ',' :: tail) = ((subjectMark s).1, (subjectMark s).2 ++ ',' :: tail) := by
  cases s with
  | nil => rfl
  | cons c s =>
    rw [List.cons_append]
    by_cases hmark : c = '$'
    · rw [hmark]
      rfl
    · have hname : ∀ t, subjectMark (c :: t) = (false, c :: t) := by
        intro t
        unfold subjectMark
        split <;> simp_all
      rw [hname, hname, List.cons_append]

theorem readTag_append_comma (h : EndsUnescaped s) (tail : List Char) :
    readTag (s ++ ',' :: tail) = ((readTag s).1, (readTag s).2 ++ ',' :: tail) := by
  cases s with
  | nil => rfl
  | cons c s =>
    by_cases hstar : c = '*'
    · rw [hstar]
      rfl
    · have hname : ∀ t, readTag (c :: t) =
          ((ident? (c :: t)).map fun r => (some r.1, r.2)).getD (none, c :: t) := by
        intro t
        unfold readTag
        split
        · next heq => exact absurd (List.cons_eq_cons.1 heq).1 hstar
        · cases ident? (c :: t) with
          | none => rfl
          | some r => rfl
      rw [List.cons_append, hname, hname, ← List.cons_append, ident?_append_comma h]
      cases ident? (c :: s) with
      | none => rfl
      | some r => rfl

theorem extends_readContainment (h : Settled s) (tail : List Char) :
    (readContainment nested s).Extends (',' :: tail) (readContainment nested (s ++ ',' :: tail)) := by
  unfold readContainment
  rw [branchSpan_append_comma h]
  dsimp only
  split
  · rfl
  · split
    · trivial
    · rfl
    · rfl

theorem extends_endPart (p : Profile) (part : Part) (rest more : List Char) :
    (endPart p part rest).Extends more (endPart p part (rest ++ more)) := by
  unfold endPart
  split
  · rfl
  · trivial

theorem extends_readPart (combinator : Option Combinator) (h : Settled s) (tail : List Char) :
    (readPart parser nested combinator s).Extends (',' :: tail)
      (readPart parser nested combinator (s ++ ',' :: tail)) := by
  have hmark := (skips_subjectMark s).follows.settled h
  have htag := (skips_readTag (subjectMark s).2).follows.settled hmark
  unfold readPart
  rw [subjectMark_append_comma]
  dsimp only
  rw [readTag_append_comma hmark.endsUnescaped]
  refine (extends_readClauses parser nested _ htag.endsUnescaped tail).andThen
    fun clauses rest hclauses => ?_
  have hfollows := follows_readClauses parser nested (.start (readTag (subjectMark s).2).1)
    (readTag (subjectMark s).2).2
  rw [hclauses] at hfollows
  have hrest : Settled rest := Text.Follows.settled hfollows htag
  split
  · exact (extends_readContainment hrest tail).andThen fun inner rest _ => extends_endPart _ _ rest _
  · -- the part is empty in front of the comma if it is without it
    have hlength : (rest ++ ',' :: tail).length < (s ++ ',' :: tail).length ↔ rest.length < s.length := by
      rw [List.length_append, List.length_append]
      omega
    by_cases hlt : rest.length < s.length
    · rw [if_pos hlt, if_pos (hlength.2 hlt)]
      exact extends_endPart _ _ rest _
    · rw [if_neg hlt]
      trivial

theorem isBranchEnd_append_comma (s tail : List Char) :
    isBranchEnd (s ++ ',' :: tail) = isBranchEnd s := by
  cases s with
  | nil => rfl
  | cons c s => rfl

theorem extends_readCombinator (first spaced : Bool) (s tail : List Char) :
    (readCombinator first spaced s).Extends (',' :: tail)
      (readCombinator first spaced (s ++ ',' :: tail)) := by
  cases s with
  | nil =>
    cases first with
    | true => rfl
    | false => cases spaced <;> trivial
  | cons c s =>
    unfold readCombinator
    rw [List.cons_append, List.head?_cons, List.head?_cons, List.drop_one, List.drop_one, List.tail_cons,
      List.tail_cons, skipBlank_append_comma]
    split
    · dsimp only
      rw [isBranchEnd_append_comma]
      split
      · trivial
      · rfl
    · split
      · rfl
      · split
        · rfl
        · trivial

theorem extends_readLinkedPart (first spaced : Bool) (h : Settled s) (tail : List Char) :
    (readLinkedPart parser nested first spaced s).Extends (',' :: tail)
      (readLinkedPart parser nested first spaced (s ++ ',' :: tail)) := by
  refine (extends_readCombinator first spaced s tail).andThen fun combinator rest hcombinator => ?_
  have hfollows := follows_readCombinator first spaced s
  rw [hcombinator] at hfollows
  exact extends_readPart combinator (Text.Follows.settled hfollows h) tail

/-! ### Branches -/

theorem extends_readParts (parser : Parser) (nested : ListReader) (first : Bool) (h : Settled s)
    (tail : List Char) :
    (readParts parser nested first s).Extends (',' :: tail)
      (readParts parser nested first (s ++ ',' :: tail)) := by
  induction hlength : s.length using Nat.strongRecOn generalizing s first with
  | ind length ih =>
    have hspaced : ((skipBlank s ++ ',' :: tail).length < (s ++ ',' :: tail).length) =
        ((skipBlank s).length < s.length) := by
      rw [List.length_append, List.length_append, Nat.add_lt_add_iff_right]
    rw [readParts_eq, readParts_eq, skipBlank_append_comma, isBranchEnd_append_comma]
    split
    · rfl
    · simp only [hspaced]
      have hskip := (skips_skipBlank s).follows
      refine (extends_readLinkedPart first _ (hskip.settled h) tail).andThen fun part rest hpart => ?_
      have hleaves := leaves_readLinkedPart parser nested first ((skipBlank s).length < s.length)
        (skipBlank s)
      have hfollows := follows_readLinkedPart parser nested first ((skipBlank s).length < s.length)
        (skipBlank s)
      rw [hpart] at hleaves hfollows
      have hlt : rest.length < s.length := Nat.lt_of_lt_of_le hleaves (length_skipBlank_le s)
      exact (ih rest.length (by omega) false ((hskip.trans hfollows).settled h) rfl).map

/-- A branch is read in front of a comma as it is at the end of the text, also when it is dead. -/
theorem readBranch_append_comma (h : Settled s) {selector? : Option Selector} {rest : List Char}
    (hread : readBranch parser nested s = .ok (selector?, rest)) (tail : List Char) :
    readBranch parser nested (s ++ ',' :: tail) = .ok (selector?, rest ++ ',' :: tail) := by
  have hskip := (skips_skipBlank s).follows.settled h
  have hextends := extends_readParts parser nested true hskip tail
  have hfollows := follows_readParts parser nested true (skipBlank s)
  unfold readBranch at hread ⊢
  rw [skipBlank_append_comma, isBranchEnd_append_comma]
  split at hread
  · cases hread
  · next hopen =>
    rw [if_neg hopen]
    split at hread
    · next parts t hparts =>
      rw [hparts] at hextends
      cases hread
      rw [show readParts _ _ _ _ = _ from hextends]
    · next t hparts =>
      rw [hparts] at hextends hfollows
      cases hread
      have ht : Settled t := Text.Follows.settled hfollows hskip
      rw [show readParts _ _ _ _ = _ from hextends]
      dsimp only
      rw [branchSpan_append_comma ht]
    · cases hread

/-- A list is read in front of a comma and another list: the branches of both in a row. -/
theorem readBranches_append_comma (h : Settled s) {list : List Selector}
    (hread : readBranches parser nested s = .ok list) (tail : List Char) :
    readBranches parser nested (s ++ ',' :: tail) =
      (readBranches parser nested tail).map (list ++ ·) := by
  revert h
  refine readBranches_induction (motive := fun s list => Settled s →
    readBranches parser nested (s ++ ',' :: tail) =
      (readBranches parser nested tail).map (list ++ ·)) ?_ ?_ hread
  · intro s selector? rest hbranch hend hs
    refine readBranches_of_comma (readBranch_append_comma hs hbranch tail) ?_
    rw [skipBlank_append_comma, hend, List.nil_append]
  · intro s selector? rest more others hbranch hcomma ih hs
    have hfollows := (follows_readBranch hbranch).trans (skips_skipBlank rest).follows
    rw [hcomma] at hfollows
    have hbehind : Settled more := hfollows.settled hs
    have hmore : skipBlank (rest ++ ',' :: tail) = ',' :: (more ++ ',' :: tail) := by
      rw [skipBlank_append_comma, hcomma, List.cons_append]
    rw [readBranches_of_comma (readBranch_append_comma hs hbranch tail) hmore, ih hbehind]
    cases readBranches parser nested tail with
    | error cause => rfl
    | ok list => exact congrArg Except.ok (List.append_assoc _ _ _).symm

/-- Blanks in front of a list are skipped. -/
theorem readBranches_append_of_blank (parser : Parser) (nested : ListReader) {u : List Char}
    (hu : ∀ c ∈ u, isBlank c = true) (s : List Char) :
    readBranches parser nested (u ++ s) = readBranches parser nested s := by
  have hskip : skipBlank (u ++ s) = skipBlank s := List.dropWhile_append_of_pos hu
  have hbranch : readBranch parser nested (u ++ s) = readBranch parser nested s := by
    unfold readBranch
    rw [hskip]
  rw [readBranches_eq, hbranch, ← readBranches_eq]

end Reader

/-! ## Two lists -/

/-- Two lists joined by a comma read as the branches of the first and those of the second, if the first
ends outside of every bracket and quote and neither is blank. -/
theorem Selector.read_append_comma {parser : Parser} {a b : String} {list others : List Selector}
    (ha : Selector.read parser a = .ok list) (hb : Selector.read parser b = .ok others)
    (hfirst : trim a.toList ≠ []) (hsecond : trim b.toList ≠ [])
    (hlast : ∀ c, a.toList.getLast? = some c → isBlank c = false) (hsettled : Settled a.toList) :
    Selector.read parser (a ++ "," ++ b) = .ok (list ++ others) := by
  rw [Selector.read_eq_ok, Reader.readLists_eq] at ha hb
  rw [Selector.read_eq_ok, Reader.readLists_eq, String.toList_append, String.toList_append]
  have hread : ∀ {s : List Char} {found : List Selector}, trim s ≠ [] →
      (Reader.readList parser (Reader.readLists parser) s = .ok found ↔
        Reader.readBranches parser (Reader.readLists parser) (trim s) = .ok found) := by
    intro s found hne
    unfold Reader.readList
    split
    · next hnil => exact absurd hnil hne
    · rfl
  rw [hread hfirst, trim_eq_skipBlank hlast] at ha
  rw [hread hsecond] at hb
  obtain ⟨u, hu, htrim⟩ := trim_append_comma a.toList hsecond
  have hbehind := Reader.readBranches_append_of_blank parser (Reader.readLists parser) hu (trim b.toList)
  have hs : Settled (skipBlank a.toList) := (skips_skipBlank a.toList).follows.settled hsettled
  rw [List.append_assoc, show ",".toList ++ b.toList = ',' :: b.toList from rfl, hread (by simp [htrim]),
    htrim, Reader.readBranches_append_comma hs ha, hbehind, hb]
  rfl

/-- The selector `li:lang(de)`. -/
def Selector.germanItem : Selector :=
  ⟨[⟨none, false, some ⟨"li"⟩, [.pseudo ⟨.lang, false, some "de", .text "de"⟩], none⟩]⟩

end TreeQuery
