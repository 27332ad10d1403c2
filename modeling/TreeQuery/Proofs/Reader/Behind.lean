import TreeQuery.Proofs.Reader.BranchEnd
import TreeQuery.Proofs.Reader.Dropped

/-!
# More text behind a reading

Behind a text that was read may stand any other text, as long as nothing at its end goes on with it: no name,
no argument in parentheses, no condition (`Apart`). A branch that dies does not even need that. What kills it
stands in front of the place where it dies, so it dies at the same place whatever stands behind the text
(`exists_diesAt`), and only the scan for its end looks further.
-/

namespace TreeQuery

open Text

namespace Text

variable {s t u rest more : List Char} {i : Ident}

/-! ## The end of a name -/

/-- No name at the end of the text can go on behind it: its last character stands in no name, and no name is
expected behind it. -/
def EndsToken (s : List Char) : Prop :=
  ∀ u c, s = u ++ [c] → EndsUnescaped u ∧ isIdentChar c = false ∧ c ≠ '$'

theorem endsToken_iff : EndsToken s ↔
    s.getLast?.all (fun c => decide (EndsUnescaped s.dropLast ∧ isIdentChar c = false ∧ c ≠ '$')) = true := by
  rw [Option.all_eq_true]
  constructor
  · intro h c hc
    obtain ⟨u, rfl⟩ := List.getLast?_eq_some_iff.1 hc
    rw [List.dropLast_concat]
    exact decide_eq_true (h u c rfl)
  · rintro h u c rfl
    have hlast := of_decide_eq_true (h c List.getLast?_concat)
    rwa [List.dropLast_concat] at hlast

instance (s : List Char) : Decidable (EndsToken s) := decidable_of_iff _ endsToken_iff.symm

theorem EndsToken.of_follows (h : EndsToken s) (hs : Follows s rest) : EndsToken rest := by
  obtain ⟨v, rfl, hv⟩ := hs
  rintro u c rfl
  obtain ⟨hu, hc⟩ := h (v ++ u) c (List.append_assoc v u [c]).symm
  have hv := endsUnescaped_of_run (hv.resolve_left (List.append_ne_nil_of_right_ne_nil u (List.cons_ne_nil c [])))
  exact ⟨(endsUnescaped_append hv).1 hu, hc⟩

/-- The last character of a name is a character of names, or it is escaped. -/
theorem not_endsToken_of_identSpan (h : identSpan s = (s, [])) (hne : s ≠ []) : ¬EndsToken s := by
  -- along the name, an escape at a time; only the last character or escape decides
  fun_induction identSpan s with
  | case1 => exact absurd rfl hne
  | case2 => cases h
  | case3 c s ih =>
    have hspan : identSpan s = (s, []) := by
      obtain ⟨hfirst, hsecond⟩ := Prod.mk.inj h
      exact Prod.ext (List.cons_eq_cons.1 (List.cons_eq_cons.1 hfirst).2).2 hsecond
    intro htoken
    by_cases hnil : s = []
    · subst hnil
      exact absurd (htoken ['\\'] c rfl).1 (by decide)
    · refine ih hspan hnil (htoken.of_follows (follows_of_run (u := ['\\', c]) ?_ s))
      rfl
  | case4 c s _ _ hc ih =>
    have hspan : identSpan s = (s, []) := by
      obtain ⟨hfirst, hsecond⟩ := Prod.mk.inj h
      exact Prod.ext (List.cons_eq_cons.1 hfirst).2 hsecond
    intro htoken
    by_cases hnil : s = []
    · subst hnil
      have hlast := (htoken [] c rfl).2.1
      rw [hc] at hlast
      cases hlast
    · exact ih hspan hnil (htoken.of_follows (skips_cons (isPlain_of_isIdentChar hc) s).follows)
  | case5 => cases h

/-- What follows a name does not go on with it, but for a backslash at the end of the text. -/
theorem endsName_of_read (h : ident? s = some (i, rest)) : rest = ['\\'] ∨ EndsName rest := by
  have hrest : (identSpan s).2 = rest := by
    unfold ident? at h
    split at h
    · cases h
    · next heq =>
      rw [heq]
      exact (Prod.mk.inj (Option.some.inj h)).2
  exact hrest ▸ endsName_identSpan s

theorem skipBlank_append_of_ne (h : skipBlank s ≠ []) (t : List Char) :
    skipBlank (s ++ t) = skipBlank s ++ t := by
  have hempty : (s.dropWhile isBlank).isEmpty ≠ true := fun hnil => h (List.isEmpty_iff.1 hnil)
  rw [skipBlank, List.dropWhile_append, if_neg hempty]
  rfl

theorem skipBlank_append_of_nil (h : skipBlank s = []) (t : List Char) : skipBlank (s ++ t) = skipBlank t :=
  (List.dropWhile_append (p := isBlank)).trans (if_pos (List.isEmpty_iff.2 h))

/-! ## Longer texts -/

theorem trim_eq_nil (h : ∀ c ∈ s, isBlank c = true) : trim s = [] := by
  rw [trim_eq_rdropWhile, skipBlank, List.dropWhile_eq_nil_iff.2 h]
  rfl

theorem trim_append_of_ne (h : trim s ≠ []) (t : List Char) : ∃ u, trim (s ++ t) = trim s ++ u := by
  have hskip : skipBlank s ≠ [] := by
    intro hnil
    rw [trim_eq_rdropWhile, hnil] at h
    exact h rfl
  obtain ⟨v, hv⟩ : ∃ v, skipBlank s = trim s ++ v :=
    ⟨_, (List.rdropWhile_append_rtakeWhile (p := isBlank) (l := skipBlank s)).symm⟩
  have hlast : (trim s).rdropWhile isBlank = trim s := by
    rw [List.rdropWhile_eq_self_iff]
    intro hne
    exact Bool.eq_false_iff.1 ((isTrimmed_trim s).last _ (List.getLast?_eq_some_getLast hne))
  rw [trim_eq_rdropWhile, skipBlank_append_of_ne hskip, hv, List.append_assoc, List.rdropWhile,
    List.reverse_append, List.dropWhile_append]
  split
  · exact ⟨[], by rw [List.append_nil]; exact hlast⟩
  · refine ⟨(v ++ t).rdropWhile isBlank, ?_⟩
    rw [List.reverse_append, List.reverse_reverse]
    rfl

/-- A scan stops in the first of two texts, or goes on in the second. -/
theorem scan?_append (stop : Char) (n : Nesting) (s t : List Char) :
    scan? stop n (s ++ t) =
      ((scan? stop n s).map fun r => (r.1, r.2 ++ t)).or
        ((scan? stop (n.run s) t).map fun r => (s ++ r.1, r.2)) := by
  induction s generalizing n with
  | nil => simp [scan?]
  | cons c s ih =>
    rw [List.cons_append, scan?, scan?, ih, Nesting.run_cons]
    split
    · rfl
    · cases scan? stop (n.step c) s with
      | some r => rfl
      | none => simp [Function.comp_def]

/-- With more text behind it a branch that has an end keeps it. -/
theorem branchSpan_append_of_not_passes (h : (branchSpan s).2 ≠ []) (t : List Char) :
    branchSpan (s ++ t) = ((branchSpan s).1, (branchSpan s).2 ++ t) := by
  cases hscan : scan? ',' .start s with
  | none =>
    rw [branchSpan_of_passes hscan] at h
    exact absurd rfl h
  | some r =>
    rw [branchSpan, scan?_append, hscan, branchSpan, hscan]
    rfl

/-- A branch without an end goes on in the text behind it. -/
theorem branchSpan_append_of_open (h : Passes ',' .start s) (t : List Char) :
    branchSpan (s ++ t) = ((scan? ',' (Nesting.start.run s) t).getD (t, [])).map (s ++ ·) id := by
  rw [branchSpan, scan?_append, show scan? ',' .start s = none from h]
  cases scan? ',' (Nesting.start.run s) t <;> rfl

theorem passes_of_branchSpan (h : (branchSpan s).2 = []) : Passes ',' .start s := by
  have happ := branchSpan_append s
  rw [h, List.append_nil] at happ
  exact happ ▸ passes_branchSpan s

theorem branchSpan_append_prefix (s t : List Char) : ∃ u, (branchSpan (s ++ t)).1 = (branchSpan s).1 ++ u := by
  by_cases hend : (branchSpan s).2 = []
  · have hopen := passes_of_branchSpan hend
    rw [branchSpan_append_of_open hopen, branchSpan_of_passes hopen]
    exact ⟨_, rfl⟩
  · rw [branchSpan_append_of_not_passes hend]
    exact ⟨[], (List.append_nil _).symm⟩

end Text

open Reader in
/-- What was read of `s` in front of `rest` is read in front of `rest ++ more`, too: nothing goes on with
`more`. Only a rest that is empty, or blank, leaves that open. -/
structure Text.Apart (s rest more : List Char) : Prop where
  name : rest = [] → EndsName more ∨ EndsToken s
  part : rest = [] → ¬Marked more ∧ more.head? ≠ some '*'
  group : skipBlank rest = [] → (skipBlank more).head? ≠ some '('
  slash : rest ≠ ['\\']

namespace Text.Apart

variable {s t rest more : List Char}

theorem of_follows (h : Apart s rest more) (hs : Follows s t) : Apart t rest more :=
  ⟨fun hnil => (h.name hnil).imp_right (·.of_follows hs), h.part, h.group, h.slash⟩

/-- A rest with a character that is no blank decides everything. -/
theorem of_skipBlank_ne (h : skipBlank rest ≠ []) (hslash : rest ≠ ['\\']) (s more : List Char) :
    Apart s rest more := by
  have hne : rest ≠ [] := by
    rintro rfl
    exact h rfl
  exact ⟨fun hnil => absurd hnil hne, fun hnil => absurd hnil hne, fun hnil => absurd hnil h, hslash⟩

end Text.Apart

namespace Reader

variable {parser : Parser} {nested : ListReader} {s t u place rest more : List Char} {clause : Clause}
  {hasId hasId' : Bool}

theorem Marked.apart (h : Marked rest) (s more : List Char) : Apart s rest more := by
  obtain ⟨c, hc, hmark⟩ := h
  have hspecial := Marked.not_special ⟨c, hc, hmark⟩ hc
  have hskip : skipBlank rest = rest := skipBlank_eq_self fun d hd => by
    rw [hc] at hd
    exact Option.some.inj hd ▸ hspecial.2.2.1
  refine .of_skipBlank_ne ?_ ?_ s more
  · rw [hskip]
    rintro rfl
    cases hc
  · rintro rfl
    exact hspecial.2.1 (Option.some.inj hc).symm

/-! ## Conditions -/

theorem ident?_apart {i : Ident} (h : ident? s = some (i, rest)) (hapart : Apart s rest more) :
    ident? (s ++ more) = some (i, rest ++ more) := by
  obtain ⟨hwhole, hs⟩ := Ident.isWhole_of_read h
  have hends : EndsName (rest ++ more) := by
    cases rest with
    | nil =>
      rw [List.append_nil] at hs
      exact (hapart.name rfl).resolve_right (hs ▸ not_endsToken_of_identSpan hwhole.span hwhole.ne_nil)
    | cons d t => exact (endsName_of_read h).resolve_left hapart.slash
  rw [hs, List.append_assoc, hwhole.ident?_append hends]

/-- An argument in parentheses is read with any text behind it. -/
theorem readGroup_append {inner : List Char} (h : readGroup s = .done (some inner) rest) (more : List Char) :
    readGroup (s ++ more) = .done (some inner) (rest ++ more) := by
  unfold readGroup at h
  split at h
  · next t ht =>
    split at h
    · next inner' rest' hinner =>
      cases h
      have hne : skipBlank s ≠ [] := by
        rw [ht]
        exact List.cons_ne_nil '(' t
      have hskip := skipBlank_append_of_ne hne more
      have hagain := group?_append hinner more
      rw [ht] at hskip
      rw [List.cons_append] at hskip hagain
      unfold readGroup
      simp only [hskip, hagain]
    · cases h
  · cases h

/-- And so is the name in front of it. -/
theorem ident?_append_of_group {name : Ident} {inner : List Char} (hname : ident? s = some (name, t))
    (hgroup : readGroup t = .done (some inner) rest) (more : List Char) :
    ident? (s ++ more) = some (name, t ++ more) := by
  obtain ⟨v, rfl, -⟩ : ∃ v, t = v ++ '(' :: (inner ++ ')' :: rest) ∧ _ := by
    rcases readGroup_eq_done hgroup with ⟨hnone, -⟩ | ⟨_, hsome, ⟨v, ht, hv⟩, -, -⟩
    · cases hnone
    · obtain rfl := Option.some.inj hsome
      exact ⟨v, ht, hv⟩
  have hmem : '(' ∈ v ++ '(' :: (inner ++ ')' :: rest) := List.mem_append_right v List.mem_cons_self
  refine ident?_apart hname (.of_skipBlank_ne (fun hnil => ?_) (fun hslash => ?_) s more)
  · obtain ⟨blanks, hblanks, hblank⟩ := skipBlank_append (v ++ '(' :: (inner ++ ')' :: rest))
    rw [hnil, List.append_nil] at hblanks
    exact absurd (hblank '(' (hblanks ▸ hmem)) (by decide)
  · rw [hslash] at hmem
    exact absurd hmem (by decide)

/-- Without an argument none begins behind the text. -/
theorem readGroup_apart (h : readGroup s = .done none rest)
    (hgroup : skipBlank rest = [] → (skipBlank more).head? ≠ some '(') :
    readGroup (s ++ more) = .done none (rest ++ more) := by
  unfold readGroup at h
  split at h
  · split at h <;> cases h
  · next hopen =>
    cases h
    unfold readGroup
    split
    · next t ht =>
      by_cases hnil : skipBlank s = []
      · rw [skipBlank_append_of_nil hnil] at ht
        exact absurd (by rw [ht]; rfl) (hgroup hnil)
      · rw [skipBlank_append_of_ne hnil] at ht
        obtain ⟨c, v, hv⟩ := List.exists_cons_of_ne_nil hnil
        rw [hv] at ht
        obtain rfl := (List.cons_eq_cons.1 ht).1
        exact absurd hv (hopen v)
    · rfl

/-- The name of a pseudo-class, and its argument if it has one. -/
theorem readGroup_ident?_apart {name : Ident} {inner? : Option (List Char)}
    (hname : ident? s = some (name, t)) (hgroup : readGroup t = .done inner? rest)
    (hapart : Apart s rest more) :
    ident? (s ++ more) = some (name, t ++ more) ∧ readGroup (t ++ more) = .done inner? (rest ++ more) := by
  cases inner? with
  | some inner => exact ⟨ident?_append_of_group hname hgroup more, readGroup_append hgroup more⟩
  | none =>
    obtain rfl : rest = t := by
      rcases readGroup_eq_done hgroup with ⟨-, hrest⟩ | ⟨_, hsome, -⟩
      · exact hrest
      · cases hsome
    exact ⟨ident?_apart hname hapart, readGroup_apart hgroup hapart.group⟩

theorem readPseudo_apart (h : readPseudo parser nested s = .done clause rest)
    (hapart : Apart s rest more) :
    readPseudo parser nested (s ++ more) = .done clause (rest ++ more) := by
  obtain ⟨name, t, inner?, entry, argument, hname, hgroup, hentry, hargument, rfl⟩ := readPseudo_eq_done.1 h
  obtain ⟨hname', hgroup'⟩ := readGroup_ident?_apart hname hgroup hapart
  exact readPseudo_eq_done.2 ⟨name, _, inner?, entry, argument, hname', hgroup', hentry,
    readArgument_of_done hargument _, rfl⟩

theorem readClause?_apart (h : readClause? parser nested hasId s = some (.done clause rest))
    (hapart : Apart s rest more) :
    readClause? parser nested hasId (s ++ more) = some (.done clause (rest ++ more)) := by
  have hbehind : ∀ c t, s = c :: t → isPlain c = true → Apart t rest more := by
    rintro c t rfl hplain
    exact hapart.of_follows (skips_cons hplain t).follows
  unfold readClause? at h
  split at h
  · next t =>
    have h := Option.some.inj h
    split at h
    · cases h
    · next hid =>
      obtain ⟨name, hname, rfl⟩ := readId_eq_done h
      show some (if hasId = true then _ else readId (t ++ more)) = _
      rw [if_neg hid, readId, ident?_apart hname (hbehind _ _ rfl (by decide))]
  · next t =>
    obtain ⟨name, hname, rfl⟩ := readClass_eq_done (Option.some.inj h)
    show some (readClass (t ++ more)) = _
    rw [readClass, ident?_apart hname (hbehind _ _ rfl (by decide))]
  · next t =>
    have hread := Option.some.inj h
    obtain ⟨u, rfl, hu⟩ := readAttribute_replace (congrArg Reading.rest? hread)
    have hagain := hu (rest ++ more)
    rw [hread, ← List.append_assoc] at hagain
    exact congrArg some hagain
  · next t =>
    exact congrArg some (readPseudo_apart (Option.some.inj h) (hbehind _ _ rfl (by decide)))
  · cases h

/-- No condition comes next where none came next, and none comes next behind the end. -/
theorem readClause?_apart_none (h : readClause? parser nested hasId rest = none)
    (hapart : Apart s rest more) : readClause? parser nested hasId (rest ++ more) = none := by
  by_contra hsome
  have hmarked := (readClause?_isSome parser nested hasId _).1 (Option.isSome_iff_ne_none.2 hsome)
  cases rest with
  | nil => exact (hapart.part rfl).1 hmarked
  | cons c t =>
    have hsome' := (readClause?_isSome parser nested hasId (c :: t)).2 hmarked
    rw [h] at hsome'
    cases hsome'

/-- What follows the first of some conditions is apart if what follows the last one is. -/
theorem Apart.of_readClauses {tally : Tally} {clauses : List Clause}
    (h : readClauses parser nested tally t = .done clauses rest) (hapart : Apart s rest more) :
    Apart s t more := by
  rw [readClauses_eq] at h
  cases hclause : readClause? parser nested tally.hasId t with
  | none =>
    rw [hclause] at h
    cases h
    exact hapart
  | some r => exact (marked_of_readClause? hclause).apart s more

theorem readClauses_apart {tally : Tally} {clauses : List Clause}
    (h : readClauses parser nested tally s = .done clauses rest) (hapart : Apart s rest more) :
    readClauses parser nested tally (s ++ more) = .done clauses (rest ++ more) := by
  fun_induction readClauses parser nested tally s generalizing clauses with
  | case1 tally s hnone =>
    cases h
    rw [readClauses_eq, readClause?_apart_none hnone hapart]
  | case2 => cases h
  | case3 => cases h
  | case4 => cases h
  | case5 tally s clause t hclause _ tally' hadd ih =>
    obtain ⟨others, hothers, rfl⟩ := Reading.map_eq_done.1 h
    have hfirst := readClause?_apart hclause (Apart.of_readClauses hothers hapart)
    have hlater := ih hothers (hapart.of_follows (follows_readClause? hclause))
    rw [readClauses_of_readClause? hfirst hadd, hlater]
    rfl

/-! ## Parts -/

theorem subjectMark_apart (hs : s ≠ []) (more : List Char) :
    subjectMark (s ++ more) = ((subjectMark s).1, (subjectMark s).2 ++ more) := by
  obtain ⟨c, t, rfl⟩ := List.exists_cons_of_ne_nil hs
  by_cases hdollar : c = '$'
  · rw [hdollar]
    rfl
  · have hmark : ∀ t, subjectMark (c :: t) = (false, c :: t) := fun t =>
      subjectMark_of_head? fun hc => hdollar (Option.some.inj hc)
    rw [List.cons_append, hmark, hmark, List.cons_append]

/-- No name begins where none began. -/
theorem ident?_apart_none (h : ident? s = none) (hne : s ≠ []) (hslash : s ≠ ['\\']) (more : List Char) :
    ident? (s ++ more) = none := by
  obtain ⟨c, t, rfl⟩ := List.exists_cons_of_ne_nil hne
  have hc : c ≠ '\\' ∧ isIdentChar c = false := by
    by_contra hname
    cases hread : ident? (c :: t) with
    | some r =>
      rw [h] at hread
      cases hread
    | none =>
      unfold ident? at hread
      split at hread
      · next hspan =>
        by_cases hback : c = '\\'
        · subst hback
          cases t with
          | nil => exact hslash rfl
          | cons d t => cases hspan
        · rw [identSpan_cons hback] at hspan
          split at hspan
          · cases hspan
          · next hident => exact hname ⟨hback, Bool.eq_false_iff.2 hident⟩
      · cases hread
  unfold ident?
  rw [List.cons_append, identSpan_cons hc.1, if_neg (by rw [hc.2]; exact Bool.false_ne_true)]

/-- The name of an element ends where it ended. A mark in front of it is not the end of the text. -/
theorem readTag_apart (hapart : Apart s (readTag s).2 more) (hnil : s = [] → EndsName more) :
    readTag (s ++ more) = ((readTag s).1, (readTag s).2 ++ more) := by
  by_cases hstar : s.head? = some '*'
  · obtain ⟨t, rfl⟩ := List.head?_eq_some_iff.1 hstar
    rfl
  · rw [readTag_of_head? hstar] at hapart ⊢
    have hhead : (s ++ more).head? ≠ some '*' := by
      cases s with
      | nil => exact (hapart.part rfl).2
      | cons c t => exact hstar
    rw [readTag_of_head? hhead]
    cases hname : ident? s with
    | some r =>
      obtain ⟨name, t⟩ := r
      rw [hname] at hapart
      rw [ident?_apart hname hapart]
      rfl
    | none =>
      rw [hname] at hapart
      have hnone : ident? (s ++ more) = none := by
        by_cases hs : s = []
        · subst hs
          cases hmore : more with
          | nil => rfl
          | cons c t =>
            obtain ⟨hc, hslash⟩ := hnil rfl c (by rw [hmore]; rfl)
            unfold ident?
            rw [List.nil_append, identSpan_cons hslash, if_neg (by rw [hc]; exact Bool.false_ne_true)]
        · exact ident?_apart_none hname hs hapart.slash more
      rw [hnone]
      rfl

/-- The mark, the name and the conditions of a part. -/
theorem readHead_apart {tally : Tally} {clauses : List Clause} (hs : s ≠ [])
    (h : readClauses parser nested tally (readTag (subjectMark s).2).2 = .done clauses t)
    (hapart : Apart s t more) :
    (subjectMark (s ++ more)).1 = (subjectMark s).1 ∧
      (readTag (subjectMark (s ++ more)).2).1 = (readTag (subjectMark s).2).1 ∧
        readClauses parser nested tally (readTag (subjectMark (s ++ more)).2).2 =
          .done clauses (t ++ more) := by
  have hmark := subjectMark_apart hs more
  have hfollows := (skips_subjectMark s).follows
  have hbehind := (skips_readTag (subjectMark s).2).follows
  have htag : readTag ((subjectMark s).2 ++ more) =
      ((readTag (subjectMark s).2).1, (readTag (subjectMark s).2).2 ++ more) := by
    refine readTag_apart ((Apart.of_readClauses h hapart).of_follows hfollows) fun hnil => ?_
    -- only a mark stands in front of the end of the text
    have hdollar : s = ['$'] := by
      by_cases hhead : s.head? = some '$'
      · obtain ⟨v, rfl⟩ := List.head?_eq_some_iff.1 hhead
        exact congrArg ('$' :: ·) hnil
      · rw [subjectMark_of_head? hhead] at hnil
        exact absurd hnil hs
    have hempty : t = [] := by
      rw [hnil] at h
      have htagnil : (readTag []).2 = [] := rfl
      rw [htagnil, readClauses_eq] at h
      cases h
      rfl
    refine (hapart.name hempty).resolve_right fun htoken => ?_
    exact (htoken [] '$' hdollar).2.2 rfl
  rw [hmark]
  dsimp only
  rw [htag]
  exact ⟨rfl, rfl, readClauses_apart h ((hapart.of_follows hfollows).of_follows hbehind)⟩

theorem readPart_nil (parser : Parser) (nested : ListReader) (link : Option Combinator) :
    ∃ cause, readPart parser nested link [] = .fatal cause := by
  unfold readPart
  dsimp only [subjectMark, readTag]
  rw [show ident? [] = none from rfl]
  dsimp only
  rw [readClauses_eq]
  exact ⟨_, rfl⟩

/-- A part without containment is read with more text behind it. -/
theorem readPart_apart {link : Option Combinator} {part : Part}
    (h : readPart parser nested link s = .done part rest) (hsubject : (subjectMark s).1 = false)
    (hapart : Apart s rest more) :
    readPart parser nested link (s ++ more) = .done part (rest ++ more) := by
  have hs : s ≠ [] := by
    rintro rfl
    obtain ⟨cause, hfatal⟩ := readPart_nil parser nested link
    rw [hfatal] at h
    cases h
  obtain ⟨clauses, t, hclauses, h⟩ := Reading.andThen_eq_done.1 h
  rw [if_neg (by rw [hsubject]; exact Bool.false_ne_true)] at h
  split at h
  · next hlt =>
    obtain ⟨hcount, rfl, rfl⟩ := endPart_eq_done.1 h
    obtain ⟨hmark, htag, hread⟩ := readHead_apart hs hclauses hapart
    have hlength : (t ++ more).length < (s ++ more).length := by
      rw [List.length_append, List.length_append]
      omega
    rw [readPart_eq_behind, htag, hread]
    show readBehind parser nested link (s ++ more) clauses (t ++ more) = _
    unfold readBehind
    dsimp only
    rw [hmark, htag, hsubject, if_neg Bool.false_ne_true, if_pos hlength]
    exact endPart_eq_done.2 ⟨hcount, rfl, rfl⟩
  · cases h

theorem ne_nil_of_open (h : isBranchEnd s = false) : s ≠ [] := by
  rintro rfl
  cases h

/-- What does not end a branch does not end it with more text behind it. -/
theorem isBranchEnd_append_of_open (h : isBranchEnd s = false) (more : List Char) :
    isBranchEnd (s ++ more) = false := by
  obtain ⟨c, t, rfl⟩ := List.exists_cons_of_ne_nil (ne_nil_of_open h)
  exact h

theorem readCombinator_apart {first spaced : Bool} {link : Option Combinator} (hs : s ≠ [])
    (h : readCombinator first spaced s = .done link t) (more : List Char) :
    readCombinator first spaced (s ++ more) = .done link (t ++ more) := by
  obtain ⟨c, v, rfl⟩ := List.exists_cons_of_ne_nil hs
  unfold readCombinator at h ⊢
  rw [List.cons_append]
  simp only [List.head?_cons, List.drop_one, List.tail_cons] at h ⊢
  split at h
  · split at h
    · cases h
    · next hopen =>
      cases h
      have hopen := Bool.eq_false_iff.2 hopen
      rw [skipBlank_append_of_ne (ne_nil_of_open hopen), isBranchEnd_append_of_open hopen,
        if_neg Bool.false_ne_true]
  · split_ifs at h with hfirst hspaced
    · cases h
      rw [if_pos hfirst]
      rfl
    · cases h
      rw [if_neg hfirst, if_pos hspaced]
      rfl

/-! ## Dead branches -/

/-- A condition that makes a branch dead makes it dead in front of every text. -/
theorem readClause?_dead_append (h : readClause? parser nested hasId s = some (.dead rest))
    (more : List Char) : readClause? parser nested hasId (s ++ more) = some (.dead (rest ++ more)) := by
  unfold readClause? at h
  split at h
  · next t =>
    have h := Option.some.inj h
    split at h
    · next hid =>
      cases h
      show some (if hasId = true then _ else readId (t ++ more)) = _
      rw [if_pos hid]
      rfl
    · exact absurd h readId_ne_dead
  · exact absurd (Option.some.inj h) readClass_ne_dead
  · next t =>
    have hread := Option.some.inj h
    obtain ⟨u, rfl, hu⟩ := readAttribute_replace (congrArg Reading.rest? hread)
    have hagain := hu (rest ++ more)
    rw [hread, ← List.append_assoc] at hagain
    exact congrArg some hagain
  · next t =>
    have hread := Option.some.inj h
    unfold readPseudo at hread
    split at hread
    · cases hread
    · next name v hname =>
      rcases Reading.andThen_eq_dead.1 hread with hgroup | ⟨inner?, w, hgroup, hread⟩
      · exact absurd hgroup readGroup_ne_dead
      · split at hread
        · cases hread
        · next entry hentry =>
          have hdead := Reading.map_eq_dead.1 hread
          -- the argument that is the cause stands in parentheses
          obtain ⟨-, inner, -, rfl, -⟩ := readArgument_eq_dead hdead
          show some (readPseudo parser nested (t ++ more)) = _
          unfold readPseudo
          rw [ident?_append_of_group hname hgroup more]
          dsimp only
          rw [readGroup_append hgroup more]
          dsimp only [Reading.andThen]
          rw [hentry]
          dsimp only
          rw [readArgument_inFrontOf nested entry (some inner) w, hdead]
          have hrest := readArgument_inFrontOf nested entry (some inner) w w
          rw [hdead] at hrest
          obtain rfl := Reading.dead.inj hrest
          rfl
  · cases h

theorem Marked.append (h : Marked s) (more : List Char) : Marked (s ++ more) := by
  obtain ⟨c, hc, hmark⟩ := h
  obtain ⟨t, rfl⟩ := List.head?_eq_some_iff.1 hc
  exact ⟨c, rfl, hmark⟩

/-- A part that dies on a condition dies on it in front of every text. -/
theorem readPart_dead_append {link : Option Combinator}
    (h : readClauses parser nested (.start (readTag (subjectMark s).2).1) (readTag (subjectMark s).2).2 =
      .dead rest) (more : List Char) :
    readPart parser nested link (s ++ more) = .dead (rest ++ more) := by
  obtain ⟨clauses, tally, place, hto, hdead⟩ := exists_clausesTo_of_dead h
  have hplace := marked_of_readClause? hdead
  obtain ⟨head, hs, hhead⟩ := readHead_replace (hto.marked hplace)
  obtain ⟨before, hbefore, hconditions⟩ := hto.replace hplace
  have hto' := hconditions _ (hplace.append more)
  obtain ⟨-, htag⟩ := hhead _ (hto'.marked (hplace.append more))
  have htext : s ++ more = head ++ (before ++ (place ++ more)) := by
    rw [hs, hbefore]
    simp
  rw [htext, readPart_eq_behind, htag, hto'.readClauses_eq, readClauses_eq, readClause?_dead_append hdead]
  rfl

/-- A containment in which the only branch dies is dead, with any text behind it. -/
theorem readContainment_dead_append (hblank : trim (branchSpan s).1 ≠ [])
    (hdies : ∀ more, ∃ rest,
      readBranch parser (readLists parser) (trim (branchSpan s).1 ++ more) = .ok (none, rest))
    (more : List Char) :
    readContainment (readLists parser) (s ++ more) = .dead (branchSpan (s ++ more)).2 := by
  have hlist : ∃ more', trim (branchSpan (s ++ more)).1 = trim (branchSpan s).1 ++ more' := by
    obtain ⟨more', hmore⟩ := branchSpan_append_prefix s more
    rw [hmore]
    exact trim_append_of_ne hblank more'
  obtain ⟨more', htrim⟩ := hlist
  have hquiet : Quiet (trim (branchSpan (s ++ more)).1) := Quiet.trim (passes_branchSpan (s ++ more))
  have hread : readLists parser (branchSpan (s ++ more)).1 = .ok [] := by
    obtain ⟨r, hbranch⟩ := hdies more'
    rw [← htrim] at hbranch
    -- the branch is the whole text, as no comma stands outside
    have hr : r = [] := by
      obtain ⟨t, -, rfl⟩ := readBranch_eq_none hbranch
      rcases branchSpan_eq_nil_or_comma t with hnil | ⟨tail, hcomma⟩
      · exact hnil
      · have hrest := (follows_readBranch hbranch).quiet hquiet
        rw [hcomma] at hrest
        exact absurd hrest (not_quiet_comma tail)
    rw [readLists_eq, readList]
    split
    · next hnil => rfl
    · exact readBranches_of_end hbranch (by rw [hr]; rfl)
  have hne : trim (branchSpan (s ++ more)).1 ≠ [] := by
    rw [htrim]
    exact List.append_ne_nil_of_left_ne_nil hblank more'
  unfold readContainment
  dsimp only
  rw [if_neg (by rwa [List.isEmpty_iff]), hread]

/-- The branch dies at `t`, whatever stands behind the text. -/
structure DiesAt (parser : Parser) (first : Bool) (s t : List Char) : Prop where
  follows : Follows s t
  dead : ∀ more, ∃ rest, readParts parser (readLists parser) first (s ++ more) = .dead rest ∧
    (branchSpan rest).2 = (branchSpan (t ++ more)).2

/-- What is left of a branch is its end for the scan for commas. -/
theorem branchSpan_branchSpan (s : List Char) : (branchSpan (branchSpan s).2).2 = (branchSpan s).2 := by
  have hend := isBranchEnd_branchSpan s
  rw [skipBlank_branchSpan] at hend
  exact branchSpan_of_isBranchEnd hend

/-- A single backslash is no part. -/
theorem readParts_backslash (parser : Parser) (nested : ListReader) (first : Bool) :
    ∃ cause, readParts parser nested first ['\\'] = .fatal cause := by
  have hpart : readPart parser nested none ['\\'] = .fatal (.malformed (.atStartOf ['\\'])) := by
    have htag : readTag (subjectMark ['\\']).2 = (none, ['\\']) := rfl
    unfold readPart
    dsimp only
    rw [htag, readClauses_eq]
    rfl
  rw [readParts_eq]
  cases first with
  | true =>
    show ∃ cause, (readPart parser nested none ['\\']).andThen _ = _
    rw [hpart]
    exact ⟨_, rfl⟩
  | false => exact ⟨_, rfl⟩

/-- A branch that dies is dropped whatever stands behind its text. -/
theorem DiesAt.readBranch (h : DiesAt parser true (skipBlank s) t) (hopen : isBranchEnd (skipBlank s) = false)
    (more : List Char) :
    readBranch parser (readLists parser) (s ++ more) = .ok (none, (branchSpan (t ++ more)).2) := by
  obtain ⟨rest, hread, hrest⟩ := h.dead more
  unfold Reader.readBranch
  rw [skipBlank_append_of_ne (ne_nil_of_open hopen), isBranchEnd_append_of_open hopen, hread, ← hrest]
  rfl

/-- A part that dies, dies at the same place whatever stands behind the text. In a containment this is by
`hinner` for the shorter text of the containment. -/
theorem exists_dies_append {link : Option Combinator}
    (hinner : ∀ u r, u.length < s.length → readParts parser (readLists parser) true u = .dead r →
      ∃ t, DiesAt parser true u t)
    (h : readPart parser (readLists parser) link s = .dead rest) :
    ∃ t, Follows s t ∧ ∀ more, ∃ rest,
      readPart parser (readLists parser) link (s ++ more) = .dead rest ∧
        (branchSpan rest).2 = (branchSpan (t ++ more)).2 := by
  have hhead := ((skips_subjectMark s).trans (skips_readTag (subjectMark s).2)).follows
  have hfollows := follows_readClauses parser (readLists parser) (.start (readTag (subjectMark s).2).1)
    (readTag (subjectMark s).2).2
  rcases Reading.andThen_eq_dead.1 h with hdead | ⟨clauses, u, hclauses, h⟩
  · rw [hdead] at hfollows
    exact ⟨rest, hhead.trans hfollows, fun more => ⟨_, readPart_dead_append hdead more, rfl⟩⟩
  · rw [hclauses] at hfollows
    split at h
    · next hsubject =>
      have honly := readContainment_eq_dead <| (Reading.andThen_eq_dead.1 h).resolve_right
        fun ⟨_, _, _, hend⟩ => endPart_ne_dead hend
      obtain ⟨r, hparts, -⟩ := readBranch_eq_none honly
      have hopen := isBranchEnd_of_readBranch honly
      have hblank : trim (branchSpan u).1 ≠ [] := by
        intro hnil
        rw [hnil] at hopen
        cases hopen
      obtain ⟨t, ht⟩ := hinner _ r (length_trim_containment_lt hsubject hclauses) hparts
      have hskip : skipBlank u ≠ [] := by
        intro hnil
        have hall := List.dropWhile_eq_nil_iff.1 hnil
        refine hblank (trim_eq_nil fun c hc => hall c ?_)
        rw [← branchSpan_append u]
        exact List.mem_append_left _ hc
      have hslash : u ≠ ['\\'] := by
        rintro rfl
        obtain ⟨cause, hfatal⟩ := readParts_backslash parser (readLists parser) true
        have hself : skipBlank (trim (branchSpan ['\\']).1) = ['\\'] := by decide
        rw [hself, hfatal] at hparts
        cases hparts
      refine ⟨u, hhead.trans hfollows, fun more => ⟨_, ?_, branchSpan_branchSpan (u ++ more)⟩⟩
      have hs : s ≠ [] := by
        rintro rfl
        cases hsubject
      obtain ⟨hmark, htag, hread⟩ := readHead_apart hs hclauses (.of_skipBlank_ne hskip hslash s more)
      have hdead := readContainment_dead_append hblank (fun more' => ⟨_, ht.readBranch hopen more'⟩) more
      rw [readPart_eq_behind, htag, hread]
      show readBehind parser (readLists parser) link (s ++ more) clauses (u ++ more) = _
      unfold readBehind
      dsimp only
      rw [hmark, if_pos hsubject, hdead]
      rfl
    · split at h
      · exact absurd h endPart_ne_dead
      · cases h

/-- A part begins in front of more text as it does in front of the end. -/
theorem readParts_append_of_open (hopen : isBranchEnd (skipBlank s) = false) (parser : Parser)
    (nested : ListReader) (first : Bool) (more : List Char) :
    readParts parser nested first (s ++ more) =
      (readLinkedPart parser nested first ((skipBlank s).length < s.length) (skipBlank s ++ more)).andThen
        fun part rest => (readParts parser nested false rest).map (part :: ·) := by
  have hspaced : ((skipBlank s ++ more).length < (s ++ more).length) = ((skipBlank s).length < s.length) := by
    rw [List.length_append, List.length_append, Nat.add_lt_add_iff_right]
  rw [readParts_eq, skipBlank_append_of_ne (ne_nil_of_open hopen), isBranchEnd_append_of_open hopen,
    if_neg Bool.false_ne_true]
  simp only [hspaced]

/-- A branch that dies, dies at the same place whatever stands behind the text. -/
theorem exists_diesAt {first : Bool} (h : readParts parser (readLists parser) first s = .dead rest) :
    ∃ t, DiesAt parser first s t := by
  -- the text of a containment is shorter, which `exists_dies_append` asks for, and so is what follows a part
  induction hlength : s.length using Nat.strongRecOn generalizing first s rest with
  | ind length ih =>
    have hskiplength := length_skipBlank_le s
    have hskipfollows := (skips_skipBlank s).follows
    rw [readParts_eq] at h
    split at h
    · cases h
    · next hopen =>
      have hopen := Bool.eq_false_iff.2 hopen
      have hne := ne_nil_of_open hopen
      have hlater := readParts_append_of_open hopen parser (readLists parser) first
      rcases Reading.andThen_eq_dead.1 h with hdead | ⟨part, t, hpart, hrest⟩
      · rcases Reading.andThen_eq_dead.1 hdead with hnever | ⟨link, t, hlink, hdead⟩
        · exact absurd hnever readCombinator_ne_dead
        have hfollows := follows_readCombinator first ((skipBlank s).length < s.length) (skipBlank s)
        have hleaves := leaves_readCombinator first ((skipBlank s).length < s.length) (skipBlank s)
        rw [hlink] at hfollows hleaves
        dsimp only [Reading.Leaves] at hleaves
        obtain ⟨place, hplace, hread⟩ :=
          exists_dies_append (fun u r hu hread => ih u.length (by omega) hread rfl) hdead
        refine ⟨place, hskipfollows.trans (Text.Follows.trans hfollows hplace), fun more => ?_⟩
        obtain ⟨rest', hrest', heq⟩ := hread more
        refine ⟨rest', ?_, heq⟩
        rw [hlater, readLinkedPart, readCombinator_apart hne hlink]
        show (readPart parser (readLists parser) link (t ++ more)).andThen _ = _
        rw [hrest']
        rfl
      · have hrest := Reading.map_eq_dead.1 hrest
        have hfollows := follows_readLinkedPart parser (readLists parser) first
          ((skipBlank s).length < s.length) (skipBlank s)
        have hleaves := leaves_readLinkedPart parser (readLists parser) first
          ((skipBlank s).length < s.length) (skipBlank s)
        rw [hpart] at hfollows hleaves
        dsimp only [Reading.Leaves] at hleaves
        obtain ⟨place, hplace⟩ := ih t.length (by omega) hrest rfl
        obtain ⟨link, u, hlink, hread⟩ := Reading.andThen_eq_done.1 hpart
        have hend : isBranchEnd (skipBlank t) ≠ true := by
          intro hend
          rw [readParts_of_isBranchEnd _ hend] at hrest
          cases hrest
        have hsubject : (subjectMark u).1 = false := by
          by_contra hmark
          rw [Bool.not_eq_false] at hmark
          obtain ⟨clauses, v, -, hbehind⟩ := Reading.andThen_eq_done.1 hread
          rw [if_pos hmark] at hbehind
          -- a containment leaves nothing of the branch
          obtain ⟨inner, w, hinner, hlast⟩ := Reading.andThen_eq_done.1 hbehind
          obtain ⟨-, -, rfl⟩ := endPart_eq_done.1 hlast
          rw [readContainment_eq_done hinner] at hend
          exact hend (isBranchEnd_branchSpan v)
        have hapart : ∀ more, Apart u t more := fun more => by
          refine .of_skipBlank_ne (fun hnil => ?_) ?_ u more
          · exact hend (by rw [hnil]; rfl)
          · rintro rfl
            obtain ⟨cause, hfatal⟩ := readParts_backslash parser (readLists parser) false
            rw [hfatal] at hrest
            cases hrest
        refine ⟨place, hskipfollows.trans (Text.Follows.trans hfollows hplace.follows), fun more => ?_⟩
        obtain ⟨rest', hrest', heq⟩ := hplace.dead more
        refine ⟨rest', ?_, heq⟩
        rw [hlater, readLinkedPart, readCombinator_apart hne hlink]
        show ((readPart parser (readLists parser) link (u ++ more))).andThen _ = _
        rw [readPart_apart hread hsubject (hapart more)]
        show (readParts parser (readLists parser) false (t ++ more)).map (part :: ·) = _
        rw [hrest']
        rfl

end Reader
end TreeQuery
