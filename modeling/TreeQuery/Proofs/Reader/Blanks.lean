import TreeQuery.Proofs.Reader.Behind

/-!
# Blanks around branches

Blanks around the branches of a list do not matter, as long as they are read as blanks. Every character
outside ASCII belongs to names, blanks among them: behind a name such a blank goes on with the name, and so the
blanks in front of a comma are blanks if the text in front of them ends with no name, or if the first of them is
an ASCII character.

In front of a comma the branches of a text are read as they are read in front of its end
(`readParts_append_comma`). A dead branch dies where it died, and if its text is not properly nested the scan
for its end goes beyond the comma; blanks do not change where it stops (`branchSpan_of_blanks`).
-/

namespace TreeQuery

open Text

namespace Text

variable {s t u v w more tail : List Char}

/-! ## Blanks in a scan -/

/-- Scans that end alike and have not stopped go on alike. -/
theorem branchSpan_congr (hs : Passes ',' .start s) (ht : Passes ',' .start t)
    (hrun : Nesting.start.run s = Nesting.start.run t) (more : List Char) :
    (branchSpan (s ++ more)).2 = (branchSpan (t ++ more)).2 := by
  rw [branchSpan_append_of_open hs, branchSpan_append_of_open ht, hrun]
  rfl

theorem run_append_of_isBlank (h : EndsUnescaped s) (hw : ∀ c ∈ w, isBlank c = true) :
    Nesting.start.run (s ++ w) = Nesting.start.run s := by
  rw [Nesting.run_append]
  refine Nesting.run_of_isBlank h (Nesting.isQuote_of_mark (n := .start) ?_ s) hw
  rintro m ⟨⟩

theorem Follows.endsUnescaped_append (h : Follows s t) (hv : ∀ c ∈ v, isBlank c = true)
    (hs : EndsUnescaped (s ++ v)) : EndsUnescaped (t ++ v) := by
  obtain ⟨u, rfl, rfl | hu⟩ := h
  · exact endsUnescaped_of_run ((even_of_isBlank hv).run 0)
  · rw [List.append_assoc] at hs
    exact (endsUnescaped_append (endsUnescaped_of_run hu)).1 hs

/-- A branch that has not ended ends at the comma behind it, in the same way with more blanks around the comma,
or it goes on behind the comma and the blanks. -/
theorem branchSpan_of_blanks (ht : Passes ',' .start t) (hends : EndsUnescaped (t ++ v))
    (hv : ∀ c ∈ v, isBlank c = true) (hw : ∀ c ∈ w, isBlank c = true) (hu : ∀ c ∈ u, isBlank c = true)
    (tail : List Char) :
    (branchSpan (t ++ (v ++ w ++ ',' :: (u ++ tail)))).2 = ',' :: (u ++ tail) ∧
        (branchSpan (t ++ (v ++ ',' :: tail))).2 = ',' :: tail ∨
      (branchSpan (t ++ (v ++ w ++ ',' :: (u ++ tail)))).2 = (branchSpan (t ++ (v ++ ',' :: tail))).2 := by
  have hpass : ∀ {s w}, Passes ',' .start s → (∀ c ∈ w, isBlank c = true) → Passes ',' .start (s ++ w) :=
    fun hs hw => passes_append.2 ⟨hs, passes_of_isBlank hw _⟩
  have hopen := hpass ht hv
  have hopen' := hpass hopen hw
  have hrun := run_append_of_isBlank hends hw
  have htext : t ++ (v ++ w ++ ',' :: (u ++ tail)) = t ++ v ++ w ++ ',' :: (u ++ tail) := by simp
  have htext' : t ++ (v ++ ',' :: tail) = t ++ v ++ ',' :: tail := by simp
  rw [htext, htext']
  -- outside of all brackets and strings the scan stops at the comma; inside it goes on with the same state
  by_cases hsettled : Settled (t ++ v)
  · have hsettled' : Settled (t ++ v ++ w) := hrun.trans hsettled
    rw [branchSpan_append_comma hsettled, branchSpan_append_comma hsettled', branchSpan_of_passes hopen,
      branchSpan_of_passes hopen']
    exact .inl ⟨rfl, rfl⟩
  · right
    have hcomma : ∀ {s}, Passes ',' .start s → Nesting.start.run s = Nesting.start.run (t ++ v) →
        Passes ',' .start (s ++ [',']) := fun hs hsame => by
      refine passes_append.2 ⟨hs, passes_cons.2 ⟨fun hstop => hsettled ?_, passes_nil _ _⟩⟩
      exact hsame.symm.trans (Nesting.isOutside_iff.1 hstop.1)
    have hends' : EndsUnescaped (t ++ v ++ w ++ [',']) := by
      rw [EndsUnescaped, Nesting.run_append, Nesting.run_cons, Nesting.run_nil, Nesting.escaped_step]
      exact Bool.and_false _
    have hfirst : t ++ v ++ w ++ ',' :: (u ++ tail) = t ++ v ++ w ++ [','] ++ u ++ tail := by simp
    have hsecond : t ++ v ++ ',' :: tail = t ++ v ++ [','] ++ tail := by simp
    rw [hfirst, hsecond]
    refine branchSpan_congr (hpass (hcomma hopen' hrun) hu) (hcomma hopen rfl) ?_ tail
    rw [run_append_of_isBlank hends' hu, Nesting.run_append, hrun, ← Nesting.run_append]

/-! ## Blanks in front of a comma -/

theorem skipBlank_of_isBlank (hw : ∀ c ∈ w, isBlank c = true) (tail : List Char) :
    skipBlank (w ++ ',' :: tail) = ',' :: tail :=
  (List.dropWhile_append_of_pos hw).trans (skipBlank_of_not_blank (by decide) tail)

/-- A text that goes on with a comma, blanks in front of it allowed, starts with one of them. -/
theorem head_of_comma (h : skipBlank more = ',' :: tail) {c : Char} (hc : more.head? = some c) :
    isBlank c = true ∨ c = ',' := by
  by_cases hblank : isBlank c = true
  · exact .inl hblank
  · right
    obtain ⟨t, rfl⟩ := List.head?_eq_some_iff.1 hc
    rw [skipBlank_of_not_blank (Bool.eq_false_iff.2 hblank)] at h
    exact (List.cons_eq_cons.1 h).1

theorem EndsName.left (h : EndsName (v ++ w)) : EndsName v := by
  cases v with
  | nil => rintro c ⟨⟩
  | cons c v => exact h

theorem EndsName.append_comma (h : EndsName w) (tail : List Char) : EndsName (w ++ ',' :: tail) := by
  cases w with
  | nil =>
    rintro c ⟨⟩
    decide
  | cons c w => exact h

/-! ## Blanks at the ends of a text -/

theorem trim_append_of_isBlank (hw : ∀ c ∈ w, isBlank c = true) (s : List Char) : trim (s ++ w) = trim s := by
  by_cases hnil : skipBlank s = []
  · rw [trim_eq_rdropWhile, trim_eq_rdropWhile, skipBlank_append_of_nil hnil, hnil, skipBlank,
      List.dropWhile_eq_nil_iff.2 hw]
  · rw [trim_eq_rdropWhile, trim_eq_rdropWhile, skipBlank_append_of_ne hnil, List.rdropWhile, List.reverse_append,
      List.dropWhile_append_of_pos fun c hc => hw c (List.mem_reverse.1 hc)]
    rfl

theorem trim_of_isBlank_append (hw : ∀ c ∈ w, isBlank c = true) (s : List Char) : trim (w ++ s) = trim s := by
  rw [trim_eq_rdropWhile, skipBlank, List.dropWhile_append_of_pos hw]
  rfl

/-- Behind the blanks in front of it, a text is its trimming and the blanks at its end. -/
theorem skipBlank_eq_trim_append (h : trim s ≠ []) : skipBlank s = trim s ++ s.rtakeWhile isBlank := by
  obtain ⟨u, hs, -⟩ := skipBlank_append s
  have hlast : s.rtakeWhile isBlank = (skipBlank s).rtakeWhile isBlank := by
    have hsome : ((skipBlank s).reverse.takeWhile isBlank).length ≠ (skipBlank s).reverse.length := by
      intro hall
      have hdrop := congrArg List.length
        (List.takeWhile_append_dropWhile (p := isBlank) (l := (skipBlank s).reverse))
      rw [List.length_append, hall, Nat.add_eq_left, List.length_eq_zero_iff] at hdrop
      exact h (by rw [trim, hdrop]; rfl)
    nth_rewrite 1 [hs]
    rw [List.rtakeWhile, List.reverse_append, List.takeWhile_append, if_neg hsome]
    rfl
  rw [hlast, trim_eq_rdropWhile, List.rdropWhile_append_rtakeWhile]

/-- Of two texts around a comma and blanks around all of them, the outer blanks are trimmed. -/
theorem trim_append_blanks_comma {w₁ w₃ w₄ : List Char} (hs : trim s ≠ []) (ht : trim t ≠ [])
    (hw₁ : ∀ c ∈ w₁, isBlank c = true) (hw₃ : ∀ c ∈ w₃, isBlank c = true) (hw₄ : ∀ c ∈ w₄, isBlank c = true)
    (w₂ : List Char) :
    ∃ u, (∀ c ∈ u, isBlank c = true) ∧
      trim (w₁ ++ s ++ w₂ ++ ',' :: (w₃ ++ t ++ w₄)) =
        trim s ++ (s.rtakeWhile isBlank ++ w₂ ++ ',' :: (u ++ trim t)) := by
  have htrim : trim (w₃ ++ t ++ w₄) = trim t := by
    rw [trim_append_of_isBlank hw₄, trim_of_isBlank_append hw₃]
  have hskip : skipBlank (w₁ ++ s ++ w₂) = trim s ++ (s.rtakeWhile isBlank ++ w₂) := by
    have hne : skipBlank s ≠ [] := by
      intro hnil
      rw [trim_eq_rdropWhile, hnil] at hs
      exact hs rfl
    rw [List.append_assoc, skipBlank, List.dropWhile_append_of_pos hw₁, ← skipBlank, skipBlank_append_of_ne hne,
      skipBlank_eq_trim_append hs, List.append_assoc]
  obtain ⟨u, hu, h⟩ := trim_append_comma (w₁ ++ s ++ w₂) (htrim.symm ▸ ht : trim (w₃ ++ t ++ w₄) ≠ [])
  refine ⟨u, hu, ?_⟩
  rw [h, hskip, htrim, List.append_assoc, List.append_assoc]

theorem endsUnescaped_of_getLast? (h : s.getLast? ≠ some '\\') : EndsUnescaped s := by
  rcases List.eq_nil_or_concat s with rfl | ⟨t, c, rfl⟩
  · rfl
  · rw [List.concat_eq_append, List.getLast?_concat] at h
    rw [List.concat_eq_append, EndsUnescaped, Nesting.run_append, Nesting.run_cons, Nesting.run_nil,
      Nesting.escaped_step, beq_false_of_ne fun hc => h (congrArg some hc), Bool.and_false]

end Text

open Reader in
/-- In front of a comma nothing goes on but a name, if a blank goes on with it. -/
theorem Text.Apart.of_comma {s rest more tail : List Char} (hmore : skipBlank more = ',' :: tail)
    (hname : EndsName more ∨ EndsToken s) (hslash : rest ≠ ['\\']) : Apart s rest more := by
  refine ⟨fun _ => hname, fun _ => ⟨fun hmarked => ?_, fun hstar => ?_⟩, fun _ => ?_, hslash⟩
  · obtain ⟨c, hc, hmark⟩ := hmarked
    have hspecial := Marked.not_special ⟨c, hc, hmark⟩ hc
    rcases head_of_comma hmore hc with hblank | rfl
    · rw [hspecial.2.2.1] at hblank
      cases hblank
    · cases hmark
  · rcases head_of_comma hmore hstar with hblank | hcomma
    · exact absurd hblank (by decide)
    · exact absurd hcomma (by decide)
  · rw [hmore]
    rintro ⟨⟩

namespace Reader

variable {parser : Parser} {s t u v w rest more tail : List Char}

/-! ## Containments in front of a comma -/

theorem settled_of_trim (h : Settled (trim s)) : Settled s := by
  obtain ⟨u, v, hs, hu, hv⟩ := trim_append s
  have hrun : Nesting.start.run (u ++ (trim s ++ v)) = .start := by
    rw [Nesting.run_append, Nesting.run_append, show Nesting.start.run u = .start from (even_of_isBlank hu).run 0,
      show Nesting.start.run (trim s) = .start from h]
    exact (even_of_isBlank hv).run 0
  rwa [← hs] at hrun

/-- A containment is properly nested if a list of which some selector is kept is. -/
theorem settled_of_contained {inner : Option Selector}
    (hlists : ∀ list, readLists parser (branchSpan s).1 = .ok list → list ≠ [] →
      Settled (trim (branchSpan s).1))
    (h : readContainment (readLists parser) s = .done inner rest) : Settled (branchSpan s).1 := by
  apply settled_of_trim
  unfold readContainment at h
  dsimp only at h
  split at h
  · next hblank =>
    rw [List.isEmpty_iff.1 hblank]
    rfl
  · split at h
    · cases h
    · cases h
    · next hread => exact hlists _ hread (List.cons_ne_nil _ _)

/-- A text without commas outside in which a selector was read is properly nested: what stands in front of its
containment is, and so is the containment. -/
theorem settled_of_readLists {list : List Selector} (h : readLists parser s = .ok list) (hne : list ≠ [])
    (hquiet : Quiet s) : Settled (trim s) := by
  revert hne hquiet
  refine readLists_induction (motive := fun s list => list ≠ [] → Quiet s → Settled (trim s))
    (fun _ hnil => absurd rfl hnil) (fun s list ih hread hne hquiet => ?_) h
  -- only the last part can leave something open, in its containment, and this is shorter
  obtain ⟨selector?, rest, hbranch, hend, rfl⟩ := exists_readBranch_of_quiet (Quiet.trim hquiet) hread
  cases selector? with
  | none => exact absurd rfl hne
  | some selector =>
    have hparts := readBranch_eq_some hbranch
    rw [skipBlank_eq_self (isTrimmed_trim s).head] at hparts
    obtain ⟨t, ⟨u, htrim, hu, -⟩, hrest, hlast⟩ := spans_readParts hparts
    have hsettled : Settled t := by
      rcases hlast with rfl | ⟨hlt, inner, hinner⟩
      · exact settled_of_trim (by rw [trim_eq_rdropWhile, hend]; rfl)
      · have ht : Quiet t := (htrim ▸ follows_of_run hu t : Follows (trim s) t).quiet (Quiet.trim hquiet)
        have hspan := branchSpan_of_passes ht
        have hle := length_trim_le s
        have hcontained := settled_of_contained (fun others hothers hsome => ?_) hinner
        · rwa [hspan] at hcontained
        · rw [hspan] at hothers ⊢
          exact ih t others (by omega) hothers hsome ht
    rw [htrim, Settled, Nesting.run_append, hu]
    exact hsettled

/-- A containment is properly nested. -/
theorem settled_of_readContainment {inner : Option Selector}
    (h : readContainment (readLists parser) s = .done inner rest) : Settled (branchSpan s).1 :=
  settled_of_contained (fun _ hlist hne => settled_of_readLists hlist hne (passes_branchSpan s)) h

/-- A containment is read in front of a comma as in front of the end of the text, and ends there. -/
theorem readContainment_append_comma {inner : Option Selector} (hmore : skipBlank more = ',' :: tail)
    (h : readContainment (readLists parser) s = .done inner rest) :
    readContainment (readLists parser) (s ++ more) = .done inner (skipBlank (rest ++ more)) := by
  have hcontained : trim (branchSpan (s ++ more)).1 = trim (branchSpan s).1 ∧
      (branchSpan (s ++ more)).2 = skipBlank (rest ++ more) := by
    rw [readContainment_eq_done h]
    rcases branchSpan_eq_nil_or_comma s with hend | ⟨t, ht⟩
    · -- the comma is the first outside, since the containment is properly nested
      obtain ⟨w, hw, hblank⟩ := skipBlank_append more
      rw [hmore] at hw
      have hopen := passes_of_branchSpan hend
      have hsettled := settled_of_readContainment h
      rw [branchSpan_of_passes hopen] at hsettled ⊢
      have hbehind : Settled (s ++ w) := (run_append_of_isBlank hsettled.endsUnescaped hblank).trans hsettled
      have hspan : Passes ',' .start (s ++ w) := passes_append.2 ⟨hopen, passes_of_isBlank hblank _⟩
      rw [List.nil_append, hmore, hw, ← List.append_assoc, branchSpan_append_comma hbehind,
        branchSpan_of_passes hspan]
      exact ⟨trim_append_of_isBlank hblank s, rfl⟩
    · have hne : (branchSpan s).2 ≠ [] := by
        rw [ht]
        exact List.cons_ne_nil ',' t
      rw [branchSpan_append_of_not_passes hne, ht, List.cons_append, skipBlank_of_not_blank (by decide)]
      exact ⟨rfl, rfl⟩
  unfold readContainment at h ⊢
  dsimp only at h ⊢
  rw [← readLists_trim, hcontained.1, hcontained.2]
  rw [← readLists_trim] at h
  split at h
  · next hblank =>
    cases h
    rw [if_pos hblank]
  · next hblank =>
    rw [if_neg hblank]
    split at h
    · cases h
    · cases h
    · cases h
      rfl

/-! ## Branches in front of a comma -/

theorem skipBlank_skipBlank_append (s more : List Char) :
    skipBlank (skipBlank s ++ more) = skipBlank (s ++ more) := by
  by_cases hnil : skipBlank s = []
  · rw [hnil, skipBlank_append_of_nil hnil, List.nil_append]
  · have hagain : skipBlank (skipBlank s) ≠ [] := by rwa [skipBlank_skipBlank]
    rw [skipBlank_append_of_ne hnil, skipBlank_append_of_ne hagain, skipBlank_skipBlank]

/-- At the end of a branch stands a comma, or the one behind it comes next. -/
theorem isBranchEnd_append_of_comma (hmore : skipBlank more = ',' :: tail)
    (h : isBranchEnd (skipBlank s) = true) : isBranchEnd (skipBlank (s ++ more)) = true := by
  cases hs : skipBlank s with
  | nil =>
    rw [skipBlank_append_of_nil hs, hmore]
    rfl
  | cons c t =>
    have hne : skipBlank s ≠ [] := hs ▸ List.cons_ne_nil c t
    rw [hs] at h
    rw [skipBlank_append_of_ne hne, hs]
    exact h

/-- A part is read in front of a comma as in front of the end of the text. A containment ends at the comma. -/
theorem readPart_append_comma {link : Option Combinator} {part : Part} {parts : List Part}
    (hmore : skipBlank more = ',' :: tail) (hname : EndsName more ∨ EndsToken s)
    (h : readPart parser (readLists parser) link s = .done part t)
    (hothers : readParts parser (readLists parser) false t = .done parts rest) :
    ∃ t', readPart parser (readLists parser) link (s ++ more) = .done part t' ∧
      (t' = t ++ more ∨ parts = [] ∧ isBranchEnd t' = true ∧ t' = skipBlank (rest ++ more)) := by
  have hnever : ∀ {first parts rest},
      readParts parser (readLists parser) first ['\\'] ≠ .done parts rest := fun {first _ _} hread => by
    obtain ⟨cause, hfatal⟩ := readParts_backslash parser (readLists parser) first
    rw [hfatal] at hread
    cases hread
  cases hsubject : (subjectMark s).1 with
  | false =>
    have hslash : t ≠ ['\\'] := by
      rintro rfl
      exact hnever hothers
    exact ⟨t ++ more, readPart_apart h hsubject (.of_comma hmore hname hslash), .inl rfl⟩
  | true =>
    have hs : s ≠ [] := by
      rintro rfl
      cases hsubject
    obtain ⟨clauses, u, hclauses, h⟩ := Reading.andThen_eq_done.1 h
    rw [if_pos hsubject] at h
    obtain ⟨inner, w, hinner, hlast⟩ := Reading.andThen_eq_done.1 h
    obtain ⟨hcount, rfl, rfl⟩ := endPart_eq_done.1 hlast
    have hslash : u ≠ ['\\'] := by
      rintro rfl
      exact absurd (settled_of_readContainment hinner) (by decide)
    obtain ⟨hmark, htag, hread⟩ := readHead_apart hs hclauses (.of_comma hmore hname hslash)
    obtain rfl := readContainment_eq_done hinner
    have hend := isBranchEnd_branchSpan u
    rw [readParts_of_isBranchEnd _ hend, skipBlank_branchSpan] at hothers
    cases hothers
    refine ⟨_, ?_, .inr ⟨rfl, isBranchEnd_append_of_comma hmore hend, rfl⟩⟩
    rw [readPart_eq_behind, htag, hread]
    show readBehind parser (readLists parser) link (s ++ more) clauses (u ++ more) = _
    unfold readBehind
    dsimp only
    rw [hmark, htag, if_pos hsubject, readContainment_append_comma hmore hinner]
    exact endPart_eq_done.2 ⟨hcount, rfl, rfl⟩

/-- The parts of a branch are read in front of a comma as in front of the end of the text. -/
theorem readParts_append_comma {first : Bool} {parts : List Part} (hmore : skipBlank more = ',' :: tail)
    (hname : EndsName more ∨ EndsToken s)
    (h : readParts parser (readLists parser) first s = .done parts rest) :
    readParts parser (readLists parser) first (s ++ more) = .done parts (skipBlank (rest ++ more)) := by
  fun_induction readParts parser (readLists parser) first s generalizing parts with
  | case1 first s hend =>
    cases h
    rw [readParts_of_isBranchEnd first (isBranchEnd_append_of_comma hmore hend), skipBlank_skipBlank_append]
  | case2 => cases h
  | case3 => cases h
  | case4 first s hopen part t hpart _ ih =>
    obtain ⟨others, hothers, rfl⟩ := Reading.map_eq_done.1 h
    obtain ⟨link, u, hlink, hread⟩ := Reading.andThen_eq_done.1 hpart
    have hopen := Bool.eq_false_iff.2 hopen
    have hskip := (skips_skipBlank s).follows
    have hcombinator := follows_readCombinator first ((skipBlank s).length < s.length) (skipBlank s)
    have hbehind : (readPart parser (readLists parser) link u).Follows u := follows_readPart link u
    rw [hlink] at hcombinator
    rw [hread] at hbehind
    have hu : Follows s u := hskip.trans hcombinator
    have ht : Follows s t := hu.trans hbehind
    obtain ⟨t', hread', ht'⟩ := readPart_append_comma hmore (hname.imp_right (·.of_follows hu)) hread hothers
    rw [readParts_append_of_open hopen, readLinkedPart, readCombinator_apart (ne_nil_of_open hopen) hlink]
    show (readPart parser (readLists parser) link (u ++ more)).andThen _ = _
    rw [hread']
    show (readParts parser (readLists parser) false t').map (part :: ·) = _
    rcases ht' with rfl | ⟨rfl, hend, rfl⟩
    · rw [ih (hname.imp_right (·.of_follows ht)) hothers]
      rfl
    · rw [readParts_of_isBranchEnd false (by rwa [skipBlank_skipBlank]), skipBlank_skipBlank]
      rfl

/-- A branch in which a selector is read ends at the comma behind it, and so does the text behind it. -/
theorem readBranch_append_of_some {selector : Selector} (hmore : skipBlank more = ',' :: tail)
    (hname : EndsName more ∨ EndsToken s)
    (h : readBranch parser (readLists parser) s = .ok (some selector, rest)) :
    readBranch parser (readLists parser) (s ++ more) = .ok (some selector, skipBlank (rest ++ more)) := by
  obtain ⟨parts⟩ := selector
  have hopen := isBranchEnd_of_readBranch h
  have hparts := readParts_append_comma hmore (hname.imp_right (·.of_follows (skips_skipBlank s).follows))
    (readBranch_eq_some h)
  unfold readBranch
  rw [skipBlank_append_of_ne (ne_nil_of_open hopen), isBranchEnd_append_of_open hopen, if_neg Bool.false_ne_true,
    hparts]

/-- A dead branch ends at the first comma outside behind the place where it died. -/
theorem exists_readBranch_append (h : readBranch parser (readLists parser) s = .ok (none, rest)) :
    ∃ t, Follows s t ∧ rest = (branchSpan t).2 ∧
      ∀ more, readBranch parser (readLists parser) (s ++ more) = .ok (none, (branchSpan (t ++ more)).2) := by
  obtain ⟨r, hparts, -⟩ := readBranch_eq_none h
  obtain ⟨t, ht⟩ := exists_diesAt hparts
  have hbranch := ht.readBranch (isBranchEnd_of_readBranch h)
  refine ⟨t, (skips_skipBlank s).follows.trans ht.follows, ?_, hbranch⟩
  have hself := hbranch []
  rw [List.append_nil, List.append_nil, h] at hself
  cases hself
  rfl

/-! ## Lists in front of a comma -/

/-- Two texts with the same first branch, and the same text behind it, have the same branches. -/
theorem readBranches_congr_of_branch {nested : ListReader} {r : Option Selector × List Char}
    (hs : readBranch parser nested s = .ok r) (ht : readBranch parser nested t = .ok r) :
    readBranches parser nested s = readBranches parser nested t := by
  rw [readBranches_eq, readBranches_eq, hs, ht]

/-- A branch that ends at a comma of the text ends there with another comma behind the text, too. -/
theorem exists_readBranch_append_of_comma {selector? : Option Selector} {behind : List Char}
    (hmore : skipBlank more = ',' :: tail) (hname : EndsName more ∨ EndsToken s)
    (h : readBranch parser (readLists parser) s = .ok (selector?, rest))
    (hcomma : skipBlank rest = ',' :: behind) :
    ∃ rest', readBranch parser (readLists parser) (s ++ more) = .ok (selector?, rest') ∧
      skipBlank rest' = ',' :: (behind ++ more) := by
  cases selector? with
  | some selector =>
    have hne : skipBlank rest ≠ [] := hcomma ▸ List.cons_ne_nil ',' behind
    refine ⟨_, readBranch_append_of_some hmore hname h, ?_⟩
    rw [skipBlank_skipBlank, skipBlank_append_of_ne hne, hcomma]
    rfl
  | none =>
    obtain ⟨t, -, rfl, hbehind⟩ := exists_readBranch_append h
    rw [skipBlank_branchSpan] at hcomma
    have hne : (branchSpan t).2 ≠ [] := hcomma ▸ List.cons_ne_nil ',' behind
    refine ⟨_, hbehind more, ?_⟩
    rw [skipBlank_branchSpan, branchSpan_append_of_not_passes hne, hcomma]
    rfl

section Blanks

variable (hv : ∀ c ∈ v, isBlank c = true) (hw : ∀ c ∈ w, isBlank c = true) (hu : ∀ c ∈ u, isBlank c = true)
include hv hw hu

/-- Blanks around the comma behind the last branch of a text do not matter. -/
theorem readBranches_append_blanks_of_end {selector? : Option Selector}
    (h : readBranch parser (readLists parser) s = .ok (selector?, rest)) (hend : skipBlank rest = [])
    (hends : EndsUnescaped (s ++ v)) (hname : EndsToken s ∨ EndsName (v ++ w)) (tail : List Char) :
    readBranches parser (readLists parser) (s ++ (v ++ w ++ ',' :: (u ++ tail))) =
      readBranches parser (readLists parser) (s ++ (v ++ ',' :: tail)) := by
  have hvw : ∀ c ∈ v ++ w, isBlank c = true := List.forall_mem_append.2 ⟨hv, hw⟩
  have hmore := skipBlank_of_isBlank hvw (u ++ tail)
  have hmore' := skipBlank_of_isBlank hv tail
  have htail := readBranches_append_of_blank parser (readLists parser) hu tail
  cases selector? with
  | some selector =>
    have hfirst := readBranch_append_of_some hmore (hname.symm.imp_left (·.append_comma _)) h
    have hsecond := readBranch_append_of_some hmore' (hname.symm.imp_left (·.left.append_comma _)) h
    rw [skipBlank_append_of_nil hend, hmore] at hfirst
    rw [skipBlank_append_of_nil hend, hmore'] at hsecond
    rw [readBranches_of_comma hfirst rfl, readBranches_of_comma hsecond rfl, htail]
  | none =>
    obtain ⟨t, ht, rfl, hbehind⟩ := exists_readBranch_append h
    rw [skipBlank_branchSpan] at hend
    rcases branchSpan_of_blanks (passes_of_branchSpan hend) (ht.endsUnescaped_append hv hends) hv hw hu tail with
      ⟨hfirst, hsecond⟩ | hsame
    · rw [readBranches_of_comma (hbehind _) (by rw [hfirst]; rfl), readBranches_of_comma (hbehind _)
        (by rw [hsecond]; rfl), htail]
    · exact readBranches_congr_of_branch (hbehind _) (by rw [hsame]; exact hbehind _)

/-- Blanks around a comma behind a list do not matter if the text of the list ends with no name, or if what
follows it does not go on with a name. -/
theorem readBranches_append_blanks {list : List Selector}
    (h : readBranches parser (readLists parser) s = .ok list) (hends : EndsUnescaped (s ++ v))
    (hname : EndsToken s ∨ EndsName (v ++ w)) (tail : List Char) :
    readBranches parser (readLists parser) (s ++ (v ++ w ++ ',' :: (u ++ tail))) =
      readBranches parser (readLists parser) (s ++ (v ++ ',' :: tail)) := by
  have hvw : ∀ c ∈ v ++ w, isBlank c = true := List.forall_mem_append.2 ⟨hv, hw⟩
  -- from branch to branch: only the last one meets the comma behind the text
  revert hends hname
  refine readBranches_induction (motive := fun s _ => EndsUnescaped (s ++ v) → EndsToken s ∨ EndsName (v ++ w) →
    readBranches parser (readLists parser) (s ++ (v ++ w ++ ',' :: (u ++ tail))) =
      readBranches parser (readLists parser) (s ++ (v ++ ',' :: tail)))
    (fun s selector? rest hbranch hend hends hname =>
      readBranches_append_blanks_of_end hv hw hu hbranch hend hends hname tail)
    (fun s selector? rest more others hbranch hcomma ih hends hname => ?_) h
  have hfollows := (follows_readBranch hbranch).trans (skips_skipBlank rest).follows
  rw [hcomma] at hfollows
  have hbehind : Follows s more := hfollows.trans (follows_of_run (u := [',']) rfl more)
  obtain ⟨rest₁, hfirst, hrest₁⟩ := exists_readBranch_append_of_comma (skipBlank_of_isBlank hvw (u ++ tail))
    (hname.symm.imp_left (·.append_comma _)) hbranch hcomma
  obtain ⟨rest₂, hsecond, hrest₂⟩ := exists_readBranch_append_of_comma (skipBlank_of_isBlank hv tail)
    (hname.symm.imp_left (·.left.append_comma _)) hbranch hcomma
  rw [readBranches_of_comma hfirst hrest₁, readBranches_of_comma hsecond hrest₂,
    ih (hbehind.endsUnescaped_append hv hends) (hname.imp_left (·.of_follows hbehind))]

end Blanks

/-- Two lists around a comma and blanks around all of them: the blanks leave no trace but for those at the end of
the first text. -/
theorem readLists_append_blanks {list : List Selector} {w₁ w₂ w₃ w₄ : List Char}
    (h : readLists parser s = .ok list) (hs : trim s ≠ []) (ht : trim t ≠ []) (hlast : s.getLast? ≠ some '\\')
    (hw₁ : ∀ c ∈ w₁, isBlank c = true) (hw₂ : ∀ c ∈ w₂, isBlank c = true) (hw₃ : ∀ c ∈ w₃, isBlank c = true)
    (hw₄ : ∀ c ∈ w₄, isBlank c = true)
    (hname : EndsToken (trim s) ∨ EndsName (s.rtakeWhile isBlank ++ w₂)) :
    readLists parser (w₁ ++ s ++ w₂ ++ ',' :: (w₃ ++ t ++ w₄)) =
      readBranches parser (readLists parser) (trim s ++ (s.rtakeWhile isBlank ++ ',' :: trim t)) := by
  have hblank : ∀ c ∈ s.rtakeWhile isBlank, isBlank c = true := fun c hc => List.mem_rtakeWhile_imp hc
  have hends : EndsUnescaped (trim s ++ s.rtakeWhile isBlank) := by
    rw [← skipBlank_eq_trim_append hs]
    exact (skips_skipBlank s).follows.endsUnescaped (endsUnescaped_of_getLast? hlast)
  obtain ⟨u, hu, htrim⟩ := trim_append_blanks_comma hs ht hw₁ hw₃ hw₄ w₂
  have hne : trim (w₁ ++ s ++ w₂ ++ ',' :: (w₃ ++ t ++ w₄)) ≠ [] := by
    rw [htrim]
    exact List.append_ne_nil_of_left_ne_nil hs _
  rw [readLists_of_trim_ne hs] at h
  rw [readLists_of_trim_ne hne, htrim, readBranches_append_blanks hblank hw₂ hu h hends hname]

end Reader

/-! ## Two lists -/

/-- The reading of a text, without the text in its error. -/
theorem Selector.mapError_read (parser : Parser) (text : String) :
    (Selector.read parser text).mapError (ReadError.map SyntaxError.cause) =
      Reader.readLists parser text.toList := by
  unfold Selector.read Reader.readLists
  split
  · next heq => rw [heq]; rfl
  · next error heq =>
    rw [heq]
    cases error <;> rfl

/-- Blanks around the branches of two lists that are joined by a comma do not matter, if the first list is one that
can be read and does not end in a backslash, neither is blank, and the blanks in front of the comma are read as
blanks: the first list ends with no name, or no blank outside ASCII stands directly behind it. -/
theorem Selector.read_append_blanks {parser : Parser} {a b w₁ w₂ w₃ w₄ : String} {list : List Selector}
    (ha : Selector.read parser a = .ok list) (hfirst : trim a.toList ≠ []) (hsecond : trim b.toList ≠ [])
    (hlast : a.toList.getLast? ≠ some '\\')
    (hw₁ : ∀ c ∈ w₁.toList, isBlank c = true) (hw₂ : ∀ c ∈ w₂.toList, isBlank c = true)
    (hw₃ : ∀ c ∈ w₃.toList, isBlank c = true) (hw₄ : ∀ c ∈ w₄.toList, isBlank c = true)
    (hname : EndsToken (trim a.toList) ∨ EndsName (a.toList.rtakeWhile isBlank ++ w₂.toList)) :
    (Selector.read parser (w₁ ++ a ++ w₂ ++ "," ++ w₃ ++ b ++ w₄)).mapError (ReadError.map SyntaxError.cause) =
      (Selector.read parser (a ++ "," ++ b)).mapError (ReadError.map SyntaxError.cause) := by
  have hnil : ∀ c ∈ ([] : List Char), isBlank c = true := fun c hc => absurd hc List.not_mem_nil
  have htext : (w₁ ++ a ++ w₂ ++ "," ++ w₃ ++ b ++ w₄).toList =
      w₁.toList ++ a.toList ++ w₂.toList ++ ',' :: (w₃.toList ++ b.toList ++ w₄.toList) := by
    simp [String.toList_append]
  have htext' : (a ++ "," ++ b).toList = [] ++ a.toList ++ [] ++ ',' :: ([] ++ b.toList ++ []) := by
    simp [String.toList_append]
  have hname' : EndsToken (trim a.toList) ∨ EndsName (a.toList.rtakeWhile isBlank ++ []) := by
    rw [List.append_nil]
    exact hname.imp_right (·.left)
  rw [read_eq_ok] at ha
  rw [mapError_read, mapError_read, htext, htext',
    Reader.readLists_append_blanks ha hfirst hsecond hlast hw₁ hw₂ hw₃ hw₄ hname,
    Reader.readLists_append_blanks ha hfirst hsecond hlast hnil hnil hnil hnil hname']

/-- A blank outside ASCII stands behind a parenthesis and is a blank. -/
theorem Selector.read_append_blanks_languages :
    Selector.read .standard "#x#y , li:lang(de)" = .ok [germanItem] ∧
      (Selector.read .standard ("\n" ++ "#x#y , li:lang(de)" ++ "\u00a0" ++ "," ++ " " ++ "> p" ++ "\t")).mapError
          (ReadError.map SyntaxError.cause) =
        (Selector.read .standard ("#x#y , li:lang(de)" ++ "," ++ "> p")).mapError
          (ReadError.map SyntaxError.cause) := by
  have hread : Selector.read .standard "#x#y , li:lang(de)" = .ok [germanItem] := by
    with_unfolding_all rfl
  have hw₁ : ∀ c ∈ "\n".toList, isBlank c = true := List.all_eq_true.1 (by decide)
  have hw₂ : ∀ c ∈ "\u00a0".toList, isBlank c = true := List.all_eq_true.1 (by decide)
  have hw₃ : ∀ c ∈ " ".toList, isBlank c = true := List.all_eq_true.1 (by decide)
  have hw₄ : ∀ c ∈ "\t".toList, isBlank c = true := List.all_eq_true.1 (by decide)
  exact ⟨hread, read_append_blanks hread (by decide) (by decide) (by decide) hw₁ hw₂ hw₃ hw₄ (.inl (by decide))⟩

/-- Behind a name it goes on with the name. -/
theorem Selector.read_append_noBreakSpace :
    Selector.read .standard "a" = .ok [.named "a"] ∧ Selector.read .standard "b" = .ok [.named "b"] ∧
      (∀ c ∈ "\u00a0".toList, isBlank c = true) ∧
        Selector.read .standard ("a" ++ "\u00a0" ++ "," ++ "b") = .ok [.named "a\u00a0", .named "b"] ∧
          Selector.read .standard ("a" ++ "," ++ "b") = .ok [.named "a", .named "b"] ∧
            Selector.read .standard ("a" ++ "\u00a0" ++ "," ++ "b") ≠
              Selector.read .standard ("a" ++ "," ++ "b") := by
  have hblank : Selector.read .standard ("a" ++ "\u00a0" ++ "," ++ "b") = .ok [.named "a\u00a0", .named "b"] := by
    with_unfolding_all rfl
  have hplain : Selector.read .standard ("a" ++ "," ++ "b") = .ok [.named "a", .named "b"] := by
    with_unfolding_all rfl
  have hnoBreakSpace : ∀ c ∈ "\u00a0".toList, isBlank c = true := List.all_eq_true.1 (by decide)
  refine ⟨by with_unfolding_all rfl, by with_unfolding_all rfl, hnoBreakSpace, hblank, hplain, ?_⟩
  rw [hblank, hplain]
  simp [named]

end TreeQuery
