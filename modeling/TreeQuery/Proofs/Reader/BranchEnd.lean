import TreeQuery.Proofs.Reader.Induction
import TreeQuery.Proofs.Reader.Legible

/-!
# Where a branch ends

A branch is delimited twice: the reader of its parts stops at the first comma behind a part, and the scan
for commas stops at the first one outside of every bracket and quote. The scan never goes on behind the
end that the reader finds. It stops before it if an argument in parentheses has a comma behind a closing
bracket without an opening one: the reader takes the whole argument, whatever its brackets, and the scan
takes the closing bracket for the end of the parentheses.
-/

namespace TreeQuery

open Text

/-! ## The scan behind a text -/

namespace Text

variable {s t u v rest : List Char} {P Q : Prop}

/-- Behind a text that ends outside and has no comma there, the branch is that of what follows. -/
theorem branchSpan_append_of_passes (hrun : Nesting.start.run u = .start) (hpass : Passes ',' .start u)
    (t : List Char) : (branchSpan (u ++ t)).2 = (branchSpan t).2 := by
  cases hscan : scan? ',' .start t with
  | none =>
    have ht : Passes ',' .start t := hscan
    have hwhole : Passes ',' .start (u ++ t) := passes_append.2 ⟨hpass, by rwa [hrun]⟩
    rw [branchSpan_of_passes hwhole, branchSpan_of_passes ht]
  | some r =>
    obtain ⟨before, behind⟩ := r
    obtain ⟨tail, rfl, rfl, hbefore, hout⟩ := scan?_eq_some.1 hscan
    have hwhole : scan? ',' .start (u ++ (before ++ ',' :: tail)) = some (u ++ before, ',' :: tail) := by
      refine scan?_eq_some.2 ⟨tail, rfl, (List.append_assoc _ _ _).symm, ?_, ?_⟩
      · rw [passes_append, hrun]
        exact ⟨hpass, hbefore⟩
      · rwa [Nesting.run_append, hrun]
    rw [branchSpan, hwhole, branchSpan, hscan]
    rfl

/-- If a comma stands outside in a text, the branch ends in it. -/
theorem exists_branchSpan_append (h : ¬ Passes ',' .start u) (t : List Char) :
    ∃ v, v ≠ [] ∧ (branchSpan (u ++ t)).2 = v ++ t := by
  cases hscan : scan? ',' .start u with
  | none => exact absurd hscan h
  | some r =>
    obtain ⟨before, behind⟩ := r
    obtain ⟨tail, rfl, rfl, hbefore, hout⟩ := scan?_eq_some.1 hscan
    have hwhole : scan? ',' .start ((before ++ ',' :: tail) ++ t) = some (before, (',' :: tail) ++ t) :=
      scan?_eq_some.2 ⟨tail ++ t, rfl, List.append_assoc _ _ _, hbefore, hout⟩
    refine ⟨',' :: tail, List.cons_ne_nil _ _, ?_⟩
    rw [branchSpan, hwhole]
    rfl

/-- In front of the rest stands a text that ends outside, and that has no comma there exactly if `P`. -/
def Spans (P : Prop) (s rest : List Char) : Prop :=
  ∃ u, s = u ++ rest ∧ Nesting.start.run u = .start ∧ (Passes ',' .start u ↔ P)

theorem Spans.trans (h : Spans P s t) (h' : Spans Q t rest) : Spans (P ∧ Q) s rest := by
  obtain ⟨u, rfl, hu, hpass⟩ := h
  obtain ⟨v, rfl, hv, hpass'⟩ := h'
  refine ⟨u ++ v, (List.append_assoc u v rest).symm, ?_, ?_⟩
  · rw [Nesting.run_append, hu, hv]
  · rw [passes_append, hu, hpass, hpass']

theorem Spans.congr (h : Spans P s rest) (hiff : P ↔ Q) : Spans Q s rest := by
  obtain ⟨u, rfl, hu, hpass⟩ := h
  exact ⟨u, rfl, hu, hpass.trans hiff⟩

theorem Skips.spans (h : Skips s rest) : Spans True s rest := by
  obtain ⟨u, rfl, hu⟩ := h
  exact ⟨u, rfl, hu.run 0, iff_true_intro (hu.passes 0)⟩

/-- A text in front of the rest that has no commas outside changes no condition. -/
theorem Skips.trans_spans (h : Skips s t) (h' : Spans P t rest) : Spans P s rest :=
  (h.spans.trans h').congr (iff_of_eq (true_and P))

/-- The commas of a group are outside if they are outside one bracket in its text. -/
theorem spans_group {inner rest : List Char} (hrun : Nesting.start.run inner = .start) :
    Spans (Passes ',' (.inBrackets 1) inner) ('(' :: (inner ++ ')' :: rest)) rest := by
  refine ⟨'(' :: (inner ++ [')']), by simp, run_group hrun, ?_⟩
  have hopen : Nesting.start.step '(' = .inBrackets 1 := rfl
  rw [passes_cons, hopen, passes_append, passes_cons]
  constructor
  · exact fun h => h.2.1
  · exact fun h => ⟨fun hstop => absurd hstop.2 (by decide), h, fun hstop => absurd hstop.2 (by decide),
      passes_nil _ _⟩

end Text

/-! ## Arguments with commas -/

/-- A comma in the argument of a pseudo-class stands inside the parentheses for the scan, too: no closing
bracket in front of it is taken for the closing parenthesis. -/
def Clause.HidesCommas : Clause → Prop
  | .pseudo clause => ∀ text, clause.written = some text → Passes ',' (.inBrackets 1) text.toList
  | _ => True

/-- All conditions of the part hide the commas in their arguments. -/
def Part.HidesCommas (part : Part) : Prop := ∀ clause ∈ part.clauses, clause.HidesCommas

namespace Reader

variable {parser : Parser} {nested : ListReader} {s rest : List Char} {clause : Clause}

/-- The blanks around an argument hide nothing. -/
theorem passes_writtenArgument (inner : List Char) :
    (∀ text, writtenArgument (some inner) = some text → Passes ',' (.inBrackets 1) text.toList) ↔
      Passes ',' (.inBrackets 1) inner := by
  obtain ⟨u, v, hinner, hu, hv⟩ := trim_append inner
  have hlead := even_of_isBlank hu
  have htrim : Passes ',' (.inBrackets 1) (u ++ (trim inner ++ v)) ↔
      Passes ',' (.inBrackets 1) (trim inner) := by
    rw [passes_append, hlead.run, passes_append]
    exact ⟨fun h => h.2.1, fun h => ⟨hlead.passes 1, h, passes_of_isBlank hv _⟩⟩
  rw [← hinner] at htrim
  rw [htrim, writtenArgument, Option.getD_some]
  cases htext : trim inner with
  | nil => simp
  | cons c tail => simp

theorem spans_readPseudo (h : readPseudo parser nested s = .done clause rest) :
    Spans clause.HidesCommas (':' :: s) rest := by
  obtain ⟨name, t, inner?, entry, argument, hname, hgroup, -, -, rfl⟩ := readPseudo_eq_done.1 h
  have hcolon := (skips_cons (by decide : isPlain ':' = true) s).trans (skips_ident? hname)
  rcases readGroup_eq_done hgroup with ⟨rfl, rfl⟩ | ⟨inner, rfl, hskips, -, hrun⟩
  · refine hcolon.spans.congr (iff_of_true trivial ?_)
    rintro text ⟨⟩
  · refine (hcolon.trans hskips).trans_spans ((spans_group hrun).congr ?_)
    exact (passes_writtenArgument inner).symm

/-- What stands in front of the rest of a condition has a comma outside exactly if its argument shows
one. -/
theorem spans_readClause? {hasId : Bool}
    (h : readClause? parser nested hasId s = some (.done clause rest)) :
    Spans clause.HidesCommas s rest := by
  unfold readClause? at h
  split at h
  · next t =>
    have hread := Option.some.inj h
    split at hread
    · cases hread
    · obtain ⟨name, hname, rfl⟩ := readId_eq_done hread
      exact ((skips_cons (by decide) t).trans (skips_ident? hname)).spans
  · next t =>
    obtain ⟨name, hname, rfl⟩ := readClass_eq_done (Option.some.inj h)
    exact ((skips_cons (by decide) t).trans (skips_ident? hname)).spans
  · next t =>
    have hread := Option.some.inj h
    have hskips := skips_readAttribute t
    rw [hread] at hskips
    refine (Text.Skips.spans hskips).congr (iff_of_true trivial ?_)
    obtain ⟨_, _, _, _, _, _, rfl, -⟩ := readAttribute_eq_done hread
    trivial
  · exact spans_readPseudo (Option.some.inj h)
  · cases h

theorem spans_readClauses {tally : Tally} {clauses : List Clause}
    (h : readClauses parser nested tally s = .done clauses rest) :
    Spans (∀ clause ∈ clauses, clause.HidesCommas) s rest := by
  refine readClauses_induction (motive := fun _ s clauses =>
    Spans (∀ clause ∈ clauses, clause.HidesCommas) s rest) (fun _ => ?_) ?_ h
  · exact (Text.Skips.refl rest).spans.congr (by simp)
  · intro _ s clause t _ clauses hclause _ ih
    exact ((spans_readClause? hclause).trans ih).congr List.forall_mem_cons.symm

/-- A part ends behind its conditions or, if it is a subject, behind its containment. -/
theorem spans_readPart {combinator : Option Combinator} {part : Part}
    (h : readPart parser nested combinator s = .done part rest) :
    ∃ t, Spans part.HidesCommas s t ∧ t.length < s.length ∧
      if part.subject then ∃ inner, readContainment nested t = .done inner rest else t = rest := by
  obtain ⟨-, hmark, -, t, hclauses, hrest⟩ := readPart_eq_done h
  have hname := (skips_subjectMark s).trans (skips_readTag (subjectMark s).2)
  refine ⟨t, hname.trans_spans (spans_readClauses hclauses), ?_⟩
  rcases hrest with ⟨hsubject, hinner⟩ | ⟨hsubject, -, rfl, hlt⟩
  · rw [if_pos hsubject]
    exact ⟨length_containment_lt (hmark ▸ hsubject) hclauses, _, hinner⟩
  · rw [if_neg (by rw [hsubject]; exact Bool.false_ne_true)]
    exact ⟨hlt, rfl⟩

/-- At the end of a branch the scan for commas stops. -/
theorem branchSpan_of_isBranchEnd (h : isBranchEnd s = true) : (branchSpan s).2 = s := by
  cases s with
  | nil => rfl
  | cons c t =>
    obtain rfl : c = ',' := beq_iff_eq.1 h
    rfl

/-- The parts of a branch end outside, and behind the last one the scan for commas stops. Only a containment
stands in between. -/
theorem spans_readParts {first : Bool} {parts : List Part}
    (h : readParts parser nested first s = .done parts rest) :
    ∃ t, Spans (∀ part ∈ parts, part.HidesCommas) s t ∧ rest = (branchSpan t).2 ∧
      (t = rest ∨ t.length < s.length ∧ ∃ inner, readContainment nested t = .done inner rest) := by
  refine readParts_induction (motive := fun _ s parts =>
    ∃ t, Spans (∀ part ∈ parts, part.HidesCommas) s t ∧ rest = (branchSpan t).2 ∧
      (t = rest ∨ t.length < s.length ∧ ∃ inner, readContainment nested t = .done inner rest)) ?_ ?_ h
  · rintro first s hend rfl
    exact ⟨skipBlank s, (skips_skipBlank s).spans.congr (by simp), (branchSpan_of_isBranchEnd hend).symm,
      .inl rfl⟩
  · intro first s part t parts hpart hothers ih
    obtain ⟨combinator, u, hcombinator, hread⟩ := Reading.andThen_eq_done.1 hpart
    have hlink := skips_readCombinator first ((skipBlank s).length < s.length) (skipBlank s)
    have hleaves := leaves_readCombinator first ((skipBlank s).length < s.length) (skipBlank s)
    rw [hcombinator] at hlink hleaves
    dsimp only [Reading.Leaves] at hleaves
    have hskip := length_skipBlank_le s
    obtain ⟨v, hspans, hlt, ht⟩ := spans_readPart hread
    have hfirst := ((skips_skipBlank s).trans hlink).trans_spans hspans
    cases hsubject : part.subject with
    | false =>
      obtain rfl : v = t := by simpa only [hsubject, Bool.false_eq_true, if_false] using ht
      obtain ⟨w, hrest, hw, hlast⟩ := ih
      refine ⟨w, (hfirst.trans hrest).congr List.forall_mem_cons.symm, hw, hlast.imp_right fun hinner => ?_⟩
      exact ⟨by omega, hinner.2⟩
    | true =>
      rw [hsubject, if_pos rfl] at ht
      obtain ⟨inner, hinner⟩ := ht
      -- a subject takes the rest of the branch, so no part follows it
      obtain rfl := readContainment_eq_done hinner
      rw [readParts_of_isBranchEnd _ (isBranchEnd_branchSpan v), skipBlank_branchSpan] at hothers
      cases hothers
      exact ⟨v, hfirst.congr (by simp), rfl, .inr ⟨by omega, inner, hinner⟩⟩

/-- Where the reader of a branch stops, the branch ends for the scan for commas, too, or it has ended
before: in the argument of a pseudo-class that shows its commas. -/
theorem branchSpan_of_readParts {first : Bool} {parts : List Part}
    (h : readParts parser nested first s = .done parts rest) :
    rest <:+ (branchSpan s).2 ∧
      ((branchSpan s).2 = rest ↔ ∀ part ∈ parts, part.HidesCommas) := by
  obtain ⟨t, ⟨u, rfl, hrun, hpass⟩, rfl, -⟩ := spans_readParts h
  rw [← hpass]
  by_cases hcommas : Passes ',' .start u
  · have heq := branchSpan_append_of_passes hrun hcommas t
    exact ⟨heq ▸ List.suffix_refl _, iff_of_true heq hcommas⟩
  · obtain ⟨v, hv, heq⟩ := exists_branchSpan_append hcommas t
    have hsuffix := (follows_branchSpan t).suffix
    refine ⟨heq ▸ hsuffix.trans (List.suffix_append v t), iff_of_false (fun hsame => ?_) hcommas⟩
    -- the scan stops in front of `t`, and the reader behind it
    have hlength := congrArg List.length (heq.symm.trans hsame)
    have hle := hsuffix.length_le
    have hpos := List.length_pos_iff.2 hv
    rw [List.length_append] at hlength
    omega

end Reader

/-- The selector `li:lang(de, en) > p`. -/
def Selector.germanOrEnglish : Selector :=
  ⟨[⟨none, false, some ⟨"li"⟩, [.pseudo ⟨.lang, false, some "de, en", .text "de, en"⟩], none⟩,
    ⟨some .child, false, some ⟨"p"⟩, [], none⟩]⟩

/-- The comma between two languages does not end the branch, for the reader and for the scan. -/
theorem Reader.branchSpan_of_readParts_languages :
    readParts .standard (readLists .standard) true "li:lang(de, en) > p, q".toList =
        .done Selector.germanOrEnglish.parts ", q".toList ∧
      ", q".toList <:+ (branchSpan "li:lang(de, en) > p, q".toList).2 ∧
        ((branchSpan "li:lang(de, en) > p, q".toList).2 = ", q".toList ↔
          ∀ part ∈ Selector.germanOrEnglish.parts, part.HidesCommas) := by
  have hread : readParts .standard (readLists .standard) true "li:lang(de, en) > p, q".toList =
      .done Selector.germanOrEnglish.parts ", q".toList := by
    with_unfolding_all rfl
  exact ⟨hread, branchSpan_of_readParts hread⟩

/-- The selector `b:lang(],c)`. -/
def Selector.bracketLanguage : Selector :=
  ⟨[⟨none, false, some ⟨"b"⟩, [.pseudo ⟨.lang, false, some "],c", .text "],c"⟩], none⟩]⟩

/-- A closing square bracket ends the parentheses for the scan and not for the reader. So the comma behind
it ends the branch of a containment in the middle of an argument, and what is left of the argument cannot be
read. -/
theorem Reader.branchSpan_bracketLanguage :
    readParts .standard (readLists .standard) true "b:lang(],c)".toList =
        .done Selector.bracketLanguage.parts [] ∧
      (branchSpan "b:lang(],c)".toList).2 = ",c)".toList ∧
        Selector.read .standard "b:lang(],c)" = .ok [Selector.bracketLanguage] ∧
          Selector.read .standard "$a b:lang(],c)" =
            .error (.malformed ⟨.invalidPseudo, "$a b:lang(],c)"⟩) := by
  refine ⟨?_, ?_, ?_, ?_⟩
  · with_unfolding_all rfl
  · with_unfolding_all rfl
  · with_unfolding_all rfl
  · with_unfolding_all rfl

end TreeQuery
