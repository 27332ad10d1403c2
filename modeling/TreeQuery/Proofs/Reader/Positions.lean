import TreeQuery.Proofs.Formula.Arithmetic
import TreeQuery.Proofs.Reader.Stages

/-!
# Branches with a position

A formula is refused by its coefficients alone, and this is right: it selects some position of 32 bits from
one on unless its step and its offset are both at most zero (`Formula.isSatisfiable_iff`). A condition with a
formula that selects no position is dead, and so is the branch in which the reader comes by it, in a part or
in a containment (`Stage.IsDead.of_reaches`). A formula that selects some position makes no branch dead: the
reader goes on behind the condition.
-/

namespace TreeQuery

open Text

/-! ## Positions of 32 bits -/

namespace Formula

variable {f : Formula}

/-- A position of 32 bits that is selected is one that is selected among the whole numbers. -/
theorem selectsSome_of_selects {position : Int32} (hone : 1 ≤ position) (h : f.selects position = true) :
    f.SelectsSome := by
  obtain ⟨k, hk⟩ := (f.selects_iff position).1 h
  exact ⟨position.toInt, Int32.le_iff_toInt_le.1 hone, k, hk.symm⟩

/-- With a positive step, a position is selected among the first ones, as many as the step is long. -/
theorem exists_selects_of_step (hstep : 0 < f.step.toInt) (hoffset : f.offset.toInt < 1) :
    ∃ position : Int32, 1 ≤ position ∧ f.selects position = true := by
  -- the last position that counting back from the offset does not pass
  have hrest := Int.emod_nonneg (f.offset.toInt - 1) (Int.ne_of_gt hstep)
  have hshort := Int.emod_lt_of_pos (f.offset.toInt - 1) hstep
  have hsplit := Int.emod_add_mul_ediv (f.offset.toInt - 1) f.step.toInt
  have hback : (f.offset.toInt - 1) / f.step.toInt < 0 := Int.ediv_neg_of_neg_of_pos (by omega) hstep
  have hlt := f.step.toInt_lt
  have hposition : (Int32.ofInt ((f.offset.toInt - 1) % f.step.toInt + 1)).toInt =
      (f.offset.toInt - 1) % f.step.toInt + 1 := Int32.toInt_ofInt_of_le (by omega) (by omega)
  refine ⟨Int32.ofInt ((f.offset.toInt - 1) % f.step.toInt + 1), ?_, ?_⟩
  · rw [Int32.le_iff_toInt_le, hposition, Int32.toInt_one]
    omega
  · obtain ⟨k, hk⟩ := Int.eq_ofNat_of_zero_le (Int.neg_nonneg_of_nonpos (Int.le_of_lt hback))
    rw [selects_iff, hposition]
    refine ⟨k, ?_⟩
    rw [← hk, Int.mul_neg]
    omega

/-- The coefficients tell whether some position is selected. -/
theorem isSatisfiable_iff :
    f.isSatisfiable = true ↔ ∃ position : Int32, 1 ≤ position ∧ f.selects position = true := by
  constructor
  · intro h
    rw [isSatisfiable, Bool.or_eq_true, decide_eq_true_iff, decide_eq_true_iff, Int32.lt_iff_toInt_lt] at h
    by_cases hoffset : 1 ≤ f.offset
    · exact ⟨f.offset, hoffset, (f.selects_iff f.offset).2 ⟨0, by simp⟩⟩
    · rw [Int32.le_iff_toInt_le, Int32.toInt_one, Int.not_le] at hoffset
      exact exists_selects_of_step (h.resolve_right fun h => by
        rw [Int32.le_iff_toInt_le, Int32.toInt_one] at h
        omega) hoffset
  · rintro ⟨position, hone, hselects⟩
    by_contra hnot
    exact not_selectsSome (Bool.eq_false_iff.2 hnot) (selectsSome_of_selects hone hselects)

theorem isSatisfiable_eq_false_iff :
    f.isSatisfiable = false ↔ ∀ position : Int32, 1 ≤ position → f.selects position = false := by
  rw [← Bool.not_eq_true, isSatisfiable_iff]
  simp only [not_exists, not_and, Bool.not_eq_true]

end Formula

namespace Reader

variable {parser : Parser} {stage stage' : Stage} {nested : ListReader} {s place rest : List Char}
  {tally : Tally} {f : Formula}

/-! ## Conditions with a formula -/

/-- A condition with a formula is read with the formula if it selects some position, and is dead if not. -/
theorem Blocks.readClause?_eq (hblocks : Blocks parser place (.formula f)) (nested : ListReader)
    (hasId : Bool) :
    ∃ clause rest, clause.argument.formula? = some f ∧ readClause? parser nested hasId place =
      some (if f.isSatisfiable then .done (.pseudo clause) rest else .dead rest) := by
  obtain _ | _ | @⟨s, t, inner, rest, name, entry, _, hname, hgroup, hlookup, hgrammar, hformula⟩ := hblocks
  have hread : ∀ read : List Char → Reading Argument,
      withArgument entry.pseudo (some inner) read = read (trim inner) := by
    intro read
    unfold withArgument
    split
    · next hblank =>
      rw [show trim inner = [] from hblank] at hformula
      cases hformula
    · rfl
  have hargument : ∃ argument : Argument, argument.formula? = some f ∧
      readArgument nested entry (some inner) rest =
        if f.isSatisfiable then .done argument rest else .dead rest := by
    unfold readArgument
    rcases hgrammar with hgrammar | hgrammar <;> rw [hgrammar] <;> dsimp only <;>
      rw [hread, readFormula, hformula]
    · exact ⟨.formula f, rfl, by dsimp only; split <;> rfl⟩
    · exact ⟨.relative (some f), rfl, by dsimp only; split <;> rfl⟩
  obtain ⟨argument, hf, hargument⟩ := hargument
  refine ⟨⟨entry.pseudo, entry.hasGetter, writtenArgument (some inner), argument⟩, rest, hf, ?_⟩
  show some (readPseudo parser nested s) = _
  unfold readPseudo
  rw [hname]
  dsimp only
  rw [hgroup]
  dsimp only [Reading.andThen]
  rw [hlookup]
  dsimp only
  rw [hargument]
  split <;> rfl

/-! ## Dead branches -/

/-- What is read from the stage on is dead. A list is if its only branch is. -/
def Stage.IsDead (parser : Parser) : Stage → Prop
  | list s => Quiet s → readLists parser s = .ok []
  | branches s => Quiet s → readBranches parser (readLists parser) s = .ok []
  | parts first s => ∃ rest, readParts parser (readLists parser) first s = .dead rest
  | part s => ∀ link, ∃ rest, readPart parser (readLists parser) link s = .dead rest
  | clauses tally s => ∃ rest, readClauses parser (readLists parser) tally s = .dead rest

/-- A branch is dead if its parts are. -/
theorem readBranch_of_dead (h : readParts parser nested true (skipBlank s) = .dead rest) :
    readBranch parser nested s = .ok (none, (branchSpan rest).2) := by
  unfold readBranch
  split
  · next hend =>
    rw [readParts_eq, skipBlank_skipBlank, if_pos hend] at h
    cases h
  · rw [h]

/-- A step leads from a dead stage back to a dead stage. -/
theorem Stage.IsDead.of_goes (h : stage'.IsDead parser) (hstep : Goes parser stage stage') :
    stage.IsDead parser := by
  cases hstep with
  | @list s =>
    intro hquiet
    by_cases hblank : trim s = []
    · rw [readLists_eq, readList, hblank]
    · rw [readLists_of_trim_ne hblank]
      exact h (Quiet.trim hquiet)
  | branch =>
    intro hquiet
    obtain ⟨t, hparts⟩ := h
    have hbranch := readBranch_of_dead hparts
    -- the text behind a dead branch starts with a comma, unless it is empty
    have hrest := (follows_readBranch hbranch).quiet hquiet
    rcases branchSpan_eq_nil_or_comma t with hnil | ⟨tail, hcomma⟩
    · exact readBranches_of_end hbranch (by rw [hnil]; rfl)
    · rw [hcomma] at hrest
      exact absurd hrest (not_quiet_comma tail)
  | nextBranch hbranch hcomma =>
    intro hquiet
    have hbehind := ((follows_readBranch hbranch).trans (skips_skipBlank _).follows).quiet hquiet
    rw [hcomma] at hbehind
    exact absurd hbehind (not_quiet_comma _)
  | @part first s t link hopen hlink =>
    obtain ⟨rest, hpart⟩ := h link
    refine ⟨rest, ?_⟩
    rw [readParts_eq, hopen, if_neg Bool.false_ne_true, readLinkedPart, hlink, Reading.andThen, hpart]
    rfl
  | nextPart hopen hpart =>
    obtain ⟨rest, hlater⟩ := h
    refine ⟨rest, ?_⟩
    rw [readParts_eq, hopen, if_neg Bool.false_ne_true, hpart, Reading.andThen, hlater]
    rfl
  | clauses =>
    intro link
    obtain ⟨rest, hclauses⟩ := h
    refine ⟨rest, ?_⟩
    unfold readPart
    dsimp only
    rw [hclauses]
    rfl
  | @containment s t clauses hsubject hclauses hblank =>
    intro link
    have hlist := h (passes_branchSpan t)
    have hcontained : readContainment (readLists parser) t = .dead (branchSpan t).2 := by
      unfold readContainment
      dsimp only
      rw [if_neg (by rwa [List.isEmpty_iff]), hlist]
    refine ⟨(branchSpan t).2, ?_⟩
    unfold readPart
    dsimp only
    rw [hclauses, Reading.andThen, if_pos hsubject, hcontained]
    rfl
  | nextClause hfirst hadd =>
    obtain ⟨rest, hothers⟩ := h
    refine ⟨rest, ?_⟩
    rw [readClauses_of_readClause? hfirst hadd, hothers]
    rfl

/-- A stage is dead if the reader comes from there to a dead one. -/
theorem Stage.IsDead.of_reaches (h : stage'.IsDead parser) (hreaches : Reaches parser stage stage') :
    stage.IsDead parser := by
  induction hreaches using Relation.ReflTransGen.head_induction_on with
  | refl => exact h
  | head hstep _ ih => exact ih.of_goes hstep

/-- A branch is dead if the reader comes by a dead condition. -/
theorem exists_readBranch_of_reaches
    (hreaches : Reaches parser (.parts true (skipBlank s)) (.clauses tally place))
    (hdead : readClause? parser (readLists parser) tally.hasId place = some (.dead rest)) :
    ∃ rest, readBranch parser (readLists parser) s = .ok (none, rest) := by
  have hplace : (Stage.clauses tally place).IsDead parser := by
    refine ⟨rest, ?_⟩
    rw [readClauses_eq, hdead]
    rfl
  obtain ⟨t, hparts⟩ := hplace.of_reaches hreaches
  exact ⟨_, readBranch_of_dead hparts⟩

/-- No step in the test of a position leaves the 64 bits or divides by zero, and the test tells whether a
number of steps, possibly none, leads from the offset to the position among the whole numbers. A formula counts
as satisfiable exactly if some position of 32 bits from one on is selected. Where the reader of a branch comes
to a condition with a formula, the condition is dead exactly if the formula selects no such position. Then the
branch is dead, and else the condition is read with the formula. -/
theorem positions_exact :
    (∀ f : Formula, ∀ position, f.selects? position = some (f.selects position)) ∧
    (∀ f : Formula, ∀ position, f.selects position = true ↔
      ∃ k : Nat, f.step.toInt * k + f.offset.toInt = position.toInt) ∧
    (∀ f : Formula, f.isSatisfiable = true ↔ ∃ position : Int32, 1 ≤ position ∧ f.selects position = true) ∧
    ∀ parser s tally place f, Reaches parser (.parts true (skipBlank s)) (.clauses tally place) →
      Blocks parser place (.formula f) →
        ((∃ rest, readClause? parser (readLists parser) tally.hasId place = some (.dead rest)) ↔
          ∀ position : Int32, 1 ≤ position → f.selects position = false) ∧
        ((∀ position : Int32, 1 ≤ position → f.selects position = false) →
          ∃ rest, readBranch parser (readLists parser) s = .ok (none, rest)) ∧
        ((∃ position : Int32, 1 ≤ position ∧ f.selects position = true) →
          ∃ clause rest, clause.argument.formula? = some f ∧
            readClause? parser (readLists parser) tally.hasId place = some (.done (.pseudo clause) rest)) := by
  refine ⟨Formula.selects?_eq, Formula.selects_iff, fun f => Formula.isSatisfiable_iff, ?_⟩
  intro parser s tally place f hreaches hblocks
  obtain ⟨clause, rest, hf, hread⟩ := hblocks.readClause?_eq (readLists parser) tally.hasId
  rw [← Formula.isSatisfiable_eq_false_iff, ← Formula.isSatisfiable_iff]
  refine ⟨⟨?_, fun h => ⟨rest, ?_⟩⟩, fun h => ?_, fun h => ⟨clause, rest, hf, ?_⟩⟩
  · rintro ⟨rest, hdead⟩
    exact hblocks.isSatisfiable_eq_false hdead
  · rw [hread, h]
    rfl
  · have hdead : readClause? parser (readLists parser) tally.hasId place = some (.dead rest) := by
      rw [hread, h]
      rfl
    exact exists_readBranch_of_reaches hreaches hdead
  · rw [hread, h]
    rfl

/-- The text `$ul li:nth-child(-2147483648n)`. -/
def leastStepInList : List Char := "$ul li:nth-child(-2147483648n)".toList

/-- The reader comes to the formula in the containment of the list. -/
theorem reaches_leastStepInList : Reaches .standard (.parts true (skipBlank leastStepInList))
    (.clauses (.start (some ⟨"li"⟩)) ":nth-child(-2147483648n)".toList) := by
  have hlink : readCombinator true false leastStepInList = .done none leastStepInList := by
    with_unfolding_all rfl
  have hclauses : readClauses .standard (readLists .standard)
      (.start (readTag (subjectMark leastStepInList).2).1) (readTag (subjectMark leastStepInList).2).2 =
        .done [] " li:nth-child(-2147483648n)".toList := by
    with_unfolding_all rfl
  have hlinkInside : readCombinator true false "li:nth-child(-2147483648n)".toList =
      .done none "li:nth-child(-2147483648n)".toList := by
    with_unfolding_all rfl
  have hlist : Goes .standard (.parts true leastStepInList) (.part leastStepInList) :=
    .part (by decide) hlink
  have hinside : Goes .standard (.part leastStepInList) (.list " li:nth-child(-2147483648n)".toList) :=
    .containment rfl hclauses (by decide)
  have hitem : Goes .standard (.parts true "li:nth-child(-2147483648n)".toList)
      (.part "li:nth-child(-2147483648n)".toList) :=
    .part (by decide) hlinkInside
  exact .head hlist (.head hinside (.head .list (.head .branch (.head hitem (.single .clauses)))))

/-- Counting backward by the longest step, a formula selects no position from one on, and so no list with such
an item is found. From the largest offset the same step leads to minus one. -/
theorem positions_exact_leastStep :
    Formula.selects? ⟨-2147483648, 2147483647⟩ (-1) = some true ∧
    (∃ k : Nat, Int32.toInt (-2147483648) * k + Int32.toInt 2147483647 = Int32.toInt (-1)) ∧
    Reaches .standard (.parts true (skipBlank leastStepInList))
      (.clauses (.start (some ⟨"li"⟩)) ":nth-child(-2147483648n)".toList) ∧
    Blocks .standard ":nth-child(-2147483648n)".toList (.formula ⟨-2147483648, 0⟩) ∧
    (∀ position : Int32, 1 ≤ position → Formula.selects ⟨-2147483648, 0⟩ position = false) ∧
    ∃ rest, readBranch .standard (readLists .standard) leastStepInList = .ok (none, rest) := by
  obtain ⟨hchecked, hselects, hsatisfiable, hreader⟩ := positions_exact
  have hname : ident? "nth-child(-2147483648n)".toList =
      some (⟨"nth-child"⟩, "(-2147483648n)".toList) := by
    with_unfolding_all rfl
  have hgroup : readGroup "(-2147483648n)".toList = .done (some "-2147483648n".toList) [] := by
    with_unfolding_all rfl
  have hlookup : Registry.standard.lookup "nth-child" = some (Entry.standard .nthChild) := by decide
  have hblocks : Blocks .standard ":nth-child(-2147483648n)".toList (.formula ⟨-2147483648, 0⟩) :=
    .formula hname hgroup hlookup (.inl rfl) (by decide)
  have hnone : ∀ position : Int32, 1 ≤ position → Formula.selects ⟨-2147483648, 0⟩ position = false := by
    intro position hone
    rw [Bool.eq_false_iff]
    intro hselected
    exact absurd ((hsatisfiable ⟨-2147483648, 0⟩).2 ⟨position, hone, hselected⟩) (by decide)
  obtain ⟨-, hdead, -⟩ := hreader _ _ _ _ _ reaches_leastStepInList hblocks
  refine ⟨(hchecked _ _).trans (by decide), ?_, reaches_leastStepInList, hblocks, hnone, hdead hnone⟩
  exact (hselects ⟨-2147483648, 2147483647⟩ (-1)).1 (by decide)

end Reader
end TreeQuery
