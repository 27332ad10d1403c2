import TreeQuery.Proofs.Reader.Stages

/-!
# Texts that overflow

The lookups of a part are counted with eight bits. Reading a list overflows exactly if the reader comes by a
part with a 256th lookup, in an argument or outside (`readLists_eq_overflow_iff`): a name, an id or a plain test
of the attribute `name` that is read, or the classes when all of the part is read. An overflow at some stage
is one at the stages before (`Stage.Overflows.of_visits`), and what overflows at a stage has a part behind
it that is to blame.
-/

namespace TreeQuery

open Text Relation

namespace Reading

variable {α β : Type} {r : Reading α} {error : ReadError SyntaxCause}

theorem andThen_eq_fatal {next : α → List Char → Reading β} : r.andThen next = .fatal error ↔
    r = .fatal error ∨ ∃ value rest, r = .done value rest ∧ next value rest = .fatal error := by
  cases r with
  | done value rest =>
    refine ⟨fun h => .inr ⟨value, rest, rfl, h⟩, ?_⟩
    rintro (h | ⟨_, _, h, hnext⟩)
    · cases h
    · cases h
      exact hnext
  | dead rest => exact ⟨nofun, by rintro (h | ⟨_, _, h, -⟩) <;> cases h⟩
  | fatal other =>
    refine ⟨fun h => .inl (congrArg _ (Reading.fatal.inj h)), ?_⟩
    rintro (h | ⟨_, _, h, -⟩)
    · exact congrArg _ (Reading.fatal.inj h)
    · cases h

theorem map_eq_fatal {f : α → β} : r.map f = .fatal error ↔ r = .fatal error := by
  rw [map, andThen_eq_fatal]
  exact or_iff_left (by rintro ⟨_, _, -, h⟩; cases h)

end Reading

namespace Reader

variable {parser : Parser} {nested : ListReader} {stage stage' : Stage} {s t rest : List Char}
  {tally : Tally} {hasId : Bool} {clauses : List Clause}

/-- The stages that the reader comes by, those in arguments included. -/
def Visits (parser : Parser) : Stage → Stage → Prop :=
  ReflTransGen fun stage next => Goes parser stage next ∨ Enters parser stage next

/-- The text starts with the conditions, whether they can be counted or not. -/
inductive StartsWith (parser : Parser) : Bool → List Char → List Clause → List Char → Prop
  | nil {hasId : Bool} {s : List Char} : StartsWith parser hasId s [] s
  | cons {hasId : Bool} {s t rest : List Char} {clause : Clause} {clauses : List Clause}
      (h : readClause? parser (readLists parser) hasId s = some (.done clause t))
      (hnext : StartsWith parser (hasId || clause.id?.isSome) t clauses rest) :
      StartsWith parser hasId s (clause :: clauses) rest

/-- The part has a 256th lookup. It is a condition, with the name of the part as the first lookup if it has one,
or all conditions and the containment are read, and it is the classes. -/
inductive PassesLimit (parser : Parser) (s : List Char) : Prop
  | condition {clauses : List Clause} {rest : List Char}
      (h : StartsWith parser false (readTag (subjectMark s).2).2 clauses rest)
      (hmany : UInt8.size ≤ (readTag (subjectMark s).2).1.toList.length + clauses.countP Clause.isLookup)
  | classes {clauses : List Clause} {rest : List Char}
      (h : readClauses parser (readLists parser) (.start (readTag (subjectMark s).2).1)
        (readTag (subjectMark s).2).2 = .done clauses rest)
      (hcontained : (subjectMark s).1 = true →
        ∃ inner t, readContainment (readLists parser) rest = .done inner t)
      (hmany : UInt8.size ≤ Part.directLookups parser.profile
        ⟨none, (subjectMark s).1, (readTag (subjectMark s).2).1, clauses, none⟩)

/-- What is read from the stage on overflows. -/
def Stage.Overflows (parser : Parser) : Stage → Prop
  | .list s => readLists parser s = .error .overflow
  | .branches s => readBranches parser (readLists parser) s = .error .overflow
  | .parts first s => readParts parser (readLists parser) first s = .fatal .overflow
  | .part s => ∀ link, readPart parser (readLists parser) link s = .fatal .overflow
  | .clauses tally s => readClauses parser (readLists parser) tally s = .fatal .overflow

/-! ## From a part back to the list -/

theorem trim_ne_of_overflow (h : readLists parser s = .error .overflow) : trim s ≠ [] := by
  intro hblank
  rw [readLists_eq, readList, hblank] at h
  cases h

theorem Stage.Overflows.of_goes (h : stage'.Overflows parser) (hstep : Goes parser stage stage') :
    stage.Overflows parser := by
  cases hstep with
  | @list s =>
    by_cases hblank : trim s = []
    · rw [hblank] at h
      have h : readBranches parser (readLists parser) [] = .error .overflow := h
      rw [readBranches_eq] at h
      cases h
    · exact (readLists_of_trim_ne hblank).trans h
  | @branch s =>
    have h : readParts parser (readLists parser) true (skipBlank s) = .fatal .overflow := h
    have hopen : isBranchEnd (skipBlank s) = false := by
      refine Bool.eq_false_iff.2 fun hend => ?_
      rw [readParts_eq, skipBlank_skipBlank, if_pos hend] at h
      cases h
    show readBranches parser (readLists parser) s = _
    rw [readBranches_eq, readBranch, hopen, if_neg Bool.false_ne_true, h]
  | nextBranch hbranch hcomma =>
    refine (readBranches_of_comma hbranch hcomma).trans ?_
    rw [show readBranches parser (readLists parser) _ = _ from h]
    rfl
  | part hopen hlink =>
    show readParts parser (readLists parser) _ _ = _
    rw [readParts_eq, hopen, if_neg Bool.false_ne_true, readLinkedPart, hlink]
    show (readPart parser (readLists parser) _ _).andThen _ = _
    rw [h]
    rfl
  | nextPart hopen hpart =>
    show readParts parser (readLists parser) _ _ = _
    rw [readParts_eq, hopen, if_neg Bool.false_ne_true, hpart]
    exact Reading.map_eq_fatal.2 h
  | clauses => exact fun link => Reading.andThen_eq_fatal.2 (.inl h)
  | containment hsubject hclauses hblank =>
    refine fun link => Reading.andThen_eq_fatal.2 (.inr ⟨_, _, hclauses, ?_⟩)
    rw [if_pos hsubject, readContainment, if_neg (fun hnil => hblank (List.isEmpty_iff.1 hnil)),
      show readLists parser (branchSpan _).1 = _ from h]
    rfl
  | nextClause hclause hadd =>
    exact (readClauses_of_readClause? hclause hadd).trans (Reading.map_eq_fatal.2 h)

theorem Stage.Overflows.of_enters (h : stage'.Overflows parser) (hstep : Enters parser stage stage') :
    stage.Overflows parser := by
  obtain @⟨tally, s, t, inner, rest, name, entry, hname, hgroup, hentry, hgrammar⟩ := hstep
  have hread : readLists parser inner = .error .overflow := h
  have hargument : readArgument (readLists parser) entry (some inner) rest = .fatal .overflow := by
    unfold readArgument withArgument
    rw [hgrammar]
    dsimp only
    split
    · next hblank => exact absurd hblank (trim_ne_of_overflow hread)
    · show readNested (readLists parser) (trim inner) rest = _
      rw [readNested, readLists_trim, hread]
  have hpseudo : readPseudo parser (readLists parser) s = .fatal .overflow := by
    unfold readPseudo
    rw [hname]
    refine Reading.andThen_eq_fatal.2 (.inr ⟨_, _, hgroup, ?_⟩)
    rw [hentry]
    exact Reading.map_eq_fatal.2 hargument
  show readClauses parser (readLists parser) tally (':' :: s) = _
  rw [readClauses_eq, readClause?, hpseudo]
  rfl

/-- An overflow at some stage is one at the stages before. -/
theorem Stage.Overflows.of_visits (h : stage'.Overflows parser) (hvisits : Visits parser stage stage') :
    stage.Overflows parser := by
  induction hvisits using ReflTransGen.head_induction_on with
  | refl => exact h
  | head hstep _ ih => exact hstep.elim ih.of_goes ih.of_enters

/-- Conditions that cannot be counted overflow. -/
theorem readClauses_of_startsWith (h : StartsWith parser hasId s clauses rest)
    {tally : Tally} (hid : tally.hasId = hasId) (hlt : tally.lookups < UInt8.size)
    (hmany : UInt8.size ≤ tally.lookups + clauses.countP Clause.isLookup) :
    readClauses parser (readLists parser) tally s = .fatal .overflow := by
  induction h generalizing tally with
  | nil => exact absurd hmany (Nat.not_le_of_lt hlt)
  | @cons hasId s t rest clause clauses hclause _ ih =>
    subst hid
    cases hadd : tally.add? clause with
    | none =>
      rw [readClauses_eq, hclause]
      simp only [Reading.andThen, hadd]
    | some tally' =>
      rw [readClauses_of_readClause? hclause hadd, Reading.map_eq_fatal]
      obtain ⟨hcounted, rfl⟩ := Tally.add?_eq_some.1 hadd
      refine ih rfl hcounted ?_
      rw [countP_isLookup_cons, ← Nat.add_assoc] at hmany
      exact hmany

/-- Conditions have characters. -/
theorem length_readClauses_lt (h : readClauses parser nested tally s = .done clauses rest)
    (hne : clauses ≠ []) : rest.length < s.length := by
  rw [readClauses_eq] at h
  split at h
  · cases h
    exact absurd rfl hne
  · next first hfirst =>
    obtain ⟨clause, t, rfl, hothers⟩ := Reading.andThen_eq_done.1 h
    have hlt : t.length < s.length := leaves_readClause? hfirst
    split at hothers
    · cases hothers
    · next tally' _ =>
      obtain ⟨others, hothers, -⟩ := Reading.map_eq_done.1 hothers
      have hleaves := leaves_readClauses parser nested tally' t
      rw [hothers] at hleaves
      exact Nat.lt_of_lt_of_le hleaves hlt

/-- Without conditions a part has no lookup but its name. -/
theorem Part.directLookups_bare (p : Profile) (subject : Bool) (tag : Option Ident) :
    Part.directLookups p ⟨none, subject, tag, [], none⟩ < UInt8.size := by
  have hone : Part.directLookups p ⟨none, subject, tag, [], none⟩ = tag.toList.length := Nat.add_zero _
  rw [hone]
  exact Tally.lookups_start_lt tag

/-- A part with a 256th lookup overflows. -/
theorem PassesLimit.overflows (h : PassesLimit parser s) : (Stage.part s).Overflows parser := by
  intro link
  cases h with
  | condition h hmany =>
    exact Reading.andThen_eq_fatal.2 (.inl (readClauses_of_startsWith h rfl (Tally.lookups_start_lt _) hmany))
  | @classes clauses rest h hcontained hmany =>
    refine Reading.andThen_eq_fatal.2 (.inr ⟨_, _, h, ?_⟩)
    have hend : ∀ subject inner t, endPart parser.profile
        ⟨link, subject, (readTag (subjectMark s).2).1, clauses, inner⟩ t = .fatal .overflow :=
      fun subject inner t => if_neg (Nat.not_lt_of_le hmany)
    split
    · next hsubject =>
      obtain ⟨inner, t, hinner⟩ := hcontained hsubject
      exact Reading.andThen_eq_fatal.2 (.inr ⟨inner, t, hinner, hend true inner t⟩)
    · have hne : clauses ≠ [] := by
        rintro rfl
        exact absurd (Part.directLookups_bare _ _ _) (Nat.not_lt_of_le hmany)
      have hlt := length_readClauses_lt h hne
      have hmark := length_subjectMark_le s
      have htag := length_readTag_le (subjectMark s).2
      rw [if_pos (by omega)]
      exact hend false none rest

/-! ## From the list to a part -/

/-- The reader comes by a part with a 256th lookup. -/
def Stage.MeetsLimit (parser : Parser) (stage : Stage) : Prop :=
  ∃ s, Visits parser stage (.part s) ∧ PassesLimit parser s

theorem Stage.MeetsLimit.of_visits (h : stage'.MeetsLimit parser) (hvisits : Visits parser stage stage') :
    stage.MeetsLimit parser := by
  obtain ⟨s, hpart, hlimit⟩ := h
  exact ⟨s, hvisits.trans hpart, hlimit⟩

theorem Stage.MeetsLimit.of_goes (h : stage'.MeetsLimit parser) (hstep : Goes parser stage stage') :
    stage.MeetsLimit parser := h.of_visits (.single (.inl hstep))

/-- Of arguments only a list can overflow. -/
theorem readArgument_eq_overflow {entry : Entry} {inner? : Option (List Char)}
    (h : readArgument nested entry inner? rest = .fatal .overflow) :
    entry.grammar = .nested ∧ ∃ inner, inner? = some inner ∧ nested (trim inner) = .error .overflow := by
  unfold readArgument at h
  split at h
  case h_7 hgrammar =>
    unfold withArgument at h
    split at h
    · cases h
    · next hblank =>
      dsimp only [readNested] at h
      split at h
      · cases h
      · next hread =>
        cases inner? with
        | none => exact absurd rfl hblank
        | some inner => exact ⟨hgrammar, inner, rfl, hread.trans (congrArg _ (Reading.fatal.inj h))⟩
  all_goals
    exfalso
    simp only [withoutArgument, withArgument, readLinkDepth, readFormula] at h
    repeat' split at h
    all_goals cases h

theorem readAttribute_ne_overflow (s : List Char) : readAttribute s ≠ .fatal .overflow := by
  intro h
  unfold readAttribute at h
  split at h
  · cases h
  · split at h
    · cases h
    · split at h
      · cases h
      · dsimp only at h
        repeat' split at h
        all_goals cases h

/-- Of conditions only a pseudo-class with a list as argument can overflow. -/
theorem enters_of_readClause? (h : readClause? parser (readLists parser) tally.hasId s =
      some (.fatal .overflow)) :
    ∃ inner, Enters parser (.clauses tally s) (.list inner) ∧ readLists parser inner = .error .overflow ∧
      Inside inner s := by
  unfold readClause? at h
  split at h
  · have h := Option.some.inj h
    split at h
    · cases h
    · unfold readId at h
      split at h <;> cases h
  · have h := Option.some.inj h
    unfold readClass at h
    split at h <;> cases h
  · exact absurd (Option.some.inj h) (readAttribute_ne_overflow _)
  · next u =>
    have h := Option.some.inj h
    unfold readPseudo at h
    split at h
    · cases h
    · next name t hname =>
      rcases Reading.andThen_eq_fatal.1 h with h | ⟨inner?, v, hgroup, h⟩
      · unfold readGroup at h
        repeat' split at h
        all_goals cases h
      · split at h
        · cases h
        · next entry hentry =>
          obtain ⟨hgrammar, inner, rfl, hread⟩ := readArgument_eq_overflow (Reading.map_eq_fatal.1 h)
          rw [readLists_trim] at hread
          have hsuffix := (skips_ident? hname).follows.suffix.trans (List.suffix_cons ':' u)
          exact ⟨inner, .argument hname hgroup hentry hgrammar, hread,
            (inside_readGroup hgroup).of_suffix hsuffix⟩
  · cases h

/-- Conditions overflow at one that cannot be counted, or in an argument. -/
theorem startsWith_or_enters (h : readClauses parser (readLists parser) tally s = .fatal .overflow) :
    (∃ clauses rest, StartsWith parser tally.hasId s clauses rest ∧
      UInt8.size ≤ tally.lookups + clauses.countP Clause.isLookup) ∨
    ∃ tally' u inner, Reaches parser (.clauses tally s) (.clauses tally' u) ∧
      Enters parser (.clauses tally' u) (.list inner) ∧ readLists parser inner = .error .overflow ∧
        Inside inner s := by
  fun_induction readClauses parser (readLists parser) tally s with
  | case1 => cases h
  | case2 => cases h
  | case3 tally s error hclause =>
    obtain rfl := Reading.fatal.inj h
    obtain ⟨inner, henters, hread, hinside⟩ := enters_of_readClause? hclause
    exact .inr ⟨tally, s, inner, .refl, henters, hread, hinside⟩
  | case4 tally s clause t hclause _ hadd =>
    refine .inl ⟨[clause], t, .cons hclause .nil, ?_⟩
    rw [countP_isLookup_cons]
    exact Tally.add?_eq_none.1 hadd
  | case5 tally s clause t hclause _ tally' hadd ih =>
    have hstep := Goes.nextClause hclause hadd
    rcases ih (Reading.map_eq_fatal.1 h) with ⟨clauses, rest, hstarts, hmany⟩ |
      ⟨tally'', u, inner, hreaches, henters, hread, hinside⟩
    · obtain ⟨-, rfl⟩ := Tally.add?_eq_some.1 hadd
      refine .inl ⟨clause :: clauses, rest, .cons hclause hstarts, ?_⟩
      rw [countP_isLookup_cons, ← Nat.add_assoc]
      exact hmany
    · exact .inr ⟨tally'', u, inner, .head hstep hreaches, henters, hread,
        hinside.of_suffix (follows_readClause? hclause).suffix⟩

theorem Reaches.visits (h : Reaches parser stage stage') : Visits parser stage stage' :=
  ReflTransGen.mono (r := Goes parser) (fun _ _ => Or.inl) _ _ h

/-- Of containments only the list can overflow. -/
theorem readContainment_eq_overflow (h : readContainment nested s = .fatal .overflow) :
    trim (branchSpan s).1 ≠ [] ∧ nested (branchSpan s).1 = .error .overflow := by
  unfold readContainment at h
  dsimp only at h
  split at h
  · cases h
  · next hblank =>
    refine ⟨fun hnil => hblank (List.isEmpty_iff.2 hnil), ?_⟩
    split at h
    · next error hread => exact hread.trans (congrArg _ (Reading.fatal.inj h))
    · cases h
    · cases h

/-- A part overflows at its end if its lookups cannot be counted. -/
theorem endPart_eq_overflow {p : Profile} {part : Part} (h : endPart p part s = .fatal .overflow) :
    UInt8.size ≤ part.directLookups p := by
  unfold endPart at h
  split at h
  · cases h
  · next hmany => exact Nat.le_of_not_lt hmany

/-- A part that overflows has a 256th lookup, or a list inside of it overflows. -/
theorem Stage.MeetsLimit.part {link : Option Combinator}
    (hinside : ∀ u, Inside u s → readLists parser u = .error .overflow → MeetsLimit parser (.list u))
    (h : readPart parser (readLists parser) link s = .fatal .overflow) : MeetsLimit parser (.part s) := by
  have htag := (skips_readTag (subjectMark s).2).follows.suffix
  rcases Reading.andThen_eq_fatal.1 h with h | ⟨clauses, t, hclauses, h⟩
  · have htext := (skips_subjectMark s).follows.suffix
    rcases startsWith_or_enters h with ⟨clauses, rest, hstarts, hmany⟩ |
      ⟨tally, u, inner, hreaches, henters, hread, hinner⟩
    · exact ⟨s, .refl, .condition hstarts hmany⟩
    · refine (hinside inner (hinner.of_suffix (htag.trans htext)) hread).of_visits ?_
      exact .head (.inl .clauses) (hreaches.visits.tail (.inr henters))
  · split at h
    · next hsubject =>
      rcases Reading.andThen_eq_fatal.1 h with h | ⟨inner, u, hinner, h⟩
      · obtain ⟨hne, hread⟩ := readContainment_eq_overflow h
        have hbehind := follows_readClauses parser (readLists parser)
          (.start (readTag (subjectMark s).2).1) (readTag (subjectMark s).2).2
        rw [hclauses] at hbehind
        have hcontained := handsOn_containment hsubject (hbehind.suffix.trans htag)
        exact (hinside _ hcontained.inside hread).of_goes (.containment hsubject hclauses hne)
      · have hmany := endPart_eq_overflow h
        exact ⟨s, .refl, .classes hclauses (fun _ => ⟨inner, u, hinner⟩) hmany⟩
    · next hsubject =>
      split at h
      · have hmany := endPart_eq_overflow h
        exact ⟨s, .refl, .classes hclauses (fun hmark => absurd hmark hsubject) hmany⟩
      · cases h

theorem readCombinator_ne_overflow (first spaced : Bool) (s : List Char) :
    readCombinator first spaced s ≠ .fatal .overflow := by
  intro h
  unfold readCombinator at h
  dsimp only at h
  repeat' split at h
  all_goals cases h

theorem Stage.MeetsLimit.parts {first : Bool}
    (hinside : ∀ u, Inside u s → readLists parser u = .error .overflow → MeetsLimit parser (.list u))
    (h : readParts parser (readLists parser) first s = .fatal .overflow) :
    MeetsLimit parser (.parts first s) := by
  fun_induction readParts parser (readLists parser) first s with
  | case1 => cases h
  | case2 => cases h
  | case3 first s hopen error hpart =>
    obtain rfl := Reading.fatal.inj h
    have hopen := Bool.eq_false_iff.2 hopen
    rcases Reading.andThen_eq_fatal.1 hpart with hlink | ⟨link, t, hlink, hpart⟩
    · exact absurd hlink (readCombinator_ne_overflow _ _ _)
    · have hbehind := follows_readCombinator first ((skipBlank s).length < s.length) (skipBlank s)
      rw [hlink] at hbehind
      have hsuffix := hbehind.suffix.trans (skips_skipBlank s).follows.suffix
      exact (MeetsLimit.part (fun u hu => hinside u (hu.of_suffix hsuffix)) hpart).of_goes (.part hopen hlink)
  | case4 first s hopen part t hpart _ ih =>
    have hbehind := follows_readLinkedPart parser (readLists parser) first ((skipBlank s).length < s.length)
      (skipBlank s)
    rw [hpart] at hbehind
    have hsuffix := hbehind.suffix.trans (skips_skipBlank s).follows.suffix
    have hmeets := ih (fun u hu => hinside u (hu.of_suffix hsuffix)) (Reading.map_eq_fatal.1 h)
    exact hmeets.of_goes (.nextPart (Bool.eq_false_iff.2 hopen) hpart)

theorem Stage.MeetsLimit.branch
    (hinside : ∀ u, Inside u s → readLists parser u = .error .overflow → MeetsLimit parser (.list u))
    (h : readBranch parser (readLists parser) s = .error .overflow) : MeetsLimit parser (.branches s) := by
  have hsuffix := (skips_skipBlank s).follows.suffix
  unfold readBranch at h
  split at h
  · cases h
  · split at h
    · cases h
    · cases h
    · next error hparts =>
      obtain rfl := Except.error.inj h
      exact (MeetsLimit.parts (fun u hu => hinside u (hu.of_suffix hsuffix)) hparts).of_goes .branch

theorem Stage.MeetsLimit.branches
    (hinside : ∀ u, Inside u s → readLists parser u = .error .overflow → MeetsLimit parser (.list u))
    (h : readBranches parser (readLists parser) s = .error .overflow) : MeetsLimit parser (.branches s) := by
  fun_induction readBranches parser (readLists parser) s with
  | case1 s error hbranch =>
    obtain rfl := Except.error.inj h
    exact .branch hinside hbranch
  | case2 => cases h
  | case3 s selector? rest hbranch c more hrest hcomma _ ih =>
    obtain rfl := eq_of_beq hcomma
    have hsuffix := ((follows_readBranch hbranch).trans (skips_skipBlank rest).follows).suffix
    rw [hrest] at hsuffix
    have hothers : readBranches parser (readLists parser) more = .error .overflow := by
      cases hmore : readBranches parser (readLists parser) more with
      | error error =>
        rw [hmore] at h
        exact congrArg _ (Except.error.inj h)
      | ok others =>
        rw [hmore] at h
        cases h
    have hmeets := ih (fun u hu => hinside u (hu.of_suffix ((List.suffix_cons _ _).trans hsuffix))) hothers
    exact hmeets.of_goes (.nextBranch hbranch hrest)
  | case4 => cases h

/-- A list that overflows leads to a part with a 256th lookup. -/
theorem Stage.MeetsLimit.list (h : readLists parser s = .error .overflow) :
    MeetsLimit parser (.list s) := by
  induction hlength : s.length using Nat.strongRecOn generalizing s with
  | ind length ih =>
    have hinside : ∀ u, Inside u (trim s) → readLists parser u = .error .overflow →
        MeetsLimit parser (.list u) :=
      fun u hu hread => ih u.length (hlength ▸ Nat.lt_of_lt_of_le hu.length_lt (length_trim_le s)) hread rfl
    rw [readLists_of_trim_ne (trim_ne_of_overflow h)] at h
    exact (MeetsLimit.branches hinside h).of_goes .list

/-- Reading a list overflows exactly if the reader comes by a part with a 256th lookup. -/
theorem readLists_eq_overflow_iff :
    readLists parser s = .error .overflow ↔ Stage.MeetsLimit parser (.list s) := by
  refine ⟨.list, ?_⟩
  rintro ⟨u, hvisits, hlimit⟩
  exact hlimit.overflows.of_visits hvisits

/-- A trimmed text of too many conditions overflows. -/
theorem readLists_of_startsWith {c : Char} (hc : c = '#' ∨ c = '.' ∨ c = '[' ∨ c = ':')
    (htrim : trim (c :: s) = c :: s) (h : StartsWith parser false (c :: s) clauses rest)
    (hmany : UInt8.size ≤ clauses.countP Clause.isLookup) : readLists parser (c :: s) = .error .overflow := by
  have hskip : skipBlank (c :: s) = c :: s := by rcases hc with rfl | rfl | rfl | rfl <;> rfl
  have hopen : isBranchEnd (c :: s) = false := by rcases hc with rfl | rfl | rfl | rfl <;> rfl
  have hmark : subjectMark (c :: s) = (false, c :: s) := by rcases hc with rfl | rfl | rfl | rfl <;> rfl
  have htag : readTag (c :: s) = (none, c :: s) := by rcases hc with rfl | rfl | rfl | rfl <;> rfl
  have hcombinator : ∀ spaced, readCombinator true spaced (c :: s) = .done none (c :: s) := by
    rcases hc with rfl | rfl | rfl | rfl <;> exact fun _ => rfl
  have hlimit : PassesLimit parser (c :: s) := by
    have hstarts : StartsWith parser false (readTag (subjectMark (c :: s)).2).2 clauses rest := by
      rwa [hmark, htag]
    exact .condition hstarts (Nat.le_trans hmany (Nat.le_add_left _ _))
  have hpart : Goes parser (.parts true (c :: s)) (.part (c :: s)) := by
    have hlink := hcombinator ((skipBlank (c :: s)).length < (c :: s).length)
    rw [← hskip] at hopen
    exact .part hopen (by rw [hskip] at hlink ⊢; exact hlink)
  have hbranch : Goes parser (.branches (c :: s)) (.parts true (c :: s)) := by
    have hstep := @Goes.branch parser (c :: s)
    rwa [hskip] at hstep
  have hlist : Goes parser (.list (c :: s)) (.branches (c :: s)) := by
    have hstep := @Goes.list parser (c :: s)
    rwa [htrim] at hstep
  have hmeets : (Stage.part (c :: s)).MeetsLimit parser := ⟨_, .refl, hlimit⟩
  exact readLists_eq_overflow_iff.2 (((hmeets.of_goes hpart).of_goes hbranch).of_goes hlist)

end Reader

theorem Selector.read_eq_overflow_iff {parser : Parser} {text : String} :
    Selector.read parser text = .error .overflow ↔ Reader.Stage.MeetsLimit parser (.list text.toList) := by
  rw [← Reader.readLists_eq_overflow_iff]
  show _ ↔ Reader.readAt parser (Reader.openers text.toList + 1) text.toList = _
  unfold Selector.read
  cases Reader.readAt parser (Reader.openers text.toList + 1) text.toList with
  | ok list => exact ⟨nofun, nofun⟩
  | error error =>
    cases error with
    | malformed cause => exact ⟨nofun, nofun⟩
    | overflow => exact ⟨fun _ => rfl, fun _ => rfl⟩

end TreeQuery
