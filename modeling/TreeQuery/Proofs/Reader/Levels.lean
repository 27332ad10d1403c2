import TreeQuery.Proofs.Reader.Follows

/-!
# Nested lists without levels

A reader of one level hands each nested list to the reader of the next level, and the number of levels
is counted off before the reading starts. Each list that is handed on has fewer openers than the text
that it stands in, so the count never runs out. `readLists` reads a list at any depth, and is one level
of reading with itself as the next level (`readLists_eq`).
-/

namespace TreeQuery

/-- Going on depends on what was read only. -/
theorem Reading.andThen_congr {α β : Type} {r : Reading α} {f g : α → List Char → Reading β}
    (h : ∀ value rest, r = .done value rest → f value rest = g value rest) :
    r.andThen f = r.andThen g := by
  cases r with
  | done value rest => exact h value rest rfl
  | dead rest => rfl
  | fatal cause => rfl

namespace Reader

open Text

variable {parser : Parser} {first second : ListReader} {s u v : List Char}

/-! ## Counting openers -/

theorem openers_append (u v : List Char) : openers (u ++ v) = openers u + openers v :=
  List.countP_append

theorem openers_le_of_suffix (h : v <:+ s) : openers v ≤ openers s := h.sublist.countP_le

theorem openers_trim_le (s : List Char) : openers (trim s) ≤ openers s := by
  obtain ⟨u, v, hs, -, -⟩ := trim_append s
  have hcount := congrArg openers hs
  rw [openers_append, openers_append] at hcount
  omega

theorem openers_branchSpan_le (s : List Char) : openers (branchSpan s).1 ≤ openers s := by
  have hcount := congrArg openers (branchSpan_append s)
  rw [openers_append] at hcount
  omega

/-- The text between parentheses has fewer openers than the text with them. -/
theorem openers_group?_lt {inner rest : List Char} (h : group? s = some (inner, rest)) :
    openers inner < openers s := by
  obtain ⟨rfl, -, -⟩ := group?_eq_some.1 h
  have hopen : openers ('(' :: (inner ++ ')' :: rest)) = openers (inner ++ ')' :: rest) + 1 :=
    List.countP_cons_of_pos rfl
  rw [hopen, openers_append]
  omega

theorem openers_readGroup_lt {inner rest : List Char} (h : readGroup s = .done (some inner) rest) :
    openers inner < openers s := by
  have hskip := openers_le_of_suffix (skips_skipBlank s).follows.suffix
  unfold readGroup at h
  split at h
  · next t ht =>
    split at h
    · next inner' rest' hgroup =>
      cases h
      rw [← ht] at hgroup
      exact Nat.lt_of_lt_of_le (openers_group?_lt hgroup) hskip
    · cases h
  · cases h

/-! ## Pieces of a text -/

/-- A shorter piece of a text, with fewer openers. -/
structure Inside (u s : List Char) : Prop where
  isInfix : u <:+: s
  length_lt : u.length < s.length
  openers_lt : openers u < openers s

theorem Inside.of_suffix (h : Inside u v) (hv : v <:+ s) : Inside u s :=
  ⟨h.isInfix.trans hv.isInfix, Nat.lt_of_lt_of_le h.length_lt hv.length_le,
    Nat.lt_of_lt_of_le h.openers_lt (openers_le_of_suffix hv)⟩

theorem Inside.trim (h : Inside u s) : Inside (trim u) s := by
  obtain ⟨lead, rest, hu, -, -⟩ := trim_append u
  have hpiece : Text.trim u <:+: u := ⟨lead, rest, by rw [List.append_assoc]; exact hu.symm⟩
  exact ⟨hpiece.trans h.isInfix, Nat.lt_of_le_of_lt (length_trim_le u) h.length_lt,
    Nat.lt_of_le_of_lt (openers_trim_le u) h.openers_lt⟩

/-- An argument in parentheses stands inside of the text that it is read from. -/
theorem inside_readGroup {inner rest : List Char} (h : readGroup s = .done (some inner) rest) : Inside inner s := by
  have hopeners := openers_readGroup_lt h
  have hskip := (skips_skipBlank s).follows.suffix
  unfold readGroup at h
  split at h
  · next t ht =>
    split at h
    · next inner' rest' hgroup =>
      cases h
      obtain ⟨hs, -, -⟩ := group?_eq_some.1 hgroup
      rw [ht, hs] at hskip
      have hpiece : inner <:+: '(' :: (inner ++ ')' :: rest) := ⟨['('], ')' :: rest, by simp⟩
      refine ⟨hpiece.trans hskip.isInfix, Nat.lt_of_lt_of_le ?_ hskip.length_le, hopeners⟩
      simp only [List.length_cons, List.length_append]
      omega
    · cases h
  · cases h

/-- The mark of the subject is an opener. -/
theorem openers_subjectMark_lt (h : (subjectMark s).1 = true) :
    openers (subjectMark s).2 < openers s := by
  unfold subjectMark at h ⊢
  split at h
  · next t =>
    have hopen : openers ('$' :: t) = openers t + 1 := List.countP_cons_of_pos rfl
    rw [hopen]
    exact Nat.lt_succ_self _
  · cases h

/-- What stands behind the mark of a subject up to the end of the branch stands inside of the text. -/
theorem inside_branchSpan (hu : '$' :: u <:+ s) (hv : v <:+ u) : Inside (branchSpan v).1 s := by
  have hspan : (branchSpan v).1 <+: v := ⟨(branchSpan v).2, branchSpan_append v⟩
  have hmark := openers_subjectMark_lt (s := '$' :: u) rfl
  have hinside : Inside (branchSpan v).1 ('$' :: u) := by
    refine ⟨(hspan.isInfix.trans hv.isInfix).trans (List.suffix_cons '$' u).isInfix, ?_, ?_⟩
    · exact Nat.lt_succ_of_le (hspan.length_le.trans hv.length_le)
    · exact Nat.lt_of_le_of_lt ((openers_branchSpan_le v).trans (openers_le_of_suffix hv)) hmark
  exact hinside.of_suffix hu

/-- The texts that may be handed on to the reader of the next level: an argument in parentheses, and what stands
behind the mark of a subject up to the end of the branch. -/
inductive HandsOn (s : List Char) : List Char → Prop
  | argument {t inner rest : List Char} (ht : t <:+ s) (hgroup : readGroup t = .done (some inner) rest) :
      HandsOn s (trim inner)
  | containment {u v : List Char} (hu : '$' :: u <:+ s) (hv : v <:+ u) : HandsOn s (branchSpan v).1

theorem HandsOn.of_suffix (h : HandsOn v u) (hv : v <:+ s) : HandsOn s u := by
  cases h with
  | argument ht hgroup => exact .argument (ht.trans hv) hgroup
  | containment hu hspan => exact .containment (hu.trans hv) hspan

/-- What is handed on stands inside of the text. -/
theorem HandsOn.inside (h : HandsOn s u) : Inside u s := by
  cases h with
  | argument ht hgroup => exact (inside_readGroup hgroup).trim.of_suffix ht
  | containment hu hv => exact inside_branchSpan hu hv

theorem handsOn_containment (hsubject : (subjectMark s).1 = true) (hv : v <:+ (subjectMark s).2) :
    HandsOn s (branchSpan v).1 := by
  unfold subjectMark at hsubject hv
  split at hsubject
  · exact .containment (List.suffix_refl _) hv
  · cases hsubject

/-! ## Readers that agree -/

/-- Two list readers read all texts with fewer openers alike. -/
def AgreeBelow (bound : Nat) (first second : ListReader) : Prop :=
  ∀ s, openers s < bound → first s = second s

/-- Two list readers read all that a text may hand on alike. -/
def AgreeInside (s : List Char) (first second : ListReader) : Prop := ∀ u, HandsOn s u → first u = second u

theorem AgreeBelow.inside (h : AgreeBelow (openers s) first second) : AgreeInside s first second :=
  fun u hu => h u hu.inside.openers_lt

theorem AgreeInside.of_suffix (h : AgreeInside s first second) (hv : v <:+ s) : AgreeInside v first second :=
  fun u hu => h u (hu.of_suffix hv)

theorem readArgument_congr (entry : Entry) {inner? : Option (List Char)}
    (h : ∀ inner, inner? = some inner → first (trim inner) = second (trim inner)) (rest : List Char) :
    readArgument first entry inner? rest = readArgument second entry inner? rest := by
  unfold readArgument
  split <;> try rfl
  unfold withArgument
  split
  · rfl
  · next text htext =>
    cases inner? with
    | none => exact absurd rfl htext
    | some inner =>
      -- only a nested list is handed on
      show readNested first (trim inner) rest = readNested second (trim inner) rest
      unfold readNested
      rw [h inner rfl]

theorem readPseudo_congr (h : AgreeInside s first second) :
    readPseudo parser first s = readPseudo parser second s := by
  unfold readPseudo
  split
  · rfl
  · next name t hname =>
    have ht := (skips_ident? hname).follows.suffix
    refine Reading.andThen_congr fun inner? rest hgroup => ?_
    split
    · rfl
    · rw [readArgument_congr]
      rintro inner rfl
      exact h _ (.argument ht hgroup)

theorem readClause?_congr (h : AgreeInside s first second) (hasId : Bool) :
    readClause? parser first hasId s = readClause? parser second hasId s := by
  unfold readClause?
  split <;> try rfl
  next t => rw [readPseudo_congr (h.of_suffix (List.suffix_cons ':' t))]

theorem readClauses_congr (h : AgreeInside s first second) (tally : Tally) :
    readClauses parser first tally s = readClauses parser second tally s := by
  induction hlength : s.length using Nat.strongRecOn generalizing s tally with
  | ind length ih =>
    rw [readClauses_eq, readClauses_eq, readClause?_congr h]
    cases hclause : readClause? parser second tally.hasId s with
    | none => rfl
    | some r =>
      refine Reading.andThen_congr fun clause rest hr => ?_
      subst hr
      have hlt : rest.length < s.length := leaves_readClause? hclause
      have hfollows : Text.Follows s rest := follows_readClause? hclause
      split
      · rfl
      · rw [ih rest.length (by omega) (h.of_suffix hfollows.suffix) _ rfl]

/-! ## Parts and branches -/

theorem readContainment_congr (h : first (branchSpan s).1 = second (branchSpan s).1) :
    readContainment first s = readContainment second s := by
  unfold readContainment
  dsimp only
  rw [h]

theorem readPart_congr (h : AgreeInside s first second) (combinator : Option Combinator) :
    readPart parser first combinator s = readPart parser second combinator s := by
  have hmark := (skips_subjectMark s).follows.suffix
  have htag := (skips_readTag (subjectMark s).2).follows.suffix
  unfold readPart
  dsimp only
  rw [readClauses_congr (h.of_suffix (htag.trans hmark))]
  refine Reading.andThen_congr fun clauses rest hclauses => ?_
  have hread := follows_readClauses parser second (.start (readTag (subjectMark s).2).1)
    (readTag (subjectMark s).2).2
  rw [hclauses] at hread
  have hfollows : Text.Follows (readTag (subjectMark s).2).2 rest := hread
  split
  · next hsubject =>
    rw [readContainment_congr (h _ (handsOn_containment hsubject (hfollows.suffix.trans htag)))]
  · rfl

theorem readLinkedPart_congr (h : AgreeInside s first second) (leading spaced : Bool) :
    readLinkedPart parser first leading spaced s = readLinkedPart parser second leading spaced s := by
  refine Reading.andThen_congr fun combinator rest hcombinator => ?_
  have hread := follows_readCombinator leading spaced s
  rw [hcombinator] at hread
  have hfollows : Text.Follows s rest := hread
  exact readPart_congr (h.of_suffix hfollows.suffix) combinator

theorem readParts_congr (h : AgreeInside s first second) (leading : Bool) :
    readParts parser first leading s = readParts parser second leading s := by
  induction hlength : s.length using Nat.strongRecOn generalizing s leading with
  | ind length ih =>
    have hskip := (skips_skipBlank s).follows.suffix
    rw [readParts_eq, readParts_eq, readLinkedPart_congr (h.of_suffix hskip)]
    split
    · rfl
    · refine Reading.andThen_congr fun part rest hpart => ?_
      have hleaves := leaves_readLinkedPart parser second leading
        ((skipBlank s).length < s.length) (skipBlank s)
      have hfollows := follows_readLinkedPart parser second leading
        ((skipBlank s).length < s.length) (skipBlank s)
      rw [hpart] at hleaves hfollows
      have hlt : rest.length < (skipBlank s).length := hleaves
      have hle := length_skipBlank_le s
      have hrest := (Text.Follows.suffix hfollows).trans hskip
      rw [ih rest.length (by omega) (h.of_suffix hrest) _ rfl]

/-- A branch that is read is not blank. -/
theorem isBranchEnd_of_readBranch {nested : ListReader} {r : Option Selector × List Char}
    (h : readBranch parser nested s = .ok r) : isBranchEnd (skipBlank s) = false := by
  unfold readBranch at h
  split at h
  · cases h
  · next hopen => exact Bool.eq_false_iff.2 hopen

/-- A selector has the parts of its branch. -/
theorem readBranch_eq_some {nested : ListReader} {selector : Selector} {rest : List Char}
    (h : readBranch parser nested s = .ok (some selector, rest)) :
    readParts parser nested true (skipBlank s) = .done selector.parts rest := by
  unfold readBranch at h
  split at h
  · cases h
  · split at h
    · next parts t hparts =>
      cases h
      exact hparts
    · cases h
    · cases h

/-- The parts of a dead branch are dead. -/
theorem readBranch_eq_none {nested : ListReader} {rest : List Char}
    (h : readBranch parser nested s = .ok (none, rest)) :
    ∃ t, readParts parser nested true (skipBlank s) = .dead t ∧ rest = (branchSpan t).2 := by
  unfold readBranch at h
  split at h
  · cases h
  · split at h
    · cases h
    · next t ht =>
      cases h
      exact ⟨t, ht, rfl⟩
    · cases h

/-- What is left behind a branch follows, also when the branch is dead. -/
theorem follows_readBranch {selector? : Option Selector} {rest : List Char}
    (h : readBranch parser first s = .ok (selector?, rest)) : Text.Follows s rest := by
  have hread := follows_readParts parser first true (skipBlank s)
  have hskip := (skips_skipBlank s).follows
  cases selector? with
  | some selector =>
    rw [readBranch_eq_some h] at hread
    exact hskip.trans hread
  | none =>
    obtain ⟨t, hparts, rfl⟩ := readBranch_eq_none h
    rw [hparts] at hread
    exact (hskip.trans hread).trans (follows_branchSpan t)

theorem readBranch_congr (h : AgreeInside s first second) :
    readBranch parser first s = readBranch parser second s := by
  unfold readBranch
  rw [readParts_congr (h.of_suffix (skips_skipBlank s).follows.suffix)]

theorem readBranches_congr (h : AgreeInside s first second) :
    readBranches parser first s = readBranches parser second s := by
  induction hlength : s.length using Nat.strongRecOn generalizing s with
  | ind length ih =>
    rw [readBranches_eq, readBranches_eq, readBranch_congr h]
    split
    · rfl
    · next selector? rest hbranch =>
      have hlt := length_readBranch_le hbranch
      have hrest := (follows_readBranch hbranch).suffix
      have hskip := (skips_skipBlank rest).follows.suffix
      have hshort := length_skipBlank_le rest
      split
      · rfl
      · next c more hmore =>
        rw [hmore] at hskip hshort
        rw [List.length_cons] at hshort
        have hsuffix := (List.suffix_cons c more).trans (hskip.trans hrest)
        rw [ih more.length (by omega) (h.of_suffix hsuffix) rfl]

/-- At the end of the text the list ends with its last branch. -/
theorem readBranches_of_end {nested : ListReader} {selector? : Option Selector} {rest : List Char}
    (h : readBranch parser nested s = .ok (selector?, rest)) (hend : skipBlank rest = []) :
    readBranches parser nested s = .ok selector?.toList := by
  rw [readBranches_eq, h]
  dsimp only
  rw [hend]

/-- Behind a comma the list goes on. -/
theorem readBranches_of_comma {nested : ListReader} {selector? : Option Selector} {rest more : List Char}
    (h : readBranch parser nested s = .ok (selector?, rest)) (hcomma : skipBlank rest = ',' :: more) :
    readBranches parser nested s = (readBranches parser nested more).map (selector?.toList ++ ·) := by
  rw [readBranches_eq, h]
  dsimp only
  rw [hcomma]
  exact if_pos (beq_self_eq_true ',')

theorem readList_congr (h : AgreeInside (trim s) first second) :
    readList parser first s = readList parser second s := by
  unfold readList
  split
  · rfl
  · exact readBranches_congr h

/-! ## Reading at any depth -/

/-- More levels than openers add nothing. -/
theorem readAt_eq {levels more : Nat} (hlevels : openers s < levels) (hmore : openers s < more) :
    readAt parser levels s = readAt parser more s := by
  induction levels generalizing s more with
  | zero => exact absurd hlevels (Nat.not_lt_zero _)
  | succ levels ih =>
    cases more with
    | zero => exact absurd hmore (Nat.not_lt_zero _)
    | succ more =>
      have htrim := openers_trim_le s
      have hagree : AgreeBelow (openers (trim s)) (readAt parser levels) (readAt parser more) :=
        fun u hu => ih (by omega) (by omega)
      exact readList_congr hagree.inside

/-- Reads selector lists nested at any depth. -/
def readLists (parser : Parser) : ListReader := fun s => readAt parser (openers s + 1) s

/-- Reading at any depth is one level of reading, with itself for the nested lists. -/
theorem readLists_eq (parser : Parser) (s : List Char) :
    readLists parser s = readList parser (readLists parser) s := by
  -- the level below reads all shorter texts in full
  have hagree : AgreeBelow (openers (trim s)) (readAt parser (openers s)) (readLists parser) :=
    fun u hu => readAt_eq (Nat.lt_of_lt_of_le hu (openers_trim_le s)) (Nat.lt_succ_self _)
  exact readList_congr hagree.inside

/-- Blanks around a list do not matter. -/
theorem readLists_trim (parser : Parser) (s : List Char) :
    readLists parser (trim s) = readLists parser s := by
  rw [readLists_eq, readLists_eq, readList, readList, (isTrimmed_trim s).trim_eq]

/-- The list of a text that is not blank is that of its branches. -/
theorem readLists_of_trim_ne (h : trim s ≠ []) :
    readLists parser s = readBranches parser (readLists parser) (trim s) := by
  rw [readLists_eq, readList]
  split
  · next hnil => exact absurd hnil h
  · rfl

/-- A trimmed text that is one branch is a list of it. -/
theorem readLists_of_readParts {parts : List Part} (htrim : trim s = s)
    (hopen : isBranchEnd (skipBlank s) = false)
    (hread : readParts parser (readLists parser) true (skipBlank s) = .done parts []) :
    readLists parser s = .ok [⟨parts⟩] := by
  have hbranch : readBranch parser (readLists parser) s = .ok (some ⟨parts⟩, []) := by
    rw [readBranch, hopen, if_neg Bool.false_ne_true, hread]
  rw [readLists_eq, readList, htrim]
  split
  · cases hopen
  · exact readBranches_of_end hbranch rfl

/-- A trimmed text of conditions is a list of the one part that has them. -/
theorem readLists_of_readClauses {c : Char} {clauses : List Clause} (hc : c = '#' ∨ c = '.' ∨ c = '[' ∨ c = ':')
    (htrim : trim (c :: s) = c :: s)
    (hread : readClauses parser (readLists parser) (.start none) (c :: s) = .done clauses [])
    (hcount : Part.directLookups parser.profile ⟨none, false, none, clauses, none⟩ < UInt8.size) :
    readLists parser (c :: s) = .ok [⟨[⟨none, false, none, clauses, none⟩]⟩] := by
  have hskip : skipBlank (c :: s) = c :: s := by rcases hc with rfl | rfl | rfl | rfl <;> rfl
  have hopen : isBranchEnd (c :: s) = false := by rcases hc with rfl | rfl | rfl | rfl <;> rfl
  have hmark : subjectMark (c :: s) = (false, c :: s) := by rcases hc with rfl | rfl | rfl | rfl <;> rfl
  have htag : readTag (c :: s) = (none, c :: s) := by rcases hc with rfl | rfl | rfl | rfl <;> rfl
  have hcombinator : ∀ spaced, readCombinator true spaced (c :: s) = .done none (c :: s) := by
    rcases hc with rfl | rfl | rfl | rfl <;> exact fun _ => rfl
  have hpart : readPart parser (readLists parser) none (c :: s) =
      .done ⟨none, false, none, clauses, none⟩ [] := by
    unfold readPart
    dsimp only
    rw [hmark, htag, hread]
    exact endPart_eq_done.2 ⟨hcount, rfl, rfl⟩
  refine readLists_of_readParts htrim (by rw [hskip, hopen]) ?_
  rw [hskip, readParts_eq, hskip, hopen, if_neg Bool.false_ne_true, readLinkedPart, hcombinator]
  show (readPart parser (readLists parser) none (c :: s)).andThen _ = _
  rw [hpart]
  show (readParts parser (readLists parser) false []).map _ = _
  rw [readParts_eq]
  rfl

end Reader

/-- A selector list is read at any depth. -/
theorem Selector.read_eq_ok {parser : Parser} {text : String} {list : List Selector} :
    Selector.read parser text = .ok list ↔ Reader.readLists parser text.toList = .ok list := by
  unfold Selector.read Reader.readLists
  split
  · next heq => rw [heq, Except.ok.injEq, Except.ok.injEq]
  · next heq =>
    rw [heq]
    constructor <;> rintro ⟨⟩

end TreeQuery
