import TreeQuery.Proofs.Reader.Join
import TreeQuery.Proofs.Reader.Legible

/-!
# The conditions of a part, one by one

`ClausesTo` says that the conditions of a part were read up to some place of the text. Each condition but
the last is followed by the mark of the next one, and no reader looks beyond it. So what is read up to a
mark does not depend on what stands from the mark on (`ClausesTo.replace`), and the same holds of the
beginning of a part with its name (`readHead_replace`). `readPart_replace` puts the two together.
-/

namespace TreeQuery

open Text

namespace Text

variable {s t rest content front : List Char} {c mark : Char} {i : Ident}

/-! ## Tokens in front of other texts -/

theorem head?_append_cons (front : List Char) (c : Char) (s t : List Char) :
    (front ++ c :: s).head? = (front ++ c :: t).head? := by
  cases front <;> rfl

/-- Blanks are skipped up to a text whose first character is kept. -/
theorem skipBlank_replace (h : skipBlank s = front ++ c :: rest) :
    ∃ u, s = u ++ (front ++ c :: rest) ∧
      ∀ tail, skipBlank (u ++ (front ++ c :: tail)) = front ++ c :: tail := by
  obtain ⟨u, hu, hblank⟩ := skipBlank_append s
  rw [h] at hu
  refine ⟨u, hu, fun tail => ?_⟩
  rw [skipBlank, List.dropWhile_append_of_pos hblank]
  refine skipBlank_eq_self fun d hd => not_blank_of_skipBlank (s := s) ?_
  rw [h, head?_append_cons front c rest tail, hd]

/-- What stands behind a name does not go on with it, whatever is put in place of its end. -/
theorem endsName_of_ident? (h : ident? s = some (i, front ++ c :: rest)) (hc : c ≠ '\\')
    (tail : List Char) : EndsName (front ++ c :: tail) := by
  have hbehind : (identSpan s).2 = front ++ c :: rest := by
    unfold ident? at h
    split at h
    · cases h
    · next heq => rw [heq, (Prod.mk.inj (Option.some.inj h)).2]
  have hends : EndsName (front ++ c :: rest) := by
    rcases endsName_identSpan s with hslash | hends
    · -- a single backslash would be the character that is kept
      rw [hbehind] at hslash
      obtain ⟨-, hlast⟩ := List.append_eq_singleton_iff.1 hslash |>.resolve_right fun h => by simp at h
      exact absurd (List.cons_eq_cons.1 hlast).1 hc
    · rwa [hbehind] at hends
  intro d hd
  exact hends d (by rwa [head?_append_cons front c rest tail])

/-- A name that was read is read in front of every text that does not go on with it. -/
theorem ident?_replace (h : ident? s = some (i, rest)) :
    ∃ u, s = u ++ rest ∧ ∀ tail, EndsName tail → ident? (u ++ tail) = some (i, tail) := by
  obtain ⟨hwhole, hs⟩ := Ident.isWhole_of_read h
  exact ⟨i.raw.toList, hs, fun tail hends => hwhole.ident?_append hends⟩

theorem closeQuote?_replace (h : closeQuote? mark s = some (content, rest)) :
    ∃ u, s = u ++ rest ∧ ∀ tail, closeQuote? mark (u ++ tail) = some (content, tail) := by
  fun_induction closeQuote? mark s generalizing content with
  | case1 => cases h
  | case2 => cases h
  | case3 c s ih =>
    obtain ⟨r, hr, heq⟩ := Option.map_eq_some_iff.1 h
    obtain ⟨rfl, rfl⟩ := Prod.mk.inj heq
    obtain ⟨u, rfl, hu⟩ := ih hr
    refine ⟨'\\' :: c :: u, rfl, fun tail => ?_⟩
    rw [List.cons_append, List.cons_append, closeQuote?, hu]
    rfl
  | case4 c s hnil hcons hmark =>
    cases h
    refine ⟨[c], rfl, fun tail => ?_⟩
    rw [List.singleton_append, closeQuote?_cons (ne_backslash_of_cases hnil hcons), if_pos hmark]
  | case5 c s hnil hcons hmark ih =>
    obtain ⟨r, hr, heq⟩ := Option.map_eq_some_iff.1 h
    obtain ⟨rfl, rfl⟩ := Prod.mk.inj heq
    obtain ⟨u, rfl, hu⟩ := ih hr
    refine ⟨c :: u, rfl, fun tail => ?_⟩
    rw [List.cons_append, closeQuote?_cons (ne_backslash_of_cases hnil hcons), if_neg hmark, hu]
    rfl

/-- A string that was read is read in front of every text. -/
theorem quoted?_replace (h : quoted? s = some (content, rest)) :
    ∃ u, s = u ++ rest ∧ ∀ tail, quoted? (u ++ tail) = some (content, tail) := by
  cases s with
  | nil => cases h
  | cons c s =>
    obtain ⟨hquote, hclose⟩ := Option.ite_none_right_eq_some.1 h
    obtain ⟨u, rfl, hu⟩ := closeQuote?_replace hclose
    refine ⟨c :: u, rfl, fun tail => ?_⟩
    rw [List.cons_append, quoted?, if_pos hquote, hu]

end Text

/-- What is left of the text, unless the reading fails. -/
def Reading.rest? {α : Type} : Reading α → Option (List Char)
  | .done _ rest | .dead rest => some rest
  | .fatal _ => none

namespace Reader

variable {parser : Parser} {nested : ListReader} {s t u front rest : List Char} {clause : Clause}
  {hasId hasId' : Bool}

/-! ## Attributes -/

theorem comparator?_replace {comparator : Comparator} (h : comparator? s = some (comparator, rest)) :
    ∃ u, s = u ++ '=' :: rest ∧ ∀ tail, comparator? (u ++ '=' :: tail) = some (comparator, tail) := by
  unfold comparator? at h
  split at h
  · cases h
    exact ⟨[], rfl, fun tail => rfl⟩
  · next c t hne =>
    obtain ⟨found, hfound, heq⟩ := Option.map_eq_some_iff.1 h
    obtain ⟨rfl, rfl⟩ := Prod.mk.inj heq
    refine ⟨[c], rfl, fun tail => ?_⟩
    rw [List.singleton_append, comparator?, hfound]
    · rfl
    · exact hne
  · cases h

theorem caseFlag_replace (h : (caseFlag s).2 = front ++ ']' :: rest) :
    ∃ u, s = u ++ ']' :: rest ∧ ∀ tail,
      caseFlag (u ++ ']' :: tail) = ((caseFlag s).1, front ++ ']' :: tail) := by
  have hcapital : ∀ {c : Char} {v : List Char}, c = 'i' ∨ c = 'I' → caseFlag (c :: v) = (true, v) := by
    rintro c v (rfl | rfl) <;> rfl
  have hother : ∀ {v : List Char}, v.head? ≠ some 'i' → v.head? ≠ some 'I' → caseFlag v = (false, v) := by
    intro v hsmall hlarge
    unfold caseFlag
    split <;> simp_all
  by_cases hflag : s.head? = some 'i' ∨ s.head? = some 'I'
  · cases s with
    | nil => simp at hflag
    | cons c v =>
      simp only [List.head?_cons, Option.some.injEq] at hflag
      rw [hcapital hflag] at h ⊢
      obtain rfl : v = front ++ ']' :: rest := h
      exact ⟨c :: front, rfl, fun tail => hcapital hflag⟩
  · rw [not_or] at hflag
    rw [hother hflag.1 hflag.2] at h ⊢
    obtain rfl : s = front ++ ']' :: rest := h
    refine ⟨front, rfl, fun tail => hother ?_ ?_⟩
    · rw [head?_append_cons front ']' tail rest]
      exact hflag.1
    · rw [head?_append_cons front ']' tail rest]
      exact hflag.2

/-- Behind the operand only blanks and the flag stand in front of the bracket. -/
theorem flagged_replace (h : skipBlank (caseFlag (skipBlank s)).2 = ']' :: rest) :
    ∃ u, s = u ++ ']' :: rest ∧ ∀ tail,
      (caseFlag (skipBlank (u ++ ']' :: tail))).1 = (caseFlag (skipBlank s)).1 ∧
        skipBlank (caseFlag (skipBlank (u ++ ']' :: tail))).2 = ']' :: tail := by
  obtain ⟨behind, hbehind, hclosed⟩ := @skipBlank_replace _ _ [] _ h
  obtain ⟨flag, hflag, hflagged⟩ := caseFlag_replace hbehind
  obtain ⟨u, hu, hskipped⟩ := skipBlank_replace hflag
  refine ⟨u ++ flag, by rw [List.append_assoc, ← hu], fun tail => ?_⟩
  rw [List.append_assoc, hskipped, hflagged]
  exact ⟨rfl, hclosed tail⟩

/-- No name starts with a quote. -/
theorem quoted?_of_ident? {i : Ident} (h : ident? s = some (i, rest)) : quoted? s = none := by
  obtain ⟨hwhole, hs⟩ := Ident.isWhole_of_read h
  cases s with
  | nil => rfl
  | cons c v =>
    have hhead : i.raw.toList.head? = some c := by
      rw [← hwhole.head?_append rest, ← hs, List.head?_cons]
    rw [quoted?, if_neg]
    intro hquote
    rcases hwhole.head hhead with hident | rfl
    · rcases Bool.or_eq_true_iff.1 hquote with hc | hc
      all_goals
        rw [beq_iff_eq.1 hc] at hident
        cases hident
    · cases hquote

theorem operand_replace (h : (operand s).2 = front ++ ']' :: rest)
    (hnone : quoted? s = none → ident? s = none → front = []) :
    ∃ u, s = u ++ (front ++ ']' :: rest) ∧ ∀ tail,
      operand (u ++ (front ++ ']' :: tail)) = ((operand s).1, front ++ ']' :: tail) := by
  cases hquoted : quoted? s with
  | some r =>
    obtain ⟨content, v⟩ := r
    have hoperand : operand s = (String.ofList content, v) := by rw [operand, hquoted]
    rw [hoperand] at h ⊢
    obtain ⟨u, hu, hread⟩ := quoted?_replace hquoted
    refine ⟨u, by rw [hu, ← h], fun tail => ?_⟩
    rw [operand, hread]
  | none =>
    cases hident : ident? s with
    | some r =>
      obtain ⟨name, v⟩ := r
      have hoperand : operand s = (name.value, v) := by rw [operand, hquoted, hident]
      rw [hoperand] at h ⊢
      obtain rfl : v = front ++ ']' :: rest := h
      obtain ⟨u, hu, hread⟩ := ident?_replace hident
      refine ⟨u, hu, fun tail => ?_⟩
      have hagain := hread _ (endsName_of_ident? hident (by decide) tail)
      rw [operand, quoted?_of_ident? hagain, hagain]
    | none =>
      have hoperand : operand s = ("", s) := by rw [operand, hquoted, hident]
      rw [hoperand] at h ⊢
      obtain rfl := hnone hquoted hident
      exact ⟨[], h, fun tail => rfl⟩

/-- Without an operand the bracket comes next. -/
theorem eq_bracket_of_flagged (h : skipBlank (caseFlag (skipBlank s)).2 = ']' :: rest)
    (hskip : skipBlank s = s) (hnone : ident? s = none) : s = ']' :: rest := by
  have hflag : caseFlag s = (false, s) := by
    unfold caseFlag
    split
    · cases hnone
    · cases hnone
    · rfl
  rw [hskip, hflag] at h
  rwa [← hskip]

/-- The comparison of an attribute is read up to its bracket, dead or not. -/
theorem readComparison_replace {name : Ident} {comparator : Comparator}
    (h : (readComparison name comparator s).rest? = some rest) :
    ∃ u, s = u ++ rest ∧ ∀ tail,
      readComparison name comparator (u ++ tail) = (readComparison name comparator s).inFrontOf tail := by
  unfold readComparison at h
  dsimp only at h
  split at h
  · next rest' hbracket =>
    obtain rfl : rest' = rest := by split_ifs at h <;> exact Option.some.inj h
    obtain ⟨front, hfront, hflagged⟩ := flagged_replace hbracket
    -- it is enough to read the operand again
    suffices hoperand : ∃ u, s = u ++ (front ++ ']' :: rest') ∧ ∀ tail,
        operand (skipBlank (u ++ (front ++ ']' :: tail))) =
          ((operand (skipBlank s)).1, front ++ ']' :: tail) by
      obtain ⟨u, hu, hread⟩ := hoperand
      refine ⟨u ++ (front ++ [']']), by simp [hu], fun tail => ?_⟩
      obtain ⟨hflag, hclosed⟩ := hflagged tail
      have htext : u ++ (front ++ [']']) ++ tail = u ++ (front ++ ']' :: tail) := by simp
      unfold readComparison
      simp only [htext, hread, hflag, hclosed, hbracket]
      split_ifs <;> rfl
    have hempty (hquoted : quoted? (skipBlank s) = none) (hident : ident? (skipBlank s) = none) :
        front = [] := by
      have hoperand : operand (skipBlank s) = ("", skipBlank s) := by rw [operand, hquoted, hident]
      rw [hoperand] at hfront hbracket
      have hwhole := eq_bracket_of_flagged hbracket (skipBlank_skipBlank s) hident
      rw [hwhole] at hfront
      exact List.append_left_eq_self.1 hfront.symm
    obtain ⟨u, hu, hread⟩ := operand_replace hfront hempty
    obtain ⟨blanks, hblanks, hskipped⟩ := @skipBlank_replace _ _ (u ++ front) _
      (hu.trans (List.append_assoc _ _ _).symm)
    refine ⟨blanks ++ u, by rw [hblanks]; simp, fun tail => ?_⟩
    rw [show blanks ++ u ++ (front ++ ']' :: tail) = blanks ++ (u ++ front ++ ']' :: tail) by simp,
      hskipped, List.append_assoc, hread]
  · cases h

/-- Reads the rest of an attribute condition behind the name. -/
def readTest (name : Ident) (s : List Char) : Reading Clause :=
  match skipBlank s with
  | ']' :: rest => .done (.attribute name .present "" false) rest
  | u => match comparator? u with
    | none => .fatal (.malformed .invalidAttribute)
    | some (comparator, v) => readComparison name comparator v

/-- The test of an attribute is read up to its bracket. The name in front of it ends before `c`. -/
theorem readTest_replace {name : Ident} (h : (readTest name s).rest? = some rest) :
    ∃ front c back, s = front ++ c :: (back ++ rest) ∧ c ≠ '\\' ∧ ∀ tail,
      readTest name (front ++ c :: (back ++ tail)) = (readTest name s).inFrontOf tail := by
  unfold readTest at h
  split at h
  · next r hbracket =>
    cases h
    obtain ⟨blanks, hblanks, hskipped⟩ := @skipBlank_replace _ _ [] _ hbracket
    refine ⟨blanks, ']', [], hblanks, by decide, fun tail => ?_⟩
    unfold readTest
    rw [show blanks ++ ']' :: ([] ++ tail) = blanks ++ ([] ++ ']' :: tail) from rfl, hskipped, hbracket]
    rfl
  · next hopen =>
    split at h
    · cases h
    · next comparator v hcomparator =>
      obtain ⟨operator, hoperator, hcompared⟩ := comparator?_replace hcomparator
      obtain ⟨back, hback, hread⟩ := readComparison_replace h
      rw [hback] at hoperator
      obtain ⟨blanks, hblanks, hskipped⟩ := skipBlank_replace hoperator
      have hs : readTest name s = readComparison name comparator v := by
        unfold readTest
        split
        · next r hbracket => exact absurd hbracket (hopen r)
        · rw [hcomparator]
      refine ⟨blanks ++ operator, '=', back, by rw [hblanks, List.append_assoc], by decide,
        fun tail => ?_⟩
      rw [hs, ← hread tail]
      unfold readTest
      rw [List.append_assoc, hskipped]
      split
      · next r hbracket =>
        -- the operator does not start with the bracket, whatever follows it
        have hhead := head?_append_cons operator '=' (back ++ rest) (back ++ tail)
        rw [hbracket, ← hoperator] at hhead
        obtain ⟨r', hr'⟩ := List.head?_eq_some_iff.1 hhead
        exact absurd hr' (hopen r')
      · rw [hcompared]

/-- An attribute condition is read up to its bracket. -/
theorem readAttribute_replace (h : (readAttribute s).rest? = some rest) :
    ∃ u, s = u ++ rest ∧ ∀ tail, readAttribute (u ++ tail) = (readAttribute s).inFrontOf tail := by
  rw [readAttribute_eq] at h
  split at h
  · cases h
  · next name t hname =>
    have htest : (readTest name t).rest? = some rest := h
    have hs : readAttribute s = readTest name t := by
      rw [readAttribute_eq, hname]
      rfl
    obtain ⟨front, c, back, ht, hc, hread⟩ := readTest_replace htest
    rw [ht] at hname
    obtain ⟨raw, hraw, hnamed⟩ := ident?_replace hname
    rw [← List.append_assoc] at hraw
    obtain ⟨blanks, hblanks, hskipped⟩ := skipBlank_replace hraw
    refine ⟨blanks ++ (raw ++ front ++ c :: back), by simp [hblanks], fun tail => ?_⟩
    have htext : blanks ++ (raw ++ front ++ c :: back) ++ tail =
        blanks ++ (raw ++ front ++ c :: (back ++ tail)) := by simp
    rw [hs, ← hread tail, readAttribute_eq, htext, hskipped, List.append_assoc,
      hnamed _ (endsName_of_ident? hname hc _)]
    rfl

/-! ## Pseudo-classes -/

/-- The characters that start a condition. -/
def isMark (c : Char) : Bool := c == '#' || c == '.' || c == '[' || c == ':'

/-- A condition comes next. -/
def Marked (s : List Char) : Prop := ∃ c, s.head? = some c ∧ isMark c = true

theorem Marked.not_special (h : Marked s) {c : Char} (hc : s.head? = some c) :
    isIdentChar c = false ∧ c ≠ '\\' ∧ isBlank c = false ∧ c ≠ '(' ∧ c ≠ '$' ∧ c ≠ '*' := by
  obtain ⟨d, hd, hmark⟩ := h
  obtain rfl : d = c := Option.some.inj (hd.symm.trans hc)
  simp only [isMark, Bool.or_eq_true, beq_iff_eq, or_assoc] at hmark
  rcases hmark with rfl | rfl | rfl | rfl
  all_goals exact ⟨by decide, by decide, by decide, by decide, by decide, by decide⟩

theorem Marked.endsName (h : Marked s) : EndsName s := fun _ hc =>
  ⟨(h.not_special hc).1, (h.not_special hc).2.1⟩

theorem Marked.readGroup (h : Marked s) : readGroup s = .done none s := by
  have hskip : skipBlank s = s := skipBlank_eq_self fun c hc => (h.not_special hc).2.2.1
  unfold Reader.readGroup
  rw [hskip]
  split
  · exact absurd rfl (h.not_special rfl).2.2.2.1
  · rfl

/-- A name with its argument in parentheses, if it has one, is read in front of every other mark. -/
theorem readGroup_replace {name : Ident} {inner? : Option (List Char)} (hname : ident? s = some (name, t))
    (hgroup : readGroup t = .done inner? rest) :
    ∃ u, s = u ++ rest ∧ ∀ tail, Marked tail →
      ∃ t', ident? (u ++ tail) = some (name, t') ∧ readGroup t' = .done inner? tail := by
  unfold readGroup at hgroup
  split at hgroup
  · next v hopen =>
    split at hgroup
    · next inner rest' hinner =>
      cases hgroup
      obtain ⟨heq, hpass, hrun⟩ := group?_eq_some.1 hinner
      rw [heq, ← List.cons_append] at hopen
      obtain ⟨blanks, rfl, hskipped⟩ := skipBlank_replace hopen
      rw [← List.append_assoc] at hname
      obtain ⟨raw, hraw, hnamed⟩ := ident?_replace hname
      refine ⟨raw ++ (blanks ++ '(' :: inner) ++ [')'], by simp [hraw], fun tail _ => ?_⟩
      have hread := hnamed _ (endsName_of_ident? hname (by decide) tail)
      refine ⟨_, by simpa using hread, ?_⟩
      unfold readGroup
      have hagain : group? ('(' :: (inner ++ ')' :: tail)) = some (inner, tail) :=
        group?_eq_some.2 ⟨rfl, hpass, hrun⟩
      have hopened : skipBlank (blanks ++ '(' :: (inner ++ ')' :: tail)) = '(' :: (inner ++ ')' :: tail) :=
        hskipped tail
      simp only [hopened, hagain]
    · cases hgroup
  · cases hgroup
    obtain ⟨raw, hraw, hnamed⟩ := ident?_replace hname
    exact ⟨raw, hraw, fun tail htail => ⟨tail, hnamed tail htail.endsName, htail.readGroup⟩⟩

/-- A pseudo-class is read in front of every other mark. -/
theorem readPseudo_replace (h : readPseudo parser nested s = .done clause rest) :
    ∃ u, s = u ++ rest ∧ ∀ tail, Marked tail →
      readPseudo parser nested (u ++ tail) = .done clause tail := by
  obtain ⟨name, t, inner?, entry, argument, hname, hgroup, hentry, hargument, rfl⟩ := readPseudo_eq_done.1 h
  obtain ⟨u, hu, hread⟩ := readGroup_replace hname hgroup
  refine ⟨u, hu, fun tail htail => ?_⟩
  obtain ⟨t', hname', hgroup'⟩ := hread tail htail
  exact readPseudo_eq_done.2 ⟨name, t', inner?, entry, argument, hname', hgroup', hentry,
    readArgument_of_done hargument _, rfl⟩

/-! ## Conditions in a row -/

/-- A condition comes next exactly if its mark does. -/
theorem readClause?_isSome (parser : Parser) (nested : ListReader) (hasId : Bool) (s : List Char) :
    (readClause? parser nested hasId s).isSome = true ↔ Marked s := by
  unfold readClause?
  constructor
  · intro h
    split at h
    all_goals first | exact ⟨_, rfl, rfl⟩ | cases h
  · rintro ⟨c, hc, hmark⟩
    cases s with
    | nil => cases hc
    | cons d s =>
      obtain rfl : d = c := Option.some.inj hc
      simp only [isMark, Bool.or_eq_true, beq_iff_eq] at hmark
      rcases hmark with ((rfl | rfl) | rfl) | rfl <;> rfl

theorem marked_of_readClause? {r : Reading Clause}
    (h : readClause? parser nested hasId s = some r) : Marked s :=
  (readClause?_isSome parser nested hasId s).1 (by rw [h]; rfl)

/-- A condition that was read in front of a mark is read in front of every mark. -/
theorem readClause?_replace (h : readClause? parser nested hasId s = some (.done clause rest)) :
    ∃ u, s = u ++ rest ∧ ∀ tail, Marked tail →
      readClause? parser nested hasId (u ++ tail) = some (.done clause tail) := by
  unfold readClause? at h
  split at h
  · next v =>
    have h := Option.some.inj h
    split at h
    · cases h
    · next hid =>
      obtain ⟨name, hname, rfl⟩ := readId_eq_done h
      obtain ⟨u, rfl, hu⟩ := ident?_replace hname
      refine ⟨'#' :: u, rfl, fun tail htail => ?_⟩
      show some (if hasId = true then _ else readId (u ++ tail)) = _
      rw [if_neg hid, readId, hu tail htail.endsName]
  · next v =>
    obtain ⟨name, hname, rfl⟩ := readClass_eq_done (Option.some.inj h)
    obtain ⟨u, rfl, hu⟩ := ident?_replace hname
    refine ⟨'.' :: u, rfl, fun tail htail => ?_⟩
    show some (readClass (u ++ tail)) = _
    rw [readClass, hu tail htail.endsName]
  · next v =>
    have hread := Option.some.inj h
    obtain ⟨u, rfl, hu⟩ := readAttribute_replace (congrArg Reading.rest? hread)
    refine ⟨'[' :: u, rfl, fun tail _ => congrArg some ((hu tail).trans ?_)⟩
    rw [hread]
    rfl
  · next v =>
    obtain ⟨u, rfl, hu⟩ := readPseudo_replace (Option.some.inj h)
    exact ⟨':' :: u, rfl, fun tail htail => congrArg some (hu tail htail)⟩
  · cases h

/-- Conditions are read from one place of a text up to another. The tallies say what was counted before. -/
inductive ClausesTo (parser : Parser) (nested : ListReader) :
    Tally → List Char → List Clause → Tally → List Char → Prop
  | here (tally : Tally) (s : List Char) : ClausesTo parser nested tally s [] tally s
  | next {tally middle tally' : Tally} {s t rest : List Char} {clause : Clause} {clauses : List Clause}
      (first : readClause? parser nested tally.hasId s = some (.done clause t))
      (counted : tally.add? clause = some middle)
      (others : ClausesTo parser nested middle t clauses tally' rest) :
      ClausesTo parser nested tally s (clause :: clauses) tally' rest

variable {tally tally' : Tally}

namespace ClausesTo

variable {clauses : List Clause}

/-- What is read from the later place on is read behind the conditions in between. -/
theorem readClauses_eq (h : ClausesTo parser nested tally s clauses tally' rest) :
    readClauses parser nested tally s =
      (readClauses parser nested tally' rest).map (clauses ++ ·) := by
  induction h with
  | here tally s => cases readClauses parser nested tally s <;> rfl
  | next first counted _ ih =>
    rw [readClauses_of_readClause? first counted, ih]
    cases readClauses _ _ _ _ <;> rfl

theorem marked (h : ClausesTo parser nested tally s clauses tally' rest) (hrest : Marked rest) :
    Marked s := by
  cases h with
  | here => exact hrest
  | next first _ _ => exact marked_of_readClause? first

/-- Conditions that were read up to a mark are read up to every mark. -/
theorem replace (h : ClausesTo parser nested tally s clauses tally' rest) (hrest : Marked rest) :
    ∃ u, s = u ++ rest ∧ ∀ tail, Marked tail →
      ClausesTo parser nested tally (u ++ tail) clauses tally' tail := by
  induction h with
  | here tally s => exact ⟨[], rfl, fun tail _ => .here tally tail⟩
  | next first counted others ih =>
    obtain ⟨v, rfl, hothers⟩ := ih hrest
    obtain ⟨u, rfl, hfirst⟩ := readClause?_replace first
    refine ⟨u ++ v, (List.append_assoc _ _ _).symm, fun tail htail => ?_⟩
    rw [List.append_assoc]
    exact .next (hfirst _ ((hothers tail htail).marked htail)) counted (hothers tail htail)

end ClausesTo

/-! ## The beginning of a part -/

theorem subjectMark_of_head? (h : s.head? ≠ some '$') : subjectMark s = (false, s) := by
  unfold subjectMark
  split
  · exact absurd rfl h
  · rfl

/-- A text that does not start with an asterisk has the name that is read there, if there is one. -/
theorem readTag_of_head? (h : s.head? ≠ some '*') :
    readTag s = ((ident? s).map (·.1), ((ident? s).map (·.2)).getD s) := by
  unfold readTag
  split
  · exact absurd rfl h
  · cases ident? s <;> rfl

theorem Marked.ident? (h : Marked s) : ident? s = none := by
  cases hname : Text.ident? s with
  | none => rfl
  | some r =>
    obtain ⟨name, rest⟩ := r
    obtain ⟨hwhole, hs⟩ := Ident.isWhole_of_read hname
    obtain ⟨c, hc, hmark⟩ := h
    have hspecial := Marked.not_special ⟨c, hc, hmark⟩ hc
    rw [hs, hwhole.head?_append] at hc
    rcases hwhole.head hc with hident | hslash
    · rw [hspecial.1] at hident
      cases hident
    · exact absurd hslash hspecial.2.1

/-- The name of an element is read in front of every mark. -/
theorem readTag_replace (h : Marked (readTag s).2) :
    ∃ u, s = u ++ (readTag s).2 ∧ ∀ tail, Marked tail →
      readTag (u ++ tail) = ((readTag s).1, tail) ∧
        (s.head? ≠ some '$' → (u ++ tail).head? ≠ some '$') := by
  by_cases hstar : s.head? = some '*'
  · obtain ⟨t, rfl⟩ := List.head?_eq_some_iff.1 hstar
    exact ⟨['*'], rfl, fun tail _ => ⟨rfl, fun hne => hne⟩⟩
  · rw [readTag_of_head? hstar] at h ⊢
    cases hname : Text.ident? s with
    | none =>
      refine ⟨[], rfl, fun tail htail => ⟨?_, fun _ hdollar => ?_⟩⟩
      · rw [List.nil_append, readTag_of_head? fun hc => (htail.not_special hc).2.2.2.2.2 rfl,
          htail.ident?]
        rfl
      · exact (htail.not_special hdollar).2.2.2.2.1 rfl
    | some r =>
      obtain ⟨name, t⟩ := r
      obtain ⟨hwhole, hs⟩ := Ident.isWhole_of_read hname
      have hhead (tail : List Char) : (name.raw.toList ++ tail).head? = s.head? := by
        rw [hs, hwhole.head?_append, hwhole.head?_append]
      refine ⟨name.raw.toList, hs, fun tail htail => ⟨?_, fun hne => ?_⟩⟩
      · rw [readTag_of_head? (by rwa [hhead]), hwhole.ident?_append htail.endsName]
        rfl
      · rwa [hhead]

/-- The mark and the name in front of the conditions of a part are read in front of every mark of a
condition. -/
theorem readHead_replace (h : Marked (readTag (subjectMark s).2).2) :
    ∃ u, s = u ++ (readTag (subjectMark s).2).2 ∧ ∀ tail, Marked tail →
      (subjectMark (u ++ tail)).1 = (subjectMark s).1 ∧
        readTag (subjectMark (u ++ tail)).2 = ((readTag (subjectMark s).2).1, tail) := by
  by_cases hdollar : s.head? = some '$'
  · obtain ⟨t, rfl⟩ := List.head?_eq_some_iff.1 hdollar
    obtain ⟨u, hu, hread⟩ := readTag_replace (s := t) h
    exact ⟨'$' :: u, congrArg ('$' :: ·) hu, fun tail htail => ⟨rfl, (hread tail htail).1⟩⟩
  · rw [subjectMark_of_head? hdollar] at h ⊢
    obtain ⟨u, hu, hread⟩ := readTag_replace (s := s) h
    refine ⟨u, hu, fun tail htail => ?_⟩
    rw [subjectMark_of_head? ((hread tail htail).2 hdollar)]
    exact ⟨rfl, (hread tail htail).1⟩

variable {clauses : List Clause} {found found' : PseudoClause} {place place' : List Char} {part : Part}
  {link : Option Combinator}

/-- Reads what stands behind the conditions of a part: the containment of a subject. -/
def readBehind (parser : Parser) (nested : ListReader) (link : Option Combinator) (s : List Char)
    (clauses : List Clause) (behind : List Char) : Reading Part :=
  let tag := (readTag (subjectMark s).2).1
  if (subjectMark s).1 then
    (readContainment nested behind).andThen fun inner =>
      endPart parser.profile ⟨link, true, tag, clauses, inner⟩
  else if behind.length < s.length then endPart parser.profile ⟨link, false, tag, clauses, none⟩ behind
  else .fatal (.malformed (.atStartOf s))

theorem readPart_eq_behind (parser : Parser) (nested : ListReader) (link : Option Combinator)
    (s : List Char) :
    readPart parser nested link s =
      (readClauses parser nested (.start (readTag (subjectMark s).2).1) (readTag (subjectMark s).2).2).andThen
        (readBehind parser nested link s) :=
  rfl

/-- What stands behind the conditions depends on their number of lookups only, and not on the text of the
beginning. -/
theorem readBehind_replace {s' : List Char} {clauses' : List Clause}
    (h : readBehind parser nested link s clauses t = .done part rest)
    (hmark : (subjectMark s').1 = (subjectMark s).1)
    (htag : (readTag (subjectMark s').2).1 = (readTag (subjectMark s).2).1) (hlength : t.length < s'.length)
    (hlookups : Part.directLookups parser.profile { part with clauses := clauses' } =
      Part.directLookups parser.profile { part with clauses }) :
    part.clauses = clauses ∧
      readBehind parser nested link s' clauses' t = .done { part with clauses := clauses' } rest := by
  unfold readBehind at h ⊢
  dsimp only at h ⊢
  rw [hmark, htag]
  split at h
  · next hsubject =>
    obtain ⟨inner, u, hinner, hend⟩ := Reading.andThen_eq_done.1 h
    obtain ⟨hcount, rfl, rfl⟩ := endPart_eq_done.1 hend
    rw [if_pos hsubject, hinner]
    exact ⟨rfl, endPart_eq_done.2 ⟨hlookups ▸ hcount, rfl, rfl⟩⟩
  · next hsubject =>
    split at h
    · obtain ⟨hcount, rfl, rfl⟩ := endPart_eq_done.1 h
      rw [if_neg hsubject, if_pos hlength]
      exact ⟨rfl, endPart_eq_done.2 ⟨hlookups ▸ hcount, rfl, rfl⟩⟩
    · cases h

/-- No pseudo-class is a lookup. -/
theorem directLookups_replace (p : Profile) (part : Part) (before behind : List Clause)
    (found found' : PseudoClause) :
    Part.directLookups p { part with clauses := before ++ .pseudo found' :: behind } =
      Part.directLookups p { part with clauses := before ++ .pseudo found :: behind } := by
  have hlookup (clause : PseudoClause) : (Clause.pseudo clause).isLookup = false := rfl
  simp [Part.directLookups, Part.classes, List.filterMap_cons, hlookup, Clause.class?]

/-- A part is read with another pseudo-class in place of one of its own, if the other one is written where
the one was and the same text follows. -/
theorem readPart_replace
    (hto : ClausesTo parser nested (.start (readTag (subjectMark s).2).1) (readTag (subjectMark s).2).2
      clauses tally place)
    (hpart : readPart parser nested link s = .done part rest)
    (hclause : readClause? parser nested tally.hasId place = some (.done (.pseudo found) t))
    (hclause' : readClause? parser nested tally.hasId place' = some (.done (.pseudo found') t)) :
    ∃ front behind, s = front ++ place ∧ part.clauses = clauses ++ .pseudo found :: behind ∧
      readPart parser nested link (front ++ place') =
        .done { part with clauses := clauses ++ .pseudo found' :: behind } rest := by
  have hplace := marked_of_readClause? hclause
  have hplace' := marked_of_readClause? hclause'
  obtain ⟨head, hs, hhead⟩ := readHead_replace (hto.marked hplace)
  obtain ⟨before, hbefore, hconditions⟩ := hto.replace hplace
  have hto' := hconditions place' hplace'
  obtain ⟨hmark, htag⟩ := hhead _ (hto'.marked hplace')
  rw [readPart_eq_behind] at hpart
  obtain ⟨all, v, hall, hpart⟩ := Reading.andThen_eq_done.1 hpart
  rw [hto.readClauses_eq] at hall
  obtain ⟨later, hlater, rfl⟩ := Reading.map_eq_done.1 hall
  obtain ⟨middle, behind, hadd, hbehind, rfl⟩ := exists_readClauses_of_readClause? hlater hclause
  have hadd' : tally.add? (.pseudo found') = some middle := hadd
  have hlength : v.length < (head ++ (before ++ place')).length := by
    -- the other condition has at least one character, too
    have hleaves := leaves_readClause? hclause'
    have hleaves' := leaves_readClauses parser nested middle t
    rw [hbehind] at hleaves'
    dsimp only [Reading.Leaves] at hleaves hleaves'
    rw [List.length_append, List.length_append]
    omega
  obtain ⟨hclauses, hread⟩ := readBehind_replace hpart hmark (by rw [htag]) hlength
    (directLookups_replace parser.profile part clauses behind found found')
  refine ⟨head ++ before, behind, by rw [List.append_assoc, ← hbefore, ← hs], hclauses, ?_⟩
  rw [List.append_assoc, readPart_eq_behind, htag, hto'.readClauses_eq,
    readClauses_of_readClause? hclause' hadd', hbehind]
  exact hread

end Reader
end TreeQuery
