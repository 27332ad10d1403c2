import TreeQuery.Selector.Reader
import TreeQuery.Proofs.Text.Names

/-!
# What a reading leaves

A reader leaves an end of its text. Read outside of every bracket and quote, it also ends there unless it
leaves nothing, so the commas that stand outside in what it leaves stand outside in the whole text, and
the scan of the whole text ends as the scan of what it leaves. One statement goes with every reader, and
the statements compose as the readers do.
-/

namespace TreeQuery

namespace Text

variable {s t u rest : List Char} {c : Char}

/-- No comma stands outside every bracket and quote. -/
def Quiet (s : List Char) : Prop := Passes ',' .start s

/-- An even text stands in front of the rest. -/
def Skips (s rest : List Char) : Prop := ∃ u, s = u ++ rest ∧ Even u

/-- The rest is an end of the text: nothing, or what stands outside of every bracket and quote. -/
def Follows (s rest : List Char) : Prop :=
  ∃ u, s = u ++ rest ∧ (rest = [] ∨ Nesting.start.run u = .start)

theorem Skips.refl (s : List Char) : Skips s s := ⟨[], rfl, even_nil⟩

theorem Skips.trans (h : Skips s t) (h' : Skips t rest) : Skips s rest := by
  obtain ⟨u, rfl, hu⟩ := h
  obtain ⟨v, rfl, hv⟩ := h'
  exact ⟨u ++ v, (List.append_assoc u v rest).symm, hu.append hv⟩

theorem skips_cons (h : isPlain c = true) (s : List Char) : Skips (c :: s) s :=
  ⟨[c], rfl, .cons h even_nil⟩

theorem skips_skipBlank (s : List Char) : Skips s (skipBlank s) := by
  obtain ⟨u, hu, hblank⟩ := skipBlank_append s
  exact ⟨u, hu, even_of_isBlank hblank⟩

theorem skips_ident? {i : Ident} (h : ident? s = some (i, rest)) : Skips s rest := by
  obtain ⟨hwhole, rfl⟩ := Ident.isWhole_of_read h
  exact ⟨i.raw.toList, rfl, hwhole.even⟩

/-- What stands behind a text that ends outside follows. -/
theorem follows_of_run (h : Nesting.start.run u = .start) (rest : List Char) :
    Follows (u ++ rest) rest := ⟨u, rfl, .inr h⟩

theorem Follows.refl (s : List Char) : Follows s s := ⟨[], rfl, .inr rfl⟩

theorem Follows.trans (h : Follows s t) (h' : Follows t rest) : Follows s rest := by
  obtain ⟨u, rfl, hu⟩ := h
  obtain ⟨v, rfl, hv⟩ := h'
  refine ⟨u ++ v, (List.append_assoc u v rest).symm, ?_⟩
  rcases hv with rfl | hv
  · exact .inl rfl
  · rcases hu with hnil | hu
    · exact .inl (List.append_eq_nil_iff.1 hnil).2
    · exact .inr (by rw [Nesting.run_append, hu, hv])

theorem Follows.suffix (h : Follows s rest) : rest <:+ s := by
  obtain ⟨u, rfl, -⟩ := h
  exact List.suffix_append u rest

/-- No commas stand outside in what follows but those of the text. -/
theorem Follows.quiet (h : Follows s rest) (hs : Quiet s) : Quiet rest := by
  obtain ⟨u, rfl, rfl | hu⟩ := h
  · exact passes_nil _ _
  · have hrest := (passes_append.1 hs).2
    rwa [hu] at hrest

theorem Skips.follows (h : Skips s rest) : Follows s rest := by
  obtain ⟨u, rfl, hu⟩ := h
  exact follows_of_run (hu.run 0) rest

end Text

open Text

variable {α β : Type} {s : List Char}

namespace Reading

variable {r : Reading α} {b : β} {rest : List Char}

/-- What two readings in a row leave, each of them leaves. -/
theorem andThen_eq_done {next : α → List Char → Reading β} :
    r.andThen next = .done b rest ↔ ∃ a t, r = .done a t ∧ next a t = .done b rest := by
  constructor
  · intro h
    cases r with
    | done a t => exact ⟨a, t, rfl, h⟩
    | dead t => cases h
    | fatal cause => cases h
  · rintro ⟨a, t, rfl, h⟩
    exact h

theorem map_eq_done {f : α → β} :
    r.map f = .done b rest ↔ ∃ a, r = .done a rest ∧ f a = b := by
  rw [map, andThen_eq_done]
  constructor
  · rintro ⟨a, t, rfl, h⟩
    cases h
    exact ⟨a, rfl, rfl⟩
  · rintro ⟨a, rfl, rfl⟩
    exact ⟨a, rest, rfl, rfl⟩

end Reading

/-- The same outcome in front of another text. -/
def Reading.inFrontOf (tail : List Char) : Reading α → Reading α
  | .done value _ => .done value tail
  | .dead _ => .dead tail
  | .fatal cause => .fatal cause

/-- The reading leaves a rest that follows, also when the branch is dead. -/
def Reading.Follows (s : List Char) : Reading α → Prop
  | .done _ rest | .dead rest => Text.Follows s rest
  | .fatal _ => True

/-- The reading leaves what stands behind an even text, also when the branch is dead. -/
def Reading.Skips (s : List Char) : Reading α → Prop
  | .done _ rest | .dead rest => Text.Skips s rest
  | .fatal _ => True

theorem Reading.Skips.follows {r : Reading α} (h : r.Skips s) : r.Follows s := by
  cases r with
  | done value rest => exact Text.Skips.follows h
  | dead rest => exact Text.Skips.follows h
  | fatal cause => trivial

namespace Reading.Follows

variable {r : Reading α} {next : α → List Char → Reading β}

theorem andThen (h : r.Follows s)
    (hnext : ∀ value rest, Text.Follows s rest → (next value rest).Follows rest) :
    (r.andThen next).Follows s := by
  cases r with
  | done value rest =>
    have hrest : Text.Follows s rest := h
    have hread := hnext value rest hrest
    show (next value rest).Follows s
    cases hnextread : next value rest with
    | done value' rest' =>
      rw [hnextread] at hread
      exact hrest.trans hread
    | dead rest' =>
      rw [hnextread] at hread
      exact hrest.trans hread
    | fatal cause => trivial
  | dead rest => exact h
  | fatal cause => trivial

theorem map {f : α → β} (h : r.Follows s) : (r.map f).Follows s :=
  h.andThen fun _ rest _ => Text.Follows.refl rest

/-- A reading behind a text that is skipped. -/
theorem of_skips {t : List Char} (hskips : Text.Follows s t) (h : r.Follows t) : r.Follows s := by
  cases r with
  | done value rest => exact hskips.trans h
  | dead rest => exact hskips.trans h
  | fatal cause => trivial

end Reading.Follows

namespace Reader

variable {parser : Parser} {nested : ListReader}

/-! ## Conditions -/

theorem follows_readId (s : List Char) : (readId s).Follows s := by
  unfold readId
  split
  · next h => exact (skips_ident? h).follows
  · trivial

theorem follows_readClass (s : List Char) : (readClass s).Follows s := by
  unfold readClass
  split
  · next h => exact (skips_ident? h).follows
  · trivial

theorem skips_comparator? {rest : List Char} {comparator : Comparator}
    (h : comparator? s = some (comparator, rest)) : Skips s rest := by
  unfold comparator? at h
  split at h
  · cases h
    exact skips_cons (by decide) _
  · next c t _ =>
    obtain ⟨found, hfound, heq⟩ := Option.map_eq_some_iff.1 h
    obtain ⟨-, rfl⟩ := Prod.mk.inj heq
    have hoperator : (Comparator.ofOperator? (some c)).isSome = true := by rw [hfound]; rfl
    have hplain := isPlain_of_not_special (P := fun c => (Comparator.ofOperator? (some c)).isSome)
      (by decide) hoperator
    exact (skips_cons hplain _).trans (skips_cons (by decide) t)
  · cases h

theorem skips_operand (s : List Char) : Skips s (operand s).2 := by
  unfold operand
  split
  · next h =>
    obtain ⟨u, rfl, hu⟩ := exists_of_quoted? h
    exact ⟨u, rfl, hu⟩
  · split
    · next h => exact skips_ident? h
    · exact .refl s

theorem skips_caseFlag (s : List Char) : Skips s (caseFlag s).2 := by
  unfold caseFlag
  split
  · exact skips_cons (by decide) _
  · exact skips_cons (by decide) _
  · exact .refl s

/-- Square brackets around an even text are even. -/
theorem skips_bracket {rest : List Char} (h : Skips s (']' :: rest)) : Skips ('[' :: s) rest := by
  obtain ⟨u, rfl, hu⟩ := h
  exact ⟨'[' :: (u ++ [']']), by simp, hu.bracket⟩

theorem skips_readAttribute (s : List Char) : (readAttribute s).Skips ('[' :: s) := by
  unfold readAttribute
  split
  · trivial
  · next name s1 h1 =>
    have hname := ((skips_skipBlank s).trans (skips_ident? h1)).trans (skips_skipBlank s1)
    split
    · next rest h2 =>
      rw [h2] at hname
      exact skips_bracket hname
    · split
      · trivial
      · next comparator s3 h3 =>
        have hoperand := (hname.trans (skips_comparator? h3)).trans
          ((skips_skipBlank s3).trans (skips_operand _))
        have hflag := hoperand.trans ((skips_skipBlank _).trans (skips_caseFlag _))
        have hend := hflag.trans (skips_skipBlank _)
        dsimp only
        split
        · next rest h4 =>
          rw [h4] at hend
          split
          · exact skips_bracket hend
          · exact skips_bracket hend
        · trivial

theorem follows_readAttribute (s : List Char) : (readAttribute s).Follows ('[' :: s) :=
  (skips_readAttribute s).follows

/-- The text between the parentheses of a group does not matter to what follows it. -/
theorem follows_group? {inner rest : List Char} (h : group? s = some (inner, rest)) :
    Text.Follows s rest := by
  obtain ⟨rfl, -, hrun⟩ := group?_eq_some.1 h
  have hfollows := follows_of_run (run_group hrun) rest
  simpa using hfollows

theorem follows_readGroup (s : List Char) : (readGroup s).Follows s := by
  unfold readGroup
  split
  · next t ht =>
    split
    · next inner rest h =>
      rw [← ht] at h
      exact (skips_skipBlank s).follows.trans (follows_group? h)
    · trivial
  · exact Text.Follows.refl s

/-- An argument reads alike in front of any text. -/
theorem readArgument_inFrontOf (nested : ListReader) (entry : Entry) (inner? : Option (List Char))
    (rest tail : List Char) :
    readArgument nested entry inner? tail = (readArgument nested entry inner? rest).inFrontOf tail := by
  have hformula : ∀ (s : List Char) (f : Formula → Argument),
      (readFormula s tail).map f = ((readFormula s rest).map f).inFrontOf tail := by
    intro s f
    unfold readFormula
    split
    · rfl
    · split <;> rfl
  have hargument : ∀ read read' : List Char → Reading Argument, (∀ s, read' s = (read s).inFrontOf tail) →
      withArgument entry.pseudo inner? read' = (withArgument entry.pseudo inner? read).inFrontOf tail := by
    intro read read' hread
    unfold withArgument
    split
    · rfl
    · exact hread _
  have hwithout : ∀ argument, withoutArgument entry.pseudo inner? argument tail =
      (withoutArgument entry.pseudo inner? argument rest).inFrontOf tail := by
    intro argument
    unfold withoutArgument
    split <;> rfl
  unfold readArgument
  split
  · exact hwithout _
  · exact hwithout _
  · exact hargument _ _ fun s => rfl
  · exact hargument _ _ fun s => hformula s _
  · exact hargument _ _ fun s => hformula s _
  · unfold readLinkDepth
    split
    · rfl
    · split <;> rfl
  · refine hargument _ _ fun s => ?_
    unfold readNested
    split <;> rfl

/-- Reading an argument leaves the text behind it as it is. -/
theorem follows_readArgument (entry : Entry) (inner? : Option (List Char)) (rest : List Char) :
    (readArgument nested entry inner? rest).Follows rest := by
  rw [readArgument_inFrontOf nested entry inner? [] rest]
  cases readArgument nested entry inner? [] with
  | done argument _ => exact Text.Follows.refl rest
  | dead _ => exact Text.Follows.refl rest
  | fatal cause => trivial

theorem follows_readPseudo (s : List Char) : (readPseudo parser nested s).Follows s := by
  unfold readPseudo
  split
  · trivial
  · next name t h =>
    refine .of_skips (skips_ident? h).follows ((follows_readGroup t).andThen fun inner? rest _ => ?_)
    split
    · trivial
    · exact (follows_readArgument _ inner? rest).map

/-- A pseudo-class is read if its name, the text of its argument and the argument are. -/
theorem readPseudo_eq_done {s rest : List Char} {clause : Clause} :
    readPseudo parser nested s = .done clause rest ↔ ∃ name t inner? entry argument,
      ident? s = some (name, t) ∧ readGroup t = .done inner? rest ∧ parser.registry.lookup name.value = some entry ∧
        readArgument nested entry inner? rest = .done argument rest ∧
          clause = .pseudo ⟨entry.pseudo, entry.hasGetter, writtenArgument inner?, argument⟩ := by
  unfold readPseudo
  constructor
  · intro h
    split at h
    · cases h
    · next name t hname =>
      obtain ⟨inner?, u, hgroup, h⟩ := Reading.andThen_eq_done.1 h
      split at h
      · cases h
      · next entry hentry =>
        obtain ⟨argument, hargument, rfl⟩ := Reading.map_eq_done.1 h
        have hrest := readArgument_inFrontOf nested entry inner? u u
        rw [hargument] at hrest
        obtain rfl : rest = u := (Reading.done.inj hrest).2
        exact ⟨name, t, inner?, entry, argument, hname, hgroup, hentry, hargument, rfl⟩
  · rintro ⟨name, t, inner?, entry, argument, hname, hgroup, hentry, hargument, rfl⟩
    rw [hname]
    dsimp only
    rw [hgroup]
    dsimp only [Reading.andThen]
    rw [hentry]
    dsimp only
    rw [hargument]
    rfl

theorem follows_readClause? {hasId : Bool} {r : Reading Clause}
    (h : readClause? parser nested hasId s = some r) : r.Follows s := by
  have hskip : ∀ c t, isPlain c = true → Text.Follows (c :: t) t :=
    fun c t hplain => (skips_cons hplain t).follows
  unfold readClause? at h
  split at h
  · cases h
    split
    · exact Text.Follows.refl _
    · exact .of_skips (hskip _ _ (by decide)) (follows_readId _)
  · cases h
    exact .of_skips (hskip _ _ (by decide)) (follows_readClass _)
  · cases h
    exact follows_readAttribute _
  · cases h
    exact .of_skips (hskip _ _ (by decide)) (follows_readPseudo _)
  · cases h

theorem follows_readClauses (parser : Parser) (nested : ListReader) (tally : Tally) (s : List Char) :
    (readClauses parser nested tally s).Follows s := by
  fun_induction readClauses parser nested tally s with
  | case1 => exact Text.Follows.refl _
  | case2 tally s rest h => exact follows_readClause? h
  | case3 => trivial
  | case4 => trivial
  | case5 tally s clause rest h _ _ _ ih =>
    exact .of_skips (follows_readClause? h) ih.map

/-! ## Parts -/

theorem skips_subjectMark (s : List Char) : Skips s (subjectMark s).2 := by
  unfold subjectMark
  split
  · exact skips_cons (by decide) _
  · exact .refl s

theorem skips_readTag (s : List Char) : Skips s (readTag s).2 := by
  unfold readTag
  split
  · exact skips_cons (by decide) _
  · split
    · next h => exact skips_ident? h
    · exact .refl s

/-- Behind the conditions of a subject stands less than the whole part, which has its mark. -/
theorem length_containment_lt {tally : Tally} {clauses : List Clause} (hsubject : (subjectMark s).1 = true)
    (h : readClauses parser nested tally (readTag (subjectMark s).2).2 = .done clauses rest) :
    rest.length < s.length := by
  have hmark := length_subjectMark_lt hsubject
  have htag := length_readTag_le (subjectMark s).2
  have hleaves := leaves_readClauses parser nested tally (readTag (subjectMark s).2).2
  rw [h] at hleaves
  dsimp only [Reading.Leaves] at hleaves
  omega

/-- A containment goes on to the next comma outside, or to the end. -/
theorem follows_branchSpan (s : List Char) : Text.Follows s (branchSpan s).2 := by
  refine ⟨(branchSpan s).1, (branchSpan_append s).symm, ?_⟩
  unfold branchSpan
  cases hscan : scan? ',' .start s with
  | none => exact .inl rfl
  | some r =>
    obtain ⟨tail, -, -, -, hout⟩ := scan?_eq_some.1 hscan
    exact .inr (Nesting.isOutside_iff.1 hout)

theorem follows_readContainment (s : List Char) : (readContainment nested s).Follows s := by
  unfold readContainment
  dsimp only
  split
  · exact follows_branchSpan s
  · split
    · trivial
    · exact follows_branchSpan s
    · exact follows_branchSpan s

/-- A containment goes on where the scan for commas stops. -/
theorem readContainment_eq_done {s rest : List Char} {inner : Option Selector}
    (h : readContainment nested s = .done inner rest) : rest = (branchSpan s).2 := by
  unfold readContainment at h
  dsimp only at h
  split at h
  · cases h
    rfl
  · split at h
    · cases h
    · cases h
    · cases h
      rfl

/-- Only a blank text is no containment. -/
theorem readContainment_eq_none {s rest : List Char} (h : readContainment nested s = .done none rest) :
    trim (branchSpan s).1 = [] := by
  unfold readContainment at h
  dsimp only at h
  split at h
  · next hblank => exact List.isEmpty_iff.1 hblank
  · split at h <;> cases h

/-- A containment is the first selector of its list. -/
theorem readContainment_eq_some {s rest : List Char} {inner : Selector}
    (h : readContainment nested s = .done (some inner) rest) :
    trim (branchSpan s).1 ≠ [] ∧ ∃ others, nested (branchSpan s).1 = .ok (inner :: others) := by
  unfold readContainment at h
  dsimp only at h
  split at h
  · cases h
  · next hblank =>
    split at h
    · cases h
    · cases h
    · next others hread =>
      cases h
      exact ⟨fun hnil => hblank (List.isEmpty_iff.2 hnil), others, hread⟩

theorem endPart_eq_done {p : Profile} {part part' : Part} {s rest : List Char} :
    endPart p part s = .done part' rest ↔ part.directLookups p < UInt8.size ∧ part = part' ∧ s = rest := by
  unfold endPart
  split
  · next hlt => simp [hlt]
  · next hlt => simp [hlt]

theorem follows_endPart (p : Profile) (part : Part) (s : List Char) : (endPart p part s).Follows s := by
  unfold endPart
  split
  · exact Text.Follows.refl s
  · trivial

theorem follows_readPart (combinator : Option Combinator) (s : List Char) :
    (readPart parser nested combinator s).Follows s := by
  unfold readPart
  dsimp only
  refine .of_skips ((skips_subjectMark s).trans (skips_readTag _)).follows
    ((follows_readClauses parser nested _ _).andThen fun clauses rest _ => ?_)
  split
  · exact (follows_readContainment rest).andThen fun inner rest _ => follows_endPart _ _ rest
  · split
    · exact follows_endPart _ _ rest
    · trivial

/-- What a part is read from: its mark, its name, its conditions and, if it is a subject, its containment. -/
theorem readPart_eq_done {s rest : List Char} {link : Option Combinator} {part : Part}
    (h : readPart parser nested link s = .done part rest) :
    part.combinator = link ∧ part.subject = (subjectMark s).1 ∧ part.tag = (readTag (subjectMark s).2).1 ∧
      ∃ t, readClauses parser nested (.start part.tag) (readTag (subjectMark s).2).2 =
          .done part.clauses t ∧
        (part.subject = true ∧ readContainment nested t = .done part.containment rest ∨
          part.subject = false ∧ part.containment = none ∧ t = rest ∧ rest.length < s.length) := by
  obtain ⟨clauses, t, hclauses, h⟩ := Reading.andThen_eq_done.1 h
  split at h
  · next hsubject =>
    obtain ⟨inner, u, hinner, h⟩ := Reading.andThen_eq_done.1 h
    obtain ⟨-, rfl, rfl⟩ := endPart_eq_done.1 h
    exact ⟨rfl, hsubject.symm, rfl, t, hclauses, .inl ⟨rfl, hinner⟩⟩
  · next hsubject =>
    split at h
    · next hlt =>
      obtain ⟨-, rfl, rfl⟩ := endPart_eq_done.1 h
      exact ⟨rfl, (Bool.eq_false_iff.2 hsubject).symm, rfl, _, hclauses, .inr ⟨rfl, rfl, rfl, hlt⟩⟩
    · cases h

/-- The lookups of a part were counted. -/
theorem directLookups_of_readPart {s rest : List Char} {link : Option Combinator} {part : Part}
    (h : readPart parser nested link s = .done part rest) :
    part.directLookups parser.profile < UInt8.size := by
  obtain ⟨clauses, t, -, h⟩ := Reading.andThen_eq_done.1 h
  split at h
  · obtain ⟨inner, u, -, h⟩ := Reading.andThen_eq_done.1 h
    obtain ⟨hlt, rfl, -⟩ := endPart_eq_done.1 h
    exact hlt
  · split at h
    · obtain ⟨hlt, rfl, -⟩ := endPart_eq_done.1 h
      exact hlt
    · cases h

theorem skips_readCombinator (first spaced : Bool) (s : List Char) :
    (readCombinator first spaced s).Skips s := by
  unfold readCombinator
  split
  · next combinator h =>
    obtain ⟨c, hc, hcombinator⟩ := Option.bind_eq_some_iff.1 h
    obtain ⟨t, rfl⟩ := List.head?_eq_some_iff.1 hc
    have hsome : (Combinator.ofChar? c).isSome = true := by rw [hcombinator]; rfl
    have hplain := isPlain_of_not_special (P := fun c => (Combinator.ofChar? c).isSome) (by decide) hsome
    dsimp only
    split
    · trivial
    · exact (skips_cons hplain t).trans (skips_skipBlank t)
  · split
    · exact Text.Skips.refl s
    · split
      · exact Text.Skips.refl s
      · trivial

theorem follows_readCombinator (first spaced : Bool) (s : List Char) :
    (readCombinator first spaced s).Follows s := (skips_readCombinator first spaced s).follows

theorem follows_readLinkedPart (parser : Parser) (nested : ListReader) (first spaced : Bool) (s : List Char) :
    (readLinkedPart parser nested first spaced s).Follows s :=
  (follows_readCombinator first spaced s).andThen fun combinator rest _ =>
    follows_readPart combinator rest

/-! ## Branches -/

theorem follows_readParts (parser : Parser) (nested : ListReader) (first : Bool) (s : List Char) :
    (readParts parser nested first s).Follows s := by
  fun_induction readParts parser nested first s with
  | case1 first s _ => exact (skips_skipBlank s).follows
  | case2 first s _ rest h =>
    have hread := follows_readLinkedPart parser nested first
      ((skipBlank s).length < s.length) (skipBlank s)
    rw [h] at hread
    exact (skips_skipBlank s).follows.trans hread
  | case3 => trivial
  | case4 first s _ part rest h _ ih =>
    have hread := follows_readLinkedPart parser nested first
      ((skipBlank s).length < s.length) (skipBlank s)
    rw [h] at hread
    exact .of_skips ((skips_skipBlank s).follows.trans hread) ih.map

end Reader
end TreeQuery
