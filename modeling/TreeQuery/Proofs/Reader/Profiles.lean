import TreeQuery.Proofs.Reader.Induction

/-!
# Reading under two profiles

A profile has a say in one place of reading: at the end of a part it decides whether the classes count as one
lookup more. So under a profile that counts them everything is read as under one that does not, unless it
overflows (`Selector.read_profile`), and what counts the classes alike reads alike
(`Selector.read_eq_of_classLookup`).
-/

namespace TreeQuery

/-- The reading is the other one, or it overflows. -/
def Reading.EqOrOverflow {α : Type} (r other : Reading α) : Prop := r = other ∨ r = .fatal .overflow

namespace Reading.EqOrOverflow

variable {α β : Type} {r other : Reading α}

theorem refl (r : Reading α) : r.EqOrOverflow r := .inl rfl

/-- Going on after an overflow is an overflow. -/
theorem andThen {f g : α → List Char → Reading β} (h : r.EqOrOverflow other)
    (hnext : ∀ value rest, other = .done value rest → (f value rest).EqOrOverflow (g value rest)) :
    (r.andThen f).EqOrOverflow (other.andThen g) := by
  rcases h with rfl | rfl
  · cases r with
    | done value rest => exact hnext value rest rfl
    | dead rest => exact refl _
    | fatal error => exact refl _
  · exact .inr rfl

theorem map {f : α → β} (h : r.EqOrOverflow other) : (r.map f).EqOrOverflow (other.map f) :=
  h.andThen fun _ _ _ => refl _

end Reading.EqOrOverflow

/-- What the profile counts of a part is counted by another one that counts classes if the first one does. -/
theorem Part.directLookups_mono {p q : Profile} (h : p.classLookup = true → q.classLookup = true)
    (part : Part) : part.directLookups p ≤ part.directLookups q := by
  refine Nat.add_le_add_left ?_ _
  cases hp : p.classLookup with
  | false =>
    rw [Bool.and_false]
    exact Nat.zero_le _
  | true => rw [h hp]

namespace Reader

open Text

/-- Each list that the first reader returns is what the second one returns, or it overflows. -/
def EqOrOverflow (first second : ListReader) : Prop :=
  ∀ s, first s = second s ∨ first s = .error .overflow

variable (registry : Registry) {p q : Profile} {first second : ListReader}

theorem readNested_eqOrOverflow (h : EqOrOverflow first second) (s rest : List Char) :
    (readNested first s rest).EqOrOverflow (readNested second s rest) := by
  unfold readNested
  rcases h s with heq | heq
  · rw [heq]
    exact .refl _
  · rw [heq]
    exact .inr rfl

theorem readArgument_eqOrOverflow (h : EqOrOverflow first second) (entry : Entry)
    (inner? : Option (List Char)) (rest : List Char) :
    (readArgument first entry inner? rest).EqOrOverflow (readArgument second entry inner? rest) := by
  unfold readArgument
  split <;> try exact .refl _
  unfold withArgument
  split
  · exact .refl _
  · exact readNested_eqOrOverflow h _ rest

theorem readPseudo_eqOrOverflow (h : EqOrOverflow first second) (s : List Char) :
    (readPseudo ⟨registry, q⟩ first s).EqOrOverflow (readPseudo ⟨registry, p⟩ second s) := by
  unfold readPseudo
  split
  · exact .refl _
  · refine Reading.EqOrOverflow.andThen (.refl _) fun inner? rest _ => ?_
    dsimp only
    split
    · exact .refl _
    · exact (readArgument_eqOrOverflow h _ inner? rest).map

/-- Conditions come next at the same places. -/
theorem readClause?_eqOrOverflow (h : EqOrOverflow first second) (hasId : Bool) (s : List Char) :
    readClause? ⟨registry, q⟩ first hasId s = readClause? ⟨registry, p⟩ second hasId s ∨
      (∃ r, readClause? ⟨registry, p⟩ second hasId s = some r) ∧
        readClause? ⟨registry, q⟩ first hasId s = some (.fatal .overflow) := by
  unfold readClause?
  split <;> try exact .inl rfl
  next t =>
    rcases readPseudo_eqOrOverflow registry (p := p) (q := q) h t with heq | heq
    · exact .inl (congrArg some heq)
    · exact .inr ⟨⟨_, rfl⟩, congrArg some heq⟩

theorem readClauses_eqOrOverflow (h : EqOrOverflow first second) (tally : Tally) (s : List Char) :
    (readClauses ⟨registry, q⟩ first tally s).EqOrOverflow (readClauses ⟨registry, p⟩ second tally s) := by
  induction hlength : s.length using Nat.strongRecOn generalizing s tally with
  | ind length ih =>
    rw [readClauses_eq, readClauses_eq]
    rcases readClause?_eqOrOverflow registry (p := p) (q := q) h tally.hasId s with
      heq | ⟨⟨r, hr⟩, hoverflow⟩
    · rw [heq]
      cases hclause : readClause? ⟨registry, p⟩ second tally.hasId s with
      | none => exact .refl _
      | some r =>
        refine Reading.EqOrOverflow.andThen (.refl r) fun clause rest hdone => ?_
        subst hdone
        have hlt : rest.length < s.length := leaves_readClause? hclause
        split
        · exact .refl _
        · exact (ih rest.length (by omega) _ rest rfl).map
    · rw [hr, hoverflow]
      exact .inr rfl

theorem readContainment_eqOrOverflow (h : EqOrOverflow first second) (s : List Char) :
    (readContainment first s).EqOrOverflow (readContainment second s) := by
  unfold readContainment
  dsimp only
  split
  · exact .refl _
  · rcases h (branchSpan s).1 with heq | heq
    · rw [heq]
      exact .refl _
    · rw [heq]
      exact .inr rfl

/-- The end of a part is where the profiles differ. -/
theorem endPart_eqOrOverflow (hcounts : p.classLookup = true → q.classLookup = true) (part : Part)
    (rest : List Char) : (endPart q part rest).EqOrOverflow (endPart p part rest) := by
  unfold endPart
  by_cases hlt : part.directLookups q < UInt8.size
  · rw [if_pos hlt, if_pos (Nat.lt_of_le_of_lt (part.directLookups_mono hcounts) hlt)]
    exact .refl _
  · rw [if_neg hlt]
    exact .inr rfl

theorem readPart_eqOrOverflow (hcounts : p.classLookup = true → q.classLookup = true)
    (h : EqOrOverflow first second) (link : Option Combinator) (s : List Char) :
    (readPart ⟨registry, q⟩ first link s).EqOrOverflow (readPart ⟨registry, p⟩ second link s) := by
  refine (readClauses_eqOrOverflow registry h _ _).andThen fun clauses rest _ => ?_
  split
  · exact (readContainment_eqOrOverflow h rest).andThen fun _ rest _ => endPart_eqOrOverflow hcounts _ rest
  · split
    · exact endPart_eqOrOverflow hcounts _ rest
    · exact .refl _

theorem readLinkedPart_eqOrOverflow (hcounts : p.classLookup = true → q.classLookup = true)
    (h : EqOrOverflow first second) (leading spaced : Bool) (s : List Char) :
    (readLinkedPart ⟨registry, q⟩ first leading spaced s).EqOrOverflow
      (readLinkedPart ⟨registry, p⟩ second leading spaced s) :=
  Reading.EqOrOverflow.andThen (.refl _) fun link rest _ => readPart_eqOrOverflow registry hcounts h link rest

theorem readParts_eqOrOverflow (hcounts : p.classLookup = true → q.classLookup = true)
    (h : EqOrOverflow first second) (leading : Bool) (s : List Char) :
    (readParts ⟨registry, q⟩ first leading s).EqOrOverflow (readParts ⟨registry, p⟩ second leading s) := by
  induction hlength : s.length using Nat.strongRecOn generalizing s leading with
  | ind length ih =>
    rw [readParts_eq, readParts_eq]
    split
    · exact .refl _
    · refine (readLinkedPart_eqOrOverflow registry hcounts h leading _ _).andThen fun part rest hpart => ?_
      have hleaves := leaves_readLinkedPart ⟨registry, p⟩ second leading ((skipBlank s).length < s.length)
        (skipBlank s)
      rw [hpart] at hleaves
      have hlt : rest.length < (skipBlank s).length := hleaves
      have hle := length_skipBlank_le s
      exact (ih rest.length (by omega) false rest rfl).map

theorem readBranch_eqOrOverflow (hcounts : p.classLookup = true → q.classLookup = true)
    (h : EqOrOverflow first second) (s : List Char) :
    readBranch ⟨registry, q⟩ first s = readBranch ⟨registry, p⟩ second s ∨
      readBranch ⟨registry, q⟩ first s = .error .overflow := by
  unfold readBranch
  split
  · exact .inl rfl
  · rcases readParts_eqOrOverflow registry hcounts h true (skipBlank s) with heq | heq
    · rw [heq]
      exact .inl rfl
    · rw [heq]
      exact .inr rfl

theorem readBranches_eqOrOverflow (hcounts : p.classLookup = true → q.classLookup = true)
    (h : EqOrOverflow first second) :
    EqOrOverflow (readBranches ⟨registry, q⟩ first) (readBranches ⟨registry, p⟩ second) := by
  intro s
  induction hlength : s.length using Nat.strongRecOn generalizing s with
  | ind length ih =>
    rw [readBranches_eq, readBranches_eq]
    rcases readBranch_eqOrOverflow registry hcounts h s with heq | heq
    · rw [heq]
      split
      · exact .inl rfl
      · next selector? rest hbranch =>
        have hrest := length_readBranch_le hbranch
        have hskip := length_skipBlank_le rest
        split
        · exact .inl rfl
        · next c more hmore =>
          rw [hmore, List.length_cons] at hskip
          split
          · rcases ih more.length (by omega) more rfl with hothers | hothers
            · rw [hothers]
              exact .inl rfl
            · rw [hothers]
              exact .inr rfl
          · exact .inl rfl
    · rw [heq]
      exact .inr rfl

theorem readAt_eqOrOverflow (hcounts : p.classLookup = true → q.classLookup = true) (levels : Nat) :
    EqOrOverflow (readAt ⟨registry, q⟩ levels) (readAt ⟨registry, p⟩ levels) := by
  induction levels with
  | zero => exact fun _ => .inl rfl
  | succ levels ih =>
    intro s
    rw [readAt, readAt, readList, readList]
    split
    · exact .inl rfl
    · exact readBranches_eqOrOverflow registry hcounts ih _

end Reader

namespace Selector

variable (registry : Registry) {p q : Profile}

/-- Under a profile that counts classes, if another one does, a text is read as under the other one, unless it
overflows. -/
theorem read_profile (hcounts : p.classLookup = true → q.classLookup = true) (text : String) :
    Selector.read ⟨registry, q⟩ text = Selector.read ⟨registry, p⟩ text ∨
      Selector.read ⟨registry, q⟩ text = .error .overflow := by
  have hread := Reader.readAt_eqOrOverflow registry hcounts
    (Reader.openers text.toList + 1) text.toList
  unfold Selector.read
  rcases hread with heq | heq
  · rw [heq]
    exact .inl rfl
  · rw [heq]
    exact .inr rfl

/-- Profiles that count classes alike read alike. -/
theorem read_eq_of_classLookup (h : p.classLookup = q.classLookup) (text : String) :
    Selector.read ⟨registry, p⟩ text = Selector.read ⟨registry, q⟩ text := by
  rcases read_profile registry (fun hq => h.trans hq) text with heq | hoverflow
  · exact heq
  · rcases read_profile registry (fun hp => h.symm.trans hp) text with heq | hoverflow'
    · exact heq.symm
    · rw [hoverflow, hoverflow']

/-- Any two profiles read alike, unless only one of them counts classes and the text overflows under that one. -/
theorem read_eq_or_overflow (p q : Profile) (text : String) :
    Selector.read ⟨registry, p⟩ text = Selector.read ⟨registry, q⟩ text ∨
      (p.classLookup = true ∧ q.classLookup = false ∧
        Selector.read ⟨registry, p⟩ text = .error .overflow) ∨
      (p.classLookup = false ∧ q.classLookup = true ∧
        Selector.read ⟨registry, q⟩ text = .error .overflow) := by
  cases hp : p.classLookup with
  | false =>
    cases hq : q.classLookup with
    | false => exact .inl (read_eq_of_classLookup registry (hp.trans hq.symm) text)
    | true =>
      have hcounts : p.classLookup = true → q.classLookup = true := fun _ => hq
      exact (read_profile registry hcounts text).imp Eq.symm fun hover => .inr ⟨rfl, rfl, hover⟩
  | true =>
    cases hq : q.classLookup with
    | false =>
      have hcounts : q.classLookup = true → p.classLookup = true := fun _ => hp
      exact (read_profile registry hcounts text).imp id fun hover => .inl ⟨rfl, rfl, hover⟩
    | true => exact .inl (read_eq_of_classLookup registry (hp.trans hq.symm) text)

/-- In a list that is read the lookups of each part were counted. -/
theorem directLookups_of_read {parser : Parser} {text : String} {list : List Selector}
    (h : Selector.read parser text = .ok list) :
    ∀ selector ∈ list, ∀ part ∈ selector.parts, part.directLookups parser.profile < UInt8.size := by
  have hread := read_eq_ok.1 h
  rw [Reader.readLists_eq, Reader.readList] at hread
  split at hread
  · cases hread
    exact fun _ hmem => absurd hmem List.not_mem_nil
  · exact Reader.directLookups_readBranches hread

variable {registry} in
/-- A text that is read overflows under a profile that counts more, if that profile counts 256 lookups in some
part of what is read. -/
theorem read_eq_overflow (hcounts : p.classLookup = true → q.classLookup = true) {text : String}
    {list : List Selector} (hread : Selector.read ⟨registry, p⟩ text = .ok list) {selector : Selector}
    (hmem : selector ∈ list) {part : Part} (hpart : part ∈ selector.parts)
    (hmany : UInt8.size ≤ part.directLookups q) :
    Selector.read ⟨registry, q⟩ text = .error .overflow := by
  refine (read_profile registry hcounts text).resolve_left fun heq => ?_
  exact absurd (directLookups_of_read (heq.trans hread) selector hmem part hpart) (Nat.not_lt_of_le hmany)

end Selector

/-! ## Many conditions -/

/-- The condition `[name=x]`. -/
def Clause.nameTest : Clause := .attribute ⟨"name"⟩ .equals "x" false

/-- The text of that many conditions `[name=x]`. -/
def nameTestsText (n : Nat) : List Char := (List.replicate n "[name=x]".toList).flatten

namespace Reader

open Text

theorem getLast?_nameTestsText (n : Nat) : (nameTestsText (n + 1)).getLast? = some ']' := by
  rw [nameTestsText, List.replicate_succ', List.flatten_concat, List.getLast?_append]
  rfl

/-- The condition is read in front of every text. -/
theorem readClause?_nameTest (parser : Parser) (nested : ListReader) (hasId : Bool) (rest : List Char) :
    readClause? parser nested hasId ("[name=x]".toList ++ rest) = some (.done .nameTest rest) := by
  have hread : readAttribute ("name=x]".toList ++ rest) = .done .nameTest rest := by
    with_unfolding_all rfl
  show some (readAttribute ("name=x]".toList ++ rest)) = _
  rw [hread]

/-- As many of them as can be counted are read. -/
theorem readClauses_nameTests (parser : Parser) (nested : ListReader) {tally : Tally} {n : Nat}
    (h : tally.lookups + n < UInt8.size) :
    readClauses parser nested tally (nameTestsText n) = .done (List.replicate n .nameTest) [] := by
  induction n generalizing tally with
  | zero =>
    rw [readClauses_eq]
    rfl
  | succ n ih =>
    have hone : Clause.nameTest.isLookup.toNat = 1 := by decide
    have hfirst : tally.lookups + Clause.nameTest.isLookup.toNat < UInt8.size := by omega
    have hrest : tally.lookups + Clause.nameTest.isLookup.toNat + n < UInt8.size := by omega
    have hadd := Tally.add?_eq_some.2 ⟨hfirst, rfl⟩
    have hclause := readClause?_nameTest parser nested tally.hasId (nameTestsText n)
    rw [nameTestsText, List.replicate_succ, List.flatten_cons]
    exact (readClauses_of_readClause? hclause hadd).trans (by rw [ih hrest]; rfl)

end Reader

/-- The text of the class `c` and that many conditions `[name=x]`. -/
def classAndNameTestsText (n : Nat) : String := String.ofList (".c".toList ++ nameTestsText n)

/-- The selector with the class and these conditions. -/
def Selector.classAndNameTests (n : Nat) : Selector :=
  ⟨[⟨none, false, none, .hasClass ⟨"c"⟩ :: List.replicate n .nameTest, none⟩]⟩

/-- Whether the class counts is up to the profile. -/
theorem Part.directLookups_classAndNameTests (p : Profile) (n : Nat) :
    Part.directLookups p ⟨none, false, none, .hasClass ⟨"c"⟩ :: List.replicate n .nameTest, none⟩ =
      n + p.classLookup.toNat := by
  have hcount : (Clause.hasClass ⟨"c"⟩ :: List.replicate n Clause.nameTest).countP Clause.isLookup = n := by
    have hclass : (Clause.hasClass ⟨"c"⟩).isLookup = false := by decide
    have htest : Clause.nameTest.isLookup = true := by decide
    rw [List.countP_cons_of_neg (by rw [hclass]; exact Bool.false_ne_true), List.countP_replicate, if_pos htest]
  have hclasses : Part.classes
      ⟨none, false, none, .hasClass ⟨"c"⟩ :: List.replicate n .nameTest, none⟩ = [⟨"c"⟩] := by
    have hnone : (List.replicate n Clause.nameTest).filterMap Clause.class? = [] :=
      List.filterMap_replicate_of_none rfl
    exact congrArg (Ident.mk "c" :: ·) hnone
  unfold Part.directLookups
  rw [hcount, hclasses]
  exact congrArg (· + _) (Nat.zero_add n)

open Reader in
/-- The text is read if the conditions can be counted, with the class if that counts. -/
theorem Selector.read_classAndNameTests {parser : Parser} {n : Nat}
    (h : n + 1 + parser.profile.classLookup.toNat < UInt8.size) :
    Selector.read parser (classAndNameTestsText (n + 1)) = .ok [classAndNameTests (n + 1)] := by
  have hname : ∀ rest, readClause? parser (readLists parser) false (".c[".toList ++ rest) =
      some (.done (.hasClass ⟨"c"⟩) ('[' :: rest)) := by
    with_unfolding_all exact fun _ => rfl
  have htrim : Text.IsTrimmed (".c".toList ++ nameTestsText (n + 1)) := by
    refine ⟨fun c hc => ?_, fun c hc => ?_⟩
    · obtain rfl := Option.some.inj hc
      decide
    · rw [List.getLast?_append, getLast?_nameTestsText] at hc
      obtain rfl := Option.some.inj hc
      decide
  have hfirst : (Tally.start none).add? (.hasClass ⟨"c"⟩) = some (.start none) := by decide
  have hread : readClauses parser (readLists parser) (.start none) (".c".toList ++ nameTestsText (n + 1)) =
      .done (.hasClass ⟨"c"⟩ :: List.replicate (n + 1) .nameTest) [] := by
    have hlt : (Tally.start none).lookups + (n + 1) < UInt8.size := by
      show 0 + (n + 1) < UInt8.size
      omega
    have htests := readClauses_nameTests parser (readLists parser) hlt
    exact (readClauses_of_readClause? (hname _) hfirst).trans (congrArg (Reading.map _) htests)
  rw [read_eq_ok, classAndNameTestsText, String.toList_ofList]
  refine readLists_of_readClauses (.inr (.inl rfl)) htrim.trim_eq hread ?_
  rw [Part.directLookups_classAndNameTests]
  exact h

end TreeQuery
