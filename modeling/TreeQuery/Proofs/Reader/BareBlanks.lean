import TreeQuery.Proofs.Reader.Induction
import TreeQuery.Proofs.Reader.Legible

/-!
# Texts with plain blanks

A name may hold a blank that is escaped or that is no ASCII character, and an argument whose last blank is
escaped loses that blank and keeps the backslash. Neither happens in a text in which every blank is a bare
one: an ASCII character that no backslash escapes. So no name that is read from such a text has a blank,
and no argument ends in a backslash (`Selector.Bare`).
-/

namespace TreeQuery

open Text

/-! ## Bare blanks -/

namespace Text

variable {s t u v rest : List Char} {c : Char}

/-- Every blank of the text is an ASCII character that no backslash escapes. -/
def BareBlanks (s : List Char) : Prop :=
  ∀ u c v, s = u ++ c :: v → isBlank c = true → c.toNat < 0x80 ∧ EndsUnescaped u

/-- Blanks are bare if they are bare at every position. -/
theorem bareBlanks_iff : BareBlanks s ↔
    ∀ i : Fin s.length, isBlank s[i] = true → s[i].toNat < 0x80 ∧ EndsUnescaped (s.take i) := by
  constructor
  · intro h i hblank
    refine h (s.take i) s[i] (s.drop (i + 1)) ?_ hblank
    exact (List.take_append_drop i s).symm.trans (congrArg _ (List.drop_eq_getElem_cons i.isLt))
  · rintro h u c v rfl hblank
    have hlt : u.length < (u ++ c :: v).length := by simp
    simpa [hblank] using h ⟨u.length, hlt⟩

instance (s : List Char) : Decidable (BareBlanks s) := decidable_of_iff _ bareBlanks_iff.symm

theorem BareBlanks.left (h : BareBlanks (u ++ v)) : BareBlanks u := by
  rintro a c b rfl hblank
  exact h a c (b ++ v) (by simp) hblank

theorem BareBlanks.right (h : BareBlanks (u ++ v)) (hu : EndsUnescaped u) : BareBlanks v := by
  rintro a c b rfl hblank
  obtain ⟨hascii, hends⟩ := h (u ++ a) c b (List.append_assoc _ _ _).symm hblank
  exact ⟨hascii, (endsUnescaped_append hu).1 hends⟩

theorem Follows.bareBlanks (h : Follows s rest) (hs : BareBlanks s) : BareBlanks rest := by
  obtain ⟨u, rfl, rfl | hu⟩ := h
  · intro a c b heq
    simp at heq
  · exact hs.right (endsUnescaped_of_run hu)

theorem BareBlanks.trim (h : BareBlanks s) : BareBlanks (trim s) := by
  obtain ⟨u, v, hs, hu, -⟩ := trim_append s
  rw [hs] at h
  exact (h.right (endsUnescaped_of_run ((even_of_isBlank hu).run 0))).left

/-- The ASCII blanks are no characters of names. -/
theorem isIdentChar_of_isBlank (h : isBlank c = true) (hascii : c.toNat < 0x80) : isIdentChar c = false := by
  have hcode : c.toNat ∈ [9, 10, 11, 12, 13, 32] := by
    simp only [isBlank, Bool.or_eq_true, Bool.and_eq_true, decide_eq_true_eq, beq_iff_eq] at h
    simp only [List.mem_cons, List.not_mem_nil, or_false]
    omega
  have hall : ∀ n ∈ [9, 10, 11, 12, 13, 32], isIdentChar (Char.ofNat n) = false := by decide
  rw [← Char.ofNat_toNat c]
  exact hall _ hcode

/-- No blank belongs to a name: an ASCII blank that is not escaped ends it. -/
theorem BareBlanks.identSpan (h : BareBlanks s) : ∀ c ∈ (identSpan s).1, isBlank c = false := by
  fun_induction Text.identSpan s with
  | case1 => simp
  | case2 => simp
  | case3 c s ih =>
    have hescaped : EndsUnescaped ['\\', c] := rfl
    have hrest : BareBlanks s := h.right hescaped
    rw [Prod.map_fst, List.forall_mem_cons, List.forall_mem_cons]
    refine ⟨by decide, ?_, ih hrest⟩
    by_contra hblank
    obtain ⟨-, hends⟩ := h ['\\'] c s rfl (Bool.not_eq_false _ ▸ hblank)
    cases hends
  | case4 c s hnil hcons hc ih =>
    have hrest : BareBlanks s := h.right (endsUnescaped_singleton (ne_backslash_of_cases hnil hcons))
    rw [Prod.map_fst, List.forall_mem_cons]
    refine ⟨?_, ih hrest⟩
    by_contra hblank
    rw [Bool.not_eq_false] at hblank
    obtain ⟨hascii, -⟩ := h [] c s rfl hblank
    rw [isIdentChar_of_isBlank hblank hascii] at hc
    cases hc
  | case5 => simp

end Text

/-! ## What is read -/

/-- A name without blanks. -/
def Ident.Bare (name : Ident) : Prop := ∀ c ∈ name.raw.toList, isBlank c = false

/-- A condition without blanks in its name, and without a backslash at the end of its argument. -/
def Clause.Bare : Clause → Prop
  | .id name => name.Bare
  | .hasClass name => name.Bare
  | .attribute _ _ _ _ => True
  | .pseudo clause => ∀ text, clause.written = some text → EndsUnescaped text.toList

/-- A part without blanks in its names, and without arguments that end in a backslash. -/
structure Part.Bare (part : Part) : Prop where
  tag : ∀ name, part.tag = some name → name.Bare
  clauses : ∀ clause ∈ part.clauses, clause.Bare

/-- A selector of bare parts, in its containments, too. -/
inductive Selector.Bare : Selector → Prop
  | intro {parts : List Part} (bare : ∀ part ∈ parts, part.Bare)
      (contained : ∀ part ∈ parts, ∀ inner, part.containment = some inner → Bare inner) : Bare ⟨parts⟩

theorem Ident.bare_of_read {s rest : List Char} {name : Ident} (h : ident? s = some (name, rest))
    (hs : BareBlanks s) : name.Bare := by
  have hspan := hs.identSpan
  unfold ident? at h
  split at h
  · cases h
  · next c raw tail heq =>
    obtain ⟨rfl, -⟩ := Prod.mk.inj (Option.some.inj h)
    rw [heq] at hspan
    intro d hd
    rw [String.toList_ofList] at hd
    exact hspan d hd

namespace Reader

variable {parser : Parser} {nested : ListReader} {s rest : List Char} {clause : Clause} {part : Part}

/-- Without an escaped blank at its end an argument is trimmed of blanks only. -/
theorem endsUnescaped_writtenArgument {inner : List Char} {text : String}
    (hrun : Nesting.start.run inner = .start) (hinner : BareBlanks inner)
    (htext : writtenArgument (some inner) = some text) : EndsUnescaped text.toList := by
  obtain ⟨u, v, hsplit, hu, hv⟩ := trim_append inner
  have htrim : text.toList = trim inner := by
    unfold writtenArgument at htext
    split at htext
    · cases htext
    · obtain rfl := Option.some.inj htext
      exact String.toList_ofList
  have hlead : EndsUnescaped u := endsUnescaped_of_run ((even_of_isBlank hu).run 0)
  rw [htrim, ← endsUnescaped_append hlead]
  cases v with
  | nil =>
    rw [List.append_nil] at hsplit
    rw [← hsplit]
    exact endsUnescaped_of_run hrun
  | cons c v =>
    -- the first blank behind the argument is not escaped
    rw [← List.append_assoc] at hsplit
    exact (hinner _ c v hsplit (hv c List.mem_cons_self)).2

theorem bare_readPseudo (h : readPseudo parser nested s = .done clause rest) (hs : BareBlanks s) :
    clause.Bare := by
  obtain ⟨name, t, inner?, entry, argument, hname, hgroup, -, -, rfl⟩ := readPseudo_eq_done.1 h
  intro text htext
  rcases readGroup_eq_done hgroup with ⟨rfl, -⟩ | ⟨inner, rfl, hskips, -, hrun⟩
  · cases htext
  · have hopen := ((skips_ident? hname).trans hskips).follows.bareBlanks hs
    have hbehind : BareBlanks (inner ++ ')' :: rest) :=
      BareBlanks.right (u := ['(']) hopen (endsUnescaped_singleton (by decide))
    exact endsUnescaped_writtenArgument hrun hbehind.left htext

theorem bare_readClause? {hasId : Bool} (h : readClause? parser nested hasId s = some (.done clause rest))
    (hs : BareBlanks s) : clause.Bare := by
  have hbehind : ∀ c t, s = c :: t → isPlain c = true → BareBlanks t := by
    rintro c t rfl hplain
    exact (skips_cons hplain t).follows.bareBlanks hs
  unfold readClause? at h
  split at h
  · have hread := Option.some.inj h
    split at hread
    · cases hread
    · obtain ⟨name, hname, rfl⟩ := readId_eq_done hread
      exact Ident.bare_of_read hname (hbehind _ _ rfl (by decide))
  · obtain ⟨name, hname, rfl⟩ := readClass_eq_done (Option.some.inj h)
    exact Ident.bare_of_read hname (hbehind _ _ rfl (by decide))
  · obtain ⟨_, _, _, _, _, _, rfl, -⟩ := readAttribute_eq_done (Option.some.inj h)
    trivial
  · exact bare_readPseudo (Option.some.inj h) (hbehind _ _ rfl (by decide))
  · cases h

theorem bare_readClauses {tally : Tally} {clauses : List Clause}
    (h : readClauses parser nested tally s = .done clauses rest) (hs : BareBlanks s) :
    ∀ clause ∈ clauses, clause.Bare := by
  revert hs
  refine readClauses_induction (motive := fun _ s clauses =>
    BareBlanks s → ∀ clause ∈ clauses, clause.Bare) (fun _ _ => by simp) ?_ h
  intro _ s clause t _ clauses hclause _ ih hs
  have hfollows : Text.Follows s t := follows_readClause? hclause
  rw [List.forall_mem_cons]
  exact ⟨bare_readClause? hclause hs, ih (hfollows.bareBlanks hs)⟩

/-- The reader reads bare selectors from texts with bare blanks. -/
def ReadsBare (nested : ListReader) : Prop :=
  ∀ s list, nested s = .ok list → BareBlanks s → ∀ selector ∈ list, selector.Bare

theorem bare_readContainment (hnested : ReadsBare nested) {inner : Selector}
    (h : readContainment nested s = .done (some inner) rest) (hs : BareBlanks s) : inner.Bare := by
  rw [← branchSpan_append s] at hs
  obtain ⟨-, others, hread⟩ := readContainment_eq_some h
  exact hnested _ _ hread hs.left inner List.mem_cons_self

theorem bare_readPart (hnested : ReadsBare nested) {combinator : Option Combinator}
    (h : readPart parser nested combinator s = .done part rest) (hs : BareBlanks s) :
    part.Bare ∧ ∀ inner, part.containment = some inner → inner.Bare := by
  have hmark := (skips_subjectMark s).follows.bareBlanks hs
  have hname := (skips_readTag (subjectMark s).2).follows.bareBlanks hmark
  obtain ⟨-, -, htag, t, hclauses, hrest⟩ := readPart_eq_done h
  have hfollows := follows_readClauses parser nested (.start part.tag) (readTag (subjectMark s).2).2
  rw [hclauses] at hfollows
  refine ⟨⟨fun name hsome => Ident.bare_of_read (ident?_of_readTag (htag ▸ hsome)) hmark,
    bare_readClauses hclauses hname⟩, fun inner hinner => ?_⟩
  rcases hrest with ⟨-, hcontained⟩ | ⟨-, hnone, -⟩
  · rw [hinner] at hcontained
    exact bare_readContainment hnested hcontained (Text.Follows.bareBlanks hfollows hname)
  · rw [hnone] at hinner
    cases hinner

theorem bare_readParts (hnested : ReadsBare nested) {first : Bool} {parts : List Part}
    (h : readParts parser nested first s = .done parts rest) (hs : BareBlanks s) :
    ∀ part ∈ parts, part.Bare ∧ ∀ inner, part.containment = some inner → inner.Bare := by
  revert hs
  refine readParts_induction (motive := fun _ s parts => BareBlanks s → ∀ part ∈ parts,
    part.Bare ∧ ∀ inner, part.containment = some inner → inner.Bare) (fun _ _ _ _ _ => by simp) ?_ h
  intro first s part t parts hpart _ ih hs
  have hskip := (skips_skipBlank s).follows.bareBlanks hs
  have hfollows := follows_readLinkedPart parser nested first ((skipBlank s).length < s.length) (skipBlank s)
  rw [hpart] at hfollows
  obtain ⟨combinator, u, hcombinator, hread⟩ := Reading.andThen_eq_done.1 hpart
  have hlink := follows_readCombinator first ((skipBlank s).length < s.length) (skipBlank s)
  rw [hcombinator] at hlink
  rw [List.forall_mem_cons]
  exact ⟨bare_readPart hnested hread (Text.Follows.bareBlanks hlink hskip),
    ih (Text.Follows.bareBlanks hfollows hskip)⟩

theorem bare_readBranch (hnested : ReadsBare nested) {selector? : Option Selector}
    (h : readBranch parser nested s = .ok (selector?, rest)) (hs : BareBlanks s) :
    ∀ selector ∈ selector?.toList, selector.Bare := by
  cases selector? with
  | none => exact fun _ hmem => absurd hmem List.not_mem_nil
  | some selector =>
    obtain ⟨parts⟩ := selector
    have hbare := bare_readParts hnested (readBranch_eq_some h) ((skips_skipBlank s).follows.bareBlanks hs)
    rintro found hmem
    obtain rfl := Option.some.inj (Option.mem_toList.1 hmem)
    exact .intro (fun part hpart => (hbare part hpart).1) fun part hpart => (hbare part hpart).2

theorem ReadsBare.readList (hnested : ReadsBare nested) : ReadsBare (readList parser nested) := by
  intro s list h hs
  unfold Reader.readList at h
  split at h
  · cases h
    simp
  · have htrim := hs.trim
    revert htrim
    refine readBranches_induction (motive := fun s list =>
      BareBlanks s → ∀ selector ∈ list, selector.Bare) ?_ ?_ h
    · intro s selector? rest hbranch _ hs
      exact bare_readBranch hnested hbranch hs
    · intro s selector? rest more others hbranch hcomma ih hs
      have hfollows := (follows_readBranch hbranch).trans (skips_skipBlank rest).follows
      rw [hcomma] at hfollows
      have hmore : BareBlanks more :=
        BareBlanks.right (u := [',']) (hfollows.bareBlanks hs) (endsUnescaped_singleton (by decide))
      rw [List.forall_mem_append]
      exact ⟨bare_readBranch hnested hbranch hs, ih hmore⟩

/-- Selectors read from texts with bare blanks are bare, at every depth. -/
theorem readsBare_readLists (parser : Parser) : ReadsBare (readLists parser) := by
  have hlevels : ∀ levels, ReadsBare (readAt parser levels) := by
    intro levels
    induction levels with
    | zero =>
      rintro s list ⟨⟩ -
      simp
    | succ levels ih => exact ih.readList
  exact fun s => hlevels _ s

end Reader
end TreeQuery
