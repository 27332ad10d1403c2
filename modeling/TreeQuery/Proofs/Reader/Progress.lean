import TreeQuery.Proofs.Reader.Dropped
import TreeQuery.Proofs.Text.Cursor
import Mathlib.Data.List.Sublists

/-!
# Progress and nesting

A list is read in three loops: over its branches, over the parts of a branch, and over the conditions of a part.
Each time one of them goes on, it has taken something of the text.

For the lists nested in a text the reader asks the reader of the next level. What it asks is told by what its
reading depends on (`Asks`), and nothing else has an influence on the reading (`readList_congr_of_asks`). It asks
only about arguments and containments (`HandsOn`), which are shorter pieces of its own text with fewer openers. So no
chain of questions is longer than the openers of the text and one, and below this depth the reader may be any
(`iterate_readList`).
-/

namespace TreeQuery

open Text
open String (utf8Len)

/-- Something of the text is taken, and the rest is left. -/
def Text.Advances (s rest : List Char) : Prop := ∃ u, u ≠ [] ∧ s = u ++ rest

/-- The reading takes something of the text, also when the branch is dead. -/
def Reading.Advances {α : Type} (s : List Char) : Reading α → Prop
  | .done _ rest | .dead rest => Text.Advances s rest
  | .fatal _ => True

namespace Reader

variable {parser : Parser} {nested first second : ListReader} {s t u rest : List Char} {hasId : Bool}

theorem advances_of_follows (h : Text.Follows s rest) (hlength : rest.length < s.length) :
    Text.Advances s rest := by
  obtain ⟨u, rfl, -⟩ := h
  refine ⟨u, ?_, rfl⟩
  rintro rfl
  exact Nat.lt_irrefl _ hlength

/-! ## Loops -/

/-- A loop over branches goes on behind a comma. -/
theorem advances_readBranch {selector? : Option Selector} {c : Char} {more : List Char}
    (h : readBranch parser nested s = .ok (selector?, rest)) (hmore : skipBlank rest = c :: more) :
    Text.Advances s more := by
  obtain ⟨u, hs, -⟩ := follows_readBranch h
  obtain ⟨blanks, hblanks, -⟩ := skipBlank_append rest
  refine ⟨u ++ (blanks ++ [c]), by simp, ?_⟩
  rw [hs, hblanks, hmore]
  simp

theorem advances_readClause? {clause : Clause}
    (h : readClause? parser nested hasId s = some (.done clause rest)) : Text.Advances s rest :=
  advances_of_follows (follows_readClause? h) (leaves_readClause? h)

/-- A condition that makes its branch dead is taken, but for a second id. -/
theorem length_readClause?_of_dead (h : readClause? parser nested hasId s = some (.dead rest)) :
    rest.length < s.length ∨ hasId = true := by
  unfold readClause? at h
  split at h
  · have hread := Option.some.inj h
    split at hread
    · next hid => exact .inr hid
    · exact absurd hread readId_ne_dead
  · exact absurd (Option.some.inj h) readClass_ne_dead
  · next t =>
    have hleaves := leaves_readAttribute t
    rw [Option.some.inj h] at hleaves
    exact .inl (Nat.lt_succ_of_lt hleaves)
  · next t =>
    have hleaves := leaves_readPseudo parser nested t
    rw [Option.some.inj h] at hleaves
    exact .inl (Nat.lt_succ_of_lt hleaves)
  · cases h

/-- Before a second id a first one is taken. -/
theorem length_readClauses_of_dead {tally : Tally} (h : readClauses parser nested tally s = .dead rest) :
    rest.length < s.length ∨ tally.hasId = true := by
  fun_induction readClauses parser nested tally s with
  | case1 => cases h
  | case2 tally s rest' hclause =>
    cases h
    exact length_readClause?_of_dead hclause
  | case3 => cases h
  | case4 => cases h
  | case5 tally s clause t hclause hlt tally' _ ih =>
    have hdead := Reading.map_eq_dead.1 h
    have hleaves := leaves_readClauses parser nested tally' t
    rw [hdead] at hleaves
    exact .inl (Nat.lt_of_le_of_lt (Nat.le_of_lt_succ hleaves) hlt)

theorem length_readPart_of_dead {link : Option Combinator} (h : readPart parser nested link s = .dead rest) :
    rest.length < s.length := by
  have hmark := length_subjectMark_le s
  have htag := length_readTag_le (subjectMark s).2
  rcases Reading.andThen_eq_dead.1 h with hdead | ⟨clauses, t, hclauses, hbehind⟩
  · have hlt := (length_readClauses_of_dead hdead).resolve_right Bool.false_ne_true
    omega
  · split at hbehind
    · next hsubject =>
      have hleaves := leaves_readContainment nested t
      rw [(Reading.andThen_eq_dead.1 hbehind).resolve_right fun ⟨_, _, _, hend⟩ => endPart_ne_dead hend]
        at hleaves
      exact Nat.lt_of_le_of_lt (Nat.le_of_lt_succ hleaves) (length_containment_lt hsubject hclauses)
    · split at hbehind
      · exact absurd hbehind endPart_ne_dead
      · cases hbehind

/-- A part takes something, with the blanks and the combinator in front of it. -/
theorem advances_readLinkedPart (parser : Parser) (nested : ListReader) (leading spaced : Bool)
    (s : List Char) : (readLinkedPart parser nested leading spaced (skipBlank s)).Advances s := by
  have hskip := (skips_skipBlank s).follows
  have hle := length_skipBlank_le s
  have hfollows := follows_readLinkedPart parser nested leading spaced (skipBlank s)
  have hleaves := leaves_readLinkedPart parser nested leading spaced (skipBlank s)
  cases hpart : readLinkedPart parser nested leading spaced (skipBlank s) with
  | done part rest =>
    rw [hpart] at hfollows hleaves
    exact advances_of_follows (hskip.trans hfollows) (Nat.lt_of_lt_of_le hleaves hle)
  | dead rest =>
    rw [hpart] at hfollows
    refine advances_of_follows (hskip.trans hfollows) ?_
    rcases Reading.andThen_eq_dead.1 hpart with hnever | ⟨link, t, hlink, hdead⟩
    · exact absurd hnever readCombinator_ne_dead
    · have hleaves := leaves_readCombinator leading spaced (skipBlank s)
      rw [hlink] at hleaves
      have hlt := length_readPart_of_dead hdead
      have ht : t.length < (skipBlank s).length + 1 := hleaves
      omega
  | fatal cause => trivial

/-! ## Questions -/

/-- What is read of `s` at one level depends on what the reader of the next level answers for `u`. -/
def Asks (parser : Parser) (s u : List Char) : Prop :=
  ∃ first second : ListReader, (∀ v, v ≠ u → first v = second v) ∧
    readList parser first s ≠ readList parser second s

/-- The reader asks only about what it may hand on. -/
theorem handsOn_of_asks (h : Asks parser s u) : HandsOn (trim s) u := by
  obtain ⟨first, second, hagree, hne⟩ := h
  by_contra hnot
  refine hne (readList_congr fun v hv => hagree v ?_)
  rintro rfl
  exact hnot hv

/-- The answers for all but some pieces of the text may differ, as long as no question is about them. -/
theorem readList_congr_of_subset (pieces : List (List Char))
    (hasks : ∀ u, Asks parser s u → first u = second u)
    (hothers : ∀ u, HandsOn (trim s) u → u ∉ pieces → first u = second u) :
    readList parser first s = readList parser second s := by
  -- the answers are exchanged one piece after the other
  induction pieces generalizing first with
  | nil => exact readList_congr fun u hu => hothers u hu List.not_mem_nil
  | cons piece pieces ih =>
    have hpiece : readList parser first s =
        readList parser (Function.update first piece (second piece)) s := by
      by_contra hne
      have hasked : Asks parser s piece :=
        ⟨first, _, fun v hv => (Function.update_of_ne hv _ first).symm, hne⟩
      rw [← hasks piece hasked, Function.update_eq_self] at hne
      exact hne rfl
    rw [hpiece]
    refine ih (fun u hu => ?_) (fun u hu hmem => ?_)
    · by_cases heq : u = piece
      · rw [heq, Function.update_self]
      · rw [Function.update_of_ne heq, hasks u hu]
    · by_cases heq : u = piece
      · rw [heq, Function.update_self]
      · rw [Function.update_of_ne heq, hothers u hu (by simp [heq, hmem])]

/-- Nothing but the answers to the questions decides what is read. -/
theorem readList_congr_of_asks (hasks : ∀ u, Asks parser s u → first u = second u) :
    readList parser first s = readList parser second s :=
  readList_congr_of_subset (trim s).sublists hasks fun _ hu hmem =>
    absurd (List.mem_sublists.2 hu.inside.isInfix.sublist) hmem

/-- Questions about what a question is about, and so on, come to an end with the openers. -/
theorem length_le_of_asks {calls : List (List Char)} (h : (s :: calls).IsChain (Asks parser)) :
    (s :: calls).length ≤ openers s + 1 := by
  induction calls generalizing s with
  | nil => exact Nat.le_add_left 1 (openers s)
  | cons u calls ih =>
    rw [List.isChain_cons_cons] at h
    have hlength := ih h.2
    have hlt := (handsOn_of_asks h.1).inside.openers_lt
    have hle := openers_trim_le s
    rw [List.length_cons]
    omega

/-- As many levels as the text has openers, and one, read it whatever is below. -/
theorem iterate_readList (bottom : ListReader) {levels : Nat} (h : openers s < levels) :
    (readList parser)^[levels] bottom s = readLists parser s := by
  induction levels generalizing s with
  | zero => exact absurd h (Nat.not_lt_zero _)
  | succ levels ih =>
    rw [Function.iterate_succ_apply', readLists_eq]
    refine readList_congr fun u hu => ih ?_
    have hlt := hu.inside.openers_lt
    have hle := openers_trim_le s
    omega

/-- Reading comes to an end within bounds that the text sets.

Each loop takes something of the text whenever it goes on. The loop over branches does so also behind a dead
branch. The loop over parts takes something even where a part turns out to be dead. The loop over conditions goes
on behind a condition that was read; with a dead one, or a second id, it and the loop over parts are over.

The reader of a list asks the reader of the next level only about arguments and containments, shorter pieces of its
text with fewer openers, and it learns nothing else from there. The nesting is no deeper than the openers of the
text and one.

In bytes the reader takes its text apart by the moves of a cursor. No run of moves fails, whatever the moves are,
and each number of bytes at which the text is cut lies within the text and between two characters. -/
theorem reading_advances (parser : Parser) (s : List Char) :
    (∀ nested selector? rest c more, readBranch parser nested s = .ok (selector?, rest) →
      skipBlank rest = c :: more → Text.Advances s more) ∧
    (∀ nested leading spaced, (readLinkedPart parser nested leading spaced (skipBlank s)).Advances s) ∧
    (∀ nested hasId clause rest, readClause? parser nested hasId s = some (.done clause rest) →
      Text.Advances s rest) ∧
    (∀ u, Asks parser s u →
      HandsOn (trim s) u ∧ u <:+: trim s ∧ u.length < (trim s).length ∧ openers u < openers s) ∧
    (∀ first second, (∀ u, Asks parser s u → first u = second u) →
      readList parser first s = readList parser second s) ∧
    (∀ calls, (s :: calls).IsChain (Asks parser) → (s :: calls).length ≤ openers s + 1) ∧
    (∀ bottom, (readList parser)^[openers s + 1] bottom s = readLists parser s) ∧
    ∀ earlier later, ∃ cursor behind : Cursor,
      Move.performAll? earlier ⟨s, 0⟩ = some ((Move.readAll earlier s).1, cursor) ∧
      Move.performAll? later cursor = some ((Move.readAll later (Move.readAll earlier s).2).1, behind) ∧
      (String.Pos.Raw.mk cursor.offset).IsValid (String.ofList s) ∧
      (String.Pos.Raw.mk behind.offset).IsValid (String.ofList s) ∧
      ∃ between, slice? s cursor.offset behind.offset = some between ∧
        (Move.readAll earlier s).2 = between ++ (Move.readAll later (Move.readAll earlier s).2).2 := by
  refine ⟨fun _ _ _ _ _ => advances_readBranch,
    fun nested leading spaced => advances_readLinkedPart parser nested leading spaced s,
    fun _ _ _ _ => advances_readClause?, fun u hu => ?_, fun _ _ => readList_congr_of_asks,
    fun _ => length_le_of_asks, fun bottom => iterate_readList bottom (Nat.lt_succ_self _),
    Move.exists_performAll? s⟩
  have hhandsOn := handsOn_of_asks hu
  have hinside := hhandsOn.inside
  exact ⟨hhandsOn, hinside.isInfix, hinside.length_lt,
    Nat.lt_of_lt_of_le hinside.openers_lt (openers_trim_le s)⟩

/-- The text `p:not(.a), $li b`. -/
def notInList : List Char := "p:not(.a), $li b".toList

/-- A list reader that takes every text for the list of one selector without parts. -/
def takesAny : ListReader := fun _ => .ok [⟨[]⟩]

/-- A list reader that refuses just one text. -/
def refuses (u : List Char) : ListReader := Function.update takesAny u (.error (.malformed .emptySelector))

/-- The reader asks about a text if its reading fails as soon as the text is refused. -/
theorem asks_of_refuses (hread : (readList parser takesAny s).isOk = true)
    (hrefused : (readList parser (refuses u) s).isOk = false) : Asks parser s u := by
  refine ⟨takesAny, refuses u, fun v hv => (Function.update_of_ne hv _ takesAny).symm, fun heq => ?_⟩
  rw [heq, hrefused] at hread
  cases hread

/-- The reader asks about the argument and about the containment. -/
theorem asks_notInList : Asks .standard notInList ".a".toList ∧ Asks .standard notInList " b".toList :=
  ⟨asks_of_refuses (by with_unfolding_all rfl) (by with_unfolding_all rfl),
    asks_of_refuses (by with_unfolding_all rfl) (by with_unfolding_all rfl)⟩

/-- The first branch is read up to the comma, its condition up to there too, and the argument is one level deeper.
Nothing is asked about a text that is no piece. -/
theorem reading_advances_notInList :
    let place := ":not(.a), $li b".toList
    (∃ selector?, readBranch .standard takesAny notInList = .ok (selector?, ", $li b".toList) ∧
      skipBlank ", $li b".toList = ',' :: " $li b".toList ∧ Text.Advances notInList " $li b".toList) ∧
    (∃ clause, readClause? .standard takesAny false place = some (.done clause ", $li b".toList) ∧
      Text.Advances place ", $li b".toList) ∧
    (Asks .standard notInList ".a".toList ∧ ".a".toList.length < (trim notInList).length) ∧
    ((∀ u, Asks .standard notInList u → takesAny u = refuses ['q'] u) ∧
      readList .standard takesAny notInList = readList .standard (refuses ['q']) notInList) ∧
    [notInList, ".a".toList].IsChain (Asks .standard) ∧
      [notInList, ".a".toList].length ≤ openers notInList + 1 := by
  intro place
  obtain ⟨hbranches, -, -, hpiece, hanswers, hdepth, -, -⟩ := reading_advances .standard notInList
  obtain ⟨-, -, hclauses, -⟩ := reading_advances .standard place
  have hbranch : ∃ selector?, readBranch .standard takesAny notInList = .ok (selector?, ", $li b".toList) :=
    ⟨_, by with_unfolding_all rfl⟩
  have hclause : ∃ clause, readClause? .standard takesAny false place = some (.done clause ", $li b".toList) :=
    ⟨_, by with_unfolding_all rfl⟩
  have hcomma : skipBlank ", $li b".toList = ',' :: " $li b".toList := by decide
  have hagree : ∀ u, Asks .standard notInList u → takesAny u = refuses ['q'] u := by
    intro u hu
    have hne : u ≠ ['q'] := by
      rintro rfl
      have hq : 'q' ∈ trim notInList := (hpiece _ hu).2.1.subset List.mem_cons_self
      revert hq
      decide
    exact (Function.update_of_ne hne _ takesAny).symm
  have hchain : [notInList, ".a".toList].IsChain (Asks .standard) :=
    List.isChain_cons_cons.2 ⟨asks_notInList.1, List.isChain_singleton _⟩
  obtain ⟨selector?, hbranch⟩ := hbranch
  obtain ⟨clause, hclause⟩ := hclause
  exact ⟨⟨selector?, hbranch, hcomma, hbranches _ _ _ _ _ hbranch hcomma⟩,
    ⟨clause, hclause, hclauses _ _ _ _ hclause⟩, ⟨asks_notInList.1, (hpiece _ asks_notInList.1).2.2.1⟩,
    ⟨hagree, hanswers _ _ hagree⟩, hchain, hdepth _ hchain⟩

end Reader
end TreeQuery
