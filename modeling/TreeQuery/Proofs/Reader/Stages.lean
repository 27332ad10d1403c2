import TreeQuery.Proofs.Reader.Dropped
import Mathlib.Logic.Relation

/-!
# The words on the way of a reader

The reader of a list goes from branch to branch, in a branch from part to part and in a part from condition to
condition, and from a subject into its containment (`Goes`). At a pseudo-class with a list as argument it enters
the argument (`Enters`). On its way stand the words of the text that mean something to a host: the marks of
subjects and the names of pseudo-classes (`Stage.Shows`).

On its way through a branch that is not dead the reader comes by just those pseudo-classes that the selector of the
branch has, in its parts and in its containments (`mentions_of_reaches`, `exists_reaches_of_mentions`). So what is
written in the arguments of the selector is what the branch has in its arguments (`speaksInside_iff`).
-/

namespace TreeQuery

open Text

/-- What a selector text has in the vocabulary of a host. -/
inductive Selector.Word
  /-- The mark of a subject. -/
  | mark
  /-- A pseudo-class under the name that the text has. -/
  | pseudo (pseudo : PseudoClass) (name : String)
  deriving DecidableEq, Repr

/-- The characters of a word. -/
def Selector.Word.text : Word → List Char
  | mark => ['$']
  | pseudo _ name => ':' :: name.toList

/-- The selector has the pseudo-class in one of its parts, or in a containment. -/
inductive Selector.Mentions : Selector → PseudoClause → Prop
  | here {selector : Selector} {part : Part} {clause : PseudoClause} (hpart : part ∈ selector.parts)
      (hclause : .pseudo clause ∈ part.clauses) : Mentions selector clause
  | within {selector inner : Selector} {part : Part} {clause : PseudoClause} (hpart : part ∈ selector.parts)
      (hinner : part.containment = some inner) (h : Mentions inner clause) : Mentions selector clause

/-- The part has the pseudo-class, or its containment has. -/
def Part.Mentions (part : Part) (clause : PseudoClause) : Prop :=
  .pseudo clause ∈ part.clauses ∨ ∃ inner, part.containment = some inner ∧ inner.Mentions clause

theorem Selector.mentions_of_mem {selector : Selector} {part : Part} {clause : PseudoClause}
    (hpart : part ∈ selector.parts) (h : part.Mentions clause) : selector.Mentions clause := by
  rcases h with hclause | ⟨inner, hinner, h⟩
  · exact .here hpart hclause
  · exact .within hpart hinner h

namespace Reader

/-- What a reader reads next, and from where on. -/
inductive Stage
  | list (s : List Char)
  | branches (s : List Char)
  | parts (first : Bool) (s : List Char)
  | part (s : List Char)
  | clauses (tally : Tally) (s : List Char)

/-- The text from there on. -/
def Stage.text : Stage → List Char
  | list s | branches s | parts _ s | part s | clauses _ s => s

variable {parser : Parser} {stage stage' : Stage} {s t u rest : List Char} {clause : PseudoClause}

/-- One step through a list, without a step into an argument. -/
inductive Goes (parser : Parser) : Stage → Stage → Prop
  | list {s : List Char} : Goes parser (.list s) (.branches (trim s))
  | branch {s : List Char} : Goes parser (.branches s) (.parts true (skipBlank s))
  | nextBranch {s rest more : List Char} {selector? : Option Selector}
      (h : readBranch parser (readLists parser) s = .ok (selector?, rest))
      (hcomma : skipBlank rest = ',' :: more) : Goes parser (.branches s) (.branches more)
  | part {first : Bool} {s t : List Char} {link : Option Combinator}
      (hopen : isBranchEnd (skipBlank s) = false)
      (h : readCombinator first ((skipBlank s).length < s.length) (skipBlank s) = .done link t) :
      Goes parser (.parts first s) (.part t)
  | nextPart {first : Bool} {s t : List Char} {part : Part} (hopen : isBranchEnd (skipBlank s) = false)
      (h : readLinkedPart parser (readLists parser) first ((skipBlank s).length < s.length) (skipBlank s) =
        .done part t) : Goes parser (.parts first s) (.parts false t)
  | clauses {s : List Char} : Goes parser (.part s)
      (.clauses (.start (readTag (subjectMark s).2).1) (readTag (subjectMark s).2).2)
  | containment {s t : List Char} {clauses : List Clause} (hsubject : (subjectMark s).1 = true)
      (h : readClauses parser (readLists parser) (.start (readTag (subjectMark s).2).1)
        (readTag (subjectMark s).2).2 = .done clauses t)
      (hblank : trim (branchSpan t).1 ≠ []) : Goes parser (.part s) (.list (branchSpan t).1)
  | nextClause {tally tally' : Tally} {s t : List Char} {clause : Clause}
      (h : readClause? parser (readLists parser) tally.hasId s = some (.done clause t))
      (hadd : tally.add? clause = some tally') : Goes parser (.clauses tally s) (.clauses tally' t)

/-- The step into the list that is the argument of a pseudo-class. -/
inductive Enters (parser : Parser) : Stage → Stage → Prop
  | argument {tally : Tally} {s t inner rest : List Char} {name : Ident} {entry : Entry}
      (hname : ident? s = some (name, t)) (hgroup : readGroup t = .done (some inner) rest)
      (hentry : parser.registry.lookup name.value = some entry) (hgrammar : entry.grammar = .nested) :
      Enters parser (.clauses tally (':' :: s)) (.list inner)

/-- At the stage the text goes on with the word. -/
inductive Stage.Shows (parser : Parser) : Stage → Selector.Word → Prop
  | mark {s : List Char} : Shows parser (.part ('$' :: s)) .mark
  | pseudo {tally : Tally} {s t : List Char} {name : Ident} {entry : Entry} (hname : ident? s = some (name, t))
      (hentry : parser.registry.lookup name.value = some entry) :
      Shows parser (.clauses tally (':' :: s)) (.pseudo entry.pseudo name.raw)

/-- The stages that the reader comes by, outside of arguments. -/
def Reaches (parser : Parser) : Stage → Stage → Prop := Relation.ReflTransGen (Goes parser)

/-- The text of the stage has the word, in arguments at any depth or outside of them. -/
inductive Speaks (parser : Parser) : Stage → Selector.Word → Prop
  | outside {stage stage' : Stage} {word : Selector.Word} (h : Reaches parser stage stage')
      (hshows : stage'.Shows parser word) : Speaks parser stage word
  | inside {stage stage' inner : Stage} {word : Selector.Word} (h : Reaches parser stage stage')
      (henters : Enters parser stage' inner) (hspeaks : Speaks parser inner word) : Speaks parser stage word

/-- The text of the stage has the word in an argument. -/
def SpeaksInside (parser : Parser) (stage : Stage) (word : Selector.Word) : Prop :=
  ∃ stage' inner, Reaches parser stage stage' ∧ Enters parser stage' inner ∧ Speaks parser inner word

/-! ## Words stand in the text -/

theorem Goes.isInfix (h : Goes parser stage stage') : stage'.text <:+: stage.text := by
  cases h with
  | list =>
    obtain ⟨u, v, hs, -, -⟩ := trim_append _
    exact ⟨u, v, by rw [List.append_assoc]; exact hs.symm⟩
  | branch => exact (skips_skipBlank _).follows.suffix.isInfix
  | nextBranch h hcomma =>
    have hfollows := (follows_readBranch h).trans (skips_skipBlank _).follows
    rw [hcomma] at hfollows
    exact ((List.suffix_cons _ _).trans hfollows.suffix).isInfix
  | @part first s t link hopen h =>
    have hlink := follows_readCombinator first ((skipBlank s).length < s.length) (skipBlank s)
    rw [h] at hlink
    exact ((skips_skipBlank s).follows.trans hlink).suffix.isInfix
  | @nextPart first s t part hopen h =>
    have hpart := follows_readLinkedPart parser (readLists parser) first ((skipBlank s).length < s.length)
      (skipBlank s)
    rw [h] at hpart
    exact ((skips_skipBlank s).follows.trans hpart).suffix.isInfix
  | clauses => exact ((skips_subjectMark _).trans (skips_readTag _)).follows.suffix.isInfix
  | @containment s t clauses hsubject h hblank =>
    have hclauses := follows_readClauses parser (readLists parser) (.start (readTag (subjectMark s).2).1)
      (readTag (subjectMark s).2).2
    rw [h] at hclauses
    have hfollows := ((skips_subjectMark s).trans (skips_readTag _)).follows.trans hclauses
    have hprefix : (branchSpan t).1 <+: t := ⟨(branchSpan t).2, branchSpan_append t⟩
    exact hprefix.isInfix.trans hfollows.suffix.isInfix
  | nextClause h _ => exact (follows_readClause? h).suffix.isInfix

theorem Enters.isInfix (h : Enters parser stage stage') : stage'.text <:+: stage.text := by
  obtain @⟨tally, s, t, inner, rest, name, entry, hname, hgroup, -, -⟩ := h
  rcases readGroup_eq_done hgroup with ⟨hnone, -⟩ | ⟨_, hsome, hskips, -, -⟩
  · cases hnone
  · obtain rfl := Option.some.inj hsome
    have hinner : inner <:+: '(' :: (inner ++ ')' :: rest) := ⟨['('], ')' :: rest, by simp⟩
    have hgroup := hinner.trans ((skips_ident? hname).trans hskips).follows.suffix.isInfix
    exact hgroup.trans (List.suffix_cons ':' s).isInfix

theorem Stage.Shows.isInfix {word : Selector.Word} (h : stage.Shows parser word) :
    word.text <:+: stage.text := by
  cases h with
  | @mark s => exact ⟨[], s, rfl⟩
  | @pseudo tally s t name entry hname hentry =>
    obtain ⟨-, hs⟩ := Ident.isWhole_of_read hname
    exact ⟨[], t, by rw [hs]; rfl⟩

theorem Reaches.isInfix (h : Reaches parser stage stage') : stage'.text <:+: stage.text := by
  induction h with
  | refl => exact List.infix_refl _
  | tail _ hstep ih => exact hstep.isInfix.trans ih

/-- A word of a text stands in the text. -/
theorem Speaks.isInfix {word : Selector.Word} (h : Speaks parser stage word) : word.text <:+: stage.text := by
  induction h with
  | outside h hshows => exact hshows.isInfix.trans h.isInfix
  | inside h henters _ ih => exact ih.trans (henters.isInfix.trans h.isInfix)

/-! ## From the selector to the text -/

theorem readPseudo_of_readClause? {hasId : Bool}
    (h : readClause? parser (readLists parser) hasId s = some (.done (.pseudo clause) rest)) :
    ∃ u, s = ':' :: u ∧ readPseudo parser (readLists parser) u = .done (.pseudo clause) rest := by
  unfold readClause? at h
  split at h
  · have hread := Option.some.inj h
    split at hread
    · cases hread
    · obtain ⟨_, -, hname⟩ := readId_eq_done hread
      cases hname
  · obtain ⟨_, -, hname⟩ := readClass_eq_done (Option.some.inj h)
    cases hname
  · obtain ⟨_, _, _, _, _, -, hattribute, -⟩ := readAttribute_eq_done (Option.some.inj h)
    cases hattribute
  · next u => exact ⟨u, rfl, Option.some.inj h⟩
  · cases h

theorem reaches_of_mem_clauses {tally : Tally} {clauses : List Clause} {clause : Clause}
    (h : readClauses parser (readLists parser) tally s = .done clauses rest) (hmem : clause ∈ clauses) :
    ∃ tally' u v, Reaches parser (.clauses tally s) (.clauses tally' u) ∧
      readClause? parser (readLists parser) tally'.hasId u = some (.done clause v) := by
  revert hmem
  refine readClauses_induction (motive := fun tally s clauses => clause ∈ clauses →
    ∃ tally' u v, Reaches parser (.clauses tally s) (.clauses tally' u) ∧
      readClause? parser (readLists parser) tally'.hasId u = some (.done clause v))
    (fun _ hmem => absurd hmem List.not_mem_nil) (fun tally s first t next others hfirst hadd ih hmem => ?_) h
  rcases List.mem_cons.1 hmem with rfl | hmem
  · exact ⟨tally, s, t, .refl, hfirst⟩
  · obtain ⟨tally', u, v, hreaches, hclause⟩ := ih hmem
    exact ⟨tally', u, v, .head (.nextClause hfirst hadd) hreaches, hclause⟩

theorem reaches_of_mem_parts {first : Bool} {parts : List Part} {part : Part}
    (h : readParts parser (readLists parser) first s = .done parts rest) (hmem : part ∈ parts) :
    ∃ link u v, Reaches parser (.parts first s) (.part u) ∧
      readPart parser (readLists parser) link u = .done part v := by
  fun_induction readParts parser (readLists parser) first s generalizing parts with
  | case1 =>
    cases h
    exact absurd hmem List.not_mem_nil
  | case2 => cases h
  | case3 => cases h
  | case4 first s hopen found t hpart _ ih =>
    obtain ⟨others, hothers, rfl⟩ := Reading.map_eq_done.1 h
    have hopen := Bool.eq_false_iff.2 hopen
    rcases List.mem_cons.1 hmem with rfl | hmem
    · obtain ⟨link, u, hlink, hread⟩ := Reading.andThen_eq_done.1 hpart
      exact ⟨link, u, t, .single (.part hopen hlink), hread⟩
    · obtain ⟨link, u, v, hreaches, hread⟩ := ih hothers hmem
      exact ⟨link, u, v, .head (.nextPart hopen hpart) hreaches, hread⟩

/-- The only branch of a containment. -/
theorem readParts_of_readContainment {inner : Selector}
    (h : readContainment (readLists parser) s = .done (some inner) rest) :
    trim (branchSpan s).1 ≠ [] ∧ ∃ t, readParts parser (readLists parser) true
      (skipBlank (trim (branchSpan s).1)) = .done inner.parts t := by
  obtain ⟨hblank, others, hlist⟩ := readContainment_eq_some h
  rw [readLists_of_trim_ne hblank] at hlist
  obtain ⟨selector?, t, hbranch, -, hone⟩ :=
    exists_readBranch_of_quiet (Quiet.trim (passes_branchSpan s)) hlist
  cases selector? with
  | none => cases hone
  | some selector =>
    cases hone
    exact ⟨hblank, t, readBranch_eq_some hbranch⟩

/-- The reader comes by every pseudo-class of the selector that it reads. -/
theorem exists_reaches_of_mentions {selector : Selector} (h : selector.Mentions clause) {first : Bool}
    (hread : readParts parser (readLists parser) first s = .done selector.parts rest) :
    ∃ tally u t, Reaches parser (.parts first s) (.clauses tally (':' :: u)) ∧
      readPseudo parser (readLists parser) u = .done (.pseudo clause) t := by
  induction h generalizing first s rest with
  | here hpart hclause =>
    obtain ⟨link, u, v, hreaches, hread⟩ := reaches_of_mem_parts hread hpart
    obtain ⟨-, -, htag, t, hclauses, -⟩ := readPart_eq_done hread
    rw [htag] at hclauses
    obtain ⟨tally, w, x, hreaches', hfound⟩ := reaches_of_mem_clauses hclauses hclause
    obtain ⟨y, rfl, hpseudo⟩ := readPseudo_of_readClause? hfound
    exact ⟨tally, y, x, hreaches.trans (.head .clauses hreaches'), hpseudo⟩
  | @within selector inner part clause hpart hinner _ ih =>
    obtain ⟨link, u, v, hreaches, hread⟩ := reaches_of_mem_parts hread hpart
    obtain ⟨-, hmark, htag, t, hclauses, hrest⟩ := readPart_eq_done hread
    rw [htag] at hclauses
    rcases hrest with ⟨hsubject, hcontained⟩ | ⟨-, hnone, -⟩
    · rw [hinner] at hcontained
      obtain ⟨hblank, w, hparts⟩ := readParts_of_readContainment hcontained
      obtain ⟨tally, x, y, hreaches', hfound⟩ := ih hparts
      have hstep := Goes.containment (hmark ▸ hsubject) hclauses hblank
      exact ⟨tally, x, y, hreaches.trans (.head hstep (.head .list (.head .branch hreaches'))), hfound⟩
    · rw [hnone] at hinner
      cases hinner

/-! ## From the text to the selector -/

/-- Whatever is read from the stage on has a pseudo-class with the property. In a list this is said of lists
without commas outside only, as the reader goes on to dead branches, too. -/
def Stage.Yields (parser : Parser) (P : PseudoClause → Prop) : Stage → Prop
  | list s => ∀ selector others, Quiet s → readLists parser s = .ok (selector :: others) →
      ∃ clause, P clause ∧ selector.Mentions clause
  | branches s => ∀ selector others, Quiet s →
      readBranches parser (readLists parser) s = .ok (selector :: others) →
        ∃ clause, P clause ∧ selector.Mentions clause
  | parts first s => ∀ parts rest, readParts parser (readLists parser) first s = .done parts rest →
      ∃ clause, P clause ∧ ∃ part ∈ parts, part.Mentions clause
  | part s => ∀ link part rest, readPart parser (readLists parser) link s = .done part rest →
      ∃ clause, P clause ∧ part.Mentions clause
  | clauses tally s => ∀ clauses rest, readClauses parser (readLists parser) tally s = .done clauses rest →
      ∃ clause, P clause ∧ .pseudo clause ∈ clauses

variable {P : PseudoClause → Prop}

/-- What is yielded behind a step is yielded in front of it. -/
theorem Stage.Yields.of_goes (h : stage'.Yields parser P) (hstep : Goes parser stage stage') :
    stage.Yields parser P := by
  -- each reader is run up to the step; what it returns then contains what is returned from the next stage on
  cases hstep with
  | @list s =>
    intro selector others hquiet hread
    by_cases hblank : trim s = []
    · rw [readLists_eq, readList, hblank] at hread
      cases hread
    · rw [readLists_of_trim_ne hblank] at hread
      exact h selector others (Quiet.trim hquiet) hread
  | branch =>
    intro selector others hquiet hread
    obtain ⟨selector?, t, hbranch, -, hone⟩ := exists_readBranch_of_quiet hquiet hread
    cases selector? with
    | none => cases hone
    | some found =>
      cases hone
      obtain ⟨clause, hclause, part, hpart, hmentions⟩ := h _ _ (readBranch_eq_some hbranch)
      exact ⟨clause, hclause, Selector.mentions_of_mem hpart hmentions⟩
  | nextBranch hbranch hcomma =>
    intro selector others hquiet hread
    have hbehind := ((follows_readBranch hbranch).trans (skips_skipBlank _).follows).quiet hquiet
    rw [hcomma] at hbehind
    exact absurd hbehind (not_quiet_comma _)
  | part hopen hlink =>
    intro parts rest hread
    rw [readParts_eq, hopen, if_neg Bool.false_ne_true] at hread
    obtain ⟨part, t, hpart, hmap⟩ := Reading.andThen_eq_done.1 hread
    obtain ⟨others, -, rfl⟩ := Reading.map_eq_done.1 hmap
    rw [readLinkedPart, hlink] at hpart
    obtain ⟨clause, hclause, hmentions⟩ := h _ _ _ hpart
    exact ⟨clause, hclause, part, List.mem_cons_self, hmentions⟩
  | nextPart hopen hpart =>
    intro parts rest hread
    rw [readParts_eq, hopen, if_neg Bool.false_ne_true, hpart] at hread
    obtain ⟨others, hothers, rfl⟩ := Reading.map_eq_done.1 hread
    obtain ⟨clause, hclause, part, hmem, hmentions⟩ := h _ _ hothers
    exact ⟨clause, hclause, part, List.mem_cons_of_mem _ hmem, hmentions⟩
  | clauses =>
    intro link part rest hread
    obtain ⟨-, -, htag, t, hclauses, -⟩ := readPart_eq_done hread
    rw [htag] at hclauses
    obtain ⟨clause, hclause, hmem⟩ := h _ _ hclauses
    exact ⟨clause, hclause, .inl hmem⟩
  | containment hsubject hclauses hblank =>
    intro link part rest hread
    obtain ⟨-, hmark, htag, t, hclauses', hrest⟩ := readPart_eq_done hread
    rw [htag, hclauses] at hclauses'
    cases hclauses'
    rcases hrest with ⟨-, hcontained⟩ | ⟨hnone, -⟩
    · cases hinner : part.containment with
      | none =>
        rw [hinner] at hcontained
        exact absurd (readContainment_eq_none hcontained) hblank
      | some inner =>
        rw [hinner] at hcontained
        obtain ⟨-, others, hlist⟩ := readContainment_eq_some hcontained
        obtain ⟨clause, hclause, hmentions⟩ := h _ _ (passes_branchSpan _) hlist
        exact ⟨clause, hclause, .inr ⟨inner, hinner, hmentions⟩⟩
    · rw [hmark, hsubject] at hnone
      cases hnone
  | nextClause hfirst hadd =>
    intro clauses rest hread
    rw [readClauses_of_readClause? hfirst hadd] at hread
    obtain ⟨others, hothers, rfl⟩ := Reading.map_eq_done.1 hread
    obtain ⟨clause, hclause, hmem⟩ := h _ _ hothers
    exact ⟨clause, hclause, List.mem_cons_of_mem _ hmem⟩

theorem Stage.Yields.of_reaches (h : stage'.Yields parser P) (hreaches : Reaches parser stage stage') :
    stage.Yields parser P := by
  induction hreaches using Relation.ReflTransGen.head_induction_on with
  | refl => exact h
  | head hstep _ ih => exact ih.of_goes hstep

/-- A pseudo-class that the reader of a branch comes by is read, and the selector of the branch has it. -/
theorem mentions_of_reaches {first : Bool} {tally : Tally} {parts : List Part}
    (h : readParts parser (readLists parser) first s = .done parts rest)
    (hreaches : Reaches parser (.parts first s) (.clauses tally (':' :: u))) :
    ∃ clause, (∃ t, readPseudo parser (readLists parser) u = .done (.pseudo clause) t) ∧
      Selector.Mentions ⟨parts⟩ clause := by
  have hyields : Stage.Yields parser
      (fun clause => ∃ t, readPseudo parser (readLists parser) u = .done (.pseudo clause) t)
      (.clauses tally (':' :: u)) := by
    intro clauses rest hread
    obtain ⟨clause, t, hclause, -⟩ := Reading.andThen_eq_done.1 ((readClauses_eq ..).symm.trans hread)
    obtain ⟨_, others, -, -, rfl⟩ := exists_readClauses_of_readClause? hread (congrArg some hclause)
    have hread := readPseudo_eq_done.1 hclause
    obtain ⟨_, _, _, _, _, -, -, -, -, rfl⟩ := hread
    exact ⟨_, ⟨t, hclause⟩, List.mem_cons_self⟩
  obtain ⟨clause, hclause, part, hpart, hmentions⟩ := hyields.of_reaches hreaches parts rest h
  exact ⟨clause, hclause, Selector.mentions_of_mem hpart hmentions⟩

/-! ## Words in arguments -/

variable {word : Selector.Word}

theorem Speaks.of_goes (h : Speaks parser stage' word) (hstep : Goes parser stage stage') :
    Speaks parser stage word := by
  cases h with
  | outside h hshows => exact .outside (.head hstep h) hshows
  | inside h henters hspeaks => exact .inside (.head hstep h) henters hspeaks

/-- A list has the words of its branches. -/
theorem speaks_list_iff : Speaks parser (.list s) word ↔ Speaks parser (.branches (trim s)) word := by
  refine ⟨fun h => ?_, fun h => h.of_goes .list⟩
  cases h with
  | outside h hshows =>
    rcases Relation.ReflTransGen.cases_head h with rfl | ⟨_, hstep, hrest⟩
    · cases hshows
    · cases hstep
      exact .outside hrest hshows
  | inside h henters hspeaks =>
    rcases Relation.ReflTransGen.cases_head h with rfl | ⟨_, hstep, hrest⟩
    · cases henters
    · cases hstep
      exact .inside hrest henters hspeaks

theorem speaks_list_trim : Speaks parser (.list (trim s)) word ↔ Speaks parser (.list s) word := by
  rw [speaks_list_iff, speaks_list_iff, (isTrimmed_trim s).trim_eq]

end Reader

/-- The word stands in a list that the pseudo-class has as its argument, as it was written. -/
def PseudoClause.Utters (parser : Parser) (clause : PseudoClause) (word : Selector.Word) : Prop :=
  ∃ list text, clause.argument = .nested list ∧ clause.written = some text ∧
    Reader.Speaks parser (.list text.toList) word

namespace Reader

variable {parser : Parser} {s t u rest : List Char} {clause : PseudoClause} {word : Selector.Word}

theorem writtenArgument_of_ne {inner : List Char} (h : trim inner ≠ []) :
    writtenArgument (some inner) = some (String.ofList (trim inner)) := by
  unfold writtenArgument
  split
  · next hnil => exact absurd hnil h
  · rfl

/-- What the reader enters at a pseudo-class that it reads is the argument of the pseudo-class. -/
theorem utters_iff {tally : Tally} (h : readPseudo parser (readLists parser) u = .done (.pseudo clause) t) :
    clause.Utters parser word ↔
      ∃ inner, Enters parser (.clauses tally (':' :: u)) inner ∧ Speaks parser inner word := by
  obtain ⟨name, v, inner?, entry, argument, hname, hgroup, hentry, hargument, hclause⟩ := readPseudo_eq_done.1 h
  obtain rfl := Clause.pseudo.inj hclause
  constructor
  · rintro ⟨list, text, rfl, hwritten, hspeaks⟩
    obtain ⟨hgrammar, inner, rfl, hblank, -⟩ := readArgument_eq_nested hargument
    obtain rfl := Option.some.inj ((writtenArgument_of_ne hblank).symm.trans hwritten)
    rw [String.toList_ofList, speaks_list_trim] at hspeaks
    exact ⟨.list inner, .argument hname hgroup hentry hgrammar, hspeaks⟩
  · rintro ⟨_, @⟨_, _, _, inner, _, _, _, hname', hgroup', hentry', hgrammar⟩, hspeaks⟩
    rw [hname] at hname'
    cases hname'
    rw [hgroup] at hgroup'
    cases hgroup'
    rw [hentry] at hentry'
    cases hentry'
    have hfits := fits_readArgument hargument
    rw [hgrammar] at hfits
    cases argument with
    | nested list =>
      obtain ⟨-, _, hinner, hblank, -⟩ := readArgument_eq_nested hargument
      cases hinner
      refine ⟨list, _, rfl, writtenArgument_of_ne hblank, ?_⟩
      rwa [String.toList_ofList, speaks_list_trim]
    | _ => exact hfits.elim

/-- Inside its arguments a branch has the words of the arguments of its selector. -/
theorem speaksInside_iff {first : Bool} {parts : List Part}
    (h : readParts parser (readLists parser) first s = .done parts rest) :
    SpeaksInside parser (.parts first s) word ↔
      ∃ clause, Selector.Mentions ⟨parts⟩ clause ∧ clause.Utters parser word := by
  constructor
  · rintro ⟨stage', inner, hreaches, henters, hspeaks⟩
    have hplace := henters
    cases hplace with
    | argument _ _ _ _ =>
      obtain ⟨clause, ⟨t, hread⟩, hmentions⟩ := mentions_of_reaches h hreaches
      exact ⟨clause, hmentions, (utters_iff hread).2 ⟨_, henters, hspeaks⟩⟩
  · rintro ⟨clause, hmentions, hutters⟩
    obtain ⟨tally, u, t, hreaches, hread⟩ := exists_reaches_of_mentions hmentions h
    obtain ⟨inner, henters, hspeaks⟩ := (utters_iff hread).1 hutters
    exact ⟨_, inner, hreaches, henters, hspeaks⟩

end Reader
end TreeQuery
