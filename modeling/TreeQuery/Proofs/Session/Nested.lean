import TreeQuery.Proofs.Match.Chain
import TreeQuery.Proofs.Match.Conditions
import TreeQuery.Proofs.Native.ReadBack
import TreeQuery.Proofs.Reader.Join
import TreeQuery.Proofs.Search.Candidates
import TreeQuery.Proofs.Session.Reached
import TreeQuery.Proofs.Text.Brackets

/-!
# Lists in parentheses

The argument of `:not` and `:matches` is cut out of the text by a scan for the closing parenthesis, trimmed
and read as a list of its own. A list whose text is properly nested comes out of this as it is read alone, dead
branches included. So a test for `:matches` of a list is a test for the list, and a test for `:not` of it is a
test for an element that fails the list.
-/

namespace TreeQuery

open Text

/-! ## Reading -/

/-- The standard names have no escapes. -/
theorem PseudoClass.value_name (pseudo : PseudoClass) : Ident.value ⟨pseudo.name⟩ = pseudo.name := by
  have hall : ∀ pseudo ∈ PseudoClass.all, Ident.value ⟨pseudo.name⟩ = pseudo.name := by decide +kernel
  exact hall pseudo pseudo.mem_all

/-- The selector of all elements that satisfy a pseudo-class. -/
def Selector.ofPseudo (clause : PseudoClause) : Selector :=
  ⟨[⟨none, false, none, [.pseudo clause], none⟩]⟩

namespace Reader

variable {parser : Parser} {pseudo : PseudoClass} {s : List Char} {list : List Selector}

/-- A list in parentheses is read as it is read alone. -/
theorem readArgument_nested {entry : Entry} (hgrammar : entry.grammar = .nested) (hblank : trim s ≠ [])
    (hread : readLists parser s = .ok list) (rest : List Char) :
    readArgument (readLists parser) entry (some s) rest = .done (.nested list) rest := by
  unfold readArgument
  rw [hgrammar]
  show withArgument entry.pseudo (some s) (fun s => readNested (readLists parser) s rest) = _
  unfold withArgument
  split
  · next hnil => exact absurd hnil hblank
  · show readNested (readLists parser) (trim s) rest = _
    rw [readNested, readLists_trim, hread]

/-- The pseudo-class with a list as its argument, as it is read. -/
def nestedClause (pseudo : PseudoClass) (s : List Char) (list : List Selector) : PseudoClause :=
  ⟨pseudo, (Entry.standard pseudo).hasGetter, writtenArgument (some s), .nested list⟩

theorem readPseudo_nested (hlookup : parser.registry.lookup pseudo.name = some (Entry.standard pseudo))
    (hgrammar : (Entry.standard pseudo).grammar = .nested) (hbalanced : Balanced s) (hblank : trim s ≠ [])
    (hread : readLists parser s = .ok list) (rest : List Char) :
    readPseudo parser (readLists parser) (pseudo.name.toList ++ '(' :: (s ++ ')' :: rest)) =
      .done (.pseudo (nestedClause pseudo s list)) rest := by
  have hname : ident? (pseudo.name.toList ++ '(' :: (s ++ ')' :: rest)) =
      some (⟨pseudo.name⟩, '(' :: (s ++ ')' :: rest)) := by
    refine pseudo.isWhole_name.ident?_append fun c hc => ?_
    obtain rfl := Option.some.inj hc
    decide
  have hgroup : readGroup ('(' :: (s ++ ')' :: rest)) = .done (some s) rest := by
    unfold readGroup
    rw [skipBlank_of_not_blank (by decide)]
    simp only [hbalanced.group?_eq rest]
  have hentry : parser.registry.lookup (Ident.value ⟨pseudo.name⟩) = some (Entry.standard pseudo) := by
    rw [pseudo.value_name, hlookup]
  have hargument := readArgument_nested hgrammar hblank hread rest
  refine readPseudo_eq_done.2 ⟨_, _, _, _, _, hname, hgroup, hentry, hargument, ?_⟩
  rw [nestedClause, Entry.pseudo_standard]

/-- A text that is a pseudo-class as a whole reads as one selector. -/
theorem readLists_of_readPseudo {u : List Char} {clause : PseudoClause} (htrim : trim (':' :: u) = ':' :: u)
    (hread : readPseudo parser (readLists parser) u = .done (.pseudo clause) []) :
    readLists parser (':' :: u) = .ok [.ofPseudo clause] := by
  have hcounted : (Tally.start none).add? (.pseudo clause) = some (.start none) := rfl
  have hend : readClauses parser (readLists parser) (.start none) [] = .done [] [] := by
    rw [readClauses_eq]
    rfl
  have hclause : readClause? parser (readLists parser) (Tally.start none).hasId (':' :: u) =
      some (.done (.pseudo clause) []) := congrArg some hread
  have hclauses := readClauses_of_readClause? hclause hcounted
  rw [hend] at hclauses
  have hlookups : Part.directLookups parser.profile ⟨none, false, none, [.pseudo clause], none⟩ = 0 := rfl
  refine readLists_of_readClauses (.inr (.inr (.inr rfl))) htrim hclauses ?_
  rw [hlookups]
  decide

end Reader

open Reader

/-- A list in the parentheses of `:not` or `:matches` reads as one selector with that list. -/
theorem Selector.read_nested {parser : Parser} {pseudo : PseudoClass}
    (hlookup : parser.registry.lookup pseudo.name = some (Entry.standard pseudo))
    (hgrammar : (Entry.standard pseudo).grammar = .nested) {text : String} (hbalanced : Balanced text.toList)
    (hblank : trim text.toList ≠ []) {list : List Selector}
    (hread : Selector.read parser text = .ok list) :
    Selector.read parser (":" ++ pseudo.name ++ "(" ++ text ++ ")") =
      .ok [.ofPseudo (nestedClause pseudo text.toList list)] := by
  have htext : (":" ++ pseudo.name ++ "(" ++ text ++ ")").toList =
      ':' :: (pseudo.name.toList ++ '(' :: (text.toList ++ [')'])) := by
    simp [String.toList_append]
  have htrimmed : IsTrimmed (':' :: (pseudo.name.toList ++ '(' :: (text.toList ++ [')']))) := by
    refine ⟨fun c hc => ?_, fun c hc => ?_⟩
    · obtain rfl := Option.some.inj hc
      decide
    · rw [← List.cons_append, ← List.cons_append, ← List.append_assoc, List.getLast?_concat] at hc
      obtain rfl := Option.some.inj hc
      decide
  rw [Selector.read_eq_ok] at hread
  rw [Selector.read_eq_ok, htext]
  exact readLists_of_readPseudo htrimmed.trim_eq
    (readPseudo_nested hlookup hgrammar hbalanced hblank hread [])

/-! ## Matching -/

variable {sc : Scene} {node : NodeId}

/-- Only elements satisfy a chain of parts. -/
theorem Part.isElement_of_chainAccepts {before : Option Combinator → NodeId → Bool} {parts : List Part}
    (h : Part.chainAccepts sc before parts node = true) : sc.view.isElement node = true := by
  induction parts generalizing before with
  | nil => cases h
  | cons part rest ih =>
    by_cases hrest : rest = []
    · subst hrest
      exact isElement_of_accepts (chainAccepts_singleton.1 h).1
    · rw [chainAccepts_cons hrest] at h
      exact ih h

/-- Only elements satisfy a selector list. -/
theorem Selector.isElement_of_anyAccepts {origins : Option (List NodeId)} {list : List Selector}
    (h : Selector.anyAccepts sc origins list node = true) : sc.view.isElement node = true := by
  rw [anyAccepts_eq_any] at h
  obtain ⟨⟨parts⟩, -, hselector⟩ := List.any_eq_true.1 h
  exact Part.isElement_of_chainAccepts hselector

/-- A single pseudo-class is satisfied by the elements of which it holds. -/
theorem Selector.anyAccepts_ofPseudo {clause : PseudoClause} (hown : clause.pseudo.isRelative = false) :
    Selector.anyAccepts sc none [.ofPseudo clause] node =
      (sc.view.isElement node && (Clause.pseudo clause).accepts sc node) := by
  rw [anyAccepts_eq_any, List.any_cons, List.any_nil, Bool.or_false, Bool.eq_iff_iff, ofPseudo, accepts,
    Part.chainAccepts_singleton, Part.accepts_iff, Part.isLike_iff, Bool.and_eq_true]
  constructor
  · rintro ⟨⟨⟨helement, -, hclauses, -⟩, -⟩, -⟩
    exact ⟨helement, hclauses _ List.mem_cons_self⟩
  · rintro ⟨helement, hclause⟩
    refine ⟨⟨⟨helement, ?_, ?_, rfl⟩, ?_⟩, rfl⟩
    · rintro name ⟨⟩
    · intro other hmem
      rwa [List.mem_singleton.1 hmem]
    · intro other hmem
      rw [List.mem_singleton.1 (show other ∈ [clause] from hmem)]
      exact sc.compares_of_not_isRelative _ hown node

/-! ## Tests -/

/-- The selector `[title=")"]`. -/
def Selector.titled : Selector := ⟨[⟨none, false, none, [.attribute ⟨"title"⟩ .equals ")" false], none⟩]⟩

namespace Engine

variable {σ : Type} {e : Engine σ} {s : Session σ} {text : String}

/-- A test for a pseudo-class with a list is a test of the pseudo-class on the answers for the list. -/
theorem Reached.perform_nested (h : e.Reached s) (pseudo : PseudoClass)
    (hlookup : e.registry.lookup pseudo.name = some (Entry.standard pseudo))
    (hgrammar : (Entry.standard pseudo).grammar = .nested) (hown : pseudo.isRelative = false)
    (hbalanced : Balanced text.toList) (hblank : trim text.toList ≠ []) {list : List Selector}
    (hread : Selector.read e.parser text = .ok list) (hnode : e.scene.view.contains node = true) :
    (e.perform (.test (":" ++ pseudo.name ++ "(" ++ text ++ ")") node none) s).1 =
      .ok (.truth (e.scene.view.isElement node &&
        e.scene.satisfies pseudo (.nested list) (some (e.accepts list none)) node)) := by
  have hnested := Selector.read_nested hlookup hgrammar hbalanced hblank hread
  rw [h.perform_test hnode (by rintro _ ⟨⟩) hnested, accepts, Selector.anyAccepts_ofPseudo hown]
  rfl

/-- The meaning of lists in parentheses. If a text that is not blank reads as a list, whatever of it is dead,
and is properly nested, then `:not` and `:matches` of it are selector lists, too. In all sessions that requests
reach, a test for `:not` succeeds exactly for the elements for which the test for the list fails, and a test
for `:matches` gives the same answer as the test for the list. -/
theorem test_not_and_matches (hnot : e.registry.lookup "not" = some (Entry.standard .not))
    (hmatches : e.registry.lookup "matches" = some (Entry.standard .matchesAny))
    {list : List Selector} (hread : Selector.read e.parser text = .ok list)
    (hblank : trim text.toList ≠ []) (hbalanced : Balanced text.toList)
    (hnode : e.scene.view.contains node = true) :
    ∃ holds, ∀ s, e.Reached s →
      (e.perform (.test text node none) s).1 = .ok (.truth holds) ∧
      (e.perform (.test (":not(" ++ text ++ ")") node none) s).1 =
        .ok (.truth (e.scene.view.isElement node && !holds)) ∧
      (e.perform (.test (":matches(" ++ text ++ ")") node none) s).1 = .ok (.truth holds) := by
  refine ⟨e.accepts list none node, fun s hs => ⟨hs.perform_test hnode (by rintro _ ⟨⟩) hread, ?_, ?_⟩⟩
  · exact hs.perform_nested .not hnot rfl rfl hbalanced hblank hread hnode
  · have hanswer := hs.perform_nested .matchesAny hmatches rfl rfl hbalanced hblank hread hnode
    have hsame : (e.scene.view.isElement node && e.accepts list none node) = e.accepts list none node := by
      cases haccepts : e.accepts list none node with
      | false => rw [Bool.and_false]
      | true => rw [Selector.isElement_of_anyAccepts haccepts, Bool.true_and]
    rw [← hsame]
    exact hanswer

/-- A list with parentheses in an argument and in a string, and with a branch that is dead. -/
theorem balanced_germanOrTitled : Balanced "li:lang(de), [title=\")\"], #x#y".toList := by
  have hlast : Balanced ", #x#y".toList := .append (u := ", #x#y".toList) (v := []) (by decide) .nil
  have hquoted : quoted? "\")\"".toList = some ([')'], []) := by decide
  have htitle : Balanced "title=\")\"".toList :=
    .append (u := "title=".toList) (by decide) (.string hquoted .nil)
  have hmiddle : Balanced ", [title=\")\"], #x#y".toList :=
    .append (u := ", ".toList) (by decide) (.square htitle hlast)
  have hcode : Balanced "de".toList := .append (u := "de".toList) (v := []) (by decide) .nil
  exact .append (u := "li:lang".toList) (by decide) (.round hcode hmiddle)

/-- An item of a list is no German item and has no title, so `:not` of these holds of it. -/
theorem test_not_and_matches_listOfTwo :
    let e : Engine Unit := Tree.listOfTwo.engine .standard .manual .silent none
    Selector.read e.parser "li:lang(de), [title=\")\"], #x#y" = .ok [.germanItem, .titled] ∧
      Balanced "li:lang(de), [title=\")\"], #x#y".toList ∧ e.scene.view.contains 2 = true ∧
        ∀ s, e.Reached s → (e.perform (.test ":not(li:lang(de), [title=\")\"], #x#y)" 2 none) s).1 =
          .ok (.truth true) := by
  intro e
  have hread : Selector.read e.parser "li:lang(de), [title=\")\"], #x#y" =
      .ok [.germanItem, .titled] := by
    with_unfolding_all rfl
  have hnode : e.scene.view.contains 2 = true := by decide +kernel
  obtain ⟨holds, hanswers⟩ := test_not_and_matches (e := e) (by decide) (by decide) hread (by decide)
    balanced_germanOrTitled hnode
  refine ⟨hread, balanced_germanOrTitled, hnode, fun s hs => ?_⟩
  obtain ⟨hlist, hnot, -⟩ := hanswers s hs
  rw [hs.perform_test hnode (by rintro _ ⟨⟩) hread] at hlist
  have hholds : e.accepts [.germanItem, .titled] none 2 = false := by decide +kernel
  have helement : e.scene.view.isElement 2 = true := by decide +kernel
  obtain rfl : false = holds := by
    rw [hholds] at hlist
    exact Answer.truth.inj (Except.ok.inj hlist)
  rw [helement] at hnot
  exact hnot

end Engine
end TreeQuery
