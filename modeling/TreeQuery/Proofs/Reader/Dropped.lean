import TreeQuery.Proofs.Match.Chain
import TreeQuery.Proofs.Match.Conditions
import TreeQuery.Proofs.Reader.Conditions

/-!
# Dropped branches

A branch is dropped when it dies: on a second id in a part, on a comparison that asks for an empty text at some
place, on a formula that selects no position, or on a containment of which the only branch dies. `Dropped`
records what was read of the part where this happens, up to the condition that is the cause, and `Dies` says
that a text is read like that. No node satisfies all of it, unless the second id is the first one again
(`Dies.not_holds`). So a list has the matches of all its branches, the dropped ones among them, if none of these
repeats an id.
-/

namespace TreeQuery

open Text

/-- A condition on which a branch dies. -/
inductive Blocker where
  /-- A second id, with its name if one stands there. -/
  | id (name? : Option Ident)
  | comparison (test : AttributeTest)
  | formula (formula : Formula)

/-- What was read of the part on which a branch dies, up to the cause: a condition, or a containment of which
the branch dies. -/
inductive Dropped where
  | condition (part : Part) (blocker : Blocker)
  | containment (part : Part) (inner : Dropped)

/-- Some whole position from one on is a multiple of the step away from the offset, in the direction of the
step. -/
def Formula.SelectsSome (f : Formula) : Prop :=
  ∃ position : Int, 1 ≤ position ∧ ∃ k : Nat, position = f.step.toInt * k + f.offset.toInt

/-- Whether a node can satisfy the condition. No value satisfies a comparison that needs a text to look for. -/
def Blocker.Holds (sc : Scene) (node : NodeId) : Blocker → Prop
  | .id name? => ∃ name, name? = some name ∧ sc.view.id node = some name.value
  | .comparison test => ∃ value, sc.view.attr node test.name = some value ∧ test.isImpossible = false ∧
    test.accepts value = true
  | .formula f => f.SelectsSome

namespace Dropped

/-- Whether a node can satisfy everything that was read of the part. Conditions that compare it with like
siblings may have any outcome. -/
def Holds (sc : Scene) : Dropped → NodeId → Prop
  | condition part blocker, node => part.isLike sc node = true ∧ blocker.Holds sc node
  | containment part inner, node => part.isLike sc node = true ∧
    ∃ below ∈ sc.view.descendants node, inner.Holds sc below

/-- The cause is an id that the part already has. -/
def RepeatsId : Dropped → Prop
  | condition part (.id name?) => ∃ first second, part.id? = some first ∧ name? = some second ∧
    first.value = second.value
  | condition _ _ => False
  | containment _ inner => inner.RepeatsId

end Dropped

/-- A formula that is taken for impossible selects no position, also among the integers. -/
theorem Formula.not_selectsSome {f : Formula} (h : f.isSatisfiable = false) : ¬ f.SelectsSome := by
  rintro ⟨position, hone, k, hposition⟩
  rw [isSatisfiable, Bool.or_eq_false_iff, decide_eq_false_iff_not, decide_eq_false_iff_not,
    Int32.lt_iff_toInt_lt, Int32.le_iff_toInt_le] at h
  have hstep : f.step.toInt ≤ 0 := Int.not_lt.1 h.1
  have hoffset : f.offset.toInt < 1 := Int.not_le.1 h.2
  have hmul : f.step.toInt * k ≤ 0 := Int.mul_nonpos_of_nonpos_of_nonneg hstep (Int.natCast_nonneg k)
  omega

/-! ## Dead readings -/

namespace Reading

variable {α β : Type} {r : Reading α} {rest : List Char}

theorem andThen_eq_dead {next : α → List Char → Reading β} :
    r.andThen next = .dead rest ↔ r = .dead rest ∨ ∃ a t, r = .done a t ∧ next a t = .dead rest := by
  cases r <;> simp [andThen]

theorem map_eq_dead {f : α → β} : r.map f = .dead rest ↔ r = .dead rest := by
  cases r <;> simp [map, andThen]

end Reading

namespace Reader

variable {parser : Parser} {nested : ListReader} {s t place rest : List Char} {hasId : Bool}
  {blocker : Blocker}

theorem readId_ne_dead : readId s ≠ .dead rest := by
  unfold readId
  split <;> nofun

theorem readClass_ne_dead : readClass s ≠ .dead rest := by
  unfold readClass
  split <;> nofun

theorem readGroup_ne_dead : readGroup s ≠ .dead rest := by
  unfold readGroup
  split
  · split <;> nofun
  · nofun

theorem readCombinator_ne_dead {first spaced : Bool} : readCombinator first spaced s ≠ .dead rest := by
  unfold readCombinator
  split
  · dsimp only
    split <;> nofun
  · split
    · nofun
    · split <;> nofun

theorem endPart_ne_dead {p : Profile} {part : Part} : endPart p part s ≠ .dead rest := by
  unfold endPart
  split <;> nofun

theorem readComparison_eq_dead {name : Ident} {comparator : Comparator}
    (h : readComparison name comparator s = .dead rest) :
    ((operand (skipBlank s)).1 == "" && comparator.isAnchored) = true := by
  unfold readComparison at h
  dsimp only at h
  split at h
  · split at h
    · assumption
    · cases h
  · cases h

theorem readFormula_eq_dead (h : readFormula s t = .dead rest) :
    ∃ f, Formula.read? s = some f ∧ f.isSatisfiable = false := by
  unfold readFormula at h
  split at h
  · cases h
  · next f hf =>
    split at h
    · cases h
    · next hnone => exact ⟨f, hf, Bool.eq_false_iff.2 hnone⟩

theorem withArgument_eq_dead {pseudo : PseudoClass} {inner? : Option (List Char)}
    {read : List Char → Reading Argument} (h : withArgument pseudo inner? read = .dead rest) :
    ∃ inner, inner? = some inner ∧ read (trim inner) = .dead rest := by
  unfold withArgument at h
  split at h
  · cases h
  · next hne =>
    cases inner? with
    | none => exact absurd rfl hne
    | some inner => exact ⟨inner, rfl, h⟩

/-- Only a formula that selects no position makes an argument dead. -/
theorem readArgument_eq_dead {entry : Entry} {inner? : Option (List Char)}
    (h : readArgument nested entry inner? t = .dead rest) :
    (entry.grammar = .formula ∨ entry.grammar = .relativeFormula) ∧ ∃ inner f, inner? = some inner ∧
      Formula.read? (trim inner) = some f ∧ f.isSatisfiable = false := by
  unfold readArgument at h
  cases hgrammar : entry.grammar <;> rw [hgrammar] at h <;> dsimp only at h
  case none | relative =>
    unfold withoutArgument at h
    split at h <;> cases h
  case text =>
    obtain ⟨inner, -, hread⟩ := withArgument_eq_dead h
    cases hread
  case formula =>
    obtain ⟨inner, rfl, hread⟩ := withArgument_eq_dead h
    obtain ⟨f, hf, hnone⟩ := readFormula_eq_dead (Reading.map_eq_dead.1 hread)
    exact ⟨.inl rfl, inner, f, rfl, hf, hnone⟩
  case relativeFormula =>
    obtain ⟨inner, rfl, hread⟩ := withArgument_eq_dead h
    obtain ⟨f, hf, hnone⟩ := readFormula_eq_dead (Reading.map_eq_dead.1 hread)
    exact ⟨.inr rfl, inner, f, rfl, hf, hnone⟩
  case linkDepth =>
    unfold readLinkDepth at h
    split at h
    · cases h
    · split at h <;> cases h
  case nested =>
    obtain ⟨inner, -, hread⟩ := withArgument_eq_dead h
    dsimp only [readNested] at hread
    split at hread <;> cases hread

/-! ## The condition that is the cause -/

/-- What is written where a condition is read. -/
inductive Blocks (parser : Parser) : List Char → Blocker → Prop
  | id {s : List Char} {name? : Option Ident} (hname : (ident? s).map (·.1) = name?) :
      Blocks parser ('#' :: s) (.id name?)
  | comparison {s t u : List Char} {name : Ident} {comparator : Comparator}
      (hname : ident? (skipBlank s) = some (name, t))
      (hcomparator : comparator? (skipBlank t) = some (comparator, u)) :
      Blocks parser ('[' :: s) (.comparison ⟨name.value, comparator, (operand (skipBlank u)).1,
        (caseFlag (skipBlank (operand (skipBlank u)).2)).1⟩)
  | formula {s t inner rest : List Char} {name : Ident} {entry : Entry} {f : Formula}
      (hname : ident? s = some (name, t)) (hgroup : readGroup t = .done (some inner) rest)
      (hlookup : parser.registry.lookup name.value = some entry)
      (hgrammar : entry.grammar = .formula ∨ entry.grammar = .relativeFormula)
      (hformula : Formula.read? (trim inner) = some f) : Blocks parser (':' :: s) (.formula f)

/-- A condition that makes a branch dead is an id, a comparison or a formula. -/
theorem exists_blocks (h : readClause? parser nested hasId place = some (.dead rest)) :
    ∃ blocker, Blocks parser place blocker := by
  unfold readClause? at h
  split at h
  · exact ⟨_, .id rfl⟩
  · exact absurd (Option.some.inj h) readClass_ne_dead
  · have h := Option.some.inj h
    rw [readAttribute_eq] at h
    split at h
    · cases h
    · next hname =>
      split at h
      · cases h
      · split at h
        · cases h
        · next hcomparator => exact ⟨_, .comparison hname hcomparator⟩
  · have h := Option.some.inj h
    unfold readPseudo at h
    split at h
    · cases h
    · next hname =>
      rcases Reading.andThen_eq_dead.1 h with hgroup | ⟨inner?, t, hgroup, h⟩
      · exact absurd hgroup readGroup_ne_dead
      · split at h
        · cases h
        · next hlookup =>
          obtain ⟨hgrammar, inner, f, rfl, hformula, -⟩ :=
            readArgument_eq_dead (Reading.map_eq_dead.1 h)
          exact ⟨_, .formula hname hgroup hlookup hgrammar hformula⟩
  · cases h

/-- A comparison that makes a branch dead needs a text to look for. -/
theorem Blocks.isImpossible {test : AttributeTest} (hblocks : Blocks parser place (.comparison test))
    (h : readClause? parser nested hasId place = some (.dead rest)) : test.isImpossible = true := by
  obtain _ | ⟨hname, hcomparator⟩ := hblocks
  have h : readAttribute _ = .dead rest := Option.some.inj h
  rw [readAttribute_eq, hname] at h
  dsimp only at h
  split at h
  · cases h
  · rw [hcomparator] at h
    exact readComparison_eq_dead h

/-- A formula that makes a branch dead selects no position. -/
theorem Blocks.isSatisfiable_eq_false {f : Formula} (hblocks : Blocks parser place (.formula f))
    (h : readClause? parser nested hasId place = some (.dead rest)) : f.isSatisfiable = false := by
  obtain _ | _ | ⟨hname, hgroup, hlookup, hgrammar, hformula⟩ := hblocks
  have h : readPseudo parser nested _ = .dead rest := Option.some.inj h
  unfold readPseudo at h
  rw [hname] at h
  dsimp only at h
  rw [hgroup] at h
  dsimp only [Reading.andThen] at h
  rw [hlookup] at h
  obtain ⟨-, inner, f', hinner, hformula', hnone⟩ := readArgument_eq_dead (Reading.map_eq_dead.1 h)
  obtain rfl := Option.some.inj hinner
  rw [hformula] at hformula'
  rwa [Option.some.inj hformula']

/-- An id that makes a branch dead is not the first one. -/
theorem Blocks.isSecond {name? : Option Ident} (hblocks : Blocks parser place (.id name?))
    (h : readClause? parser nested hasId place = some (.dead rest)) : hasId = true := by
  obtain ⟨-⟩ := hblocks
  by_contra hfirst
  have h : (if hasId = true then _ else readId _) = Reading.dead rest := Option.some.inj h
  rw [if_neg hfirst] at h
  exact readId_ne_dead h

variable {tally : Tally}

theorem ClausesTo.hasId_eq {tally' : Tally} {clauses : List Clause}
    (h : ClausesTo parser nested tally s clauses tally' rest) :
    tally'.hasId = (tally.hasId || clauses.any (·.id?.isSome)) := by
  induction h with
  | here => simp
  | next _ hadd _ ih => rw [ih, Tally.hasId_of_add? hadd, List.any_cons, Bool.or_assoc]

/-- The conditions of a part are dead if one of them is, behind others that are read. -/
theorem exists_clausesTo_of_dead (h : readClauses parser nested tally s = .dead rest) :
    ∃ clauses tally' place, ClausesTo parser nested tally s clauses tally' place ∧
      readClause? parser nested tally'.hasId place = some (.dead rest) := by
  fun_induction readClauses parser nested tally s with
  | case1 => cases h
  | case2 tally s rest' hclause =>
    cases h
    exact ⟨[], tally, s, .here tally s, hclause⟩
  | case3 => cases h
  | case4 => cases h
  | case5 tally s clause t hclause _ tally' hadd ih =>
    obtain ⟨clauses, last, place, hto, hdead⟩ := ih (Reading.map_eq_dead.1 h)
    exact ⟨clause :: clauses, last, place, .next hclause hadd hto, hdead⟩

/-! ## The way to the cause -/

/-- The parts of a branch are read up to one on which the branch dies. -/
inductive Dies (parser : Parser) : Bool → List Char → Dropped → Prop
  /-- The branch dies on a later part. -/
  | later {first : Bool} {s t : List Char} {part : Part} {d : Dropped}
      (hopen : isBranchEnd (skipBlank s) = false)
      (hpart : readLinkedPart parser (readLists parser) first ((skipBlank s).length < s.length)
        (skipBlank s) = .done part t)
      (hlater : Dies parser false t d) : Dies parser first s d
  /-- The branch dies on a condition of the part. -/
  | condition {first : Bool} {s t place rest : List Char} {link : Option Combinator}
      {clauses : List Clause} {tally : Tally} {blocker : Blocker}
      (hopen : isBranchEnd (skipBlank s) = false)
      (hlink : readCombinator first ((skipBlank s).length < s.length) (skipBlank s) = .done link t)
      (hto : ClausesTo parser (readLists parser) (.start (readTag (subjectMark t).2).1)
        (readTag (subjectMark t).2).2 clauses tally place)
      (hdead : readClause? parser (readLists parser) tally.hasId place = some (.dead rest))
      (hblocks : Blocks parser place blocker) :
      Dies parser first s
        (.condition ⟨link, (subjectMark t).1, (readTag (subjectMark t).2).1, clauses, none⟩ blocker)
  /-- The part is a subject, and the only branch of its containment dies. -/
  | containment {first : Bool} {s t u : List Char} {link : Option Combinator} {clauses : List Clause}
      {d : Dropped}
      (hopen : isBranchEnd (skipBlank s) = false)
      (hlink : readCombinator first ((skipBlank s).length < s.length) (skipBlank s) = .done link t)
      (hsubject : (subjectMark t).1 = true)
      (hclauses : readClauses parser (readLists parser) (.start (readTag (subjectMark t).2).1)
        (readTag (subjectMark t).2).2 = .done clauses u)
      (honly : readBranch parser (readLists parser) (trim (branchSpan u).1) = .ok (none, []))
      (hinner : Dies parser true (skipBlank (trim (branchSpan u).1)) d) :
      Dies parser first s (.containment ⟨link, true, (readTag (subjectMark t).2).1, clauses, none⟩ d)

/-- A branch dies on an id right behind the first one of a part, whatever it is. -/
theorem Dies.of_twoIds {first : Bool} {link : Option Combinator} {u : List Char} {name : Ident}
    {second? : Option Ident} (hopen : isBranchEnd (skipBlank s) = false)
    (hlink : readCombinator first ((skipBlank s).length < s.length) (skipBlank s) = .done link t)
    (hfirst : readClause? parser (readLists parser) false (readTag (subjectMark t).2).2 =
      some (.done (.id name) ('#' :: u)))
    (hsecond : (ident? u).map (·.1) = second?) :
    Dies parser first s
      (.condition ⟨link, (subjectMark t).1, (readTag (subjectMark t).2).1, [.id name], none⟩
        (.id second?)) := by
  have hadd : (Tally.start (readTag (subjectMark t).2).1).add? (.id name) =
      some ⟨true, (readTag (subjectMark t).2).1.toList.length + 1⟩ := by
    cases (readTag (subjectMark t).2).1 <;> rfl
  exact .condition hopen hlink (.next hfirst hadd (.here _ _)) rfl (.id hsecond)

/-- A list without commas outside has one branch. -/
theorem exists_readBranch_of_quiet (hquiet : Quiet s) {list : List Selector}
    (h : readBranches parser nested s = .ok list) :
    ∃ selector? rest, readBranch parser nested s = .ok (selector?, rest) ∧ skipBlank rest = [] ∧
      list = selector?.toList := by
  rw [readBranches_eq] at h
  split at h
  · cases h
  · next selector? rest hbranch =>
    split at h
    · next hend =>
      cases h
      exact ⟨selector?, rest, hbranch, hend, rfl⟩
    · next c more hmore =>
      split at h
      · next hcomma =>
        obtain rfl := beq_iff_eq.1 hcomma
        have hbehind := ((follows_readBranch hbranch).trans (skips_skipBlank rest).follows).quiet hquiet
        rw [hmore] at hbehind
        exact absurd hbehind (not_quiet_comma more)
      · cases h

/-- If it holds no selector, its branch is dead. -/
theorem readBranch_of_quiet (hquiet : Quiet s) (h : readBranches parser nested s = .ok []) :
    readBranch parser nested s = .ok (none, []) := by
  obtain ⟨selector?, rest, hbranch, -, hlist⟩ := exists_readBranch_of_quiet hquiet h
  cases selector? with
  | some selector => cases hlist
  | none =>
    -- the text behind a dead branch starts with a comma, unless it is empty
    have hrest := (follows_readBranch hbranch).quiet hquiet
    obtain ⟨t, -, rfl⟩ := readBranch_eq_none hbranch
    rcases branchSpan_eq_nil_or_comma t with hnil | ⟨tail, hcomma⟩
    · rw [hbranch, hnil]
    · rw [hcomma] at hrest
      exact absurd hrest (not_quiet_comma tail)

/-- A containment makes a branch dead if its only branch is dead. -/
theorem readContainment_eq_dead (h : readContainment (readLists parser) s = .dead rest) :
    readBranch parser (readLists parser) (trim (branchSpan s).1) = .ok (none, []) := by
  unfold readContainment at h
  dsimp only at h
  split at h
  · cases h
  · next hblank =>
    split at h
    · cases h
    · next hlist =>
      rw [readLists_eq, readList] at hlist
      split at hlist
      · next hnil => exact absurd (List.isEmpty_iff.2 hnil) hblank
      · exact readBranch_of_quiet (Quiet.trim (passes_branchSpan s)) hlist
    · cases h

/-- The branch in a containment is shorter than the part. -/
theorem length_trim_containment_lt {u : List Char} {clauses : List Clause} (hsubject : (subjectMark t).1 = true)
    (h : readClauses parser nested tally (readTag (subjectMark t).2).2 = .done clauses u) :
    (skipBlank (trim (branchSpan u).1)).length < t.length := by
  have hrest := length_containment_lt hsubject h
  have hspan := congrArg List.length (branchSpan_append u)
  rw [List.length_append] at hspan
  have htrim := length_trim_le (branchSpan u).1
  have hskip := length_skipBlank_le (trim (branchSpan u).1)
  omega

/-- On a dead part the reader met a cause, in the part or in its containment. -/
theorem exists_dies_of_readPart {first : Bool} {link : Option Combinator}
    (hinner : ∀ u r, u.length < t.length → readParts parser (readLists parser) true u = .dead r →
      ∃ d, Dies parser true u d)
    (hopen : isBranchEnd (skipBlank s) = false)
    (hlink : readCombinator first ((skipBlank s).length < s.length) (skipBlank s) = .done link t)
    (h : readPart parser (readLists parser) link t = .dead rest) : ∃ d, Dies parser first s d := by
  rcases Reading.andThen_eq_dead.1 h with hdead | ⟨clauses, u, hclauses, h⟩
  · obtain ⟨clauses, tally, place, hto, hdead⟩ := exists_clausesTo_of_dead hdead
    obtain ⟨blocker, hblocks⟩ := exists_blocks hdead
    exact ⟨_, .condition hopen hlink hto hdead hblocks⟩
  · split at h
    · next hsubject =>
      have honly := readContainment_eq_dead <| (Reading.andThen_eq_dead.1 h).resolve_right
        fun ⟨_, _, _, hend⟩ => endPart_ne_dead hend
      obtain ⟨r, hparts, -⟩ := readBranch_eq_none honly
      obtain ⟨d, hd⟩ := hinner _ r (length_trim_containment_lt hsubject hclauses) hparts
      exact ⟨_, .containment hopen hlink hsubject hclauses honly hd⟩
    · split at h
      · exact absurd h endPart_ne_dead
      · cases h

/-- A branch that is dead dies on some part. -/
theorem exists_dies {first : Bool} (h : readParts parser (readLists parser) first s = .dead rest) :
    ∃ d, Dies parser first s d := by
  induction hlength : s.length using Nat.strongRecOn generalizing first s rest with
  | ind length ih =>
    have hskip := length_skipBlank_le s
    rw [readParts_eq] at h
    split at h
    · cases h
    · next hopen =>
      have hopen := Bool.eq_false_iff.2 hopen
      rcases Reading.andThen_eq_dead.1 h with hdead | ⟨part, t, hpart, hlater⟩
      · rcases Reading.andThen_eq_dead.1 hdead with hdead | ⟨link, t, hlink, hdead⟩
        · exact absurd hdead readCombinator_ne_dead
        · have hleaves := leaves_readCombinator first ((skipBlank s).length < s.length) (skipBlank s)
          rw [hlink] at hleaves
          dsimp only [Reading.Leaves] at hleaves
          exact exists_dies_of_readPart (fun u r hu hread => ih u.length (by omega) hread rfl) hopen hlink
            hdead
      · have hleaves := leaves_readLinkedPart parser (readLists parser) first
          ((skipBlank s).length < s.length) (skipBlank s)
        rw [hpart] at hleaves
        dsimp only [Reading.Leaves] at hleaves
        obtain ⟨d, hd⟩ := ih t.length (by omega) (Reading.map_eq_dead.1 hlater) rfl
        exact ⟨d, .later hopen hpart hd⟩

/-! ## No match is lost -/

/-- No node satisfies what was read of a part on which a branch dies, unless the cause is the id of the part
again. The induction is on the way to the cause. -/
theorem Dies.not_holds {first : Bool} {d : Dropped} (h : Dies parser first s d) (hid : ¬ d.RepeatsId)
    (sc : Scene) (node : NodeId) : ¬ d.Holds sc node := by
  induction h generalizing node with
  | later _ _ _ ih => exact ih hid node
  | containment _ _ _ _ _ _ ih =>
    rintro ⟨-, below, -, hbelow⟩
    exact ih hid below hbelow
  | @condition first s t place rest link clauses tally blocker _ _ hto hdead hblocks =>
    rintro ⟨hlike, hholds⟩
    cases blocker with
    | comparison test =>
      obtain ⟨-, -, hpossible, -⟩ := hholds
      rw [hblocks.isImpossible hdead] at hpossible
      cases hpossible
    | formula f => exact Formula.not_selectsSome (hblocks.isSatisfiable_eq_false hdead) hholds
    | id name? =>
      obtain ⟨second, rfl, hsecond⟩ := hholds
      -- the part has an id already, and a node has one id at most
      have hany : clauses.any (·.id?.isSome) = true := by
        have hhas := hblocks.isSecond hdead
        rwa [hto.hasId_eq, Tally.start, Bool.false_or] at hhas
      obtain ⟨first, hfirst⟩ := Option.isSome_iff_exists.1 (List.findSome?_isSome_iff.2
        (List.any_eq_true.1 hany))
      have hvalue := Part.id_of_isLike hlike hfirst
      rw [hsecond] at hvalue
      exact hid ⟨first, second, hfirst, rfl, (Option.some.inj hvalue).symm⟩

end Reader

/-- A branch of a list: one that stays, or what was read of one that is dropped. -/
inductive Branch where
  | selector (selector : Selector)
  | dropped (cause : Dropped)

/-- Whether a branch allows that a node satisfies it. For a dropped one, some node must satisfy what was read
of the part on which it died. -/
def Branch.Accepts (sc : Scene) (origins : Option (List NodeId)) (node : NodeId) : Branch → Prop
  | selector s => s.accepts sc origins node = true
  | dropped d => ∃ other, d.Holds sc other

namespace Reader

variable {parser : Parser} {s rest : List Char}

/-- A branch is read, and `rest` is left. -/
inductive BranchTo (parser : Parser) (s : List Char) : Branch → List Char → Prop
  | selector {selector : Selector} {rest : List Char}
      (h : readBranch parser (readLists parser) s = .ok (some selector, rest)) :
      BranchTo parser s (.selector selector) rest
  | dropped {d : Dropped} {rest : List Char}
      (h : readBranch parser (readLists parser) s = .ok (none, rest))
      (hdies : Dies parser true (skipBlank s) d) : BranchTo parser s (.dropped d) rest

/-- The branches of a text, between commas. -/
inductive BranchesOf (parser : Parser) : List Char → List Branch → Prop
  | last {s rest : List Char} {branch : Branch} (h : BranchTo parser s branch rest)
      (hend : skipBlank rest = []) : BranchesOf parser s [branch]
  | more {s rest tail : List Char} {branch : Branch} {branches : List Branch}
      (h : BranchTo parser s branch rest) (hcomma : skipBlank rest = ',' :: tail)
      (others : BranchesOf parser tail branches) : BranchesOf parser s (branch :: branches)

theorem exists_branchTo {selector? : Option Selector}
    (h : readBranch parser (readLists parser) s = .ok (selector?, rest)) :
    ∃ branch, BranchTo parser s branch rest := by
  cases selector? with
  | some selector => exact ⟨_, .selector h⟩
  | none =>
    obtain ⟨t, hparts, -⟩ := readBranch_eq_none h
    obtain ⟨d, hd⟩ := exists_dies hparts
    exact ⟨_, .dropped h hd⟩

theorem BranchTo.exists_readBranch {branch : Branch} (h : BranchTo parser s branch rest) :
    ∃ selector?, readBranch parser (readLists parser) s = .ok (selector?, rest) := by
  cases h with
  | selector h => exact ⟨_, h⟩
  | dropped h _ => exact ⟨_, h⟩

/-- One branch has the matches of its selector, and none if it is dropped. -/
theorem BranchTo.accepts_iff {selector? : Option Selector} {branch : Branch}
    (h : BranchTo parser s branch rest)
    (hread : readBranch parser (readLists parser) s = .ok (selector?, rest))
    (hid : ∀ d, branch = .dropped d → ¬ d.RepeatsId) (sc : Scene) (origins : Option (List NodeId))
    (node : NodeId) :
    branch.Accepts sc origins node ↔
      ∃ selector ∈ selector?.toList, selector.accepts sc origins node = true := by
  obtain h | ⟨h, hdies⟩ := h
  all_goals
    rw [h] at hread
    cases hread
  · simp [Branch.Accepts]
  · refine iff_of_false ?_ (by simp)
    rintro ⟨other, hholds⟩
    exact hdies.not_holds (hid _ rfl) sc other hholds

theorem exists_branchesOf {list : List Selector}
    (h : readBranches parser (readLists parser) s = .ok list) :
    ∃ branches, BranchesOf parser s branches := by
  refine readBranches_induction (motive := fun s _ => ∃ branches, BranchesOf parser s branches) ?_ ?_ h
  · intro s selector? rest hbranch hend
    obtain ⟨branch, hto⟩ := exists_branchTo hbranch
    exact ⟨[branch], .last hto hend⟩
  · intro s selector? rest more others hbranch hcomma ⟨branches, hbranches⟩
    obtain ⟨branch, hto⟩ := exists_branchTo hbranch
    exact ⟨branch :: branches, .more hto hcomma hbranches⟩

/-- A list has the matches of the branches of its text, if no branch is dropped for repeating an id. -/
theorem BranchesOf.accepts_iff {branches : List Branch} (h : BranchesOf parser s branches)
    {list : List Selector} (hread : readBranches parser (readLists parser) s = .ok list)
    (hid : ∀ d, .dropped d ∈ branches → ¬ d.RepeatsId) (sc : Scene) (origins : Option (List NodeId))
    (node : NodeId) :
    (∃ branch ∈ branches, branch.Accepts sc origins node) ↔
      ∃ selector ∈ list, selector.accepts sc origins node = true := by
  induction h generalizing list with
  | last hto hend =>
    obtain ⟨selector?, hbranch⟩ := hto.exists_readBranch
    rw [readBranches_of_end hbranch hend] at hread
    cases hread
    rw [List.exists_mem_cons_iff, hto.accepts_iff hbranch fun d hd => hid d (by simp [hd])]
    simp
  | @more s rest tail branch branches hto hcomma _ ih =>
    obtain ⟨selector?, hbranch⟩ := hto.exists_readBranch
    rw [readBranches_of_comma hbranch hcomma] at hread
    cases hothers : readBranches parser (readLists parser) tail with
    | error cause =>
      rw [hothers] at hread
      cases hread
    | ok others =>
      rw [hothers] at hread
      cases hread
      rw [List.exists_mem_cons_iff, hto.accepts_iff hbranch fun d hd => hid d (by simp [hd]),
        ih hothers fun d hd => hid d (List.mem_cons_of_mem _ hd)]
      simp only [List.mem_append, or_and_right, exists_or]

/-- Whenever a branch is dropped, it died on some part, and no node satisfies what was read of that part up
to the cause, unless the cause is the id of the part again. So a list has the matches of all branches of its
text, if no branch repeats an id. -/
theorem dropped_holds_nowhere (parser : Parser) :
    (∀ s rest, readBranch parser (readLists parser) s = .ok (none, rest) →
      (∃ d, Dies parser true (skipBlank s) d) ∧
        ∀ d, Dies parser true (skipBlank s) d → ¬ d.RepeatsId → ∀ sc node, ¬ d.Holds sc node) ∧
    ∀ s list, readLists parser s = .ok list → trim s ≠ [] →
      (∃ branches, BranchesOf parser (trim s) branches) ∧
        ∀ branches, BranchesOf parser (trim s) branches → (∀ d, .dropped d ∈ branches → ¬ d.RepeatsId) →
          ∀ sc origins node, (∃ branch ∈ branches, branch.Accepts sc origins node) ↔
            Selector.anyAccepts sc origins list node = true := by
  constructor
  · intro s rest h
    obtain ⟨t, hparts, -⟩ := readBranch_eq_none h
    exact ⟨exists_dies hparts, fun d hd hid sc node => hd.not_holds hid sc node⟩
  · intro s list h hblank
    rw [readLists_eq, readList] at h
    split at h
    · next hnil => exact absurd hnil hblank
    · refine ⟨exists_branchesOf h, fun branches hbranches hid sc origins node => ?_⟩
      rw [hbranches.accepts_iff h hid, Selector.anyAccepts_eq_any, List.any_eq_true]

/-- The text `$ul li#first#last, li`. -/
def twoIdsBelowList : List Char := "$ul li#first#last, li".toList

/-- What is read of `li#first#last`. -/
def itemOfTwoIds : Dropped :=
  .condition ⟨none, false, some ⟨"li"⟩, [.id ⟨"first"⟩], none⟩ (.id (some ⟨"last"⟩))

/-- What is read of `$ul li#first#last`. -/
def listOfTwoIds : Dropped := .containment ⟨none, true, some ⟨"ul"⟩, [], none⟩ itemOfTwoIds

theorem dies_itemOfTwoIds : Dies .standard true "li#first#last".toList itemOfTwoIds := by
  have hlink : readCombinator true false "li#first#last".toList = .done none "li#first#last".toList := by
    with_unfolding_all rfl
  have hfirst : readClause? .standard (readLists .standard) false "#first#last".toList =
      some (.done (.id ⟨"first"⟩) ('#' :: "last".toList)) := by
    with_unfolding_all rfl
  have hopen : isBranchEnd (skipBlank "li#first#last".toList) = false := by decide
  exact .of_twoIds hopen hlink hfirst (by decide)

theorem dies_listOfTwoIds : Dies .standard true twoIdsBelowList listOfTwoIds := by
  have hlink : readCombinator true false twoIdsBelowList = .done none twoIdsBelowList := by
    with_unfolding_all rfl
  have hclauses : readClauses .standard (readLists .standard) (.start (some ⟨"ul"⟩))
      " li#first#last, li".toList = .done [] " li#first#last, li".toList := by
    with_unfolding_all rfl
  have honly : readBranch .standard (readLists .standard) "li#first#last".toList = .ok (none, []) := by
    with_unfolding_all rfl
  have hopen : isBranchEnd (skipBlank twoIdsBelowList) = false := by decide
  exact .containment hopen hlink rfl hclauses honly dies_itemOfTwoIds

theorem branchesOf_twoIdsBelowList :
    BranchesOf .standard twoIdsBelowList [.dropped listOfTwoIds, .selector (.named "li")] := by
  have hdead : readBranch .standard (readLists .standard) twoIdsBelowList = .ok (none, ", li".toList) := by
    with_unfolding_all rfl
  have hitems : readBranch .standard (readLists .standard) " li".toList = .ok (some (.named "li"), []) := by
    with_unfolding_all rfl
  exact .more (.dropped hdead dies_listOfTwoIds) rfl (.last (.selector hitems) rfl)

/-- No element is a list with an item of two ids, so `$ul li#first#last, li` finds the items alone. -/
theorem dropped_holds_nowhere_listOfTwoIds :
    (readBranch .standard (readLists .standard) twoIdsBelowList = .ok (none, ", li".toList) ∧
      ∀ sc node, ¬ listOfTwoIds.Holds sc node) ∧
    readLists .standard twoIdsBelowList = .ok [.named "li"] ∧
      ∀ sc origins node, (∃ branch ∈ [.dropped listOfTwoIds, .selector (.named "li")],
        Branch.Accepts sc origins node branch) ↔
          Selector.anyAccepts sc origins [.named "li"] node = true := by
  have hbranch : readBranch .standard (readLists .standard) twoIdsBelowList = .ok (none, ", li".toList) := by
    with_unfolding_all rfl
  have hlist : readLists .standard twoIdsBelowList = .ok [.named "li"] := by
    with_unfolding_all rfl
  have hid : ¬ listOfTwoIds.RepeatsId := by
    rintro ⟨first, second, hfirst, hsecond, hvalue⟩
    cases hfirst
    cases hsecond
    exact absurd hvalue (by decide)
  refine ⟨⟨hbranch, ((dropped_holds_nowhere .standard).1 _ _ hbranch).2 _ dies_listOfTwoIds hid⟩, hlist, ?_⟩
  refine ((dropped_holds_nowhere .standard).2 _ _ hlist (by decide)).2 _ branchesOf_twoIdsBelowList ?_
  intro d hmem
  obtain rfl : d = listOfTwoIds := by simpa using hmem
  exact hid

/-- What is read of `#top#top`. -/
def twiceTop : Dropped := .condition ⟨none, false, none, [.id ⟨"top"⟩], none⟩ (.id (some ⟨"top"⟩))

/-- An id that is asked for twice makes a branch dead, too, although an element with this id satisfies all of
it. -/
theorem twiceTop_holds :
    Tree.listOfTwo.Built ∧ Dies .standard true "#top#top".toList twiceTop ∧
      Selector.read .standard "#top#top" = .ok [] ∧ twiceTop.Holds ⟨Tree.listOfTwo.view, .silent⟩ 1 := by
  have hlink : readCombinator true false "#top#top".toList = .done none "#top#top".toList := by
    with_unfolding_all rfl
  have hfirst : readClause? .standard (readLists .standard) false "#top#top".toList =
      some (.done (.id ⟨"top"⟩) ('#' :: "top".toList)) := by
    with_unfolding_all rfl
  have hopen : isBranchEnd (skipBlank "#top#top".toList) = false := by decide
  have hdies : Dies .standard true "#top#top".toList twiceTop :=
    .of_twoIds hopen hlink hfirst (by decide)
  exact ⟨Tree.built_listOfTwo, hdies, by with_unfolding_all rfl, by decide +kernel, ⟨"top"⟩, rfl,
    by decide +kernel⟩

end Reader
end TreeQuery
