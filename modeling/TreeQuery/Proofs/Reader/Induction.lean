import TreeQuery.Proofs.Reader.Levels

/-!
# Induction over what is read

The conditions of a part, the parts of a branch and the branches of a list are read one after the other.
Each loop has an induction principle for what it returns, and so have nested lists, with the length of the
text as the measure.
-/

namespace TreeQuery.Reader

open Text

variable {parser : Parser} {nested : ListReader} {s t rest : List Char} {clause : Clause}
  {tally tally' : Tally}

theorem Tally.lookups_start_lt (tag : Option Ident) : (Tally.start tag).lookups < UInt8.size := by
  have hsize : 1 < UInt8.size := by decide
  exact Nat.lt_of_le_of_lt tag.length_toList_le hsize

theorem countP_isLookup_cons (clause : Clause) (clauses : List Clause) :
    (clause :: clauses).countP Clause.isLookup = clause.isLookup.toNat + clauses.countP Clause.isLookup := by
  rw [List.countP_cons, Nat.add_comm]
  cases clause.isLookup <;> rfl

/-- A condition is counted below 256. -/
theorem Tally.add?_eq_some :
    tally.add? clause = some tally' ↔ tally.lookups + clause.isLookup.toNat < UInt8.size ∧
      tally' = ⟨tally.hasId || clause.id?.isSome, tally.lookups + clause.isLookup.toNat⟩ := by
  unfold add?
  split
  · next hlt => simp [hlt, eq_comm]
  · next hlt => simp [hlt]

/-- And no further. -/
theorem Tally.add?_eq_none :
    tally.add? clause = none ↔ UInt8.size ≤ tally.lookups + clause.isLookup.toNat := by
  unfold add?
  split
  · next hlt => simp [hlt]
  · next hlt => simp [Nat.le_of_not_lt hlt]

theorem Tally.hasId_of_add? (h : tally.add? clause = some tally') :
    tally'.hasId = (tally.hasId || clause.id?.isSome) := by
  rw [(add?_eq_some.1 h).2]

/-- The conditions from some place on start with the one that is read there. -/
theorem readClauses_of_readClause? (h : readClause? parser nested tally.hasId s = some (.done clause t))
    (hadd : tally.add? clause = some tally') :
    readClauses parser nested tally s = (readClauses parser nested tally' t).map (clause :: ·) := by
  rw [readClauses_eq, h]
  simp only [Reading.andThen, hadd]

/-- A condition that is read was counted, and the others stand behind it. -/
theorem exists_readClauses_of_readClause? {all : List Clause}
    (h : readClauses parser nested tally s = .done all rest)
    (hclause : readClause? parser nested tally.hasId s = some (.done clause t)) :
    ∃ tally' behind, tally.add? clause = some tally' ∧
      readClauses parser nested tally' t = .done behind rest ∧ all = clause :: behind := by
  cases hadd : tally.add? clause with
  | none =>
    rw [readClauses_eq, hclause] at h
    simp only [Reading.andThen, hadd] at h
    cases h
  | some tally' =>
    rw [readClauses_of_readClause? hclause hadd] at h
    obtain ⟨behind, hbehind, rfl⟩ := Reading.map_eq_done.1 h
    exact ⟨tally', behind, rfl, hbehind, rfl⟩

/-- What holds of no conditions, and of a condition in front of others, holds of all conditions that are
read in front of `rest`. -/
theorem readClauses_induction {motive : Tally → List Char → List Clause → Prop}
    (nil : ∀ tally, motive tally rest [])
    (cons : ∀ tally s clause t tally' clauses,
      readClause? parser nested tally.hasId s = some (.done clause t) →
        tally.add? clause = some tally' → motive tally' t clauses → motive tally s (clause :: clauses))
    {clauses : List Clause} (h : readClauses parser nested tally s = .done clauses rest) :
    motive tally s clauses := by
  fun_induction readClauses parser nested tally s generalizing clauses with
  | case1 tally s =>
    cases h
    exact nil tally
  | case2 => cases h
  | case3 => cases h
  | case4 => cases h
  | case5 tally s clause t hclause _ tally' htally ih =>
    obtain ⟨others, hothers, rfl⟩ := Reading.map_eq_done.1 h
    exact cons tally s clause t tally' others hclause htally (ih hothers)

/-- What holds at the end of a branch, and of a part in front of others, holds of all parts that are read
in front of `rest`. -/
theorem readParts_induction {motive : Bool → List Char → List Part → Prop}
    (nil : ∀ first s, isBranchEnd (skipBlank s) = true → skipBlank s = rest → motive first s [])
    (cons : ∀ first s part t parts,
      readLinkedPart parser nested first ((skipBlank s).length < s.length) (skipBlank s) =
        .done part t →
      readParts parser nested false t = .done parts rest → motive false t parts →
        motive first s (part :: parts))
    {first : Bool} {parts : List Part}
    (h : readParts parser nested first s = .done parts rest) : motive first s parts := by
  fun_induction readParts parser nested first s generalizing parts with
  | case1 first s hend =>
    cases h
    exact nil first s hend rfl
  | case2 => cases h
  | case3 => cases h
  | case4 first s _ part t hpart _ ih =>
    obtain ⟨others, hothers, rfl⟩ := Reading.map_eq_done.1 h
    exact cons first s part t others hpart hothers (ih hothers)

/-- What holds of a last branch, and of a branch in front of others, holds of all lists that are read. -/
theorem readBranches_induction {motive : List Char → List Selector → Prop}
    (last : ∀ s selector? rest, readBranch parser nested s = .ok (selector?, rest) →
      skipBlank rest = [] → motive s selector?.toList)
    (more : ∀ s selector? rest more others, readBranch parser nested s = .ok (selector?, rest) →
      skipBlank rest = ',' :: more → motive more others → motive s (selector?.toList ++ others))
    {list : List Selector} (h : readBranches parser nested s = .ok list) : motive s list := by
  fun_induction readBranches parser nested s generalizing list with
  | case1 => cases h
  | case2 s selector? rest hbranch hend =>
    cases h
    exact last s selector? rest hbranch hend
  | case3 s selector? rest hbranch c tail hrest hcomma _ ih =>
    obtain rfl : c = ',' := beq_iff_eq.1 hcomma
    cases hothers : readBranches parser nested tail with
    | error cause =>
      rw [hothers] at h
      cases h
    | ok others =>
      rw [hothers] at h
      cases h
      exact more s selector? rest tail others hbranch hrest (ih hothers)
  | case4 => cases h

/-- What holds of blank texts, and of the branches of a text if it holds of the lists in shorter texts,
holds of all lists. -/
theorem readLists_induction {motive : List Char → List Selector → Prop}
    (blank : ∀ s, motive s [])
    (branches : ∀ s list,
      (∀ u others, u.length < s.length → readLists parser u = .ok others → motive u others) →
        readBranches parser (readLists parser) (trim s) = .ok list → motive s list)
    {list : List Selector} (h : readLists parser s = .ok list) : motive s list := by
  induction hlength : s.length using Nat.strongRecOn generalizing s list with
  | ind length ih =>
    rw [readLists_eq, readList] at h
    split at h
    · cases h
      exact blank s
    · exact branches s list (fun u others hu hread => ih u.length (by omega) hread rfl) h

/-! ## The number of lookups -/

/-- The lookups of each part that is read were counted. -/
theorem directLookups_readParts {first : Bool} {parts : List Part}
    (h : readParts parser nested first s = .done parts rest) :
    ∀ part ∈ parts, part.directLookups parser.profile < UInt8.size := by
  refine readParts_induction (motive := fun _ _ parts =>
    ∀ part ∈ parts, part.directLookups parser.profile < UInt8.size) (fun _ _ _ _ => by simp) ?_ h
  intro first s part t others hlinked _ hothers
  obtain ⟨combinator, u, -, hpart⟩ := Reading.andThen_eq_done.1 hlinked
  exact List.forall_mem_cons.2 ⟨directLookups_of_readPart hpart, hothers⟩

theorem directLookups_readBranches {list : List Selector} (h : readBranches parser nested s = .ok list) :
    ∀ selector ∈ list, ∀ part ∈ selector.parts, part.directLookups parser.profile < UInt8.size := by
  have hbranch : ∀ s selector? rest, readBranch parser nested s = .ok (selector?, rest) →
      ∀ selector ∈ selector?.toList, ∀ part ∈ selector.parts,
        part.directLookups parser.profile < UInt8.size := by
    intro s selector? rest hread selector hmem
    obtain rfl := Option.mem_toList.1 hmem
    exact directLookups_readParts (readBranch_eq_some hread)
  refine readBranches_induction (motive := fun _ list => ∀ selector ∈ list, ∀ part ∈ selector.parts,
    part.directLookups parser.profile < UInt8.size) (fun s selector? rest hread _ => hbranch s _ rest hread)
    (fun s selector? rest more others hread _ hothers selector hmem => ?_) h
  rcases List.mem_append.1 hmem with hfirst | hlater
  · exact hbranch s _ rest hread selector hfirst
  · exact hothers selector hlater

end TreeQuery.Reader
