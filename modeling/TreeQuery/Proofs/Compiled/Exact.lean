import TreeQuery.Proofs.Compiled.Draft
import TreeQuery.Selector.Compiled.Reader
import TreeQuery.Proofs.Reader.Legible

/-!
# Compiling while reading

Reading compiled selectors under a profile is reading plain selectors and compiling them
(`Compiled.read_eq`), with the same errors. So of the two forms the plain one is enough to say which texts are
selector lists, which branches are dead and which texts overflow.
-/

namespace TreeQuery

open Text

variable {α β γ : Type}

/-! ## Outcomes -/

namespace Reading

theorem map_map (r : Reading α) (f : α → β) (g : β → γ) : (r.map f).map g = r.map fun x => g (f x) := by
  cases r <;> rfl

theorem map_andThen (r : Reading α) (f : α → β) (next : β → List Char → Reading γ) :
    (r.map f).andThen next = r.andThen fun x rest => next (f x) rest := by
  cases r <;> rfl

theorem andThen_map (r : Reading α) (next : α → List Char → Reading β) (f : β → γ) :
    (r.andThen next).map f = r.andThen fun x rest => (next x rest).map f := by
  cases r <;> rfl

theorem map_congr {r : Reading α} {f g : α → β} (h : ∀ x rest, r = .done x rest → f x = g x) :
    r.map f = r.map g :=
  andThen_congr fun x rest hr => by rw [h x rest hr]

end Reading

/-! ## Ids -/

namespace Reader

variable {parser : Parser} {nested : ListReader} {s rest : List Char}

/-- No second id is read. -/
theorem id?_of_readClause? {hasId : Bool} {clause : Clause}
    (h : readClause? parser nested hasId s = some (.done clause rest)) :
    hasId = true → clause.id? = none := by
  unfold readClause? at h
  split at h
  · intro hid
    rw [hid, if_pos rfl] at h
    cases h
  · obtain ⟨name, -, rfl⟩ := readClass_eq_done (Option.some.inj h)
    exact fun _ => rfl
  · obtain ⟨_, _, _, _, _, -, rfl, -⟩ := readAttribute_eq_done (Option.some.inj h)
    exact fun _ => rfl
  · have h := Option.some.inj h
    unfold readPseudo at h
    split at h
    · cases h
    · obtain ⟨inner?, t, -, h⟩ := Reading.andThen_eq_done.1 h
      split at h
      · cases h
      · obtain ⟨argument, -, rfl⟩ := Reading.map_eq_done.1 h
        exact fun _ => rfl
  · cases h

theorem countP_readClauses {tally : Tally} {clauses : List Clause}
    (h : readClauses parser nested tally s = .done clauses rest) :
    clauses.countP (·.id?.isSome) + tally.hasId.toNat ≤ 1 := by
  refine readClauses_induction (motive := fun tally _ clauses =>
    clauses.countP (·.id?.isSome) + tally.hasId.toNat ≤ 1) (fun tally => ?_) ?_ h
  · simpa using Bool.toNat_le tally.hasId
  · rintro ⟨hasId, lookups⟩ s clause t tally' others hfirst htally hcount
    have hid := id?_of_readClause? hfirst
    rw [Tally.hasId_of_add? htally] at hcount
    rw [List.countP_cons]
    cases hasId with
    | true =>
      rw [hid rfl] at hcount ⊢
      simpa using hcount
    | false => cases hsome : clause.id?.isSome <;> simpa [hsome] using hcount

/-- The conditions of a part are counted below 256. -/
theorem lookups_readClauses {tally : Tally} {clauses : List Clause}
    (h : readClauses parser nested tally s = .done clauses rest) (hlt : tally.lookups < UInt8.size) :
    tally.lookups + clauses.countP Clause.isLookup < UInt8.size := by
  revert hlt
  refine readClauses_induction (motive := fun tally _ clauses => tally.lookups < UInt8.size →
    tally.lookups + clauses.countP Clause.isLookup < UInt8.size) (fun _ hlt => hlt) ?_ h
  intro tally s clause t tally' others _ htally ih _
  obtain ⟨hsum, rfl⟩ := Tally.add?_eq_some.1 htally
  rw [countP_isLookup_cons, ← Nat.add_assoc]
  exact ih hsum

end Reader

/-! ## Tiers -/

/-- The compiled part has the pseudo-classes of the part. -/
theorem Part.kinds_compiled (p : Profile) (part : Part) :
    (part.compiled p).pseudos.map (·.pseudo) = part.pseudos.map (·.pseudo) := by
  obtain ⟨combinator, subject, tag, clauses, containment⟩ := part
  simp only [Part.compiled, Compiled.Part.attachShapes, List.map_map, Function.comp_def,
    Compiled.Pseudo.pseudo_attach, Part.pseudos]
  induction clauses with
  | nil => rfl
  | cons clause rest ih =>
    rcases clause with _ | _ | _ | clause
    · exact ih
    · exact ih
    · exact ih
    · obtain ⟨pseudo, _, _, _⟩ := clause
      exact congrArg (pseudo :: ·) ih

theorem Selector.nestsLists_compiled (p : Profile) (selector : Selector) :
    (selector.compiled p).nestsLists = selector.nestsLists := by
  obtain ⟨parts⟩ := selector
  have hpart : ∀ part : Part, (part.compiled p).pseudos.any (·.pseudo.isSelfReferential) =
      part.pseudos.any (·.pseudo.isSelfReferential) := by
    intro part
    have hkinds := congrArg (·.any PseudoClass.isSelfReferential) (part.kinds_compiled p)
    rwa [List.any_map, List.any_map] at hkinds
  rw [Compiled.Branch.nestsLists, Selector.nestsLists, Selector.compiled, Part.compiledAll_eq_map,
    List.any_map]
  exact List.any_congr rfl fun part => hpart part

/-- The tier of a compiled list is the tier of the argument. -/
theorem Compiled.listTier_compiledAll (p : Profile) (list : List Selector) :
    Compiled.listTier (Selector.compiledAll p list) = Argument.tier p (.nested list) := by
  have hsupport : (list.map (·.compiled p)).all (·.fullSupport) = Selector.allSupported p list := by
    rw [Selector.allSupported_eq_all, List.all_map]
    exact List.all_congr rfl fun ⟨_⟩ => rfl
  have hnests : (list.map (·.compiled p)).any (·.nestsLists) = list.any (·.nestsLists) := by
    rw [List.any_map]
    exact List.any_congr rfl fun selector => selector.nestsLists_compiled p
  have hlong : (list.map (·.compiled p)).any (1 < ·.parts.length) = list.any (1 < ·.parts.length) := by
    rw [List.any_map]
    refine List.any_congr rfl fun ⟨parts⟩ => ?_
    simp only [Function.comp_apply, Selector.compiled, Part.compiledAll_eq_map, List.length_map]
  rw [Compiled.listTier, Selector.compiledAll_eq_map, hsupport, hnests, hlong, List.isEmpty_map,
    List.length_map, Argument.tier, Selector.listTier]

namespace Compiled

variable {parser : Parser} {p : Profile} {first : ListReader} {second : TreeQuery.ListReader}
  {s : List Char}

/-- The compiled lists that one reader returns are those that the other one returns, compiled. -/
def Compiles (p : Profile) (first : ListReader) (second : TreeQuery.ListReader) : Prop :=
  ∀ s, first s = (second s).map (Selector.compiledAll p)

/-! ## Conditions -/

theorem readArgument_eq (h : Compiles p first second) (entry : Entry) (inner? : Option (List Char))
    (rest : List Char) :
    readArgument first entry inner? rest = (Reader.readArgument second entry inner? rest).map
      fun argument => ⟨entry.pseudo, argument.tier p, argument.compiled p⟩ := by
  by_cases hgrammar : entry.grammar = .nested
  · simp only [readArgument, Reader.readArgument, hgrammar, Reader.withArgument]
    cases trim (inner?.getD []) with
    | nil => rfl
    | cons c u =>
      simp only [h (c :: u), Reader.readNested]
      cases second (c :: u) with
      | error cause => rfl
      | ok list =>
        show Reading.done (Pseudo.mk entry.pseudo (listTier (Selector.compiledAll p list)) _) rest = _
        rw [listTier_compiledAll]
        rfl
  · -- without a nested list both readers are the plain one
    have hplain : Reader.readArgument (fun _ => .ok []) entry inner? rest =
        Reader.readArgument second entry inner? rest := by
      unfold Reader.readArgument
      split <;> first | rfl | contradiction
    have hread : readArgument first entry inner? rest =
        (Reader.readArgument (fun _ => .ok []) entry inner? rest).map fun argument =>
          ⟨entry.pseudo, 1, .plain argument⟩ := by
      unfold readArgument
      split
      · contradiction
      · rfl
    rw [hread, hplain]
    refine Reading.map_congr fun argument rest' hdone => ?_
    have hfits := Reader.fits_readArgument hdone
    cases argument with
    | nested list =>
      cases hnested : entry.grammar <;> rw [hnested] at hfits
      case nested => contradiction
      all_goals exact hfits.elim
    | _ => rfl

theorem readPseudo_eq (h : Compiles p first second) (s : List Char) :
    readPseudo parser first s = (Reader.readPseudo parser second s).map (Clause.compiled p) := by
  unfold readPseudo Reader.readPseudo
  cases ident? s with
  | none => rfl
  | some found =>
    obtain ⟨name, t⟩ := found
    dsimp only
    rw [Reading.andThen_map]
    refine Reading.andThen_congr fun inner? rest _ => ?_
    cases parser.registry.lookup name.value with
    | none => rfl
    | some entry =>
      dsimp only
      rw [readArgument_eq h, Reading.map_map, Reading.map_map]
      rfl

theorem readClause?_eq (h : Compiles p first second) (hasId : Bool) (s : List Char) :
    readClause? parser first hasId s =
      (Reader.readClause? parser second hasId s).map (·.map (Clause.compiled p)) := by
  have hplain : ∀ r : Reading TreeQuery.Clause,
      (∀ clause rest, r = .done clause rest → clause.pseudo? = none) →
        r.map Clause.plain = r.map (Clause.compiled p) := by
    intro r hr
    refine Reading.map_congr fun clause rest hdone => ?_
    have hclause := hr clause rest hdone
    rcases clause with _ | _ | _ | clause
    · rfl
    · rfl
    · rfl
    · cases hclause
  fun_cases readClause? parser first hasId s with
  | case1 s =>
    cases hasId with
    | true => rfl
    | false =>
      refine congrArg some (hplain _ fun clause rest hdone => ?_)
      obtain ⟨name, -, rfl⟩ := Reader.readId_eq_done hdone
      rfl
  | case2 s =>
    refine congrArg some (hplain _ fun clause rest hdone => ?_)
    obtain ⟨name, -, rfl⟩ := Reader.readClass_eq_done hdone
    rfl
  | case3 s =>
    refine congrArg some (hplain _ fun clause rest hdone => ?_)
    obtain ⟨_, _, _, _, _, -, rfl, -⟩ := Reader.readAttribute_eq_done hdone
    rfl
  | case4 s => exact congrArg some (readPseudo_eq h s)
  | case5 _ hid hclass hattribute hpseudo =>
    -- no condition begins with the first character, if there is one
    rw [Reader.readClause?.eq_def]
    split <;> simp_all

theorem readClauses_eq_map (h : Compiles parser.profile first second) (d : Draft) (s : List Char) :
    readClauses parser first d s =
      (Reader.readClauses parser second d.tally s).map (d.extend parser.profile) := by
  induction hlength : s.length using Nat.strongRecOn generalizing d s with
  | ind length ih =>
    rw [readClauses_eq, Reader.readClauses_eq, readClause?_eq h, Draft.tally]
    cases hfirst : Reader.readClause? parser second d.part.id.isSome s with
    | none => exact congrArg (Reading.done · s) (d.extend_nil _).symm
    | some r =>
      have hleaves := Reader.leaves_readClause? hfirst
      show (r.map (Clause.compiled parser.profile)).andThen _ = Reading.map _ (r.andThen _)
      rw [Reading.map_andThen, Reading.andThen_map]
      refine Reading.andThen_congr fun clause rest hdone => ?_
      rw [hdone] at hleaves
      have hlt : rest.length < length := hlength ▸ hleaves
      rw [Draft.add?_compiled]
      by_cases hcount : d.part.directLookups.toNat + clause.isLookup.toNat < UInt8.size
      · rw [if_pos hcount]
        -- both go on, and the tally goes along with the draft
        have htally := Draft.tally_extend (p := parser.profile) hcount
        rw [Draft.tally] at htally
        rw [htally]
        dsimp only
        rw [ih _ hlt _ _ rfl, Reading.map_map]
        exact Reading.map_congr fun others _ _ => Draft.extend_cons _ d clause others
      · rw [if_neg hcount, Reader.Tally.add?, if_neg hcount]
        rfl

/-! ## Parts -/

theorem readContainment_eq (h : Compiles p first second) (d : Draft) (s : List Char) :
    readContainment p first d s = (Reader.readContainment second s).map fun containment =>
      d.contain p (Selector.compiledWithin p containment) := by
  unfold readContainment Reader.readContainment
  dsimp only
  split
  · rfl
  · rw [h]
    cases second (branchSpan s).1 with
    | error cause => rfl
    | ok list => cases list <;> rfl

theorem endPart_eq (p : Profile) (d : Draft) (part : TreeQuery.Part)
    (hids : part.clauses.countP (·.id?.isSome) ≤ 1)
    (hlookups : part.tag.toList.length + part.clauses.countP Clause.isLookup < UInt8.size) (rest : List Char) :
    endPart p (((d.begin p part.combinator part.subject part.tag).extend p part.clauses).contain p
        (Selector.compiledWithin p part.containment)) rest =
      (Reader.endPart p part rest).map (d.addPart p) := by
  rw [endPart, d.endPart?_compiled p part hids hlookups, Reader.endPart]
  split
  · next hnone => rw [if_neg fun hlt => by rw [if_pos hlt] at hnone; cases hnone]; rfl
  · next hsome =>
    split at hsome
    · next hlt => rw [if_pos hlt, ← Option.some.inj hsome]; rfl
    · cases hsome

theorem readPart_eq (h : Compiles parser.profile first second) (d : Draft)
    (combinator : Option Combinator) (s : List Char) :
    readPart parser first d combinator s =
      (Reader.readPart parser second combinator s).map (d.addPart parser.profile) := by
  unfold readPart Reader.readPart
  dsimp only
  have htally : (d.begin parser.profile combinator (Reader.subjectMark s).1
      (Reader.readTag (Reader.subjectMark s).2).1).tally =
        .start (Reader.readTag (Reader.subjectMark s).2).1 := by
    cases (Reader.readTag (Reader.subjectMark s).2).1 <;> rfl
  rw [readClauses_eq_map h, htally, Reading.map_andThen, Reading.andThen_map]
  refine Reading.andThen_congr fun clauses rest hclauses => ?_
  have hids := Reader.countP_readClauses hclauses
  have hlookups := Reader.lookups_readClauses hclauses (Reader.Tally.lookups_start_lt _)
  cases (Reader.subjectMark s).1 with
  | true =>
    rw [if_pos rfl, if_pos rfl, readContainment_eq h, Reading.map_andThen, Reading.andThen_map]
    refine Reading.andThen_congr fun containment rest _ => ?_
    exact endPart_eq parser.profile d ⟨combinator, true, _, clauses, containment⟩ hids hlookups rest
  | false =>
    rw [if_neg Bool.false_ne_true, if_neg Bool.false_ne_true, apply_ite (Reading.map _)]
    refine if_congr Iff.rfl ?_ rfl
    exact endPart_eq parser.profile d ⟨combinator, false, _, clauses, none⟩ hids hlookups rest

theorem readLinkedPart_eq (h : Compiles parser.profile first second) (d : Draft) (spaced : Bool)
    (s : List Char) :
    readLinkedPart parser first d spaced s =
      (Reader.readLinkedPart parser second d.parts.isEmpty spaced s).map (d.addPart parser.profile) := by
  unfold readLinkedPart Reader.readLinkedPart
  rw [Reading.andThen_map]
  congr 1
  funext combinator rest
  exact readPart_eq h d combinator rest

theorem readParts_eq_map (h : Compiles parser.profile first second) (d : Draft) (s : List Char) :
    readParts parser first d s =
      (Reader.readParts parser second d.parts.isEmpty s).map fun parts =>
        parts.foldl (Draft.addPart parser.profile) d := by
  induction hlength : s.length using Nat.strongRecOn generalizing d s with
  | ind length ih =>
    rw [readParts_eq, Reader.readParts_eq]
    split
    · rfl
    · have hleaves := Reader.leaves_readLinkedPart parser second d.parts.isEmpty
        ((skipBlank s).length < s.length) (skipBlank s)
      rw [readLinkedPart_eq h, Reading.map_andThen, Reading.andThen_map]
      refine Reading.andThen_congr fun part rest hdone => ?_
      rw [hdone] at hleaves
      have hlt : rest.length < length :=
        hlength ▸ Nat.lt_of_lt_of_le hleaves (length_skipBlank_le s)
      -- the part that follows is not the first one for either reader
      have hparts : (d.addPart parser.profile part).parts.isEmpty = false := by
        simp [Draft.addPart]
      rw [ih _ hlt _ _ rfl, Reading.map_map, hparts]
      rfl

/-! ## Branches and lists -/

theorem readBranch_eq (h : Compiles parser.profile first second) (s : List Char) :
    readBranch parser first s = (Reader.readBranch parser second s).map fun branch =>
      (branch.1.map (Selector.compiled parser.profile), branch.2) := by
  unfold readBranch Reader.readBranch
  split
  · rfl
  · have hparts : readParts parser first .start (skipBlank s) =
        (Reader.readParts parser second true (skipBlank s)).map _ := readParts_eq_map h .start _
    cases hread : Reader.readParts parser second true (skipBlank s) with
    | dead rest | fatal cause =>
      rw [hread] at hparts
      rw [hparts]
      rfl
    | done parts rest =>
      rw [hread] at hparts
      rw [hparts]
      have hbranch := Draft.branch_foldl parser.profile parts (Reader.directLookups_readParts hread)
      exact congrArg (fun branch => Except.ok (some branch, rest)) hbranch

theorem readBranches_eq_map (h : Compiles parser.profile first second) (s : List Char) :
    readBranches parser first s =
      (Reader.readBranches parser second s).map (Selector.compiledAll parser.profile) := by
  induction hlength : s.length using Nat.strongRecOn generalizing s with
  | ind length ih =>
    rw [readBranches_eq, Reader.readBranches_eq, readBranch_eq h]
    cases hbranch : Reader.readBranch parser second s with
    | error cause => rfl
    | ok found =>
      obtain ⟨selector?, rest⟩ := found
      have hlength' := Reader.length_readBranch_le hbranch
      have hblank := length_skipBlank_le rest
      dsimp only [Except.map]
      cases hrest : skipBlank rest with
      | nil => cases selector? <;> rfl
      | cons c more =>
        rw [hrest, List.length_cons] at hblank
        dsimp only
        split
        · rw [ih more.length (by omega) more rfl]
          cases Reader.readBranches parser second more with
          | error cause => rfl
          | ok others => cases selector? <;> rfl
        · rfl

theorem compiles_readAt (parser : Parser) (levels : Nat) :
    Compiles parser.profile (readAt parser levels) (Reader.readAt parser levels) := by
  induction levels with
  | zero => exact fun _ => rfl
  | succ levels ih =>
    intro s
    rw [readAt, Reader.readAt, readList, Reader.readList]
    cases trim s with
    | nil => rfl
    | cons c t => exact readBranches_eq_map ih (c :: t)

/-- Reading compiled selectors is reading selectors and compiling them. -/
theorem read_eq (parser : Parser) (text : String) :
    read parser text = (Selector.read parser text).map (·.map (Selector.compiled parser.profile)) := by
  have hread := compiles_readAt parser (Reader.openers text.toList + 1) text.toList
  rw [read, hread, Selector.read]
  cases Reader.readAt parser (Reader.openers text.toList + 1) text.toList with
  | error cause => rfl
  | ok list => exact congrArg Except.ok (Selector.compiledAll_eq_map parser.profile list)

/-- What fails is the same. -/
theorem read_eq_error_iff {parser : Parser} {text : String} {error : ReadError SyntaxError} :
    read parser text = .error error ↔ Selector.read parser text = .error error := by
  rw [read_eq]
  cases Selector.read parser text with
  | error other => exact ⟨fun h => congrArg Except.error (Except.error.inj h), fun h => h ▸ rfl⟩
  | ok list => exact ⟨nofun, nofun⟩

/-- What is read are the plain selectors, compiled. -/
theorem read_eq_ok_iff {parser : Parser} {text : String} {list : List Branch} :
    read parser text = .ok list ↔
      ∃ selectors, Selector.read parser text = .ok selectors ∧
        selectors.map (Selector.compiled parser.profile) = list := by
  rw [read_eq]
  cases Selector.read parser text with
  | error other => exact ⟨nofun, nofun⟩
  | ok selectors => exact ⟨fun h => ⟨selectors, rfl, Except.ok.inj h⟩, fun ⟨_, h, hlist⟩ =>
      congrArg Except.ok (Except.ok.inj h ▸ hlist)⟩

end Compiled
end TreeQuery
