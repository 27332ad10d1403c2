import TreeQuery.Proofs.Compiled.Selector
import TreeQuery.Selector.Compiled.Draft
import TreeQuery.Selector.Reader.Part

/-!
# What drafts add up to

A condition is added to a draft exactly if it can be counted, and then the draft is extended by it
(`Draft.add?_compiled`). A part is ended exactly if its lookups can be counted with its classes
(`Draft.endPart?_compiled`). The parts of a selector add up to its compiled form (`Draft.branch_foldl`).
-/

namespace TreeQuery.Compiled

open Reader

/-! ## Conditions -/

/-- The part with further conditions. -/
def Part.extend (p : Profile) (part : Part) (clauses : List TreeQuery.Clause) : Part :=
  let conditions := Clause.compiledAll p clauses
  { part with
    id := ((clauses.filterMap TreeQuery.Clause.id?).getLast?.map (·.value)).or part.id
    classes := part.classes ++ (clauses.filterMap Clause.class?).map (·.value)
    attributes := part.attributes ++ clauses.filterMap Clause.attribute?
    pseudos := part.pseudos ++ conditions.filterMap Clause.pseudo?
    searchName := (clauses.filterMap Clause.searchName?).getLast?.or part.searchName
    getter := (conditions.filterMap (Clause.getter? p)).getLast?.or part.getter
    directLookups := part.directLookups + UInt8.ofNat (clauses.countP Clause.isLookup)
    prefersNative := part.prefersNative
      || clauses.any (fun clause => clause.attribute?.isSome && clause.searchName?.isNone)
      || (clauses.filterMap TreeQuery.Clause.pseudo?).any (·.isSupported p) }

theorem Part.extend_nil (p : Profile) (part : Part) : part.extend p [] = part := by
  obtain ⟨_, _, _, _, _, _, _, _, _, _, _, _⟩ := part
  simp [Part.extend, Clause.compiledAll]

/-- Conditions may be added in portions. -/
theorem Part.extend_append (p : Profile) (part : Part) (clauses others : List TreeQuery.Clause) :
    (part.extend p clauses).extend p others = part.extend p (clauses ++ others) := by
  simp only [Part.extend, Clause.compiledAll_eq_map, List.map_append, List.filterMap_append,
    List.getLast?_append, Option.map_or, Option.or_assoc, List.append_assoc, List.any_append,
    List.countP_append, UInt8.ofNat_add]
  congr 1 <;> ac_rfl

/-- The counter goes up below 256. -/
theorem Part.count?_eq (part : Part) :
    part.count? = if part.directLookups.toNat + 1 < UInt8.size then
      some { part with directLookups := part.directLookups + 1 } else none := by
  have hlt := part.directLookups.toNat_lt
  have hiff : part.directLookups = 255 ↔ part.directLookups.toNat = 255 := by
    rw [← UInt8.toNat_inj]
    rfl
  unfold count?
  split
  · next h => rw [if_neg (by rw [hiff.1 h]; decide)]
  · next h =>
    have hsize : UInt8.size = 256 := rfl
    rw [if_pos (by have := mt hiff.2 h; omega)]

theorem Part.addId?_eq (p : Profile) (part : Part) (name : Ident) :
    part.addId? name = if part.directLookups.toNat + 1 < UInt8.size then
      some (part.extend p [.id name]) else none := by
  rw [addId?, count?_eq]
  simp [Part.extend, List.filterMap_cons, TreeQuery.Clause.id?, Clause.class?, Clause.attribute?,
    TreeQuery.Clause.pseudo?, Clause.searchName?, Clause.compiledAll, Clause.compiled, Clause.pseudo?,
    Clause.getter?, Clause.isLookup]

theorem Part.extend_hasClass (p : Profile) (part : Part) (name : Ident) :
    part.extend p [.hasClass name] = { part with classes := part.classes ++ [name.value] } := by
  simp [Part.extend, List.filterMap_cons, TreeQuery.Clause.id?, Clause.class?, Clause.attribute?,
    TreeQuery.Clause.pseudo?, Clause.searchName?, Clause.compiledAll, Clause.compiled, Clause.pseudo?,
    Clause.getter?, Clause.isLookup]

theorem Part.addTest?_eq (p : Profile) (part : Part) (name : Ident) (comparator : Comparator)
    (operand : String) (ignoreCase : Bool) :
    part.addTest? ⟨name.value, comparator, operand, ignoreCase⟩ =
      if part.directLookups.toNat +
          (TreeQuery.Clause.attribute name comparator operand ignoreCase).isLookup.toNat < UInt8.size then
        some (part.extend p [.attribute name comparator operand ignoreCase]) else none := by
  have hsearch : (TreeQuery.Clause.attribute name comparator operand ignoreCase).searchName? =
      if (AttributeTest.mk name.value comparator operand ignoreCase).isPlainEquality &&
        name.value == "name" then some operand else none := by
    rw [Clause.searchName?, Clause.attribute?, Option.filter_some, apply_ite (Option.map _)]
    rfl
  have hlt := part.directLookups.toNat_lt
  rw [addTest?]
  cases hplain : (AttributeTest.mk name.value comparator operand ignoreCase).isPlainEquality &&
      name.value == "name" <;> rw [hplain] at hsearch <;>
    simp [Part.extend, List.filterMap_cons, TreeQuery.Clause.id?, Clause.class?, Clause.attribute?,
      TreeQuery.Clause.pseudo?, Clause.compiledAll, Clause.compiled, Clause.pseudo?, Clause.getter?,
      Clause.isLookup, hsearch, count?_eq, hlt]

theorem Part.extend_pseudo (p : Profile) (part : Part) (clause : PseudoClause) :
    part.extend p [.pseudo clause] = part.addPseudo p clause.hasGetter
      ⟨clause.pseudo, clause.argument.tier p, clause.argument.compiled p⟩ := by
  obtain ⟨pseudo, hasGetter, written, argument⟩ := clause
  have hsupported : (Pseudo.mk pseudo (argument.tier p) (argument.compiled p)).isSupported p =
      PseudoClause.isSupported p ⟨pseudo, hasGetter, written, argument⟩ := rfl
  rw [Part.addPseudo, hsupported]
  cases hasGetter <;> cases h : PseudoClause.isSupported p ⟨pseudo, _, written, argument⟩ <;>
    simp [Part.extend, List.filterMap_cons, TreeQuery.Clause.id?, Clause.class?, Clause.attribute?,
      TreeQuery.Clause.pseudo?, Clause.searchName?, Clause.compiledAll, Clause.compiled, Clause.pseudo?,
      Clause.getter?, Clause.isLookup, hsupported, h]

theorem Draft.tell_eq (d : Draft) (understood : Bool) (text : String) :
    d.tell understood text = { d with
      native := d.native ++ if understood then text else ""
      fullSupport := d.fullSupport && understood } := by
  cases understood <;> simp [Draft.tell]

/-- The draft with further conditions. -/
def Draft.extend (p : Profile) (d : Draft) (clauses : List TreeQuery.Clause) : Draft where
  parts := d.parts
  part := d.part.extend p clauses
  native := d.native ++ String.join (clauses.map (·.native p))
  fullSupport := d.fullSupport && Clause.allSupported p clauses
  idPosition := if clauses.any (·.id?.isSome) then some d.parts.length else d.idPosition

theorem Draft.extend_nil (p : Profile) (d : Draft) : d.extend p [] = d := by
  simp [Draft.extend, Part.extend_nil, Clause.allSupported, String.join_nil]

/-- Conditions may be added one by one. -/
theorem Draft.extend_cons (p : Profile) (d : Draft) (clause : TreeQuery.Clause)
    (rest : List TreeQuery.Clause) : (d.extend p [clause]).extend p rest = d.extend p (clause :: rest) := by
  simp only [Draft.extend, Part.extend_append, Clause.allSupported, List.singleton_append, List.map_cons,
    List.map_nil, String.join_cons, String.join_nil, String.append_empty, String.append_assoc, List.any_cons,
    List.any_nil, Bool.or_false, Bool.and_true, Bool.and_assoc]
  by_cases hid : clause.id?.isSome = true <;> simp [hid]

theorem Draft.extend_singleton (p : Profile) (d : Draft) (clause : TreeQuery.Clause) :
    d.extend p [clause] =
      { parts := d.parts
        part := d.part.extend p [clause]
        native := d.native ++ clause.native p
        fullSupport := d.fullSupport && clause.isSupported p
        idPosition := if clause.id?.isSome then some d.parts.length else d.idPosition } := by
  simp [Draft.extend, Clause.allSupported, String.join_cons, String.join_nil]

/-- What is known of the part while its conditions are read. -/
def Draft.tally (d : Draft) : Tally := ⟨d.part.id.isSome, d.part.directLookups.toNat⟩

/-- A condition is added if it can be counted. -/
theorem Draft.add?_compiled (p : Profile) (d : Draft) (clause : TreeQuery.Clause) :
    d.add? p (clause.compiled p) = if d.part.directLookups.toNat + clause.isLookup.toNat < UInt8.size then
      some (d.extend p [clause]) else none := by
  have hlt : d.part.directLookups.toNat + 0 < UInt8.size := d.part.directLookups.toNat_lt
  rw [extend_singleton]
  rcases clause with name | name | ⟨name, comparator, operand, ignoreCase⟩ | clause
  · rw [Clause.compiled, Draft.add?, Part.addId?_eq p, apply_ite (Option.map _), Clause.isSupported,
      Bool.and_true]
    rfl
  · rw [Clause.compiled, Draft.add?, Clause.isSupported, Bool.and_true, Part.extend_hasClass]
    exact (if_pos hlt).symm
  · rw [Clause.compiled, Draft.add?, Draft.tell_eq, Part.addTest?_eq p, apply_ite (Option.map _)]
    rfl
  · obtain ⟨pseudo, hasGetter, written, argument⟩ := clause
    rw [Clause.compiled, Draft.add?, Draft.tell_eq, Part.extend_pseudo]
    exact (if_pos hlt).symm

/-- The tally goes along. -/
theorem Draft.tally_extend {p : Profile} {d : Draft} {clause : TreeQuery.Clause}
    (h : d.part.directLookups.toNat + clause.isLookup.toNat < UInt8.size) :
    d.tally.add? clause = some (d.extend p [clause]).tally := by
  have hcount : (d.part.directLookups + UInt8.ofNat clause.isLookup.toNat).toNat =
      d.part.directLookups.toNat + clause.isLookup.toNat := by
    cases hlookup : clause.isLookup with
    | false => simp
    | true =>
      rw [hlookup] at h
      rw [UInt8.toNat_add]
      exact Nat.mod_eq_of_lt h
  have hone : List.countP Clause.isLookup [clause] = clause.isLookup.toNat := by
    cases hlookup : clause.isLookup <;> simp [hlookup]
  refine (if_pos h).trans ?_
  simp only [Draft.tally, Draft.extend, Part.extend, hone, hcount]
  cases hid : clause.id? <;> simp [hid]

/-! ## Parts -/

/-- A list with at most one value of a partial function has the same first and last one. -/
theorem getLast?_filterMap_of_countP {α β : Type} {f : α → Option β} {list : List α}
    (h : list.countP (fun a => (f a).isSome) ≤ 1) :
    (list.filterMap f).getLast? = list.findSome? f := by
  rw [← List.head?_filterMap]
  rw [← List.length_filterMap_eq_countP] at h
  match list.filterMap f, h with
  | [], _ => rfl
  | [_], _ => rfl

theorem Part.countClasses?_eq (p : Profile) (part : Part) :
    part.countClasses? p =
      if part.directLookups.toNat + (!part.classes.isEmpty && p.classLookup).toNat < UInt8.size then
        some { part with
          directLookups := part.directLookups + UInt8.ofNat (!part.classes.isEmpty && p.classLookup).toNat
          prefersNative := part.prefersNative || (!part.classes.isEmpty && !p.classLookup) }
      else none := by
  have hlt := part.directLookups.toNat_lt
  obtain ⟨_, _, _, _, classes, _, _, _, _, _, _, _⟩ := part
  rw [countClasses?, count?_eq]
  cases classes.isEmpty <;> cases p.classLookup <;> simp [hlt]

/-- The containment is understood if the host knows the mark of the subject and all of the inner
selector. -/
theorem Draft.contain_compiled (p : Profile) {d : Draft} (h : d.part.containment = none)
    (containment : Option Selector) :
    d.contain p (Selector.compiledWithin p containment) = { d with
      part := { d.part with containment := Selector.compiledWithin p containment }
      native := d.native ++ Selector.nativeWithin p containment
      fullSupport := d.fullSupport && Selector.isSupportedWithin p containment } := by
  obtain ⟨parts, part, native, fullSupport, idPosition⟩ := d
  cases containment with
  | none =>
    obtain ⟨_, _, _, _, _, _, _, _, _, _, _, _⟩ := part
    obtain rfl : _ = none := h
    simp [Selector.compiledWithin, Draft.contain, Selector.nativeWithin, Selector.isSupportedWithin]
  | some inner =>
    obtain ⟨inner⟩ := inner
    rw [Selector.compiledWithin, Draft.contain, Draft.tell_eq]
    rfl

/-- A part as far as it is counted, with the conditions and the containment of a selector. -/
def Part.gathered (p : Profile) (part : TreeQuery.Part) : Part :=
  { (Part.named part.combinator part.subject part.tag).extend p part.clauses with
    containment := Selector.compiledWithin p part.containment }

theorem Part.directLookups_gathered (p : Profile) (part : TreeQuery.Part) :
    (Part.gathered p part).directLookups =
      UInt8.ofNat (part.tag.toList.length + part.clauses.countP Clause.isLookup) := by
  show (if part.tag.isSome then (1 : UInt8) else 0) + UInt8.ofNat _ = _
  rw [UInt8.ofNat_add]
  cases part.tag <;> rfl

/-- The compiled part is what its name, its conditions, its containment and its classes add up to. -/
theorem Part.countClasses?_gathered (p : Profile) (part : TreeQuery.Part)
    (hids : part.clauses.countP (·.id?.isSome) ≤ 1)
    (hlookups : part.tag.toList.length + part.clauses.countP Clause.isLookup < UInt8.size) :
    ((Part.gathered p part).countClasses? p).map Part.attachShapes =
      if part.directLookups p < UInt8.size then some (part.compiled p) else none := by
  have hcount := Part.directLookups_gathered p part
  have hclasses : (Part.gathered p part).classes.isEmpty = part.classes.isEmpty := by
    show ([] ++ part.classes.map Ident.value).isEmpty = _
    rw [List.nil_append, List.isEmpty_map]
  rw [Part.countClasses?_eq, hcount, hclasses, UInt8.toNat_ofNat_of_lt' hlookups, apply_ite (Option.map _)]
  refine congrArg (fun found => if part.directLookups p < UInt8.size then some found else none) ?_
  obtain ⟨combinator, subject, tag, clauses, containment⟩ := part
  have hid := getLast?_filterMap_of_countP hids
  rw [Part.compiled, ← UInt8.ofNat_add]
  dsimp only [Part.gathered, Part.extend, Part.named, Part.empty]
  congr 2
  · rw [hid, Option.or_none]
    rfl
  · rw [Option.or_none]
    rfl
  · rw [Option.or_none]

/-- Adds a part of a selector. -/
def Draft.addPart (p : Profile) (d : Draft) (part : TreeQuery.Part) : Draft where
  parts := d.parts ++ [part.compiled p]
  part := .empty
  native := d.native ++ ((if d.parts.isEmpty then "" else part.nativeLink) ++ part.native p)
  fullSupport := d.fullSupport &&
    (!(d.parts.isEmpty && part.combinator.isSome) && part.isSupported p)
  idPosition := if part.id?.isSome then some d.parts.length else d.idPosition

/-- A part is ended if its lookups can be counted with its classes. -/
theorem Draft.endPart?_compiled (p : Profile) (d : Draft) (part : TreeQuery.Part)
    (hids : part.clauses.countP (·.id?.isSome) ≤ 1)
    (hlookups : part.tag.toList.length + part.clauses.countP Clause.isLookup < UInt8.size) :
    (((d.begin p part.combinator part.subject part.tag).extend p part.clauses).contain p
        (Selector.compiledWithin p part.containment)).endPart? p =
      if part.directLookups p < UInt8.size then some (d.addPart p part) else none := by
  have hend := Part.countClasses?_gathered p part hids hlookups
  rw [Draft.contain_compiled p rfl, Draft.endPart?]
  show ((Part.gathered p part).countClasses? p).map _ = _
  split at hend
  · next hcount =>
    obtain ⟨found, hfound, hcompiled⟩ := Option.map_eq_some_iff.1 hend
    rw [if_pos hcount, hfound, Option.map_some, hcompiled]
    obtain ⟨combinator, subject, tag, clauses, containment⟩ := part
    congr 2
    · simp only [Draft.begin, Draft.extend, TreeQuery.Part.native, Part.nativeHead, String.append_assoc]
      rfl
    · simp only [Draft.begin, Draft.extend, TreeQuery.Part.isSupported, Bool.and_assoc]
    · rw [TreeQuery.Part.id?, List.isSome_findSome?]
      rfl
  · next hcount =>
    rw [if_neg hcount, Option.map_eq_none_iff.1 hend]
    rfl

/-! ## Branches -/

/-- The counter of a compiled part holds the number of the lookups of the part, if they can be counted. -/
theorem Part.toNat_directLookups_compiled {p : Profile} {part : TreeQuery.Part}
    (h : part.directLookups p < UInt8.size) :
    (part.compiled p).directLookups.toNat = part.directLookups p := by
  rw [Part.directLookups_compiled, UInt8.toNat_ofNat_of_lt' h]

/-- The choice of the host is the same for the parts and for their compiled forms. -/
theorem Part.useNative_compiledAll {p : Profile} {parts : List TreeQuery.Part}
    (h : ∀ part ∈ parts, part.directLookups p < UInt8.size) :
    Part.useNative (Part.compiledAll p parts) = Selector.usesNative p ⟨parts⟩ := by
  have hgetter : (Part.compiledAll p parts).getLast?.any (·.getter.isSome) =
      parts.getLast?.any fun part => (part.getter? p).isSome := by
    rw [Part.compiledAll_eq_map, List.getLast?_map, Option.any_map]
    congr 1
    funext part
    rw [Part.getter_compiled, Option.isSome_map]
  unfold Part.useNative Selector.usesNative
  rw [hgetter]
  match parts, h with
  | [], _ | _ :: _ :: _, _ => rfl
  | [part], h =>
    have hcount := Part.toNat_directLookups_compiled (h part List.mem_cons_self)
    have hfew : decide ((part.compiled p).directLookups < 2) = decide (part.directLookups p < 2) :=
      decide_eq_decide.2 (by rw [UInt8.lt_iff_toNat_lt, hcount]; rfl)
    simp only [Part.compiledAll, hfew, Part.prefersNative_compiled]
    rfl

/-- The last id of parts is that of the parts behind the first one, or else the first one may have it. -/
theorem lastId_cons (part : TreeQuery.Part) (rest : List TreeQuery.Part) (position : Nat)
    (before : Option Nat) :
    ((((rest.zipIdx (position + 1)).filter (·.1.id?.isSome)).getLast?.map (·.2)).or
      (if part.id?.isSome then some position else before)) =
      (((((part :: rest).zipIdx position).filter (·.1.id?.isSome)).getLast?.map (·.2)).or before) := by
  rw [List.zipIdx_cons, List.filter_cons]
  cases part.id?.isSome with
  | false => rfl
  | true =>
    rw [if_pos rfl, if_pos rfl, List.getLast?_cons]
    cases ((rest.zipIdx (position + 1)).filter (·.1.id?.isSome)).getLast? <;> rfl

/-- What the parts behind the first one change. -/
theorem Draft.foldl_addPart (p : Profile) (d : Draft) (parts : List TreeQuery.Part)
    (hparts : d.parts.isEmpty = false) (hpart : d.part = .empty) :
    parts.foldl (Draft.addPart p) d =
      { parts := d.parts ++ Part.compiledAll p parts
        part := .empty
        native := d.native ++ Part.nativeRest p parts
        fullSupport := d.fullSupport && Part.allSupported p parts
        idPosition := (((parts.zipIdx d.parts.length).filter (·.1.id?.isSome)).getLast?.map
          (·.2)).or d.idPosition } := by
  induction parts generalizing d with
  | nil =>
    obtain ⟨_, _, _, _, _⟩ := d
    obtain rfl : _ = Part.empty := hpart
    simp [Part.compiledAll, Part.nativeRest, Part.allSupported]
  | cons part rest ih =>
    rw [List.foldl_cons, ih _ (by simp [Draft.addPart]) rfl, Draft.addPart, hparts, ← lastId_cons]
    congr 1
    · rw [List.append_assoc, List.singleton_append, Part.compiledAll]
    · simp [Part.nativeRest, String.append_assoc]
    · simp [Part.allSupported, Bool.and_assoc]
    · rw [List.length_append, List.length_singleton]

/-- The pieces of a selector add up to its compiled form. -/
theorem Draft.branch_foldl (p : Profile) (parts : List TreeQuery.Part)
    (hcounts : ∀ part ∈ parts, part.directLookups p < UInt8.size) :
    (parts.foldl (Draft.addPart p) .start).branch = Selector.compiled p ⟨parts⟩ := by
  cases parts with
  | nil => rfl
  | cons part rest =>
    -- only here a part has nothing in front of it, and a combinator costs the branch its full support
    have hlast := lastId_cons part rest 0 none
    rw [Option.or_none] at hlast
    have hparts : (Draft.start.addPart p part).parts.isEmpty = false := rfl
    rw [List.foldl_cons, Draft.foldl_addPart p _ rest hparts rfl, Draft.addPart, Draft.branch,
      Selector.compiled, ← Part.useNative_compiledAll hcounts]
    congr 1
    · simp [Draft.start, Selector.isSupported, Part.allSupported, Bool.and_assoc]

end TreeQuery.Compiled
