import TreeQuery.Selector.Native
import TreeQuery.Proofs.Match.Place

/-!
# What a host is told of a selector

The text for a host leaves out the conditions that the host does not evaluate. Fewer conditions accept
more nodes, with one exception: the conditions that compare an element with like siblings are about the
rest of the part, and with a smaller rest more siblings are alike. So a part must keep all that decides
which siblings are alike as soon as it keeps such a condition (`Part.KeepsShape`). Then every node that
satisfies the selector satisfies what is kept of it.
-/

namespace TreeQuery

variable {p : Profile} {sc : Scene} {node : NodeId} {part : Part} {clause : Clause}

/-- The containment that a host is told. -/
def Selector.keptWithin (p : Profile) (containment : Option Selector) : Option Selector :=
  containment.filter fun inner => p.marksSubject && inner.isSupported p

/-- The part without its relation to another one. -/
def Part.detached (part : Part) : Part :=
  ⟨none, part.subject, part.tag, part.clauses, part.containment⟩

/-- The part that a host is told: with the conditions that the host evaluates, and the mark and the
containment of a subject if the host knows them. -/
def Part.kept (p : Profile) (part : Part) : Part :=
  { part with
    subject := part.subject && p.marksSubject
    clauses := part.clauses.filter (·.isSupported p)
    containment := Selector.keptWithin p part.containment }

/-- The parts that a host is told. The relation of the first one to the scope is left out. -/
def Part.keptChain (p : Profile) : List Part → List Part
  | [] => []
  | part :: rest => (part.kept p).detached :: rest.map (·.kept p)

/-- The selector that a host is told. -/
def Selector.kept (p : Profile) (selector : Selector) : Selector := ⟨Part.keptChain p selector.parts⟩

/-- If the host is told a condition on like siblings, it is told all that makes siblings alike. -/
def Part.KeepsShape (p : Profile) (part : Part) : Prop :=
  ∀ clause ∈ part.clauses, clause.isRelative = true → clause.isSupported p = true →
    (∀ other ∈ part.clauses, other.isRelative = false → other.isSupported p = true) ∧
      Selector.isSupportedWithin p part.containment = true

/-! ## One part -/

namespace Part

/-- With fewer conditions a part has no more lookups. -/
theorem directLookups_le {other : Part} (htag : other.tag = part.tag)
    (hclauses : other.clauses.Sublist part.clauses) : other.directLookups p ≤ part.directLookups p := by
  have hclasses : other.classes.Sublist part.classes := hclauses.filterMap _
  have hempty : (!other.classes.isEmpty && p.classLookup).toNat ≤
      (!part.classes.isEmpty && p.classLookup).toNat := by
    cases hpart : part.classes with
    | nil =>
      rw [hpart, List.sublist_nil] at hclasses
      rw [hclasses]
    | cons name rest => cases other.classes.isEmpty <;> cases p.classLookup <;> simp
  have hcount := hclauses.countP_le (p := Clause.isLookup)
  unfold directLookups
  rw [htag]
  omega

/-- Neither the combinator nor the mark of the subject matters to the nodes of a part. -/
theorem accepts_congr {other : Part} (htag : part.tag = other.tag) (hclauses : part.clauses = other.clauses)
    (hcontainment : part.containment = other.containment) : part.accepts sc = other.accepts sc := by
  obtain ⟨_, _, _, _, _⟩ := part
  obtain ⟨_, _, _, _, _⟩ := other
  obtain rfl : _ = _ := htag
  obtain rfl : _ = _ := hclauses
  obtain rfl : _ = _ := hcontainment
  rfl

theorem accepts_detached (part : Part) : part.detached.accepts sc = part.accepts sc :=
  accepts_congr rfl rfl rfl

theorem keptWithin_of_supported {containment : Option Selector}
    (h : Selector.isSupportedWithin p containment = true) :
    Selector.keptWithin p containment = containment := by
  cases containment with
  | none => rfl
  | some inner => exact Option.filter_some_pos h

/-- What is like an element of a part is like an element of what is kept. -/
theorem isLike_kept (h : part.isLike sc node = true) : (part.kept p).isLike sc node = true := by
  obtain ⟨helement, htag, hclauses, hbelow⟩ := isLike_iff.1 h
  refine isLike_iff.2 ⟨helement, htag, fun clause hmem => hclauses clause (List.mem_filter.1 hmem).1, ?_⟩
  show Selector.acceptsBelow sc (Selector.keptWithin p part.containment) node = true
  cases hcontainment : part.containment with
  | none => rfl
  | some inner =>
    rw [hcontainment] at hbelow
    rw [Selector.keptWithin, Option.filter_some]
    split
    · exact hbelow
    · rfl

/-- The same elements are alike when only conditions on like siblings are left out. -/
theorem isLike_kept_eq
    (hclauses : ∀ clause ∈ part.clauses, clause.isRelative = false → clause.isSupported p = true)
    (hcontainment : Selector.isSupportedWithin p part.containment = true) :
    (part.kept p).isLike sc = part.isLike sc := by
  funext node
  rw [Bool.eq_iff_iff]
  refine ⟨fun h => ?_, isLike_kept⟩
  obtain ⟨helement, htag, hkept, hbelow⟩ := isLike_iff.1 h
  have hwithin : (part.kept p).containment = part.containment := keptWithin_of_supported hcontainment
  rw [hwithin] at hbelow
  refine isLike_iff.2 ⟨helement, htag, fun clause hmem => ?_, hbelow⟩
  -- a comparison with like siblings is no condition for being alike
  cases hrelative : clause.isRelative with
  | true => exact Clause.accepts_of_isRelative sc hrelative node
  | false => exact hkept clause (List.mem_filter.2 ⟨hmem, hclauses clause hmem hrelative⟩)

theorem mem_pseudos_kept {pseudo : PseudoClause} (h : pseudo ∈ (part.kept p).pseudos) :
    pseudo ∈ part.pseudos ∧ .pseudo pseudo ∈ part.clauses ∧
      (Clause.pseudo pseudo).isSupported p = true := by
  obtain ⟨hmem, hsupported⟩ := List.mem_filter.1 (mem_pseudos.1 h)
  exact ⟨mem_pseudos.2 hmem, hmem, hsupported⟩

/-- What satisfies a part satisfies what is kept of it. -/
theorem accepts_kept (hshape : part.KeepsShape p) (h : part.accepts sc node = true) :
    (part.kept p).accepts sc node = true := by
  obtain ⟨hlike, hpseudos⟩ := accepts_iff.1 h
  refine accepts_iff.2 ⟨isLike_kept hlike, fun pseudo hmem => ?_⟩
  obtain ⟨hpseudo, hclause, hsupported⟩ := mem_pseudos_kept hmem
  cases hrelative : pseudo.pseudo.isRelative with
  | false => exact sc.compares_of_not_isRelative _ hrelative node
  | true =>
    obtain ⟨hclauses, hcontainment⟩ := hshape _ hclause hrelative hsupported
    -- the comparison with like siblings is the only test that is not monotone
    rw [isLike_kept_eq hclauses hcontainment]
    exact hpseudos pseudo hpseudo

/-- Of a supported part everything is kept but the mark of the subject. -/
theorem accepts_kept_eq (h : part.isSupported p = true) : (part.kept p).accepts sc = part.accepts sc := by
  obtain ⟨combinator, subject, tag, clauses, containment⟩ := part
  rw [isSupported, Clause.allSupported_eq_all, Bool.and_eq_true, List.all_eq_true] at h
  refine accepts_congr rfl ?_ (keptWithin_of_supported h.2)
  exact List.filter_eq_self.2 h.1

/-- A host that knows the mark of the subject is told a supported part as it is. -/
theorem kept_eq_self (hmarks : p.marksSubject = true) (h : part.isSupported p = true) :
    part.kept p = part := by
  obtain ⟨combinator, subject, tag, clauses, containment⟩ := part
  rw [isSupported, Clause.allSupported_eq_all, Bool.and_eq_true, List.all_eq_true] at h
  simp only [kept, hmarks, Bool.and_true, List.filter_eq_self.2 h.1, keptWithin_of_supported h.2]

end Part

/-! ## A selector -/

section

variable {t : Tree} {host : Host} {parts parts' : List Part} {place : Nat → NodeId}

/-- A row is a row for parts that accept as much and are linked in the same way. -/
theorem Tree.Row.transfer (h : t.Row host parts place)
    (hparts : ∀ (i : Nat) (part' : Part), parts'[i]? = some part' → ∃ part, parts[i]? = some part ∧
      (∀ node, part.accepts ⟨t.view, host⟩ node = true → part'.accepts ⟨t.view, host⟩ node = true) ∧
      (0 < i → part'.combinator = part.combinator)) : t.Row host parts' place := by
  refine ⟨fun i part' hpart' => ?_, fun i part' hpart' => ?_⟩
  · obtain ⟨part, hpart, haccepts, -⟩ := hparts i part' hpart'
    exact haccepts _ (h.accepted i part hpart)
  · obtain ⟨part, hpart, -, hlink⟩ := hparts (i + 1) part' hpart'
    rw [hlink (Nat.succ_pos i)]
    exact h.related i part hpart

namespace Part

theorem length_keptChain (p : Profile) (parts : List Part) :
    (keptChain p parts).length = parts.length := by
  cases parts with
  | nil => rfl
  | cons part rest => simp [keptChain]

/-- A kept part stands where its part does. -/
theorem getElem?_keptChain (p : Profile) (parts : List Part) (i : Nat) :
    (keptChain p parts)[i]? =
      parts[i]?.map fun part => if i = 0 then (part.kept p).detached else part.kept p := by
  cases parts with
  | nil => rfl
  | cons first rest => cases i with
    | zero => rfl
    | succ i => simp [keptChain]

end Part

namespace Selector

variable {selector : Selector} {scope : NodeId}

theorem head?_kept_combinator (p : Profile) (parts : List Part) :
    (Part.keptChain p parts).head?.bind (·.combinator) = none := by
  cases parts <;> rfl

/-- What satisfies a selector satisfies what is kept of it. -/
theorem accepts_kept (h : t.Linked) (hshape : ∀ part ∈ selector.parts, part.KeepsShape p)
    (hbeside : selector.startsBeside = false)
    (haccepts : selector.accepts ⟨t.view, host⟩ (some [scope]) node = true) :
    (selector.kept p).accepts ⟨t.view, host⟩ (some [scope]) node = true := by
  obtain ⟨parts⟩ := selector
  obtain ⟨place, hrow, hne, rfl, hstart⟩ := (accepts_iff_row h _).1 haccepts
  refine (accepts_iff_row h _).2 ⟨place, hrow.transfer fun i part' hpart' => ?_, ?_, ?_, ?_⟩
  · rw [Part.getElem?_keptChain] at hpart'
    obtain ⟨part, hpart, rfl⟩ := Option.map_eq_some_iff.1 hpart'
    refine ⟨part, hpart, fun node hnode => ?_, fun hi => by rw [if_neg (Nat.ne_of_gt hi)]; rfl⟩
    have hkept := Part.accepts_kept (hshape part (List.mem_of_getElem? hpart)) hnode
    split
    · rwa [Part.accepts_detached]
    · exact hkept
  · rw [Ne, ← List.length_eq_zero_iff, Part.length_keptChain, List.length_eq_zero_iff]
    exact hne
  · rw [Part.length_keptChain]
  · rintro list ⟨⟩
    obtain ⟨origin, hmem, hrel⟩ := hstart [scope] rfl
    refine ⟨origin, hmem, ?_⟩
    rw [head?_kept_combinator]
    obtain ⟨part, rest, rfl⟩ := List.exists_cons_of_ne_nil hne
    exact Tree.Linked.above_of_related (part.isBeside_getD.trans hbeside) hrel

theorem isSupported_iff : selector.isSupported p = true ↔
    selector.hasLeadingCombinator = false ∧ ∀ part ∈ selector.parts, part.isSupported p = true := by
  obtain ⟨parts⟩ := selector
  rw [isSupported, Part.allSupported_eq_all, Bool.and_eq_true, Bool.not_eq_true', List.all_eq_true]
  rfl

/-- What is kept of a supported selector has the nodes of the selector, in every scene. -/
theorem accepts_kept_eq (hsupported : selector.isSupported p = true) (origins : Option (List NodeId)) :
    (selector.kept p).accepts sc origins = selector.accepts sc origins := by
  obtain ⟨hlead, hparts⟩ := isSupported_iff.1 hsupported
  obtain ⟨parts⟩ := selector
  have hkept : List.Forall₂ (fun part part' => part.accepts sc = part'.accepts sc ∧
      part.combinator = part'.combinator) (Part.keptChain p parts) parts := by
    cases parts with
    | nil => exact .nil
    | cons first rest =>
      have hnone : first.combinator = none := by simpa [hasLeadingCombinator] using hlead
      refine .cons ⟨?_, hnone.symm⟩ ?_
      · rw [Part.accepts_detached, Part.accepts_kept_eq (hparts first List.mem_cons_self)]
      · rw [List.forall₂_map_left_iff, List.forall₂_same]
        exact fun part hmem => ⟨Part.accepts_kept_eq (hparts part (List.mem_cons_of_mem _ hmem)), rfl⟩
  funext node
  rw [kept, accepts, accepts, Part.chainAccepts_congr hkept]

/-- A host that knows the mark of the subject is told a supported selector as it is. -/
theorem kept_eq_self (hmarks : p.marksSubject = true) (h : selector.isSupported p = true) :
    selector.kept p = selector := by
  obtain ⟨hlead, hparts⟩ := isSupported_iff.1 h
  obtain ⟨parts⟩ := selector
  cases parts with
  | nil => rfl
  | cons part rest =>
    have hpart := Part.kept_eq_self hmarks (hparts part List.mem_cons_self)
    have hrest : rest.map (·.kept p) = rest := by
      refine (List.map_congr_left fun other hmem => ?_).trans (List.map_id rest)
      exact Part.kept_eq_self hmarks (hparts other (List.mem_cons_of_mem _ hmem))
    have hnone : part.combinator = none := by simpa [hasLeadingCombinator] using hlead
    obtain ⟨combinator, subject, tag, clauses, containment⟩ := part
    obtain rfl : combinator = none := hnone
    rw [kept, Part.keptChain, hpart, hrest]
    rfl

end Selector
end
end TreeQuery
