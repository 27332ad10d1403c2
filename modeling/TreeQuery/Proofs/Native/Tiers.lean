import TreeQuery.Proofs.Native.Printed
import TreeQuery.Proofs.Session.Nested
import Mathlib.Logic.Relation

/-!
# Lists that a host cannot evaluate

An argument with a selector list needs the fifth tier if the list has no branches or one of its branches is
not fully supported. Where a host does not reach that tier, such a list takes full support from every
selector that it stands in, however deep, and its pseudo-class is left out of the text for the host
(`Selector.native_without_list`).

The tier of a profile is any number of eight bits, and no tier lies above the fifth. So a profile with a tier
of five or more for a pseudo-class has the host told of it whatever its list is
(`PseudoClause.isSupported_of_five_le`).
-/

namespace TreeQuery

open Reader Text

variable {p : Profile} {clause : PseudoClause} {list : List Selector} {selector inner : Selector}
  {part : Part}

/-! ## The highest tier -/

/-- No argument needs more than the fifth tier. -/
theorem Argument.tier_le_five (p : Profile) (argument : Argument) : argument.tier p ≤ 5 := by
  cases argument with
  | nested list =>
    rw [tier]
    split
    · exact UInt8.le_refl 5
    · unfold Selector.listTier
      split_ifs <;> decide
  | _ => exact (by decide : (1 : UInt8) ≤ 5)

/-- A host is told every pseudo-class for which its profile says the fifth tier or more. -/
theorem PseudoClause.isSupported_of_five_le (h : 5 ≤ p.tier clause.pseudo) :
    clause.isSupported p = true := by
  obtain ⟨pseudo, hasGetter, written, argument⟩ := clause
  rw [isSupported, decide_eq_true_eq]
  exact UInt8.le_trans (argument.tier_le_five p) h

/-- A list without branches needs the fifth tier, and so does one with a branch that lacks full support. -/
theorem Argument.tier_nested_of_lost
    (h : list = [] ∨ ∃ branch ∈ list, branch.isSupported p = false) :
    (Argument.nested list).tier p = 5 := by
  rw [tier, if_pos]
  rw [Bool.or_eq_true, Selector.allSupported_eq_all, Bool.not_eq_true', List.all_eq_false]
  rcases h with rfl | ⟨branch, hmem, hbranch⟩
  · exact .inl rfl
  · exact .inr ⟨branch, hmem, by rw [hbranch]; exact Bool.false_ne_true⟩

/-- Below the fifth tier a host evaluates no such list. -/
theorem PseudoClause.isSupported_of_lost (htier : p.tier clause.pseudo < 5)
    (hargument : clause.argument = .nested list)
    (hlost : list = [] ∨ ∃ branch ∈ list, branch.isSupported p = false) :
    clause.isSupported p = false := by
  obtain ⟨pseudo, hasGetter, written, argument⟩ := clause
  obtain rfl : argument = .nested list := hargument
  rw [isSupported, Argument.tier_nested_of_lost hlost, decide_eq_false_iff_not, UInt8.not_le]
  exact htier

/-! ## Support through nested lists -/

theorem Part.isSupported_iff : part.isSupported p = true ↔
    (∀ clause ∈ part.clauses, clause.isSupported p = true) ∧
      Selector.isSupportedWithin p part.containment = true := by
  obtain ⟨combinator, subject, tag, clauses, containment⟩ := part
  rw [isSupported, Clause.allSupported_eq_all, Bool.and_eq_true, List.all_eq_true]

/-- The support of the first selector hangs on that of the second: this stands in a containment, or in the
list of a pseudo-class for which the host does not reach the fifth tier. -/
def Selector.HangsOn (p : Profile) (selector inner : Selector) : Prop :=
  ∃ part ∈ selector.parts, part.containment = some inner ∨
    ∃ clause ∈ part.pseudos, p.tier clause.pseudo < 5 ∧
      ∃ list, clause.argument = .nested list ∧ inner ∈ list

namespace Selector

/-- A supported selector has supported pseudo-classes. -/
theorem isSupported_clause (h : selector.isSupported p = true) (hpart : part ∈ selector.parts)
    (hclause : clause ∈ part.pseudos) : clause.isSupported p = true :=
  (Part.isSupported_iff.1 ((isSupported_iff.1 h).2 part hpart)).1 _ (Part.mem_pseudos.1 hclause)

/-- What the support of a supported selector hangs on is supported. -/
theorem isSupported_of_hangsOn (h : selector.isSupported p = true) (hinner : selector.HangsOn p inner) :
    inner.isSupported p = true := by
  obtain ⟨part, hpart, hcontained | ⟨clause, hclause, htier, list, hargument, hmem⟩⟩ := hinner
  · have hwithin := (Part.isSupported_iff.1 ((isSupported_iff.1 h).2 part hpart)).2
    rw [hcontained, isSupportedWithin, Bool.and_eq_true] at hwithin
    exact hwithin.2
  · -- an unsupported branch would put the list on the fifth tier, which the host does not reach
    by_contra hlost
    rw [Bool.not_eq_true] at hlost
    have hclause := isSupported_clause h hpart hclause
    rw [PseudoClause.isSupported_of_lost htier hargument (.inr ⟨inner, hmem, hlost⟩)] at hclause
    cases hclause

/-- At any depth, too. -/
theorem isSupported_of_hangsOn_star (hinner : Relation.ReflTransGen (HangsOn p) selector inner)
    (h : selector.isSupported p = true) : inner.isSupported p = true := by
  induction hinner with
  | refl => exact h
  | tail _ hstep ih => exact isSupported_of_hangsOn ih hstep

end Selector

/-! ## The text without the list -/

namespace Part

/-- What is kept of a part has the text of the part. -/
theorem native_kept (p : Profile) (part : Part) : (part.kept p).native p = part.native p := by
  have hhead : (part.kept p).nativeHead p = part.nativeHead p := by
    refine String.toList_inj.1 ?_
    rw [toList_nativeHead, toList_nativeHead]
    simp only [kept, nameText, Bool.and_assoc, Bool.and_self, List.filter_filter]
    rfl
  have hwithin : Selector.nativeWithin p (part.kept p).containment =
      Selector.nativeWithin p part.containment := by
    refine String.toList_inj.1 ?_
    rw [Selector.toList_nativeWithin, Selector.toList_nativeWithin]
    simp only [kept, Selector.keptWithin, Option.filter_filter, Bool.and_self]
  refine String.toList_inj.1 ?_
  rw [native_eq, native_eq, hhead, hwithin]

theorem native_detached (p : Profile) (part : Part) : part.detached.native p = part.native p := by
  obtain ⟨combinator, subject, tag, clauses, containment⟩ := part
  rfl

theorem nativeRest_kept (p : Profile) (parts : List Part) :
    nativeRest p (parts.map (·.kept p)) = nativeRest p parts := by
  induction parts with
  | nil => rfl
  | cons part rest ih =>
    rw [List.map_cons, nativeRest, nativeRest, native_kept, ih]
    rfl

end Part

namespace Selector

/-- What is kept of a selector has the text of the selector. -/
theorem native_kept (p : Profile) (selector : Selector) : (selector.kept p).native p = selector.native p := by
  obtain ⟨parts⟩ := selector
  cases parts with
  | nil => rfl
  | cons part rest =>
    rw [kept, Part.keptChain, native, native, Part.native_detached, Part.native_kept, Part.nativeRest_kept]

/-- Every condition that is kept is supported. -/
theorem isSupported_of_mem_kept {clause : Clause} (hpart : part ∈ (selector.kept p).parts)
    (hclause : clause ∈ part.clauses) : clause.isSupported p = true := by
  obtain ⟨i, hi⟩ := List.getElem?_of_mem hpart
  rw [kept, Part.getElem?_keptChain] at hi
  obtain ⟨whole, -, rfl⟩ := Option.map_eq_some_iff.1 hi
  have hkept : clause ∈ (whole.kept p).clauses := by
    split at hclause
    · exact hclause
    · exact hclause
  exact (List.mem_filter.1 hkept).2

/-- A pseudo-class has a list without branches, or one with a branch at some depth that is not fully
supported. If the host does not reach the fifth tier for it, and for no pseudo-class with a list between it
and that branch, then the selector is not fully supported, and its text is that of a selector without the
pseudo-class. -/
theorem native_without_list (hpart : part ∈ selector.parts) (hclause : clause ∈ part.pseudos)
    (hargument : clause.argument = .nested list) (htier : p.tier clause.pseudo < 5)
    (hlost : list = [] ∨ ∃ branch ∈ list, ∃ inner, Relation.ReflTransGen (HangsOn p) branch inner ∧
      inner.isSupported p = false) :
    selector.isSupported p = false ∧ (selector.kept p).native p = selector.native p ∧
      ∀ part ∈ (selector.kept p).parts, .pseudo clause ∉ part.clauses := by
  have hbranch : list = [] ∨ ∃ branch ∈ list, branch.isSupported p = false := by
    refine hlost.imp_right ?_
    rintro ⟨branch, hmem, inner, hinner, hunsupported⟩
    refine ⟨branch, hmem, ?_⟩
    by_contra hsupported
    rw [Bool.not_eq_false] at hsupported
    rw [isSupported_of_hangsOn_star hinner hsupported] at hunsupported
    cases hunsupported
  have hclause' := PseudoClause.isSupported_of_lost htier hargument hbranch
  refine ⟨?_, native_kept p selector, fun other hother hmem => ?_⟩
  · by_contra hsupported
    rw [Bool.not_eq_false] at hsupported
    rw [isSupported_clause hsupported hpart hclause] at hclause'
    cases hclause'
  · have hkept : clause.isSupported p = true := isSupported_of_mem_kept hother hmem
    rw [hclause'] at hkept
    cases hkept

end Selector

/-- The profile of a host that evaluates one pseudo-class up to some tier, and no other one. -/
def Profile.reaching (pseudo : PseudoClass) (tier : UInt8) : Profile :=
  Profile.manual.withSupport pseudo ⟨tier, none⟩

/-- The selector `:focus`. -/
def Selector.focused : Selector := .ofPseudo ⟨.focus, true, none, .none⟩

theorem Selector.read_focused : Selector.read .standard ":focus" = .ok [focused] := by
  with_unfolding_all rfl

theorem Parser.lookup_not :
    Parser.standard.registry.lookup PseudoClass.not.name = some (Entry.standard .not) := by
  decide +kernel

/-- The condition `:not(:focus)`. -/
def PseudoClause.notFocused : PseudoClause := nestedClause .not ":focus".toList [.focused]

theorem Selector.read_notFocused : Selector.read .standard ":not(:focus)" = .ok [.ofPseudo .notFocused] := by
  have hbalanced : Balanced ":focus".toList :=
    .append (u := ":focus".toList) (v := []) (by decide +kernel) .nil
  exact read_nested Parser.lookup_not rfl hbalanced (by decide +kernel) read_focused

/-- The condition `:not(:not(:focus))`. -/
def PseudoClause.notNotFocused : PseudoClause :=
  nestedClause .not ":not(:focus)".toList [.ofPseudo .notFocused]

theorem Selector.read_notNotFocused :
    Selector.read .standard ":not(:not(:focus))" = .ok [.ofPseudo .notNotFocused] := by
  have hinner : Balanced ":focus".toList :=
    .append (u := ":focus".toList) (v := []) (by decide +kernel) .nil
  have hbalanced : Balanced ":not(:focus)".toList :=
    .append (u := ":not".toList) (v := "(:focus)".toList) (by decide +kernel) (.round hinner .nil)
  exact read_nested Parser.lookup_not rfl hbalanced (by decide +kernel) read_notFocused

/-- A host that evaluates `:not` with every list that is meant for hosts is told nothing of
`:not(:not(:focus))` if it does not know `:focus`. -/
theorem Selector.native_without_list_notNotFocused :
    Selector.read .standard ":not(:not(:focus))" = .ok [.ofPseudo .notNotFocused] ∧
      (Profile.reaching .not 4).tier .not < 5 ∧ focused.isSupported (.reaching .not 4) = false ∧
        (ofPseudo .notNotFocused).isSupported (.reaching .not 4) = false ∧
          (ofPseudo .notNotFocused).native (.reaching .not 4) = "*" := by
  have htier : (Profile.reaching .not 4).tier .not < 5 := by decide +kernel
  have hfocused : focused.isSupported (.reaching .not 4) = false := by decide +kernel
  have hinner : Relation.ReflTransGen (HangsOn (.reaching .not 4)) (.ofPseudo .notFocused) .focused :=
    .single ⟨_, List.mem_cons_self, .inr ⟨_, List.mem_cons_self, htier, _, rfl, List.mem_cons_self⟩⟩
  have hpart : ⟨none, false, none, [.pseudo .notNotFocused], none⟩ ∈ (ofPseudo .notNotFocused).parts :=
    List.mem_cons_self
  obtain ⟨hsupported, hnative, -⟩ := native_without_list hpart List.mem_cons_self rfl htier
    (.inr ⟨_, List.mem_cons_self, _, hinner, hfocused⟩)
  refine ⟨read_notNotFocused, htier, hfocused, hsupported, ?_⟩
  rw [← hnative]
  decide +kernel

/-- A profile with the fifth tier for `:not` has the host told of `:not(:focus)` as of a selector that it
supports in full, also if the host does not know `:focus`. -/
theorem Selector.native_notFocused :
    Selector.read .standard ":not(:focus)" = .ok [.ofPseudo .notFocused] ∧
      focused.isSupported (.reaching .not 5) = false ∧
        (ofPseudo .notFocused).isSupported (.reaching .not 5) = true ∧
          (ofPseudo .notFocused).native (.reaching .not 5) = "*:not(:focus)" := by
  refine ⟨read_notFocused, by decide +kernel, ?_, by decide +kernel⟩
  have hclause : PseudoClause.notFocused.isSupported (.reaching .not 5) = true :=
    PseudoClause.isSupported_of_five_le (by decide +kernel)
  refine isSupported_iff.2 ⟨rfl, fun part hpart => ?_⟩
  obtain rfl := List.mem_singleton.1 hpart
  refine Part.isSupported_iff.2 ⟨fun clause hmem => ?_, rfl⟩
  obtain rfl := List.mem_singleton.1 hmem
  exact hclause

end TreeQuery
