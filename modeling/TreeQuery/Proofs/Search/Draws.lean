import TreeQuery.Search

/-!
# Where candidates come from

The candidates for a selector ask the host nothing by themselves. They come from lookups that do not depend
on the evaluator, or they are what the search of one selector list finds.
-/

namespace TreeQuery

variable {σ τ : Type}

namespace Activity

/-- The activity with more lookups. -/
def noting (a : Activity σ) (lookups : List Lookup) : Activity σ :=
  { a with lookups := a.lookups ++ lookups }

theorem noting_nil (a : Activity σ) : a.noting [] = a := by
  rw [noting, List.append_nil]

theorem noting_noting (a : Activity σ) (lookups more : List Lookup) :
    (a.noting lookups).noting more = a.noting (lookups ++ more) := by
  rw [noting, noting, noting, List.append_assoc]

end Activity

theorem Search.bind_of_eq {α β : Type} {search : Search σ α} {a b : Activity σ} {x : α}
    (h : search a = (x, b)) (next : α → Search σ β) : (search >>= next) a = next x b := by
  show next (search a).1 (search a).2 = _
  rw [h]

namespace Engine

/-- The engine with another evaluator, or without one. -/
abbrev withEvaluator (e : Engine σ) (evaluator : Option (Evaluator τ)) : Engine τ :=
  ⟨e.registry, e.profile, e.scene, e.lookups, evaluator⟩

/-- A pseudo-class lists all elements below the scope or at most one node, or it lists what the search of
its selector list finds below a document. -/
theorem listByPseudo_draws (e : Engine σ) (getter : PseudoClause) (root scope : NodeId) :
    (∃ listed lookups, (listed = e.lookups.elementsByTag scope none ∨ ∃ found : Option NodeId,
        listed = found.toList) ∧
      ∀ {τ : Type} (evaluator : Option (Evaluator τ)) inList a,
        (e.withEvaluator evaluator).listByPseudo getter root scope inList a =
          (listed, a.noting lookups)) ∨
    ∃ list, getter.pseudo = .matchesAny ∧ getter.argument = .nested list ∧
      (∀ inner ∈ list, inner.hasLeadingCombinator = false) ∧ e.scene.view.kind root = .document ∧
      ∀ {τ : Type} (evaluator : Option (Evaluator τ)) inList,
        (e.withEvaluator evaluator).listByPseudo getter root scope inList = inList root := by
  have hpure : ∀ {τ : Type} (a : Activity τ) (listed : List NodeId), (listed, a) = (listed, a.noting []) :=
    fun a listed => by rw [Activity.noting_nil]
  have hall : (∀ {τ : Type} (evaluator : Option (Evaluator τ)) inList,
      (e.withEvaluator evaluator).listByPseudo getter root scope inList =
        (e.withEvaluator evaluator).listByTag scope none) →
      ∃ listed lookups, (listed = e.lookups.elementsByTag scope none ∨ ∃ found : Option NodeId,
          listed = found.toList) ∧
        ∀ {τ : Type} (evaluator : Option (Evaluator τ)) inList a,
          (e.withEvaluator evaluator).listByPseudo getter root scope inList a =
            (listed, a.noting lookups) := fun h =>
    ⟨e.lookups.elementsByTag scope none, [.byTag scope none], .inl rfl, fun evaluator inList a => by
      rw [h]
      rfl⟩
  obtain ⟨pseudo, hasGetter, written, argument⟩ := getter
  cases pseudo with
  | focus => exact .inl ⟨(e.scene.focusedElement root).toList, [], .inr ⟨_, rfl⟩, fun _ _ a => hpure a _⟩
  | root =>
    exact .inl ⟨(e.scene.view.documentElement root).toList, [], .inr ⟨_, rfl⟩, fun _ _ a => hpure a _⟩
  | target =>
    cases hfragment : e.scene.host.namedFragment with
    | none =>
      refine .inl ⟨[], [], .inr ⟨none, rfl⟩, fun evaluator inList a => ?_⟩
      rw [← hpure a, listByPseudo]
      simp only [hfragment]
      rfl
    | some fragment =>
      refine .inl ⟨(e.lookups.elementById root fragment).toList, [.byId root fragment], .inr ⟨_, rfl⟩,
        fun evaluator inList a => ?_⟩
      rw [listByPseudo]
      simp only [hfragment]
      rfl
  | matchesAny =>
    cases argument with
    | nested list =>
      by_cases hcond : (e.scene.view.kind root == .document &&
          !list.any Selector.hasLeadingCombinator) = true
      · have hsplit := hcond
        rw [Bool.and_eq_true, Bool.not_eq_true', List.any_eq_false] at hsplit
        exact .inr ⟨list, rfl, rfl, fun inner hmem => Bool.eq_false_iff.2 (hsplit.2 inner hmem),
          beq_iff_eq.1 hsplit.1, fun _ _ => if_pos hcond⟩
      · exact .inl (hall fun _ _ => if_neg hcond)
    | _ => exact .inl (hall fun _ _ => rfl)
  | _ => exact .inl (hall fun _ _ => rfl)

/-- What the last part does for candidates. -/
theorem listForPart_draws (e : Engine σ) (part : Part) (root scope : NodeId) :
    (∃ listed lookups, ∀ {τ : Type} (evaluator : Option (Evaluator τ)) inList a,
      (e.withEvaluator evaluator).listForPart part root scope inList a =
        (listed, a.noting lookups)) ∨
    ∃ getter list, part.getter? e.profile = some getter ∧ getter.argument = .nested list ∧
      (∀ inner ∈ list, inner.hasLeadingCombinator = false) ∧
      ∀ {τ : Type} (evaluator : Option (Evaluator τ)) inList,
        (e.withEvaluator evaluator).listForPart part root scope inList = inList root := by
  cases hgetter : part.getter? e.profile with
  | some getter =>
    have hlists : ∀ {τ : Type} (evaluator : Option (Evaluator τ)) inList,
        (e.withEvaluator evaluator).listForPart part root scope inList =
          (e.withEvaluator evaluator).listByPseudo getter root scope inList := by
      intro τ evaluator inList
      rw [listForPart]
      simp only [hgetter]
    rcases listByPseudo_draws e getter root scope with
      ⟨listed, lookups, -, h⟩ | ⟨list, -, harg, hlead, -, h⟩
    · exact .inl ⟨listed, lookups, fun evaluator inList a => by rw [hlists, h]⟩
    · exact .inr ⟨getter, list, rfl, harg, hlead, fun evaluator inList => by rw [hlists, h]⟩
  | none =>
    refine .inl ?_
    by_cases hclass : (e.profile.classLookup && !part.classes.isEmpty) = true
    · refine ⟨e.lookups.elementsByClass scope (part.classes.map (·.value)),
        [.byClass scope (part.classes.map (·.value))], fun evaluator inList a => ?_⟩
      simp only [listForPart, hgetter]
      rw [if_pos hclass]
      rfl
    · cases hname : part.searchName? with
      | some name =>
        refine ⟨e.lookups.elementsByName root name, [.byName root name], fun evaluator inList a => ?_⟩
        simp only [listForPart, hgetter, hname]
        rw [if_neg hclass]
        rfl
      | none =>
        refine ⟨if (part.tag.map (·.value)).isNone && e.profile.wildcardListsAll then
            (e.lookups.elementsByTag scope (part.tag.map (·.value))).filter e.scene.view.isElement
          else e.lookups.elementsByTag scope (part.tag.map (·.value)),
          [.byTag scope (part.tag.map (·.value))], fun evaluator inList a => ?_⟩
        simp only [listForPart, hgetter, hname]
        rw [if_neg hclass]
        refine (Search.bind_of_eq rfl _).trans ?_
        split <;> rfl

/-- Narrowing does the same whatever evaluator there is. -/
theorem narrow_draws (e : Engine σ) (selector : Selector) (root scope : NodeId)
    (origins : List NodeId) : ∃ narrowing lookups, ∀ {τ : Type} (evaluator : Option (Evaluator τ)) a,
      (e.withEvaluator evaluator).narrow selector root scope origins a =
        (narrowing, a.noting lookups) := by
  cases hid : (if e.scene.view.kind root == .document then selector.lastId? else none) with
  | none =>
    refine ⟨.below scope, [], fun evaluator a => ?_⟩
    rw [Activity.noting_nil]
    rw [narrow, show (if (e.withEvaluator evaluator).scene.view.kind root == .document then
      selector.lastId? else none) = none from hid]
    rfl
  | some found =>
    obtain ⟨position, id⟩ := found
    refine ⟨e.narrowTo selector origins position (e.lookups.elementById root id), [.byId root id],
      fun evaluator a => ?_⟩
    rw [narrow, show (if (e.withEvaluator evaluator).scene.view.kind root == .document then
      selector.lastId? else none) = some (position, id) from hid]
    rfl

/-- The candidates for a selector do not depend on the evaluator, or they are what the search of one list
finds, with lookups before it that do not depend on the evaluator. -/
theorem candidates_draws (e : Engine σ) (selector : Selector) (scope : NodeId) (origins : List NodeId) :
    (∃ listed lookups, ∀ {τ : Type} (evaluator : Option (Evaluator τ)) inList a,
      (e.withEvaluator evaluator).candidates selector scope origins inList a =
        (listed, a.noting lookups)) ∨
    ∃ part getter list lookups, selector.lastPart? = some part ∧ part.getter? e.profile = some getter ∧
      getter.argument = .nested list ∧ (∀ inner ∈ list, inner.hasLeadingCombinator = false) ∧
      ∀ {τ : Type} (evaluator : Option (Evaluator τ)) inList a,
        (e.withEvaluator evaluator).candidates selector scope origins inList a =
          inList (e.scene.view.root scope) (a.noting lookups) := by
  cases hlast : selector.lastPart? with
  | none =>
    refine .inl ⟨[], [], fun evaluator inList a => ?_⟩
    rw [candidates, hlast, Activity.noting_nil]
    rfl
  | some part =>
    obtain ⟨narrowing, lookups, hnarrow⟩ :=
      narrow_draws e selector (e.scene.view.root scope) scope origins
    cases narrowing with
    | nowhere =>
      refine .inl ⟨[], lookups, fun evaluator inList a => ?_⟩
      rw [candidates, hlast]
      exact Search.bind_of_eq (hnarrow evaluator a) _
    | only node =>
      refine .inl ⟨[node], lookups, fun evaluator inList a => ?_⟩
      rw [candidates, hlast]
      exact Search.bind_of_eq (hnarrow evaluator a) _
    | below inner =>
      rcases listForPart_draws e part (e.scene.view.root scope) inner with
        ⟨listed, more, h⟩ | ⟨getter, list, hgetter, harg, hlead, h⟩
      · refine .inl ⟨listed, lookups ++ more, fun evaluator inList a => ?_⟩
        rw [candidates, hlast, ← Activity.noting_noting, ← h evaluator inList]
        exact Search.bind_of_eq (hnarrow evaluator a) _
      · refine .inr ⟨part, getter, list, lookups, rfl, hgetter, harg, hlead,
          fun evaluator inList a => ?_⟩
        rw [candidates, hlast, ← h evaluator inList]
        exact Search.bind_of_eq (hnarrow evaluator a) _

end Engine
end TreeQuery
