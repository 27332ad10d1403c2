import TreeQuery.Proofs.Search.Exact

/-!
# The order of a search

Candidates are taken from one scan of the tree, or there is at most one, and tests keep their order. So
a search meets its matches in tree order, but for one source: a pseudo-class that searches a selector
list of its own returns what its branches find, one branch after the other. Two nodes out of order are
therefore matched by two branches of such a list (`Selector.TakesTurns`).
-/

namespace TreeQuery

variable {σ : Type}

/-! ## Lists -/

/-- At most one element is in any order. -/
theorem pairwise_option {α : Type} {R : α → α → Prop} (found : Option α) :
    found.toList.Pairwise R := by
  cases found with
  | none => exact .nil
  | some => exact List.pairwise_singleton R _

/-! ## Branches that take turns -/

/-- The last part of a selector takes its candidates from the search of this list, which has no leading
combinators. -/
def Selector.DrawsList (p : Profile) (selector : Selector) (list : List Selector) : Prop :=
  ∃ part getter, selector.lastPart? = some part ∧ part.getter? p = some getter ∧
    getter.pseudo = .matchesAny ∧ getter.argument = .nested list ∧
      ∀ inner ∈ list, inner.hasLeadingCombinator = false

theorem Selector.DrawsList.draws {p : Profile} {selector inner : Selector} {list : List Selector}
    (h : selector.DrawsList p list) (hmem : inner ∈ list) : selector.Draws p inner := by
  obtain ⟨part, getter, hpart, hgetter, -, harg, hlead⟩ := h
  exact ⟨part, getter, list, hpart, hgetter, harg, hlead, hmem⟩

/-- The first node is matched by a branch of a list from which the search for the selector takes
candidates, below `root`, and the second node by a later branch of this list. -/
def Selector.TakesTurns (selector : Selector) (p : Profile) (scene : Scene) (root a b : NodeId) : Prop :=
  ∃ inner list, Relation.ReflTransGen (Selector.Draws p) selector inner ∧ inner.DrawsList p list ∧
    ∃ first second, [first, second].Sublist list ∧ first.accepts scene (some [root]) a = true ∧
      second.accepts scene (some [root]) b = true

/-- Turns within a branch of a list are turns of the selector that searches the list. -/
theorem Selector.TakesTurns.head {p : Profile} {scene : Scene} {selector inner : Selector}
    {root a b : NodeId} (hdraws : selector.Draws p inner) (h : inner.TakesTurns p scene root a b) :
    selector.TakesTurns p scene root a b := by
  obtain ⟨last, list, hreach, hlist, hturns⟩ := h
  exact ⟨last, list, .head hdraws hreach, hlist, hturns⟩

/-- No two branches take turns if no list has two. -/
theorem Selector.not_takesTurns {p : Profile} {scene : Scene} {selector : Selector}
    (hlists : ∀ inner list, Relation.ReflTransGen (Selector.Draws p) selector inner →
      inner.DrawsList p list → list.length ≤ 1) (root a b : NodeId) :
    ¬ selector.TakesTurns p scene root a b := by
  rintro ⟨inner, list, hreach, hlist, first, second, hsublist, -, -⟩
  have htwo : 2 ≤ list.length := hsublist.length_le
  have hone := hlists inner list hreach hlist
  omega

/-! ## Candidates in tree order -/

variable {t : Tree} {registry : Registry} {profile : Profile} {host : Host}
  {evaluator : Option (Evaluator σ)} {selector : Selector} {list : List Selector}
  {scope : NodeId} {origins : List NodeId} {R : NodeId → NodeId → Prop}

/-- The root of a tree is its own root. -/
theorem Tree.Linked.root_root (h : t.Linked) (node : NodeId) :
    t.view.root (t.view.root node) = t.view.root node := by
  rcases Tree.atOrAbove_iff.1 (h.atOrAbove_root node) with heq | habove
  · exact congrArg t.view.root heq.symm
  · exact h.root_eq_of_above habove

namespace Engine

/-- What a scan below a node picks comes in tree order. -/
theorem pairwise_scan (h : t.Linked) (hR : ∀ a b, t.Precedes a b → R a b) (scope : NodeId)
    (P : NodeId → Bool) : ((t.view.descendants scope).filter P).Pairwise R :=
  ((h.pairwise_precedes scope).imp fun hab => hR _ _ hab).filter P

/-- The candidates that a pseudo-class lists come in order, if those of its own list do. -/
theorem listByPseudo_ordered (h : t.Linked) (hR : ∀ a b, t.Precedes a b → R a b)
    {getter : PseudoClause} {root scope : NodeId} {inList : NodeId → Search σ (List NodeId)}
    (hlist : ∀ list, getter.pseudo = .matchesAny → getter.argument = .nested list →
      (∀ inner ∈ list, inner.hasLeadingCombinator = false) → t.view.kind root = .document →
        Search.Ensures (inList root) (List.Pairwise R)) :
    Search.Ensures ((t.engine registry profile host evaluator).listByPseudo getter root scope inList)
      (List.Pairwise R) := by
  rcases listByPseudo_cases (t.engine registry profile host evaluator) getter root scope with
    ⟨list, hpseudo, harg, hlead, hroot, hsearch⟩ | ⟨listed, hlisted, hlists⟩
  · rw [hsearch]
    exact hlist list hpseudo harg hlead hroot
  · have hordered : listed.Pairwise R := by
      rcases hlisted with rfl | ⟨found, rfl⟩
      · exact pairwise_scan h hR scope _
      · exact pairwise_option found
    exact (hlists inList).mono fun _ heq => heq ▸ hordered

/-- The candidates for the last part come in order, if those of the list of its pseudo-class do. -/
theorem listForPart_ordered (h : t.Linked) (hR : ∀ a b, t.Precedes a b → R a b) {part : Part}
    {root scope : NodeId} {inList : NodeId → Search σ (List NodeId)}
    (hlist : ∀ getter list, part.getter? profile = some getter → getter.pseudo = .matchesAny →
      getter.argument = .nested list → (∀ inner ∈ list, inner.hasLeadingCombinator = false) →
        t.view.kind root = .document → Search.Ensures (inList root) (List.Pairwise R)) :
    Search.Ensures ((t.engine registry profile host evaluator).listForPart part root scope inList)
      (List.Pairwise R) := by
  unfold listForPart
  split
  · next getter hgetter =>
    exact listByPseudo_ordered h hR fun list => hlist getter list hgetter
  · split
    · exact Search.ensures_note (Search.ensures_pure (pairwise_scan h hR scope _))
    · split
      · exact Search.ensures_note (Search.ensures_pure (pairwise_scan h hR root _))
      · have hlisted : (t.view.elementsByTag scope (part.tag.map (·.value))).Pairwise R :=
          pairwise_scan h hR scope _
        refine Search.Ensures.bind (P := List.Pairwise R)
          (Search.ensures_note (Search.ensures_pure hlisted)) fun listed hlisted => ?_
        split
        · exact Search.ensures_pure (hlisted.filter _)
        · exact Search.ensures_pure hlisted

/-- The candidates for a selector come in order, if those of the list that it draws from do. -/
theorem candidates_ordered (h : t.Linked) (hR : ∀ a b, t.Precedes a b → R a b)
    {inList : NodeId → Search σ (List NodeId)}
    (hlist : ∀ part getter list, selector.lastPart? = some part → part.getter? profile = some getter →
      getter.pseudo = .matchesAny → getter.argument = .nested list →
        (∀ inner ∈ list, inner.hasLeadingCombinator = false) →
          t.view.kind (t.view.root scope) = .document →
            Search.Ensures (inList (t.view.root scope)) (List.Pairwise R)) :
    Search.Ensures ((t.engine registry profile host evaluator).candidates selector scope origins
      inList) (List.Pairwise R) := by
  unfold candidates
  split
  · exact Search.ensures_pure .nil
  · next part hlast =>
    refine Search.Ensures.bind (P := fun _ => True) (fun _ => trivial) fun narrowing _ => ?_
    cases narrowing with
    | nowhere => exact Search.ensures_pure .nil
    | only element => exact Search.ensures_pure (List.pairwise_singleton R element)
    | below inner =>
      exact listForPart_ordered h hR fun getter list => hlist part getter list hlast

end Engine

/-! ## Searches -/

/-- The searches for the branches of a list return nodes in order, if each of them does and a node of an
earlier branch may stand before a node of a later one. -/
theorem Selector.searchEach_ordered {e : Engine σ} (key : SelectorKey) (position : Nat)
    (hhost : ∀ selector ∈ list, e.HostSound selector scope origins)
    (heach : ∀ selector ∈ list, ∀ key,
      Search.Ensures (selector.search e key scope origins) (List.Pairwise R))
    (hturns : ∀ first second, [first, second].Sublist list →
      ∀ a b, first.accepts e.scene (some origins) a = true →
        second.accepts e.scene (some origins) b = true → R a b) :
    Search.Ensures (Selector.searchEach e key position list scope origins) (List.Pairwise R) := by
  induction list generalizing position with
  | nil => exact Search.ensures_pure .nil
  | cons selector rest ih =>
    rw [Selector.searchEach]
    have hfirst : Search.Ensures (selector.search e (key.branch position) scope origins) fun found =>
        found.Pairwise R ∧ ∀ a ∈ found, selector.accepts e.scene (some origins) a = true :=
      fun activity => ⟨heach selector List.mem_cons_self _ activity,
        Selector.search_sound _ (hhost selector List.mem_cons_self) activity⟩
    have hrest : ∀ other ∈ rest, other ∈ selector :: rest := fun _ => List.mem_cons_of_mem _
    have hothers : Search.Ensures (Selector.searchEach e key (position + 1) rest scope origins)
        fun found => found.Pairwise R ∧
          ∀ b ∈ found, ∃ other ∈ rest, other.accepts e.scene (some origins) b = true :=
      fun activity => ⟨ih (position + 1) (fun other hmem => hhost other (hrest other hmem))
          (fun other hmem => heach other (hrest other hmem))
          (fun first second hsub => hturns first second (hsub.cons selector)) activity,
        Selector.searchEach_sound key (position + 1)
          (fun other hmem => hhost other (hrest other hmem)) activity⟩
    refine hfirst.bind fun found hfound => hothers.bind fun others hothers => ?_
    refine Search.ensures_pure (List.pairwise_append.2 ⟨hfound.1, hothers.1, fun a ha b hb => ?_⟩)
    obtain ⟨other, hother, haccepts⟩ := hothers.2 b hb
    have hsub : [selector, other].Sublist (selector :: rest) :=
      (List.singleton_sublist.2 hother).cons_cons selector
    exact hturns selector other hsub a b (hfound.2 a ha) haccepts

/-- A search without an evaluator returns nodes in tree order, but for nodes that two branches of a
list below the root of the tree find. -/
theorem Selector.search_ordered (h : t.Linked) (selector : Selector) (key : SelectorKey)
    (scope : NodeId) (origins : List NodeId) :
    Search.Ensures
      (selector.search (t.engine registry profile host none : Engine σ) key scope origins)
      (List.Pairwise fun a b => t.Precedes a b ∨
        t.view.kind (t.view.root scope) = .document ∧
          selector.TakesTurns profile ⟨t.view, host⟩ (t.view.root scope) a b) := by
  induction selector using Selector.draws_induction (p := profile) generalizing scope origins key with
  | step selector ih =>
    obtain ⟨parts⟩ := selector
    rw [Selector.search, Engine.searchOne]
    refine (Engine.askHost_of_none rfl key _ scope).bind ?_
    rintro _ rfl
    refine (Engine.candidates_ordered h (fun _ _ => .inl) ?_).bind fun listed hlisted =>
      Search.ensures_pure (hlisted.filter _)
    intro part getter list hpart hgetter hpseudo harg hlead hroot
    have hlist : Selector.DrawsList profile ⟨parts⟩ list :=
      ⟨part, getter, hpart, hgetter, hpseudo, harg, hlead⟩
    rw [Part.search_eq _ key hpart hgetter, harg]
    show Search.Ensures (Argument.search _ key (.nested list) _) _
    rw [Argument.search]
    refine (Selector.searchEach_ordered key 0 (fun _ _ => Engine.hostSound_of_none rfl _ _ _)
      (fun inner hmem key => ?_) ?_).bind fun found hfound =>
        Search.ensures_pure (hfound.sublist (eraseDups_sublist found))
    · -- the turns of a branch below the root are turns of the selector
      have hdraws : Selector.Draws profile ⟨parts⟩ inner := hlist.draws hmem
      refine (ih inner hdraws key _ _).mono fun found hfound => hfound.imp fun hab => ?_
      rw [h.root_root] at hab
      exact hab.imp_right fun hturns => ⟨hturns.1, hturns.2.head hdraws⟩
    · intro first second hsub a b ha hb
      exact .inr ⟨hroot, _, list, .refl, hlist, first, second, hsub, ha, hb⟩

end TreeQuery
