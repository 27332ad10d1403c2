import TreeQuery.Proofs.Search.Agreement

/-!
# Lookups that list more

An index may list more than a scan would: nodes twice, in another order, of another kind or from outside
the scope. A search tests all that it is given, so with such an index it returns no less. This holds of
every tree and every selector (`Selector.search_within`); the lists that a pseudo-class searches are lists
of candidates as well, so the proof goes down into them.
-/

namespace TreeQuery

variable {σ : Type}

/-- The first lookups list each element that the second ones list, and look up ids alike. -/
structure Lookups.Covers (more : Lookups) (v : View) (fewer : Lookups) : Prop where
  elementById : more.elementById = fewer.elementById
  elementsByTag : ∀ scope name, ∀ node ∈ fewer.elementsByTag scope name, v.isElement node = true →
    node ∈ more.elementsByTag scope name
  elementsByClass : ∀ scope classes, ∀ node ∈ fewer.elementsByClass scope classes,
    v.isElement node = true → node ∈ more.elementsByClass scope classes
  elementsByName : ∀ root name, ∀ node ∈ fewer.elementsByName root name, v.isElement node = true →
    node ∈ more.elementsByName root name

namespace Search

/-- Whatever was asked before each of them, the second search returns each element that the first one
returns. -/
def Within (v : View) (first second : Search σ (List NodeId)) : Prop :=
  ∀ a b, ∀ node ∈ (first a).1, v.isElement node = true → node ∈ (second b).1

variable {v : View} {first second : Search σ (List NodeId)}

theorem within_pure {listed more : List NodeId}
    (h : ∀ node ∈ listed, v.isElement node = true → node ∈ more) :
    Within (σ := σ) v (pure listed) (pure more) := fun _ _ => h

theorem within_note (lookup : Lookup) (h : Within v first second) :
    Within v (do Activity.note lookup; first) (do Activity.note lookup; second) := fun _ _ => h _ _

/-- The two searches go on with what they returned. -/
theorem Within.bind {next next' : List NodeId → Search σ (List NodeId)} (h : Within v first second)
    (hnext : ∀ listed more, (∀ node ∈ listed, v.isElement node = true → node ∈ more) →
      Within v (next listed) (next' more)) : Within v (first >>= next) (second >>= next') :=
  fun a b => hnext _ _ (h a b) _ _

/-- The two searches go on after one that has the same outcome for both. -/
theorem Agrees.bind_within {α : Type} {same same' : Search σ α} {next next' : α → Search σ (List NodeId)}
    (h : Agrees same same') (hnext : ∀ x, Within v (next x) (next' x)) :
    Within v (same >>= next) (same' >>= next') := by
  intro a b
  show ∀ node ∈ (next (same a).1 (same a).2).1, v.isElement node = true →
    node ∈ (next' (same' b).1 (same' b).2).1
  rw [h a b]
  exact hnext _ _ _

end Search

/-! ## Candidates -/

namespace Engine

/-- The engine with other lookups. -/
abbrev withLookups (e : Engine σ) (lookups : Lookups) : Engine σ := { e with lookups }

variable {e : Engine σ} {more : Lookups} {selector : Selector} {list : List Selector}
  {root scope : NodeId} {origins : List NodeId} {inList inList' : NodeId → Search σ (List NodeId)}

theorem listByTag_within (h : more.Covers e.scene.view e.lookups) (scope : NodeId)
    (name : Option String) :
    Search.Within e.scene.view (e.listByTag scope name) ((e.withLookups more).listByTag scope name) :=
  Search.within_note _ (Search.within_pure (h.elementsByTag scope name))

/-- Of the candidates that a pseudo-class lists, the lookups decide about the elements below the scope and
the element of an id. -/
theorem listByPseudo_within (h : more.Covers e.scene.view e.lookups) {getter : PseudoClause}
    (hlist : ∀ list, getter.argument = .nested list →
      (∀ inner ∈ list, inner.hasLeadingCombinator = false) →
        Search.Within e.scene.view (inList root) (inList' root)) :
    Search.Within e.scene.view (e.listByPseudo getter root scope inList)
      ((e.withLookups more).listByPseudo getter root scope inList') := by
  have hsame : ∀ found : Option NodeId,
      Search.Within (σ := σ) e.scene.view (pure found.toList) (pure found.toList) :=
    fun found => Search.within_pure fun node hmem _ => hmem
  have hall := listByTag_within h scope none
  obtain ⟨pseudo, hasGetter, written, argument⟩ := getter
  unfold listByPseudo
  cases pseudo with
  | focus => exact hsame _
  | root => exact hsame _
  | target =>
    cases e.scene.host.namedFragment with
    | none => exact hsame none
    | some fragment =>
      refine Search.within_note _ ?_
      dsimp only
      rw [h.elementById]
      exact hsame _
  | matchesAny =>
    cases argument with
    | nested list =>
      dsimp only [Argument.nested?]
      split
      · next hcond =>
        rw [Bool.and_eq_true, Bool.not_eq_true', List.any_eq_false] at hcond
        exact hlist list rfl fun inner hmem => Bool.eq_false_iff.2 (hcond.2 inner hmem)
      · exact hall
    | _ => exact hall
  | _ => exact hall

theorem listForPart_within (h : more.Covers e.scene.view e.lookups) {part : Part}
    (hlist : ∀ getter list, part.getter? e.profile = some getter → getter.argument = .nested list →
      (∀ inner ∈ list, inner.hasLeadingCombinator = false) →
        Search.Within e.scene.view (inList root) (inList' root)) :
    Search.Within e.scene.view (e.listForPart part root scope inList)
      ((e.withLookups more).listForPart part root scope inList') := by
  unfold listForPart
  dsimp only [withLookups]
  split
  · next getter hgetter => exact listByPseudo_within h fun list => hlist getter list hgetter
  · split
    · exact Search.within_note _ (Search.within_pure (h.elementsByClass _ _))
    · split
      · exact Search.within_note _ (Search.within_pure (h.elementsByName _ _))
      · refine (listByTag_within h scope _).bind fun listed more hmore => ?_
        split
        · -- what the host lists besides elements is dropped, and elements are kept
          refine Search.within_pure fun node hmem helement => ?_
          exact List.mem_filter.2 ⟨hmore node (List.mem_filter.1 hmem).1 helement, helement⟩
        · exact Search.within_pure hmore

theorem narrow_withLookups (h : more.elementById = e.lookups.elementById) (selector : Selector)
    (root scope : NodeId) (origins : List NodeId) :
    (e.withLookups more).narrow selector root scope origins = e.narrow selector root scope origins := by
  unfold narrow
  rw [h]
  rfl

theorem candidates_within (h : more.Covers e.scene.view e.lookups)
    (hlist : ∀ part getter list, selector.lastPart? = some part → part.getter? e.profile = some getter →
      getter.argument = .nested list → (∀ inner ∈ list, inner.hasLeadingCombinator = false) →
        ∀ root, Search.Within e.scene.view (inList root) (inList' root)) :
    Search.Within e.scene.view (e.candidates selector scope origins inList)
      ((e.withLookups more).candidates selector scope origins inList') := by
  unfold candidates
  split
  · exact Search.within_pure fun node hmem _ => hmem
  · next part hlast =>
    dsimp only
    rw [narrow_withLookups h.elementById]
    refine (narrow_agrees e (fun _ => .rfl) selector _ scope).bind_within fun narrowing => ?_
    cases narrowing with
    | nowhere | only element => exact Search.within_pure fun node hmem _ => hmem
    | below inner =>
      exact listForPart_within h fun getter list hgetter harg hlead =>
        hlist part getter list hlast hgetter harg hlead _

end Engine

/-! ## Searches -/

variable {e : Engine σ} {more : Lookups} {list : List Selector} {scope : NodeId}
  {origins : List NodeId}

theorem Selector.searchEach_within (key key' : SelectorKey) (position : Nat)
    (heach : ∀ selector ∈ list, ∀ key key', Search.Within e.scene.view
      (selector.search e key scope origins) (selector.search (e.withLookups more) key' scope origins)) :
    Search.Within e.scene.view (Selector.searchEach e key position list scope origins)
      (Selector.searchEach (e.withLookups more) key' position list scope origins) := by
  induction list generalizing position with
  | nil => exact Search.within_pure fun node hmem _ => hmem
  | cons selector rest ih =>
    rw [Selector.searchEach, Selector.searchEach]
    refine (heach selector List.mem_cons_self _ _).bind fun first first' hfirst => ?_
    refine (ih (position + 1) fun other hmem => heach other (List.mem_cons_of_mem _ hmem)).bind
      fun others others' hothers => Search.within_pure fun node hmem helement => ?_
    rcases List.mem_append.1 hmem with hmem | hmem
    · exact List.mem_append_left _ (hfirst node hmem helement)
    · exact List.mem_append_right _ (hothers node hmem helement)

/-- Without an evaluator, a search returns no less when the lookups list more. -/
theorem Selector.search_within (hnone : e.evaluator = none) (h : more.Covers e.scene.view e.lookups)
    (selector : Selector) (key key' : SelectorKey) (scope : NodeId) (origins : List NodeId) :
    Search.Within e.scene.view (selector.search e key scope origins)
      (selector.search (e.withLookups more) key' scope origins) := by
  induction selector using Selector.draws_induction (p := e.profile)
    generalizing scope origins key key' with
  | step selector ih =>
    obtain ⟨parts⟩ := selector
    have hnone' : (e.withLookups more).evaluator = none := hnone
    rw [Selector.search, Selector.search, Engine.searchOne_of_none hnone,
      Engine.searchOne_of_none hnone']
    refine (Engine.candidates_within h ?_).bind fun listed listed' hlisted =>
      Search.within_pure fun node hmem helement => ?_
    · intro part getter list hpart hgetter harg hlead root
      rw [Part.search_eq e key hpart hgetter,
        Part.search_eq (e.withLookups more) key' hpart hgetter, harg]
      show Search.Within e.scene.view (Argument.search e key (.nested list) root)
        (Argument.search (e.withLookups more) key' (.nested list) root)
      rw [Argument.search, Argument.search]
      refine (Selector.searchEach_within key key' 0 fun inner hmem key key' => ?_).bind
        fun found found' hfound => Search.within_pure fun node hmem helement => ?_
      · exact ih inner ⟨part, getter, list, hpart, hgetter, harg, hlead, hmem⟩ key key' root [root]
      · exact List.mem_eraseDups.2 (hfound node (List.mem_eraseDups.1 hmem) helement)
    · -- both searches apply the same test to their candidates
      obtain ⟨hmem, haccepts⟩ := List.mem_filter.1 hmem
      exact List.mem_filter.2 ⟨hlisted node hmem helement, haccepts⟩

/-- Without an evaluator, the search for a list returns no less when the lookups list more. -/
theorem Engine.select_within (hnone : e.evaluator = none) (h : more.Covers e.scene.view e.lookups)
    (serial serial' : Nat) (list : List Selector) (scope : List NodeId) :
    Search.Within e.scene.view (e.select serial list scope)
      ((e.withLookups more).select serial' list scope) := by
  have horigins : (e.withLookups more).origins scope = e.origins scope := rfl
  unfold Engine.select
  rw [horigins]
  cases e.origins scope with
  | nil => exact Search.within_pure fun node hmem _ => hmem
  | cons first rest =>
    refine (Selector.searchEach_within _ _ 0 fun selector _ key key' =>
      Selector.search_within hnone h selector key key' _ _).bind fun found found' hfound =>
        Search.within_pure fun node hmem helement => ?_
    exact List.mem_eraseDups.2 (hfound node (List.mem_eraseDups.1 hmem) helement)

end TreeQuery
