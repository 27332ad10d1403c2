import TreeQuery.Proofs.Search.Exact

/-!
# Two runs of a search

Without a host evaluator, what a search finds does not depend on the journal before it, on the key of
the selector or on the order in which the origins are listed. `Search.Agrees` compares two runs, and each
function of the search has one lemma that carries the agreement through it.
-/

namespace TreeQuery

variable {σ α β : Type}

namespace Search

/-- Whatever was asked before each of them, the two searches have one outcome. -/
def Agrees (first second : Search σ α) : Prop := ∀ a b, (first a).1 = (second b).1

theorem agrees_pure (x : α) : Agrees (σ := σ) (pure x) (pure x) := fun _ _ => rfl

theorem Agrees.bind {first second : Search σ α} {next next' : α → Search σ β}
    (h : Agrees first second) (hnext : ∀ x, Agrees (next x) (next' x)) :
    Agrees (first >>= next) (second >>= next') := by
  intro a b
  show (next (first a).1 (first a).2).1 = (next' (second b).1 (second b).2).1
  rw [h a b]
  exact hnext _ _ _

theorem agrees_note (lookup : Lookup) {next next' : Search σ α} (h : Agrees next next') :
    Agrees (do Activity.note lookup; next) (do Activity.note lookup; next') := fun _ _ => h _ _

end Search

/-! ## Origins -/

/-- Matching depends on the members of the list of origins alone. -/
theorem Selector.accepts_congr_origins (sc : Scene) {origins origins' : List NodeId}
    (h : ∀ node, node ∈ origins ↔ node ∈ origins') (selector : Selector) :
    selector.accepts sc (some origins) = selector.accepts sc (some origins') := by
  have hcontains : origins.contains = origins'.contains := by
    funext node
    rw [Bool.eq_iff_iff, List.contains_iff_mem, List.contains_iff_mem, h]
  obtain ⟨parts⟩ := selector
  have hstart : sc.startsAt (some origins) = sc.startsAt (some origins') := by
    funext link node
    rw [Scene.startsAt, Scene.startsAt, hcontains]
  funext node
  rw [Selector.accepts, Selector.accepts, hstart]

/-! ## Candidates -/

variable {e : Engine σ} {selector : Selector} {list : List Selector} {root scope : NodeId}
  {origins origins' : List NodeId} {inList inList' : NodeId → Search σ (List NodeId)}

namespace Engine

theorem listByTag_agrees (e : Engine σ) (scope : NodeId) (name : Option String) :
    Search.Agrees (e.listByTag scope name) (e.listByTag scope name) :=
  Search.agrees_note _ (Search.agrees_pure _)

theorem listByPseudo_agrees {getter : PseudoClause}
    (hlist : ∀ list, getter.argument = .nested list →
      (∀ inner ∈ list, inner.hasLeadingCombinator = false) →
        Search.Agrees (inList root) (inList' root)) :
    Search.Agrees (e.listByPseudo getter root scope inList)
      (e.listByPseudo getter root scope inList') := by
  rcases listByPseudo_cases e getter root scope with
    ⟨list, -, harg, hlead, -, hsearch⟩ | ⟨listed, -, hlists⟩
  · rw [hsearch, hsearch]
    exact hlist list harg hlead
  · exact fun a b => (hlists inList a).trans (hlists inList' b).symm

theorem listForPart_agrees {part : Part}
    (hlist : ∀ getter list, part.getter? e.profile = some getter → getter.argument = .nested list →
      (∀ inner ∈ list, inner.hasLeadingCombinator = false) →
        Search.Agrees (inList root) (inList' root)) :
    Search.Agrees (e.listForPart part root scope inList) (e.listForPart part root scope inList') := by
  unfold listForPart
  split
  · next getter hgetter => exact listByPseudo_agrees fun list => hlist getter list hgetter
  · split
    · exact Search.agrees_note _ (Search.agrees_pure _)
    · split
      · exact Search.agrees_note _ (Search.agrees_pure _)
      · refine (listByTag_agrees e scope _).bind fun listed => ?_
        split <;> exact Search.agrees_pure _

theorem narrow_agrees (e : Engine σ) (h : ∀ node, node ∈ origins ↔ node ∈ origins')
    (selector : Selector) (root scope : NodeId) :
    Search.Agrees (e.narrow selector root scope origins) (e.narrow selector root scope origins') := by
  have hto : e.narrowTo selector origins = e.narrowTo selector origins' := by
    funext position element
    simp only [narrowTo, Selector.accepts_congr_origins e.scene h]
  unfold narrow
  split
  · exact Search.agrees_pure _
  · rw [hto]
    exact Search.agrees_note _ (Search.agrees_pure _)

/-- The candidates for a selector agree, if the searches of the list that it draws from do. -/
theorem candidates_agrees (horigins : ∀ node, node ∈ origins ↔ node ∈ origins')
    (hlist : ∀ part getter list, selector.lastPart? = some part → part.getter? e.profile = some getter →
      getter.argument = .nested list → (∀ inner ∈ list, inner.hasLeadingCombinator = false) →
        ∀ root, Search.Agrees (inList root) (inList' root)) :
    Search.Agrees (e.candidates selector scope origins inList)
      (e.candidates selector scope origins' inList') := by
  unfold candidates
  split
  · exact Search.agrees_pure _
  · next part hlast =>
    refine (narrow_agrees e horigins selector _ scope).bind fun narrowing => ?_
    cases narrowing with
    | nowhere | only element => exact Search.agrees_pure _
    | below inner =>
      exact listForPart_agrees fun getter list hgetter harg hlead =>
        hlist part getter list hlast hgetter harg hlead _

/-- Without an evaluator a search tests its candidates. -/
theorem searchOne_of_none (h : e.evaluator = none) (key : SelectorKey) (selector : Selector)
    (scope : NodeId) (origins : List NodeId) (inList : NodeId → Search σ (List NodeId)) :
    e.searchOne key selector scope origins inList = (do
      let listed ← e.candidates selector scope origins inList
      pure (listed.filter (selector.accepts e.scene (some origins)))) := by
  have hask : e.askHost key selector scope = pure none := by
    funext activity
    simp only [askHost, h]
    rfl
  rw [searchOne, hask, pure_bind]

end Engine

/-! ## Searches -/

/-- The searches for the selectors of a list agree if those for each of them do. -/
theorem Selector.searchEach_agrees (key key' : SelectorKey) (position : Nat)
    (heach : ∀ selector ∈ list, ∀ key key', Search.Agrees (selector.search e key scope origins)
      (selector.search e key' scope origins')) :
    Search.Agrees (Selector.searchEach e key position list scope origins)
      (Selector.searchEach e key' position list scope origins') := by
  induction list generalizing position with
  | nil => exact Search.agrees_pure _
  | cons selector rest ih =>
    rw [Selector.searchEach, Selector.searchEach]
    refine (heach selector List.mem_cons_self _ _).bind fun first => ?_
    refine (ih (position + 1) fun other hmem => heach other (List.mem_cons_of_mem _ hmem)).bind
      fun others => Search.agrees_pure _

/-- Without an evaluator, the search for a selector below a scope has one outcome for all orders of the
origins, whatever was asked before. -/
theorem Selector.search_agrees (h : e.evaluator = none) (selector : Selector) (key key' : SelectorKey)
    (scope : NodeId) (horigins : ∀ node, node ∈ origins ↔ node ∈ origins') :
    Search.Agrees (selector.search e key scope origins) (selector.search e key' scope origins') := by
  induction selector using Selector.draws_induction (p := e.profile)
    generalizing scope origins origins' key key' with
  | step selector ih =>
    obtain ⟨parts⟩ := selector
    rw [Selector.search, Selector.search, Engine.searchOne_of_none h, Engine.searchOne_of_none h,
      Selector.accepts_congr_origins e.scene horigins]
    refine (Engine.candidates_agrees horigins ?_).bind fun listed => Search.agrees_pure _
    intro part getter list hpart hgetter harg hlead root
    rw [Part.search_eq e key hpart hgetter, Part.search_eq e key' hpart hgetter, harg]
    show Search.Agrees (Argument.search e key (.nested list) root)
      (Argument.search e key' (.nested list) root)
    rw [Argument.search, Argument.search]
    refine (Selector.searchEach_agrees key key' 0 fun inner hmem key key' => ?_).bind
      fun found => Search.agrees_pure _
    exact ih inner ⟨part, getter, list, hpart, hgetter, harg, hlead, hmem⟩ key key' root fun _ => .rfl

/-- Without an evaluator, the search for a list has one outcome for all orders of a scope whose first
origins lie in one tree. -/
theorem Engine.select_agrees (h : e.evaluator = none) (serial serial' : Nat) (list : List Selector)
    {scope scope' : List NodeId} (hperm : scope.Perm scope')
    (hroot : (e.origins scope).head?.map e.scene.view.root =
      (e.origins scope').head?.map e.scene.view.root) :
    Search.Agrees (e.select serial list scope) (e.select serial' list scope') := by
  have horigins : (e.origins scope).Perm (e.origins scope') := hperm.filter _
  unfold Engine.select
  cases hfirst : e.origins scope with
  | nil =>
    rw [hfirst] at horigins
    rw [horigins.symm.eq_nil]
    exact Search.agrees_pure _
  | cons first rest =>
    rw [hfirst] at horigins hroot
    cases hsecond : e.origins scope' with
    | nil =>
      rw [hsecond] at horigins
      cases horigins.eq_nil
    | cons first' rest' =>
      rw [hsecond] at horigins hroot
      -- a single origin is the start of the search, several start it at their root
      have hstart : (if rest.isEmpty then first else e.scene.view.root first) =
          (if rest'.isEmpty then first' else e.scene.view.root first') := by
        have hlength : rest.length = rest'.length := Nat.succ.inj horigins.length_eq
        cases rest with
        | nil =>
          obtain rfl := List.length_eq_zero_iff.1 hlength.symm
          exact List.singleton_inj.1 (List.perm_singleton.1 horigins)
        | cons second rest =>
          obtain ⟨second', more, rfl⟩ := List.exists_cons_of_length_eq_add_one hlength.symm
          exact Option.some.inj hroot
      dsimp only
      rw [hstart]
      exact (Selector.searchEach_agrees _ _ 0 fun selector _ key key' =>
        Selector.search_agrees h selector key key' _ fun _ => horigins.mem_iff).bind
          fun found => Search.agrees_pure _

end TreeQuery
