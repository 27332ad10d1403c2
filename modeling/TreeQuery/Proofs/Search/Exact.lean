import TreeQuery.Proofs.Distinct
import TreeQuery.Proofs.Match.Origins
import TreeQuery.Proofs.Search.Candidates

/-!
# A search finds the matches below its scope

Whatever a search returns matches, since candidates are tested, and it returns every match below its
scope, since the candidates are complete. Both hold with a host evaluator whose answers agree with the
test (`Engine.HostComplete`, `Engine.HostSound`), and so without one.

A pseudo-class may list the candidates by a search of its own selector list. These searches go down into
the selector, so the proof is by induction on its size.
-/

namespace TreeQuery

variable {σ : Type}

/-! ## Selectors that a search goes down to -/

/-- The last part of a selector takes its candidates from the search of a list with this selector. It
searches from the root, and so no list with a leading combinator. -/
def Selector.Draws (p : Profile) (selector inner : Selector) : Prop :=
  ∃ part getter list, selector.lastPart? = some part ∧ part.getter? p = some getter ∧
    getter.argument = .nested list ∧ (∀ other ∈ list, other.hasLeadingCombinator = false) ∧ inner ∈ list

theorem Selector.sizeOf_lt_of_draws {p : Profile} {selector inner : Selector}
    (h : selector.Draws p inner) : sizeOf inner < sizeOf selector := by
  obtain ⟨part, getter, list, hpart, hgetter, harg, -, hmem⟩ := h
  obtain ⟨hpseudo, -⟩ := List.mem_filter.1 (List.mem_of_getLast? hgetter)
  obtain ⟨clause, hclause, hsome⟩ := List.mem_filterMap.1 hpseudo
  have h1 := List.sizeOf_lt_of_mem (List.mem_of_getLast? hpart)
  have h2 := List.sizeOf_lt_of_mem hclause
  have h3 := List.sizeOf_lt_of_mem hmem
  cases clause with
  | pseudo other =>
    obtain rfl : other = getter := Option.some.inj hsome
    obtain ⟨parts⟩ := selector
    obtain ⟨_, _, _, clauses, _⟩ := part
    obtain ⟨_, _, _, argument⟩ := other
    obtain rfl : argument = .nested list := harg
    simp only [Selector.mk.sizeOf_spec, Part.mk.sizeOf_spec, Clause.pseudo.sizeOf_spec,
      PseudoClause.mk.sizeOf_spec, Argument.nested.sizeOf_spec] at h1 h2 ⊢
    omega
  | _ => cases hsome

/-- What holds of a selector as soon as it holds of all that it draws from, holds of all selectors. -/
theorem Selector.draws_induction {p : Profile} {P : Selector → Prop}
    (step : ∀ selector : Selector, (∀ inner, selector.Draws p inner → P inner) → P selector)
    (selector : Selector) : P selector :=
  WellFounded.induction (r := fun a b => sizeOf a < sizeOf b) (measure sizeOf).wf selector
    fun selector ih => step selector fun inner h => ih inner (Selector.sizeOf_lt_of_draws h)

/-! ## The search of an argument -/

/-- The pseudo-classes among conditions that list candidates. -/
def Clause.getters (p : Profile) (clauses : List Clause) : List PseudoClause :=
  (clauses.filterMap Clause.pseudo?).filter (·.listsCandidates p)

theorem Clause.getters_cons (p : Profile) (clause : Clause) (rest : List Clause) :
    Clause.getters p (clause :: rest) =
      (clause.pseudo?.filter (·.listsCandidates p)).toList ++ Clause.getters p rest := by
  rw [Clause.getters, List.filterMap_cons]
  cases clause.pseudo? with
  | none => rfl
  | some pseudo =>
    cases h : pseudo.listsCandidates p <;> simp [h, Clause.getters, Option.filter]

theorem Clause.getters_eq_nil {p : Profile} {clauses : List Clause} :
    Clause.getters p clauses = [] ↔ clauses.any (·.listsCandidates p) = false := by
  induction clauses with
  | nil => simp [Clause.getters]
  | cons clause rest ih =>
    rw [Clause.getters_cons, List.append_eq_nil_iff, ih, List.any_cons, Bool.or_eq_false_iff,
      Clause.listsCandidates]
    cases clause.pseudo? with
    | none => simp
    | some pseudo => cases h : pseudo.listsCandidates p <;> simp [h, Option.filter]

/-- The search of conditions is that of the last pseudo-class that lists candidates. -/
theorem Clause.search_eq (e : Engine σ) (key : SelectorKey) {clauses : List Clause}
    {getter : PseudoClause} (h : (Clause.getters e.profile clauses).getLast? = some getter) :
    Clause.search e key clauses = getter.argument.search e key := by
  funext root
  induction clauses with
  | nil => cases h
  | cons clause rest ih =>
    rw [Clause.getters_cons, List.getLast?_append] at h
    unfold Clause.search
    cases hany : rest.any (·.listsCandidates e.profile) with
    | true =>
      -- a later pseudo-class lists candidates, so it is the last one of both lists
      have hne : Clause.getters e.profile rest ≠ [] := by
        rw [Ne, Clause.getters_eq_nil, hany]
        exact Bool.noConfusion
      rw [Option.or_of_isSome (List.getLast?_isSome.2 hne)] at h
      rw [if_pos rfl, ih h]
    | false =>
      rw [Clause.getters_eq_nil.2 hany, List.getLast?_nil, Option.none_or] at h
      have hpseudo : clause.pseudo? = some getter :=
        (Option.filter_eq_some_iff.1 (Option.mem_toList.1 (List.mem_of_getLast? h))).1
      cases clause with
      | pseudo other =>
        obtain rfl : other = getter := Option.some.inj hpseudo
        obtain ⟨_, _, _, argument⟩ := other
        rfl
      | _ => cases hpseudo

/-- The search of parts is that of the last part. -/
theorem Part.search_eq (e : Engine σ) (key : SelectorKey) {parts : List Part} {part : Part}
    {getter : PseudoClause} (hpart : parts.getLast? = some part)
    (hgetter : part.getter? e.profile = some getter) :
    Part.search e key parts = getter.argument.search e key := by
  funext root
  induction parts with
  | nil => cases hpart
  | cons first rest ih =>
    obtain ⟨combinator, subject, tag, clauses, containment⟩ := first
    cases rest with
    | nil =>
      obtain rfl : _ = part := Option.some.inj hpart
      exact congrFun (Clause.search_eq e key hgetter) root
    | cons second rest => exact ih hpart

/-! ## The whole search -/

/-- If the host finds anything for a selector below a scope, it finds every match there. -/
def Engine.HostComplete (e : Engine σ) (t : Tree) (selector : Selector) (scope : NodeId)
    (origins : List NodeId) : Prop :=
  ∀ key, Search.Ensures (e.askHost key selector scope) fun answer => ∀ found, answer = some found →
    ∀ node, t.Above scope node → selector.accepts e.scene (some origins) node = true → node ∈ found

/-- What the host finds for a selector are matches, if the search is not going to test it. -/
def Engine.HostSound (e : Engine σ) (selector : Selector) (scope : NodeId)
    (origins : List NodeId) : Prop :=
  ∀ key, Search.Ensures (e.askHost key selector scope) fun answer => ∀ found, answer = some found →
    origins.length ≤ 1 → selector.isSupported e.profile = true →
      ∀ node ∈ found, selector.accepts e.scene (some origins) node = true

/-- Without an evaluator the host finds nothing. -/
theorem Engine.askHost_of_none {e : Engine σ} (h : e.evaluator = none) (key : SelectorKey)
    (selector : Selector) (scope : NodeId) :
    Search.Ensures (e.askHost key selector scope) (· = none) := by
  intro activity
  simp [Engine.askHost, h]

theorem Engine.hostComplete_of_none {e : Engine σ} (h : e.evaluator = none) (t : Tree)
    (selector : Selector) (scope : NodeId) (origins : List NodeId) :
    e.HostComplete t selector scope origins := by
  refine fun key => (Engine.askHost_of_none h key selector scope).mono ?_
  rintro _ rfl found ⟨⟩

theorem Engine.hostSound_of_none {e : Engine σ} (h : e.evaluator = none) (selector : Selector)
    (scope : NodeId) (origins : List NodeId) : e.HostSound selector scope origins := by
  refine fun key => (Engine.askHost_of_none h key selector scope).mono ?_
  rintro _ rfl found ⟨⟩

variable {t : Tree} {registry : Registry} {profile : Profile} {host : Host}
  {evaluator : Option (Evaluator σ)} {selector : Selector} {list : List Selector}
  {scope node : NodeId} {origins : List NodeId}

/-- A search returns matches only. -/
theorem Selector.search_sound {e : Engine σ} (key : SelectorKey)
    (hhost : e.HostSound selector scope origins) :
    Search.Ensures (selector.search e key scope origins) fun found =>
      ∀ node ∈ found, selector.accepts e.scene (some origins) node = true := by
  obtain ⟨parts⟩ := selector
  rw [Selector.search, Engine.searchOne]
  refine (hhost key).bind fun answer hanswer => ?_
  cases answer with
  | some found =>
    dsimp only
    split
    · exact Search.ensures_pure fun node hmem => (List.mem_filter.1 hmem).2
    · next htest =>
      rw [Bool.or_eq_true, decide_eq_true_iff, Bool.not_eq_true', not_or, Nat.not_lt,
        Bool.not_eq_false] at htest
      exact Search.ensures_pure (hanswer found rfl htest.1 htest.2)
  | none =>
    refine Search.Ensures.bind (P := fun _ => True) (fun _ => trivial) fun listed _ => ?_
    exact Search.ensures_pure fun node hmem => (List.mem_filter.1 hmem).2

/-- What the searches for the selectors of a list return is what each of them returns. -/
theorem Selector.searchEach_sound {e : Engine σ} (key : SelectorKey) (position : Nat)
    (hhost : ∀ selector ∈ list, e.HostSound selector scope origins) :
    Search.Ensures (Selector.searchEach e key position list scope origins) fun found =>
      ∀ node ∈ found, ∃ selector ∈ list, selector.accepts e.scene (some origins) node = true := by
  induction list generalizing position with
  | nil => exact Search.ensures_pure fun node hmem => absurd hmem List.not_mem_nil
  | cons selector rest ih =>
    rw [Selector.searchEach]
    refine (Selector.search_sound _ (hhost selector List.mem_cons_self)).bind fun first hfirst => ?_
    refine (ih (position + 1) fun other hmem => hhost other (List.mem_cons_of_mem _ hmem)).bind
      fun others hothers => Search.ensures_pure fun node hmem => ?_
    rcases List.mem_append.1 hmem with hmem | hmem
    · exact ⟨selector, List.mem_cons_self, hfirst node hmem⟩
    · obtain ⟨other, hother, haccepts⟩ := hothers node hmem
      exact ⟨other, List.mem_cons_of_mem _ hother, haccepts⟩

/-- The searches for the selectors of a list return what the search for one of them does. -/
theorem Selector.searchEach_complete {e : Engine σ} (key : SelectorKey) (position : Nat)
    (hmem : selector ∈ list)
    (hsearch : ∀ key, Search.Ensures (selector.search e key scope origins) (node ∈ ·)) :
    Search.Ensures (Selector.searchEach e key position list scope origins) (node ∈ ·) := by
  induction list generalizing position with
  | nil => cases hmem
  | cons first rest ih =>
    rw [Selector.searchEach]
    rcases List.mem_cons.1 hmem with rfl | hmem
    · refine (hsearch _).bind fun found hfound => ?_
      exact Search.Ensures.bind (P := fun _ => True) (fun _ => trivial) fun others _ =>
        Search.ensures_pure (List.mem_append_left _ hfound)
    · refine Search.Ensures.bind (P := fun _ => True) (fun _ => trivial) fun found _ => ?_
      exact (ih (position + 1) hmem).bind fun others hothers =>
        Search.ensures_pure (List.mem_append_right _ hothers)

/-- A search returns every match below its scope. -/
theorem Selector.search_complete (h : t.Linked) (hids : t.UniqueIds)
    (hhost : (t.engine registry profile host evaluator).HostComplete t selector scope origins)
    (hdrawn : ∀ inner, Relation.TransGen (Selector.Draws profile) selector inner → ∀ root,
      (t.engine registry profile host evaluator).HostComplete t inner root [root])
    (habove : t.Above scope node)
    (haccepts : selector.accepts ⟨t.view, host⟩ (some origins) node = true) (key : SelectorKey) :
    Search.Ensures (selector.search (t.engine registry profile host evaluator) key scope origins)
      (node ∈ ·) := by
  -- the induction goes down to the lists that a getter searches, not along the row
  induction selector using Selector.draws_induction (p := profile) generalizing scope origins key with
  | step selector ih =>
    obtain ⟨parts⟩ := selector
    rw [Selector.search, Engine.searchOne]
    refine (hhost key).bind fun answer hanswer => ?_
    cases answer with
    | some found =>
      have hfound := hanswer found rfl node habove haccepts
      dsimp only
      split
      · exact Search.ensures_pure (List.mem_filter.2 ⟨hfound, haccepts⟩)
      · exact Search.ensures_pure hfound
    | none =>
      refine (Engine.mem_candidates h hids habove haccepts ?_).bind fun listed hlisted =>
        Search.ensures_pure (List.mem_filter.2 ⟨hlisted, haccepts⟩)
      intro part getter list hpart hgetter harg hlead hroot hany
      rw [Selector.anyAccepts_eq_any, List.any_eq_true] at hany
      obtain ⟨inner, hmem, hinner⟩ := hany
      have hdraws : Selector.Draws profile ⟨parts⟩ inner :=
        ⟨part, getter, list, hpart, hgetter, harg, hlead, hmem⟩
      -- the inner search starts at the root, and the list was matched without origins
      rw [h.root_eq_of_above habove] at hroot
      have hstart := h.accepts_root (hlead inner hmem) hroot hinner
      rw [← h.root_eq_of_above habove] at hstart
      have hsearch := ih inner hdraws (hdrawn inner (.single hdraws) _)
        (fun other hother => hdrawn other (.head hdraws hother))
        (h.above_root_of_above habove) hstart
      rw [Part.search_eq _ key hpart hgetter, harg]
      show Search.Ensures (Argument.search _ key (.nested list) _) _
      rw [Argument.search]
      exact (Selector.searchEach_complete key 0 hmem hsearch).bind fun found hfound =>
        Search.ensures_pure (List.mem_eraseDups.2 hfound)

/-! ## The search for a list -/

namespace Engine

/-- A search returns each node once, and nothing but matches of one of the selectors. -/
theorem select_sound {e : Engine σ} (serial : Nat) {scope : List NodeId}
    (hhost : ∀ start, e.origins scope = [start] → ∀ selector ∈ list,
      e.HostSound selector start [start]) :
    Search.Ensures (e.select serial list scope) fun found => found.Nodup ∧ ∀ node ∈ found,
      ∃ selector ∈ list, selector.accepts e.scene (some (e.origins scope)) node = true := by
  unfold Engine.select
  split
  · exact Search.ensures_pure ⟨List.nodup_nil, fun node hmem => absurd hmem List.not_mem_nil⟩
  · next first rest horigins =>
    rw [horigins]
    have hsound : ∀ start, start = (if rest.isEmpty then first else e.scene.view.root first) →
        ∀ selector ∈ list, e.HostSound selector start (first :: rest) := by
      rintro start rfl selector hmem
      cases rest with
      | nil => exact hhost first horigins selector hmem
      | cons second rest =>
        -- what the host finds for several origins is always tested
        intro key activity found hfound hlength
        simp at hlength
    refine (Selector.searchEach_sound _ 0 (hsound _ rfl)).bind fun found hfound =>
      Search.ensures_pure ⟨nodup_eraseDups found, fun node hmem => ?_⟩
    exact hfound node (List.mem_eraseDups.1 hmem)

/-- A search from one node returns every match below it. -/
theorem select_complete (serial : Nat) (h : t.Linked) (hids : t.UniqueIds)
    (hhost : ∀ selector ∈ list, ∀ inner, Relation.ReflTransGen (Selector.Draws profile) selector inner →
      ∀ root, (t.engine registry profile host evaluator).HostComplete t inner root [root])
    (hscope : t.view.isContainer scope = true) (habove : t.Above scope node)
    (haccepts : Selector.anyAccepts ⟨t.view, host⟩ (some [scope]) list node = true) :
    Search.Ensures ((t.engine registry profile host evaluator).select serial list [scope])
      (node ∈ ·) := by
  rw [Selector.anyAccepts_eq_any, List.any_eq_true] at haccepts
  obtain ⟨selector, hmem, haccepts⟩ := haccepts
  have horigins : (t.engine registry profile host evaluator).origins [scope] = [scope] :=
    List.filter_cons_of_pos hscope
  have hsearch := fun key => Selector.search_complete h hids (hhost selector hmem selector .refl scope)
    (fun inner hinner => hhost selector hmem inner hinner.to_reflTransGen) habove haccepts key
  unfold Engine.select
  rw [horigins]
  exact (Selector.searchEach_complete _ 0 hmem hsearch).bind fun found hfound =>
    Search.ensures_pure (List.mem_eraseDups.2 hfound)

end Engine
end TreeQuery
