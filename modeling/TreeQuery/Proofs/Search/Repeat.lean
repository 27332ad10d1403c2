import TreeQuery.Proofs.Search.Exact
import TreeQuery.Proofs.Search.Journal

/-!
# Searches that are repeated

A search can be repeated with another evaluator. If the calls that failed are left out from the start, and
the other evaluator gives the answers of the others, the second search makes just these calls and has the
same outcome: a call that fails is as good as one that is not made. `Search.Traced` says so of a search
together with the calls that it makes, and each function of the search has one lemma that carries it
through.
-/

namespace TreeQuery

variable {σ τ α β : Type}

/-- The calls that did not fail. -/
def answered (made : List HostCall) : List HostCall := made.filter (·.found.isSome)

theorem answered_append (made rest : List HostCall) :
    answered (made ++ rest) = answered made ++ answered rest := List.filter_append ..

/-- The evaluator gives the answers of the calls one by one, which gets it from one state to another. -/
def Evaluator.Gives (evaluator : Option (Evaluator τ)) : τ → List HostCall → τ → Prop
  | state, [], last => state = last
  | state, call :: rest, last => ∃ given reply next, evaluator = some given ∧
      given.answer call.scope call.text state = (reply, next) ∧ reply.found = call.found ∧
        Gives evaluator next rest last

theorem Evaluator.gives_append {evaluator : Option (Evaluator τ)} {state last : τ}
    {made rest : List HostCall} : Gives evaluator state (made ++ rest) last ↔
      ∃ next, Gives evaluator state made next ∧ Gives evaluator next rest last := by
  induction made generalizing state with
  | nil => exact ⟨fun h => ⟨state, rfl, h⟩, fun ⟨_, heq, h⟩ => heq ▸ h⟩
  | cons call made ih =>
    constructor
    · rintro ⟨given, reply, next, hsome, hanswer, hfound, hrest⟩
      obtain ⟨mid, hmade, hrest⟩ := ih.1 hrest
      exact ⟨mid, ⟨given, reply, next, hsome, hanswer, hfound, hmade⟩, hrest⟩
    · rintro ⟨mid, ⟨given, reply, next, hsome, hanswer, hfound, hmade⟩, hrest⟩
      exact ⟨given, reply, next, hsome, hanswer, hfound, ih.2 ⟨mid, hmade, hrest⟩⟩

/-! ## Repeating calls -/

/-- An activity is prepared to repeat the calls that were made from another one: of the selectors that were
marked or called for, those with an answer may be asked for, and the evaluator gives these answers. -/
structure Activity.Prepared (e' : Engine τ) (a : Activity σ) (made : List HostCall) (c : Activity τ)
    (last : τ) : Prop where
  marked : ∀ key, a.hasFailed key = true → e'.mayAsk c key = false
  asked : ∀ call ∈ made, e'.mayAsk c call.key = call.found.isSome
  gives : Evaluator.Gives e'.evaluator c.state (answered made) last

/-- The calls that have an answer are made again, and nothing is marked. -/
structure Activity.Repeats (made : List HostCall) (c c' : Activity τ) (last : τ) : Prop where
  state : c'.state = last
  failed : c'.failed = c.failed
  calls : c'.calls = c.calls ++ answered made

namespace Activity

variable {e' : Engine τ} {a b : Activity σ} {c c' c'' : Activity τ} {made rest : List HostCall}
  {mid last : τ}

theorem Prepared.state_eq (h : Prepared e' a [] c last) : c.state = last := h.gives

theorem Repeats.append (h : Repeats made c c' mid) (h' : Repeats rest c' c'' last) :
    Repeats (made ++ rest) c c'' last where
  state := h'.state
  failed := h'.failed.trans h.failed
  calls := by rw [h'.calls, h.calls, answered_append, List.append_assoc]

/-- What is prepared for all calls is prepared for the first ones, and after these for the rest. -/
theorem Prepared.split (h : Prepared e' a (made ++ rest) c last) (hjournal : Journal a b made) :
    ∃ mid, Prepared e' a made c mid ∧ ∀ c', Repeats made c c' mid → Prepared e' b rest c' last := by
  obtain ⟨mid, hmade, hrest⟩ := Evaluator.gives_append.1 (answered_append made rest ▸ h.gives)
  refine ⟨mid, ⟨h.marked, fun call hmem => h.asked call (List.mem_append_left _ hmem), hmade⟩,
    fun c' hrepeats => ?_⟩
  have hmay : e'.mayAsk c' = e'.mayAsk c := by
    funext key
    rw [Engine.mayAsk, Engine.mayAsk, hasFailed_congr hrepeats.failed]
  refine ⟨fun key hmarked => ?_, fun call hmem => ?_, hrepeats.state ▸ hrest⟩
  · rw [hmay]
    rcases (hjournal.hasFailed_iff key).1 hmarked with hold | ⟨call, hmem, rfl, hnone⟩
    · exact h.marked key hold
    · rw [h.asked call (List.mem_append_left _ hmem), hnone]
      rfl
  · rw [hmay]
    exact h.asked call (List.mem_append_right _ hmem)

end Activity

/-! ## Repeating programs -/

namespace Search

open Activity

/-- The calls of a search have a property and are for distinct selectors, and the other search repeats it
from every activity that is prepared to. -/
def Traced (e' : Engine τ) (P : HostCall → Prop) (search : Search σ α) (other : Search τ α) : Prop :=
  ∀ a, ∃ made, Journal a (search a).2 made ∧ (∀ call ∈ made, P call) ∧ (made.map (·.key)).Nodup ∧
    ∀ c last, Prepared e' a made c last →
      (other c).1 = (search a).1 ∧ Repeats made c (other c).2 last

variable {e' : Engine τ} {P Q R : HostCall → Prop} {search : Search σ α} {other : Search τ α}

/-- Lookups are no calls. -/
theorem traced_of_noting {x : α} {lookups : List Lookup} (h : ∀ a, search a = (x, a.noting lookups))
    (h' : ∀ c, other c = (x, c.noting lookups)) : Traced e' P search other := by
  intro a
  refine ⟨[], ?_, fun _ hmem => absurd hmem List.not_mem_nil, .nil, fun c last hprepared => ?_⟩
  · rw [h]
    exact journal_nil rfl rfl
  · rw [h, h']
    exact ⟨rfl, hprepared.state_eq, rfl, (List.append_nil _).symm⟩

theorem traced_pure (x : α) : Traced e' P (pure x : Search σ α) (pure x : Search τ α) := by
  have hpure : ∀ {ρ : Type} (a : Activity ρ), (pure x : Search ρ α) a = (x, a.noting []) := fun a => by
    rw [noting_nil]
    rfl
  exact traced_of_noting hpure hpure

theorem Traced.mono (h : Traced e' P search other) (himp : ∀ call, P call → Q call) :
    Traced e' Q search other := by
  intro a
  obtain ⟨made, hjournal, hP, hkeys, hrepeats⟩ := h a
  exact ⟨made, hjournal, fun call hmem => himp call (hP call hmem), hkeys, hrepeats⟩

/-- One search after another, if their calls are for distinct selectors. -/
theorem Traced.bind {next : α → Search σ β} {next' : α → Search τ β} (h : Traced e' P search other)
    (hnext : ∀ x, Traced e' Q (next x) (next' x)) (hP : ∀ call, P call → R call)
    (hQ : ∀ call, Q call → R call) (hdistinct : ∀ call later, P call → Q later → call.key ≠ later.key) :
    Traced e' R (search >>= next) (other >>= next') := by
  intro a
  obtain ⟨made, hjournal, hmade, hkeys, hrepeats⟩ := h a
  obtain ⟨rest, hjournal', hrest, hkeys', hrepeats'⟩ := hnext (search a).1 (search a).2
  refine ⟨made ++ rest, hjournal.trans hjournal', fun call hmem => ?_, ?_, fun c last hprepared => ?_⟩
  · exact (List.mem_append.1 hmem).elim (fun h => hP call (hmade call h)) fun h => hQ call (hrest call h)
  · rw [List.map_append, List.nodup_append]
    refine ⟨hkeys, hkeys', fun key hmem key' hmem' => ?_⟩
    obtain ⟨call, hcall, rfl⟩ := List.mem_map.1 hmem
    obtain ⟨later, hlater, rfl⟩ := List.mem_map.1 hmem'
    exact hdistinct call later (hmade call hcall) (hrest later hlater)
  · obtain ⟨mid, hfirst, hthen⟩ := hprepared.split hjournal
    obtain ⟨heq, hfirst⟩ := hrepeats c mid hfirst
    obtain ⟨heq', hlast⟩ := hrepeats' (other c).2 last (hthen _ hfirst)
    show (next' (other c).1 (other c).2).1 = _ ∧ Repeats _ c (next' (other c).1 (other c).2).2 last
    rw [heq]
    exact ⟨heq', hfirst.append hlast⟩

theorem Traced.bind_pure (h : Traced e' P search other) (f : α → β) :
    Traced e' P (do pure (f (← search))) (do pure (f (← other))) :=
  h.bind (Q := fun _ => False) (fun x => traced_pure (f x)) (fun _ hP => hP) (fun _ hFalse => hFalse.elim)
    fun _ _ _ hFalse => hFalse.elim

/-- Lookups before a search change none of its calls. -/
theorem Traced.after_noting {search' : Search σ α} {other' : Search τ α} {lookups : List Lookup}
    (h : Traced e' P search other) (hsearch : ∀ a, search' a = search (a.noting lookups))
    (hother : ∀ c, other' c = other (c.noting lookups)) : Traced e' P search' other' := by
  intro a
  obtain ⟨made, hjournal, hP, hkeys, hrepeats⟩ := h (a.noting lookups)
  rw [hsearch]
  refine ⟨made, ?_, hP, hkeys, fun c last hprepared => ?_⟩
  · exact ⟨hjournal.calls, hjournal.hasFailed_iff, hjournal.unmarked, hjournal.permanent⟩
  · rw [hother]
    obtain ⟨heq, hrepeats⟩ := hrepeats (c.noting lookups) last
      ⟨hprepared.marked, hprepared.asked, hprepared.gives⟩
    exact ⟨heq, hrepeats.state, hrepeats.failed, hrepeats.calls⟩

end Search

/-! ## Selectors and their keys -/

/-- The list from whose search the last part of a selector draws its candidates, if it does. -/
def Selector.drawnList? (p : Profile) (selector : Selector) : Option (List Selector) :=
  (selector.lastPart?.bind (·.getter? p)).bind (·.argument.nested?)

/-- The selector at which positions lead into a selector, one for each list on the way. -/
def Selector.inner? (p : Profile) : Selector → List Nat → Option Selector
  | selector, [] => some selector
  | selector, position :: path =>
    ((selector.drawnList? p).bind (·[position]?)).bind (·.inner? p path)

/-- The selector with a key, in the list with the serial number of the key. -/
def Selector.ofKey? (p : Profile) (list : List Selector) (key : SelectorKey) : Option Selector :=
  match key.path with
  | [] => none
  | position :: path => list[position]?.bind (·.inner? p path)

namespace Engine

variable {e : Engine σ} {evaluator : Option (Evaluator τ)} {selector : Selector} {list : List Selector}
  {key : SelectorKey} {scope : NodeId} {origins : List NodeId} {call : HostCall}

/-- The call is for the selector with this key. It asks the evaluator for the text of the selector, which is
one for the host. -/
def AsksFor (e : Engine σ) (key : SelectorKey) (selector : Selector) (call : HostCall) : Prop :=
  call.key = key ∧ call.text = selector.native e.profile ∧ e.asksHost selector = true ∧
    e.evaluator.isSome = true

/-- The call is for the selector with this key or for one that it leads to. -/
def AsksIn (e : Engine σ) (key : SelectorKey) (selector : Selector) (call : HostCall) : Prop :=
  ∃ path target, selector.inner? e.profile path = some target ∧
    e.AsksFor { key with path := key.path ++ path } target call

/-- The call is for a selector of the list below this key, or for one that it leads to. -/
def AsksInList (e : Engine σ) (key : SelectorKey) (position : Nat) (list : List Selector)
    (call : HostCall) : Prop :=
  ∃ index selector, list[index]? = some selector ∧
    e.AsksIn (key.branch (position + index)) selector call

theorem asksIn_of_asksFor (h : e.AsksFor key selector call) : e.AsksIn key selector call :=
  ⟨[], selector, rfl, by rwa [List.append_nil]⟩

/-- Calls for a list that a selector draws from are calls for what the selector leads to. -/
theorem AsksInList.asksIn (h : e.AsksInList key 0 list call)
    (hlist : selector.drawnList? e.profile = some list) :
    e.AsksIn key selector call ∧ call.key ≠ key := by
  obtain ⟨index, inner, hinner, path, target, htarget, hasks⟩ := h
  have hpath : (key.branch (0 + index)).path ++ path = key.path ++ index :: path := by
    rw [SelectorKey.branch, Nat.zero_add, List.append_assoc]
    rfl
  refine ⟨⟨index :: path, target, ?_, ?_⟩, fun heq => ?_⟩
  · rw [Selector.inner?, hlist, Option.bind_some, hinner, Option.bind_some, htarget]
  · rw [← hpath]
    exact hasks
  · have hlength := congrArg List.length (hpath.symm.trans (congrArg (·.path) (hasks.1.symm.trans heq)))
    rw [List.length_append, List.length_cons] at hlength
    omega

/-! ## The search of a list -/

theorem askHost_traced (hevaluator : e.evaluator = none → evaluator = none) (key : SelectorKey)
    (selector : Selector) (scope : NodeId) :
    Search.Traced (e.withEvaluator evaluator) (e.AsksFor key selector) (e.askHost key selector scope)
      ((e.withEvaluator evaluator).askHost key selector scope) := by
  intro a
  cases hmay : e.mayAsk a key && e.asksHost selector with
  | false =>
    rw [askHost_of_not hmay]
    refine ⟨[], Activity.journal_nil rfl rfl, fun _ hmem => absurd hmem List.not_mem_nil, .nil,
      fun c last hprepared => ?_⟩
    have hmay' : ((e.withEvaluator evaluator).mayAsk c key &&
        (e.withEvaluator evaluator).asksHost selector) = false := by
      rcases (Bool.and_eq_false_iff.1 hmay) with hnot | hnot
      · -- nothing is asked without an evaluator, and nothing for a marked selector
        rcases (Bool.and_eq_false_iff.1 hnot) with hnone | hmarked
        · rw [mayAsk, hevaluator (Option.isNone_iff_eq_none.1 (Option.isSome_eq_false_iff.1 hnone))]
          rfl
        · rw [hprepared.marked key (by simpa using hmarked), Bool.false_and]
      · rw [show (e.withEvaluator evaluator).asksHost selector = false from hnot, Bool.and_false]
    rw [askHost_of_not hmay']
    exact ⟨rfl, hprepared.state_eq, rfl, (List.append_nil _).symm⟩
  | true =>
    obtain ⟨hmayAsk, hasks⟩ := Bool.and_eq_true_iff.1 hmay
    obtain ⟨hsome, hunmarked⟩ := Bool.and_eq_true_iff.1 hmayAsk
    obtain ⟨given, hgiven⟩ := Option.isSome_iff_exists.1 hsome
    obtain ⟨reply, state, hreply⟩ : ∃ reply state,
        given.answer scope (selector.native e.profile) a.state = (reply, state) := ⟨_, _, rfl⟩
    rw [askHost_of_mayAsk hmay hgiven hreply]
    refine ⟨[⟨scope, selector.native e.profile, key, reply.found⟩], ?_, ?_, List.nodup_singleton _,
      fun c last hprepared => ?_⟩
    · rw [Bool.not_eq_true'] at hunmarked
      exact Activity.journal_call ⟨scope, selector.native e.profile, key, reply.found⟩ hunmarked
    · intro call hmem
      obtain rfl := List.mem_singleton.1 hmem
      exact ⟨rfl, rfl, hasks, hsome⟩
    · have hmay' := hprepared.asked _ (List.mem_singleton_self _)
      have hgives := hprepared.gives
      cases hfound : reply.found with
      | none =>
        rw [hfound] at hmay' hgives
        rw [askHost_of_not (by rw [hmay']; rfl)]
        exact ⟨rfl, hgives, rfl, (List.append_nil _).symm⟩
      | some found =>
        rw [hfound] at hmay' hgives
        obtain ⟨given', reply', next, hgiven', hreply', hfound', rfl⟩ := hgives
        rw [askHost_of_mayAsk (by rw [hmay']; exact hasks) hgiven' hreply', hfound']
        exact ⟨rfl, rfl, rfl, rfl⟩

theorem candidates_traced {P : HostCall → Prop} {inList : NodeId → Search σ (List NodeId)}
    {inList' : NodeId → Search τ (List NodeId)}
    (hlist : ∀ part getter list, selector.lastPart? = some part → part.getter? e.profile = some getter →
      getter.argument = .nested list → (∀ inner ∈ list, inner.hasLeadingCombinator = false) → ∀ root,
        Search.Traced (e.withEvaluator evaluator) P (inList root) (inList' root)) :
    Search.Traced (e.withEvaluator evaluator) P (e.candidates selector scope origins inList)
      ((e.withEvaluator evaluator).candidates selector scope origins inList') := by
  rcases candidates_draws e selector scope origins with
    ⟨listed, lookups, h⟩ | ⟨part, getter, list, lookups, hpart, hgetter, harg, hlead, h⟩
  · exact Search.traced_of_noting (h e.evaluator inList) (h evaluator inList')
  · exact (hlist part getter list hpart hgetter harg hlead _).after_noting (h e.evaluator inList)
      (h evaluator inList')

theorem searchOne_traced (hevaluator : e.evaluator = none → evaluator = none)
    {inList : NodeId → Search σ (List NodeId)} {inList' : NodeId → Search τ (List NodeId)}
    (hlist : ∀ part getter list, selector.lastPart? = some part → part.getter? e.profile = some getter →
      getter.argument = .nested list → (∀ inner ∈ list, inner.hasLeadingCombinator = false) → ∀ root,
        Search.Traced (e.withEvaluator evaluator) (e.AsksInList key 0 list) (inList root)
          (inList' root)) :
    Search.Traced (e.withEvaluator evaluator) (e.AsksIn key selector)
      (e.searchOne key selector scope origins inList)
      ((e.withEvaluator evaluator).searchOne key selector scope origins inList') := by
  unfold searchOne
  refine (askHost_traced hevaluator key selector scope).bind
    (Q := fun call => e.AsksIn key selector call ∧ call.key ≠ key) (fun answer => ?_)
    (fun _ => asksIn_of_asksFor) (fun _ h => h.1) fun _ _ hown hinner heq => hinner.2 (heq ▸ hown.1)
  cases answer with
  | some found =>
    dsimp only
    split <;> exact Search.traced_pure _
  | none =>
    refine (candidates_traced fun part getter list hpart hgetter harg hlead root => ?_).bind_pure _
    refine (hlist part getter list hpart hgetter harg hlead root).mono fun call hcall => hcall.asksIn ?_
    rw [Selector.drawnList?, hpart, Option.bind_some, hgetter, Option.bind_some, harg]
    rfl

end Engine

theorem Selector.searchEach_traced {e : Engine σ} {evaluator : Option (Evaluator τ)} {scope : NodeId}
    {origins : List NodeId} (key : SelectorKey) (position : Nat) {list : List Selector}
    (heach : ∀ selector ∈ list, ∀ key, Search.Traced (e.withEvaluator evaluator) (e.AsksIn key selector)
      (selector.search e key scope origins)
      (selector.search (e.withEvaluator evaluator) key scope origins)) :
    Search.Traced (e.withEvaluator evaluator) (e.AsksInList key position list)
      (Selector.searchEach e key position list scope origins)
      (Selector.searchEach (e.withEvaluator evaluator) key position list scope origins) := by
  induction list generalizing position with
  | nil =>
    rw [Selector.searchEach, Selector.searchEach]
    exact Search.traced_pure _
  | cons selector rest ih =>
    rw [Selector.searchEach, Selector.searchEach]
    refine (heach selector List.mem_cons_self (key.branch position)).bind (fun first =>
      (ih (position + 1) fun other hmem => heach other (List.mem_cons_of_mem _ hmem)).bind_pure _)
      (fun call hcall => ⟨0, selector, rfl, hcall⟩) ?_ ?_
    · rintro call ⟨index, other, hother, hcall⟩
      refine ⟨index + 1, other, hother, ?_⟩
      rwa [Nat.add_right_comm] at hcall
    · -- the keys part at the position in the list
      rintro call later ⟨path, -, -, hkey, -⟩ ⟨index, -, -, path', -, -, hkey', -⟩ heq
      rw [hkey, hkey'] at heq
      have hpath := congrArg SelectorKey.path heq
      simp only [SelectorKey.branch, List.append_assoc, List.append_cancel_left_eq,
        List.singleton_append, List.cons.injEq] at hpath
      omega

theorem Selector.search_traced {e : Engine σ} {evaluator : Option (Evaluator τ)}
    (hevaluator : e.evaluator = none → evaluator = none) (selector : Selector) (key : SelectorKey)
    (scope : NodeId) (origins : List NodeId) :
    Search.Traced (e.withEvaluator evaluator) (e.AsksIn key selector)
      (selector.search e key scope origins)
      (selector.search (e.withEvaluator evaluator) key scope origins) := by
  induction selector using Selector.draws_induction (p := e.profile) generalizing key scope origins with
  | step selector ih =>
    obtain ⟨parts⟩ := selector
    rw [Selector.search, Selector.search]
    refine Engine.searchOne_traced hevaluator fun part getter list hpart hgetter harg hlead root => ?_
    rw [Part.search_eq e key hpart hgetter, Part.search_eq (e.withEvaluator evaluator) key hpart hgetter,
      harg]
    show Search.Traced _ _ (Argument.search e key (.nested list) root)
      (Argument.search (e.withEvaluator evaluator) key (.nested list) root)
    rw [Argument.search, Argument.search]
    refine (Selector.searchEach_traced key 0 fun inner hmem key => ?_).bind_pure _
    exact ih inner ⟨part, getter, list, hpart, hgetter, harg, hlead, hmem⟩ key root [root]

/-- What the search for a list of a scope asks. -/
theorem Engine.select_traced {e : Engine σ} {evaluator : Option (Evaluator τ)}
    (hevaluator : e.evaluator = none → evaluator = none) (serial : Nat) (list : List Selector)
    (scope : List NodeId) :
    Search.Traced (e.withEvaluator evaluator) (e.AsksInList ⟨serial, []⟩ 0 list)
      (e.select serial list scope) ((e.withEvaluator evaluator).select serial list scope) := by
  unfold Engine.select
  rw [show (e.withEvaluator evaluator).origins scope = e.origins scope from rfl]
  cases e.origins scope with
  | nil => exact Search.traced_pure _
  | cons first rest =>
    exact (Selector.searchEach_traced _ 0 fun selector _ key =>
      Selector.search_traced hevaluator selector key _ _).bind_pure _

end TreeQuery
