import TreeQuery.Proofs.Native.RoundTrip
import TreeQuery.Proofs.Session.Query

/-!
# Queries with a host evaluator

A host evaluator that tells the truth about the texts that it is handed is handed less than the selector,
and what it finds is tested again unless the text says all. So a query finds the same nodes with it and
without it, as long as every selector that is handed on survives (`Selector.Survives`): its text reads as
what is kept of it, and a part that keeps a comparison with like siblings keeps all that makes siblings
alike. If a part loses some of this, the host compares with more siblings than the part does, and misses
matches that no later test can bring back.
-/

namespace TreeQuery

variable {σ τ : Type} {t : Tree} {profile : Profile} {host : Host} {evaluator : Evaluator σ}
  {selector inner : Selector} {scope node : NodeId}

/-! ## Evaluators that tell the truth -/

/-- Whether the answer is that a test succeeds. -/
def Answer.isTrue : Answer → Bool
  | .truth holds => holds
  | _ => false

/-- Whether a node satisfies the selector of a text relative to a scope, by the test of an engine without
an evaluator. -/
def Tree.tests (t : Tree) (host : Host) (text : String) (scope node : NodeId) : Bool :=
  ((t.engine .standard .manual host none : Engine Unit).perform (.test text node (some [scope]))
    (.start (.empty none) ())).1.toOption.any Answer.isTrue

/-- On every call the evaluator fails or finds exactly the nodes below the scope that satisfy the text. -/
def Evaluator.IsTruthful (evaluator : Evaluator σ) (t : Tree) (host : Host) : Prop :=
  ∀ scope text state found, (evaluator.answer scope text state).1.found = some found →
    ∀ node, node ∈ found ↔ node ∈ t.descendants scope ∧ t.tests host text scope node = true

/-- A test of known nodes is the test of the list that its text reads as. -/
theorem Tree.tests_eq {text : String} {list : List Selector} (hread : Selector.read .standard text = .ok list)
    (hscope : t.view.contains scope = true) (hnode : t.view.contains node = true) :
    t.tests host text scope node = Selector.anyAccepts ⟨t.view, host⟩ (some [scope]) list node := by
  have horigins : ∀ origins, some [scope] = some origins → ∀ origin ∈ origins,
      t.view.contains origin = true := by
    rintro origins ⟨⟩ origin horigin
    rw [List.mem_singleton.1 horigin]
    exact hscope
  have hstart := Engine.Reached.start (e := t.engine .standard .manual host none) none ()
  rw [Tree.tests, hstart.perform_test hnode horigins hread]
  rfl

/-! ## Selectors that survive -/

/-- What it takes for a selector to lose no match when a host is told of it: its text can be read back,
no part of it has too many lookups to be counted, and the same siblings are alike for the host where it
compares with them. -/
structure Selector.Survives (p : Profile) (selector : Selector) : Prop where
  lasting : selector.Lasting p
  countable : Selector.read .standard (selector.native p) ≠ .error .overflow
  shape : ∀ part ∈ selector.parts, part.KeepsShape p

/-- If the profile counts classes, the text for the host has no more lookups than the selector. -/
theorem Selector.Lasting.countable {quiet : Prop} (h : selector.Lasting profile)
    (hnames : profile.UsesStandardNames) (hlegible : selector.Legible profile quiet)
    (hclasses : profile.classLookup = true) :
    Selector.read .standard (selector.native profile) ≠ .error .overflow := by
  have hback := read_eq_ok.2 (standardLists_native hnames hlegible h)
  have heq := read_eq_of_classLookup .standard (q := .manual) hclasses (selector.native profile)
  rw [show Parser.standard = ⟨.standard, .manual⟩ from rfl, ← heq, hback]
  nofun

namespace Selector.Survives

variable {quiet : Prop}

/-- The text for a host reads back. -/
theorem read_native (h : selector.Survives profile) (hnames : profile.UsesStandardNames)
    (hlegible : selector.Legible profile quiet) :
    Selector.read .standard (selector.native profile) = .ok [selector.kept profile] := by
  have hback := read_eq_ok.2 (standardLists_native hnames hlegible h.lasting)
  have hcounts : profile.classLookup = true → Profile.manual.classLookup = true := fun _ => rfl
  exact ((read_profile .standard hcounts (selector.native profile)).resolve_right h.countable).trans hback

/-- The text for a host is satisfied by every match. -/
theorem tests_of_accepts (h : selector.Survives profile) (ht : t.Linked)
    (hnames : profile.UsesStandardNames) (hlegible : selector.Legible profile quiet)
    (hbeside : selector.startsBeside = false) (hscope : t.view.contains scope = true)
    (hnode : t.view.contains node = true)
    (haccepts : selector.accepts ⟨t.view, host⟩ (some [scope]) node = true) :
    t.tests host (selector.native profile) scope node = true := by
  have hread := h.read_native hnames hlegible
  rw [Tree.tests_eq hread hscope hnode, anyAccepts_eq_any, List.any_cons, List.any_nil, Bool.or_false]
  exact accepts_kept ht h.shape hbeside haccepts

/-- The text for a host is satisfied by matches only, if the host evaluates all of the selector. -/
theorem accepts_of_tests (h : selector.Survives profile)
    (hnames : profile.UsesStandardNames) (hlegible : selector.Legible profile quiet)
    (hsupported : selector.isSupported profile = true) (hscope : t.view.contains scope = true)
    (hnode : t.view.contains node = true)
    (htests : t.tests host (selector.native profile) scope node = true) :
    selector.accepts ⟨t.view, host⟩ (some [scope]) node = true := by
  have hread := h.read_native hnames hlegible
  rw [Tree.tests_eq hread hscope hnode, anyAccepts_eq_any, List.any_cons, List.any_nil,
    Bool.or_false] at htests
  rwa [accepts_kept_eq hsupported] at htests

end Selector.Survives

/-! ## Selectors that are drawn from -/

/-- The selectors that a legible selector draws from were read, too. -/
theorem Selector.Draws.legible (h : selector.Draws profile inner) {quiet : Prop}
    (hlegible : selector.Legible profile quiet) : inner.Legible profile False := by
  obtain ⟨part, getter, list, hpart, hgetter, harg, -, hmem⟩ := h
  obtain ⟨hpseudo, -⟩ := List.mem_filter.1 (List.mem_of_getLast? hgetter)
  cases hlegible with
  | intro _ _ _ legible _ =>
    have hclause := (legible part (List.mem_of_getLast? hpart)).clauses _ (Part.mem_pseudos.1 hpseudo)
    have hread := PseudoClause.Legible.argument hclause []
    rw [harg] at hread
    obtain ⟨-, s, -, -, hs⟩ := Reader.readArgument_eq_nested hread
    exact (Reader.legible_standardLists _ hs inner hmem).mono False.elim

/-- A selector that is drawn from starts with no combinator. -/
theorem Selector.Draws.startsBeside (h : selector.Draws profile inner) : inner.startsBeside = false := by
  obtain ⟨part, getter, list, -, -, -, hlead, hmem⟩ := h
  have hinner := hlead inner hmem
  obtain ⟨parts⟩ := inner
  cases parts with
  | nil => rfl
  | cons first rest =>
    have hnone : first.combinator = none := by simpa [hasLeadingCombinator] using hinner
    rw [Selector.startsBeside, List.head?_cons, Option.any_some, Part.isBeside, hnone]
    rfl

/-- What is known of a selector of a list that was read is known of all that it draws from. -/
theorem Selector.legible_of_draws (hlegible : selector.Legible profile False)
    (hbeside : selector.startsBeside = false)
    (h : Relation.ReflTransGen (Selector.Draws profile) selector inner) :
    inner.Legible profile False ∧ inner.startsBeside = false := by
  induction h with
  | refl => exact ⟨hlegible, hbeside⟩
  | tail _ hdraws ih => exact ⟨hdraws.legible ih.1, hdraws.startsBeside⟩

/-! ## The host is complete and sound -/

namespace Engine

/-- What the evaluator finds for a selector has a property, if all its answers to the text have it. -/
theorem ensures_askHost {e : Engine σ} {P : List NodeId → Prop} (hevaluator : e.evaluator = some evaluator)
    (h : e.asksHost selector = true → ∀ state found,
      (evaluator.answer scope (selector.native e.profile) state).1.found = some found → P found)
    (key : SelectorKey) :
    Search.Ensures (e.askHost key selector scope) fun answer => ∀ found, answer = some found → P found := by
  intro activity found hfound
  unfold askHost at hfound
  rw [hevaluator] at hfound
  dsimp only at hfound
  split at hfound
  · next hasks => exact h (Bool.and_eq_true_iff.1 hasks).1 activity.state found hfound
  · cases hfound

variable {registry : Registry}

/-- A truthful evaluator finds every match below its scope. -/
theorem hostComplete_of_truthful (ht : t.Linked) (hnames : profile.UsesStandardNames)
    (htruthful : evaluator.IsTruthful t host) {quiet : Prop} (hlegible : selector.Legible profile quiet)
    (hbeside : selector.startsBeside = false)
    (hsurvives : profile.hasEvaluator = true → selector.usesNative profile = true →
      selector.Survives profile) (root : NodeId) :
    (t.engine registry profile host (some evaluator)).HostComplete t selector root [root] := by
  refine fun key => ensures_askHost rfl (fun hasks state found hfound node habove haccepts => ?_) key
  obtain ⟨hhas, huses⟩ := Bool.and_eq_true_iff.1 hasks
  have htests := (hsurvives hhas huses).tests_of_accepts ht hnames hlegible hbeside
    (ht.contains_above habove) (Tree.contains_of_above habove) haccepts
  exact (htruthful _ _ _ _ hfound node).2 ⟨ht.mem_descendants.2 habove, htests⟩

/-- What a truthful evaluator finds for a supported selector are matches. -/
theorem hostSound_of_truthful (ht : t.Linked) (hnames : profile.UsesStandardNames)
    (htruthful : evaluator.IsTruthful t host) {quiet : Prop} (hlegible : selector.Legible profile quiet)
    (hscope : t.view.contains scope = true)
    (hsurvives : profile.hasEvaluator = true → selector.usesNative profile = true →
      selector.Survives profile) :
    (t.engine registry profile host (some evaluator)).HostSound selector scope [scope] := by
  refine fun key => ensures_askHost rfl (fun hasks state found hfound _ hsupported node hmem => ?_) key
  obtain ⟨hhas, huses⟩ := Bool.and_eq_true_iff.1 hasks
  obtain ⟨hdescendant, htests⟩ := (htruthful _ _ _ _ hfound node).1 hmem
  have hnode := Tree.contains_of_above (ht.mem_descendants.1 hdescendant)
  exact (hsurvives hhas huses).accepts_of_tests hnames hlegible hsupported hscope hnode htests

variable {s : Session σ} {s' : Session τ} {text : String} {list : List Selector}

/-- A query finds the same nodes with a truthful evaluator and without one, and no match fails the text
for the evaluator, if every selector that is handed to it survives. -/
theorem query_delegates (ht : t.Built) (hids : t.UniqueIds) (hnames : profile.UsesStandardNames)
    (hread : Selector.read ⟨.standard, profile⟩ text = .ok list)
    (hbeside : ∀ selector ∈ list, selector.startsBeside = false)
    (hscope : t.view.isContainer scope = true) (htruthful : evaluator.IsTruthful t host)
    (hsurvives : ∀ selector ∈ list, ∀ inner,
      Relation.ReflTransGen (Selector.Draws profile) selector inner → profile.hasEvaluator = true →
        inner.usesNative profile = true → inner.Survives profile)
    (hs : (t.engine .standard profile host (some evaluator)).Reached s)
    (hs' : (t.engine .standard profile host none).Reached s') :
    (∃ found found', ((t.engine .standard profile host (some evaluator)).perform
        (.query text [scope]) s).1 = .ok (.nodes found) ∧
      ((t.engine .standard profile host none).perform (.query text [scope]) s').1 = .ok (.nodes found') ∧
      found.Nodup ∧ found'.Nodup ∧ ∀ node, node ∈ found ↔ node ∈ found') ∧
    ∀ selector ∈ list, profile.hasEvaluator = true → selector.usesNative profile = true →
      ∀ node ∈ t.descendants scope, selector.accepts ⟨t.view, host⟩ (some [scope]) node = true →
        t.tests host (selector.native profile) scope node = true := by
  have hlinked := ht.linked
  have hcontains := Tree.contains_of_isContainer hscope
  have hlegible : ∀ selector ∈ list, selector.Legible profile False :=
    fun selector hmem => Selector.legible_of_read hread hmem
  have hcomplete : ∀ selector ∈ list, ∀ inner,
      Relation.ReflTransGen (Selector.Draws profile) selector inner → ∀ root,
        (t.engine .standard profile host (some evaluator)).HostComplete t inner root [root] := by
    intro selector hmem inner hdraws root
    obtain ⟨hinner, hstart⟩ := Selector.legible_of_draws (hlegible selector hmem) (hbeside selector hmem)
      hdraws
    exact hostComplete_of_truthful hlinked hnames htruthful hinner hstart
      (hsurvives selector hmem inner hdraws) root
  have hsound : ∀ selector ∈ list,
      (t.engine .standard profile host (some evaluator)).HostSound selector scope [scope] :=
    fun selector hmem => hostSound_of_truthful hlinked hnames htruthful (hlegible selector hmem)
      hcontains (hsurvives selector hmem selector .refl)
  constructor
  -- both queries find exactly the nodes that the test accepts
  · obtain ⟨found, hquery, hnodup, hfound⟩ :=
      hs.query_mem_iff hlinked hids hread hbeside hscope hcomplete hsound
    obtain ⟨found', hquery', hnodup', hfound'⟩ := hs'.query_mem_iff hlinked hids hread hbeside hscope
      (fun _ _ inner _ root => hostComplete_of_none rfl t inner root [root])
      (fun selector _ => hostSound_of_none rfl selector scope [scope])
    exact ⟨found, found', hquery, hquery', hnodup, hnodup', fun node => by rw [hfound, hfound']⟩
  · intro selector hmem hhas huses node hnode haccepts
    exact (hsurvives selector hmem selector .refl hhas huses).tests_of_accepts hlinked hnames
      (hlegible selector hmem) (hbeside selector hmem) hcontains
      (Tree.contains_of_above (hlinked.mem_descendants.1 hnode)) haccepts

end Engine

/-! ## Two paragraphs -/

/-- The evaluator that tests every node below the scope. -/
def Tree.tester (t : Tree) (host : Host) : Evaluator Unit where
  answer scope text state := (⟨some ((t.descendants scope).filter (t.tests host text scope)), []⟩, state)

theorem Tree.isTruthful_tester (t : Tree) (host : Host) : (t.tester host).IsTruthful t host := by
  rintro scope text state found ⟨⟩ node
  exact List.mem_filter

/-- Two paragraphs, the second of class `x`, each with its parent. -/
def Tree.paragraphSteps : List (NodeId × NodeContent) :=
  [(0, .named "div"), (1, .named "p"), (1, .element ⟨"p", [("class", "x")]⟩)]

/-- A document with two paragraphs. -/
def Tree.paragraphs : Tree := (Tree.new.addAll? Tree.paragraphSteps).getD .new

theorem Tree.built_paragraphs : Tree.paragraphs.Built := Tree.Built.new.getD_addAll? Tree.paragraphSteps

/-- A paragraph of class `x` in letters of either case, with a condition on its place. -/
def Selector.paragraphOf (pseudo : PseudoClass) (argument : Argument) : Selector :=
  ⟨[⟨none, false, some ⟨"p"⟩, [.attribute ⟨"class"⟩ .equals "x" true,
    .pseudo ⟨pseudo, false, none, argument⟩], none⟩]⟩

/-- No pseudo-class lists the candidates of such a selector. -/
theorem Selector.not_draws_paragraphOf {p : Profile} {pseudo : PseudoClass} {argument : Argument} :
    ¬ (Selector.paragraphOf pseudo argument).Draws p inner := by
  rintro ⟨part, getter, list, hpart, hgetter, -⟩
  obtain rfl := Option.some.inj hpart
  cases hgetter

theorem Selector.read_lastParagraph :
    Selector.read ⟨.standard, .knowing .lastOfType⟩ "p[class=x i]:last-of-type" =
      .ok [.paragraphOf .lastOfType .none] := by
  with_unfolding_all rfl

/-- A host that is told `p:last-of-type` finds the last paragraph. -/
theorem Selector.survives_lastParagraph :
    (Selector.paragraphOf .lastOfType .none).Survives (.knowing .lastOfType) := by
  have hnames := Profile.usesStandardNames_knowing .lastOfType
  have hlasting := lasting_of_read hnames read_lastParagraph (by decide) List.mem_cons_self
  refine ⟨hlasting, hlasting.countable hnames (legible_of_read read_lastParagraph List.mem_cons_self) rfl, ?_⟩
  intro part hmem clause hclause hrelative
  obtain rfl := List.mem_singleton.1 hmem
  rcases List.mem_cons.1 hclause with rfl | hclause
  · cases hrelative
  · obtain rfl := List.mem_singleton.1 hclause
    cases hrelative

namespace Engine

/-- The query for the last paragraph is answered alike with the evaluator and without it, though the
evaluator is not told of the class. -/
theorem query_delegates_paragraphs :
    Tree.paragraphs.Built ∧ Tree.paragraphs.UniqueIds ∧
      (Profile.knowing .lastOfType).UsesStandardNames ∧
      Selector.read ⟨.standard, .knowing .lastOfType⟩ "p[class=x i]:last-of-type" =
        .ok [.paragraphOf .lastOfType .none] ∧
      Tree.paragraphs.view.isContainer 0 = true ∧
      (Tree.paragraphs.tester .silent).IsTruthful Tree.paragraphs .silent ∧
      (Selector.paragraphOf .lastOfType .none).Survives (.knowing .lastOfType) ∧
      (Selector.paragraphOf .lastOfType .none).usesNative (.knowing .lastOfType) = true ∧
      ∃ found found', ((Tree.paragraphs.engine .standard (.knowing .lastOfType) .silent
          (some (Tree.paragraphs.tester .silent))).perform (.query "p[class=x i]:last-of-type" [0])
            (.start (.empty none) ())).1 = .ok (.nodes found) ∧
        ((Tree.paragraphs.engine .standard (.knowing .lastOfType) .silent none).perform
          (.query "p[class=x i]:last-of-type" [0]) (.start (.empty none) ())).1 = .ok (.nodes found') ∧
        found.Nodup ∧ found'.Nodup ∧ ∀ node, node ∈ found ↔ node ∈ found' := by
  have hids : Tree.paragraphs.UniqueIds := by decide +kernel
  have hscope : Tree.paragraphs.view.isContainer 0 = true := by decide +kernel
  have htruthful := Tree.paragraphs.isTruthful_tester .silent
  have hstart := Reached.start (e := Tree.paragraphs.engine .standard (.knowing .lastOfType) .silent
    (some (Tree.paragraphs.tester .silent))) none ()
  have hstart' := Reached.start (e := Tree.paragraphs.engine .standard (.knowing .lastOfType) .silent
    none) none ()
  refine ⟨Tree.built_paragraphs, hids, Profile.usesStandardNames_knowing _, Selector.read_lastParagraph,
    hscope, htruthful, Selector.survives_lastParagraph, by decide +kernel, ?_⟩
  refine (query_delegates Tree.built_paragraphs hids (Profile.usesStandardNames_knowing _)
    Selector.read_lastParagraph (fun selector hmem => ?_) hscope htruthful
    (fun selector hmem inner hdraws _ _ => ?_) hstart hstart').1
  · rw [List.mem_singleton.1 hmem]
    rfl
  · rw [List.mem_singleton.1 hmem] at hdraws
    rcases hdraws.cases_head with heq | ⟨other, hother, -⟩
    · rw [← heq]
      exact Selector.survives_lastParagraph
    · exact absurd hother Selector.not_draws_paragraphOf

/-- The second paragraph is the first of class `x`. A truthful evaluator that knows `:first-match` is
asked for `p:first-match`, which is the first paragraph, and the query finds nothing with it. -/
theorem query_loses_paragraph :
    Tree.paragraphs.Built ∧ Tree.paragraphs.UniqueIds ∧
      (Profile.knowing .firstMatch).UsesStandardNames ∧
      Selector.read ⟨.standard, .knowing .firstMatch⟩ "p[class=x i]:first-match" =
        .ok [.paragraphOf .firstMatch (.relative none)] ∧
      (Selector.paragraphOf .firstMatch (.relative none)).startsBeside = false ∧
      Tree.paragraphs.view.isContainer 0 = true ∧
      (Tree.paragraphs.tester .silent).IsTruthful Tree.paragraphs .silent ∧
      ((Tree.paragraphs.engine .standard (.knowing .firstMatch) .silent
        (some (Tree.paragraphs.tester .silent))).perform (.query "p[class=x i]:first-match" [0])
          (.start (.empty none) ())).1.toOption.bind Answer.nodes? = some [] ∧
      ((Tree.paragraphs.engine .standard (.knowing .firstMatch) .silent none).perform
        (.query "p[class=x i]:first-match" [0]) (.start (.empty none) ())).1.toOption.bind
          Answer.nodes? = some [3] := by
  have hread : Selector.read ⟨.standard, .knowing .firstMatch⟩ "p[class=x i]:first-match" =
      .ok [.paragraphOf .firstMatch (.relative none)] := by
    with_unfolding_all rfl
  refine ⟨Tree.built_paragraphs, ?_, Profile.usesStandardNames_knowing _, hread, rfl, ?_,
    Tree.paragraphs.isTruthful_tester .silent, ?_, ?_⟩
  · decide +kernel
  · decide +kernel
  · decide +kernel
  · decide +kernel

end Engine
end TreeQuery
