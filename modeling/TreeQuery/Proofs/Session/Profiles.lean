import TreeQuery.Proofs.Compiled.Exact
import TreeQuery.Proofs.Native.RoundTrip
import TreeQuery.Proofs.Session.Scope

/-!
# Sessions under two profiles

A profile says what a host can do, and so it decides how a query looks for nodes. It does not decide what
a selector means: texts are read alike under all profiles, but for what is kept for the host, and tests
and filters have the same answers. The one exception is a text with so many conditions in a part that their
count overflows if the classes are counted as well: a profile with class lookups does not have it read then,
and one without them does.
-/

namespace TreeQuery

open Compiled (Branch)

variable {σ τ : Type}

namespace Engine

variable {e : Engine σ} {e' : Engine τ} {s : Session σ} {s' : Session τ} {request : Request}
  {text : String}

/-- Two engines on one scene agree about a request if they read its text alike and agree about it for every
list that is read. -/
theorem Reached.perform_congr (hs : e.Reached s) (hs' : e'.Reached s') (hscene : e.scene = e'.scene)
    (hread : ∀ text, request.selector? = some text → Selector.read e.parser text = Selector.read e'.parser text)
    (hanswer : ∀ (list list' : ParsedList), list.value = list'.value → ∀ a b,
      (e.answer list request a).1 = (e'.answer list' request b).1) :
    (e.perform request s).1 = (e'.perform request s').1 := by
  -- what is refused for its nodes or its text is refused alike, whatever the sessions have cached
  have hunknown : e.unknown? request.checkedNodes = e'.unknown? request.checkedNodes := by
    rw [Engine.unknown?, Engine.unknown?, hscene]
  cases hknown : e.unknown? request.checkedNodes with
  | some node =>
    have hknown' := hunknown.symm.trans hknown
    rw [Engine.perform, Engine.perform, hknown, hknown']
  | none =>
    have hknown' := hunknown.symm.trans hknown
    cases htext : request.selector? with
    | none =>
      unfold Engine.perform
      rw [hknown, hknown', htext]
    | some text =>
      have hsame := hread text htext
      cases hlist : Selector.read e.parser text with
      | error error =>
        rw [perform_of_bad hs.keeps hknown htext hlist,
          perform_of_bad hs'.keeps hknown' htext (hsame ▸ hlist)]
      | ok list =>
        obtain ⟨parsed, hparsed, heq⟩ := perform_of_read hs.keeps hknown htext hlist
        obtain ⟨parsed', hparsed', heq'⟩ := perform_of_read hs'.keeps hknown' htext (hsame ▸ hlist)
        rw [heq, heq', hanswer parsed parsed' (hparsed.trans hparsed'.symm) s.activity s'.activity]

/-- A text has one meaning in two sessions. It is refused with the same error or has the same branches, but for
what is kept for the host, and tests and filters have the same answers. -/
structure SameMeaning (e : Engine σ) (s : Session σ) (e' : Engine τ) (s' : Session τ) (text : String) :
    Prop where
  read : (Compiled.read e.parser text).map (·.map Branch.neutral) =
    (Compiled.read e'.parser text).map (·.map Branch.neutral)
  test : ∀ node origins,
    (e.perform (.test text node origins) s).1 = (e'.perform (.test text node origins) s').1
  filter : ∀ nodes, (e.perform (.filter text nodes) s).1 = (e'.perform (.filter text nodes) s').1

/-- A text that is read alike has one meaning. -/
theorem Reached.sameMeaning (hs : e.Reached s) (hs' : e'.Reached s') (hscene : e.scene = e'.scene)
    (hread : Selector.read e.parser text = Selector.read e'.parser text) :
    SameMeaning e s e' s' text := by
  refine ⟨?_, fun node origins => ?_, fun nodes => ?_⟩
  · rw [Compiled.read_eq, Compiled.read_eq, hread]
    cases Selector.read e'.parser text with
    | error error => rfl
    | ok list =>
      refine congrArg Except.ok ?_
      show (list.map (Selector.compiled e.profile)).map Branch.neutral =
        (list.map (Selector.compiled e'.profile)).map Branch.neutral
      rw [List.map_map, List.map_map]
      exact List.map_congr_left fun selector _ =>
        Selector.neutral_compiled e.profile e'.profile selector
  · refine hs.perform_congr hs' hscene (by rintro _ ⟨⟩; exact hread) fun list list' hlist a b => ?_
    show Answer.truth (e.accepts list.value origins node) =
      Answer.truth (e'.accepts list'.value origins node)
    rw [hlist, Engine.accepts, Engine.accepts, hscene]
  · refine hs.perform_congr hs' hscene (by rintro _ ⟨⟩; exact hread) fun list list' hlist a b => ?_
    have haccepts : e.accepts list.value none = e'.accepts list'.value none := by
      funext node
      rw [hlist, Engine.accepts, Engine.accepts, hscene]
    show Answer.nodes (nodes.filter (e.accepts list.value none)) =
      Answer.nodes (nodes.filter (e'.accepts list'.value none))
    rw [haccepts]

/-- The profile never changes what a selector means. Reading compiled selectors is reading and compiling them, and
in whatever sessions of two engines a text has one meaning, unless only one of the two profiles has the classes
counted and the count overflows under that one. -/
theorem profile_neutral (hregistry : e.registry = e'.registry) (hscene : e.scene = e'.scene)
    (hs : e.Reached s) (hs' : e'.Reached s') :
    (∀ text, Compiled.read e.parser text =
      (Selector.read e.parser text).map (·.map (Selector.compiled e.profile))) ∧
    ∀ text, SameMeaning e s e' s' text ∨
      (e.profile.classLookup = true ∧ e'.profile.classLookup = false ∧
        Compiled.read e.parser text = .error .overflow) ∨
      (e.profile.classLookup = false ∧ e'.profile.classLookup = true ∧
        Compiled.read e'.parser text = .error .overflow) := by
  refine ⟨Compiled.read_eq e.parser, fun text => ?_⟩
  have hparser : e.parser = ⟨e'.registry, e.profile⟩ := congrArg (Parser.mk · e.profile) hregistry
  simp only [Compiled.read_eq_error_iff, hparser]
  refine (Selector.read_eq_or_overflow e'.registry e.profile e'.profile text).imp (fun heq => ?_) id
  exact hs.sameMeaning hs' hscene (hparser ▸ heq)

/-- A host that knows `:lang` is told all of `li:lang(de) > p`, and one that knows nothing is not. The two
compiled branches differ in no more than that, and tests on the page have the same answers. -/
theorem profile_neutral_page :
    Selector.germanParagraph.isSupported (.knowing .lang) = true ∧
      Selector.germanParagraph.isSupported .manual = false ∧
      SameMeaning (Tree.page.engine .standard (.knowing .lang) .silent (none : Option (Evaluator Unit)))
        (.start (.empty none) ())
        (Tree.page.engine .standard .manual .silent (none : Option (Evaluator Unit)))
        (.start (.empty none) ()) "li:lang(de) > p" := by
  have hstart := Reached.start (e := Tree.page.engine .standard (.knowing .lang) .silent none) none ()
  have hstart' := Reached.start (e := Tree.page.engine .standard .manual .silent none) none ()
  have hregistry : (Tree.page.engine .standard (.knowing .lang) .silent
      (none : Option (Evaluator Unit))).registry =
        (Tree.page.engine .standard .manual .silent (none : Option (Evaluator Unit))).registry := rfl
  have hscene : (Tree.page.engine .standard (.knowing .lang) .silent
      (none : Option (Evaluator Unit))).scene =
        (Tree.page.engine .standard .manual .silent (none : Option (Evaluator Unit))).scene := rfl
  obtain ⟨-, hsame⟩ := profile_neutral hregistry hscene hstart hstart'
  rcases hsame "li:lang(de) > p" with hsame | ⟨-, hlookup, -⟩ | ⟨hlookup, -, -⟩
  · exact ⟨by decide +kernel, by decide +kernel, hsame⟩
  · cases hlookup
  · cases hlookup

/-- A class and 255 conditions that a lookup could serve are read for a host without class lookups, and the
selector holds of the elements that satisfy them. With class lookups the 256th one overflows. -/
theorem profile_overflow :
    Compiled.read ⟨.standard, .withoutClasses⟩ (classAndNameTestsText 255) =
        .ok [(Selector.classAndNameTests 255).compiled .withoutClasses] ∧
      Compiled.read .standard (classAndNameTestsText 255) = .error .overflow := by
  have hread : Selector.read ⟨.standard, .withoutClasses⟩ (classAndNameTestsText 255) =
      .ok [.classAndNameTests 255] := Selector.read_classAndNameTests (by decide)
  refine ⟨Compiled.read_eq_ok_iff.2 ⟨_, hread, rfl⟩, Compiled.read_eq_error_iff.2 ?_⟩
  refine Selector.read_eq_overflow (fun _ => rfl) hread List.mem_cons_self List.mem_cons_self ?_
  rw [Part.directLookups_classAndNameTests]
  decide

end Engine
end TreeQuery
