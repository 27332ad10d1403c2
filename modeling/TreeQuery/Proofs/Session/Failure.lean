import TreeQuery.Proofs.Search.Repeat
import TreeQuery.Proofs.Session.Delegation
import TreeQuery.Proofs.Session.Readings

/-!
# Evaluators that fail

An evaluator may fail on any call. The call marks the selector that it was for, for good, and the search
goes on as if the selector had been marked before. So an answer does not tell a failed call from one that
was not made, and with an evaluator that always fails every answer is the one without an evaluator.

A session is compared with one that repeats its calls: the selectors that get marked are marked from the
start, and an evaluator that never fails gives the answers that were given.
-/

namespace TreeQuery

open Activity (Journal Prepared Repeats)

variable {σ τ : Type}

/-- The evaluator that gives a list of answers, one for each call. -/
def Evaluator.scripted : Evaluator (List (List NodeId)) where
  answer _ _ script := match script with
    | [] => (⟨none, []⟩, [])
    | found :: rest => (⟨some found, []⟩, rest)

theorem Evaluator.gives_scripted (made : List HostCall) :
    Gives (some scripted) ((answered made).filterMap (·.found)) (answered made) [] := by
  induction made with
  | nil => rfl
  | cons call rest ih =>
    obtain ⟨scope, text, key, found⟩ := call
    cases found with
    | none => exact ih
    | some found => exact ⟨scripted, _, _, rfl, rfl, rfl, ih⟩

/-- A session in which all selectors that are marked in the end are marked from the start, and the
evaluator is going to give the answers of the calls. -/
def Session.replay (s after : Session σ) (made : List HostCall) : Session (List (List NodeId)) :=
  ⟨s.cache, ⟨(answered made).filterMap (·.found), after.activity.failed, [], []⟩⟩

namespace Engine

variable {e : Engine σ} {evaluator : Option (Evaluator τ)} {s : Session σ} {request : Request} {use : Use}

/-- The call is for a selector of the list, or for one that it leads to. -/
def AsksOf (e : Engine σ) (list : ParsedList) (call : HostCall) : Prop :=
  call.key.serial = list.serial ∧ ∃ selector,
    Selector.ofKey? e.profile list.value call.key = some selector ∧ e.AsksFor call.key selector call

theorem asksOf_of_asksInList {list : ParsedList} {call : HostCall}
    (h : e.AsksInList ⟨list.serial, []⟩ 0 list.value call) : e.AsksOf list call := by
  obtain ⟨index, selector, hselector, path, target, htarget, hkey, hasks⟩ := h
  have hkey' : call.key = ⟨list.serial, index :: path⟩ := by
    rw [hkey, SelectorKey.branch, Nat.zero_add]
    rfl
  refine ⟨by rw [hkey'], target, ?_, rfl, hasks⟩
  rw [hkey']
  show list.value[index]?.bind (·.inner? e.profile path) = some target
  rw [hselector, Option.bind_some, htarget]

theorem AsksOf.isSome {list : ParsedList} {call : HostCall} (h : e.AsksOf list call) :
    e.evaluator.isSome = true := by
  obtain ⟨-, selector, -, -, -, -, hsome⟩ := h
  exact hsome

/-- What an answer asks. -/
theorem answer_traced (hevaluator : e.evaluator = none → evaluator = none) (list : ParsedList)
    (request : Request) :
    Search.Traced (e.withEvaluator evaluator) (e.AsksOf list) (e.answer list request)
      ((e.withEvaluator evaluator).answer list request) := by
  have hselect : ∀ scope, Search.Traced (e.withEvaluator evaluator) (e.AsksOf list)
      (e.select list.serial list.value scope)
      ((e.withEvaluator evaluator).select list.serial list.value scope) := fun scope =>
    (select_traced hevaluator list.serial list.value scope).mono fun _ => asksOf_of_asksInList
  cases request with
  | query text scope | select text scope => exact (hselect scope).bind_pure _
  | queryOne text scope => exact (hselect scope).bind_pure _
  | test | testList | filter | filterList | parse | clear => exact Search.traced_pure _

/-- The evaluator has no part in how selectors are read. -/
@[simp] theorem parser_withEvaluator (e : Engine σ) (evaluator : Option (Evaluator τ)) :
    (e.withEvaluator evaluator).parser = e.parser := rfl

/-- A request answers from a list, or it does nothing that depends on the evaluator. -/
theorem perform_cases (e : Engine σ) (request : Request) (s : Session σ) :
    (∃ outcome cache, ∀ {τ : Type} (evaluator : Option (Evaluator τ)) c,
      (e.withEvaluator evaluator).perform request ⟨s.cache, c⟩ = (outcome, ⟨cache, c⟩)) ∨
    ∃ list cache, e.reading? request s = some list ∧ ∀ {τ : Type} (evaluator : Option (Evaluator τ)) c,
      (e.withEvaluator evaluator).perform request ⟨s.cache, c⟩ =
        (.ok ((e.withEvaluator evaluator).answer list request c).1,
          ⟨cache, ((e.withEvaluator evaluator).answer list request c).2⟩) := by
  cases hunknown : e.unknown? request.checkedNodes with
  | some node =>
    refine .inl ⟨.error (.unknownNode node), s.cache, fun evaluator c => ?_⟩
    rw [perform, show (e.withEvaluator evaluator).unknown? request.checkedNodes = some node from hunknown]
  | none =>
    have hknown : ∀ {τ : Type} (evaluator : Option (Evaluator τ)),
        (e.withEvaluator evaluator).unknown? request.checkedNodes = none := fun _ => hunknown
    cases htext : request.selector? with
    | none =>
      exact .inl ⟨.ok .done, s.cache.clear, fun evaluator c => by
        simp only [perform, hknown evaluator, htext]⟩
    | some text =>
      cases hcached : e.parser.readCached text s.cache with
      | mk outcome cache =>
        cases outcome with
        | error error =>
          exact .inl ⟨.error error.toRequestError, cache, fun evaluator c => by
            simp only [perform, hknown evaluator, htext, parser_withEvaluator, hcached]⟩
        | ok list =>
          refine .inr ⟨list, cache, ?_, fun evaluator c => ?_⟩
          · rw [reading?, hunknown, htext, Option.bind_some, hcached]
            rfl
          · simp only [perform, hknown evaluator, htext, parser_withEvaluator, hcached]
            rfl

/-- A use of a session answers from its list, or it does nothing that depends on the evaluator. -/
theorem use_cases (e : Engine σ) (use : Use) (s : Session σ) :
    (∃ outcome cache, ∀ {τ : Type} (evaluator : Option (Evaluator τ)) c,
      (e.withEvaluator evaluator).use use ⟨s.cache, c⟩ = (outcome, ⟨cache, c⟩)) ∨
    ∃ list request cache, e.listOf? use s = some list ∧ ∀ {τ : Type} (evaluator : Option (Evaluator τ)) c,
      (e.withEvaluator evaluator).use use ⟨s.cache, c⟩ =
        (.ok ((e.withEvaluator evaluator).answer list request c).1,
          ⟨cache, ((e.withEvaluator evaluator).answer list request c).2⟩) := by
  cases use with
  | request request =>
    exact (perform_cases e request s).imp id fun ⟨list, cache, hlist, h⟩ =>
      ⟨list, request, cache, hlist, h⟩
  | search list scope => exact .inr ⟨list, .select "" scope, s.cache, rfl, fun _ _ => rfl⟩

/-- The calls of a use of a session are for distinct selectors of its list. Another engine that is prepared
to repeats them, with the same outcome. -/
theorem use_traced (hevaluator : e.evaluator = none → evaluator = none) (use : Use) (s : Session σ) :
    ∃ made, Journal s.activity (e.use use s).2.activity made ∧
      (∀ call ∈ made, ∃ list, e.listOf? use s = some list ∧ e.AsksOf list call) ∧
      (made.map (·.key)).Nodup ∧
      ∀ c last, Prepared (e.withEvaluator evaluator) s.activity made c last →
        ∃ c', Repeats made c c' last ∧ (e.withEvaluator evaluator).use use ⟨s.cache, c⟩ =
          ((e.use use s).1, ⟨(e.use use s).2.cache, c'⟩) := by
  rcases use_cases e use s with ⟨outcome, cache, h⟩ | ⟨list, request, cache, hlist, h⟩
  · have huse : e.use use s = (outcome, ⟨cache, s.activity⟩) := h e.evaluator s.activity
    rw [huse]
    exact ⟨[], Activity.journal_nil rfl rfl, fun _ hmem => absurd hmem List.not_mem_nil, .nil,
      fun c last hprepared => ⟨c, ⟨hprepared.state_eq, rfl, (List.append_nil _).symm⟩, h evaluator c⟩⟩
  · have huse : e.use use s =
        (.ok (e.answer list request s.activity).1, ⟨cache, (e.answer list request s.activity).2⟩) :=
      h e.evaluator s.activity
    obtain ⟨made, hjournal, hcalls, hkeys, hrepeats⟩ :=
      answer_traced hevaluator list request s.activity
    rw [huse]
    refine ⟨made, hjournal, fun call hmem => ⟨list, hlist, hcalls call hmem⟩, hkeys,
      fun c last hprepared => ?_⟩
    obtain ⟨heq, hlast⟩ := hrepeats c last hprepared
    exact ⟨_, hlast, by rw [h, heq]⟩

/-- What a run asks, and what repeats it. -/
theorem useAll_traced (hevaluator : e.evaluator = none → evaluator = none) (uses : List Use)
    (s : Session σ) :
    ∃ made, Journal s.activity (e.useAll uses s).2.activity made ∧
      (∀ call ∈ made, e.evaluator.isSome = true) ∧
      ∀ c last, Prepared (e.withEvaluator evaluator) s.activity made c last →
        ((e.withEvaluator evaluator).useAll uses ⟨s.cache, c⟩).1 = (e.useAll uses s).1 := by
  induction uses generalizing s with
  | nil =>
    exact ⟨[], Activity.journal_nil rfl rfl, fun _ hmem => absurd hmem List.not_mem_nil, fun _ _ _ => rfl⟩
  | cons use rest ih =>
    obtain ⟨made, hjournal, hcalls, -, hrepeats⟩ := use_traced hevaluator use s
    obtain ⟨later, hjournal', hcalls', hrepeats'⟩ := ih (e.use use s).2
    refine ⟨made ++ later, hjournal.trans hjournal', fun call hmem => ?_, fun c last hprepared => ?_⟩
    · rcases List.mem_append.1 hmem with hmem | hmem
      · obtain ⟨list, -, hasks⟩ := hcalls call hmem
        exact hasks.isSome
      · exact hcalls' call hmem
    · obtain ⟨mid, hfirst, hthen⟩ := hprepared.split hjournal
      obtain ⟨c', hmid, heq⟩ := hrepeats c mid hfirst
      have hrest := hrepeats' c' last (hthen c' hmid)
      show ((e.withEvaluator evaluator).use use ⟨s.cache, c⟩).1 ::
        ((e.withEvaluator evaluator).useAll rest ((e.withEvaluator evaluator).use use ⟨s.cache, c⟩).2).1 = _
      rw [heq]
      exact congrArg _ hrest

/-- Requests in order are one way to use a session. -/
theorem useAll_request (e : Engine σ) (requests : List Request) (s : Session σ) :
    e.useAll (requests.map .request) s = e.performAll requests s := by
  induction requests generalizing s with
  | nil => rfl
  | cons request rest ih =>
    rw [List.map_cons, useAll, performAll]
    simp only [use, ih]

/-! ## Failures -/

/-- The engine with an evaluator that gives a list of answers, if there is an evaluator at all. -/
def replaying (e : Engine σ) : Engine (List (List NodeId)) :=
  e.withEvaluator (e.evaluator.map fun _ => .scripted)

/-- Without an evaluator, every activity is prepared to repeat calls that all fail. -/
theorem prepared_of_none {a : Activity σ} {made : List HostCall}
    (hfailed : ∀ call ∈ made, call.found = none) (c : Activity τ) :
    Prepared (e.withEvaluator none) a made c c.state where
  marked _ _ := rfl
  asked call hmem := by
    rw [hfailed call hmem]
    rfl
  gives := by
    rw [answered, List.filter_eq_nil_iff.2 fun call hmem => by simp [hfailed call hmem]]
    rfl

/-- The session of a replay is prepared for it. -/
theorem prepared_replay {after : Session σ} {made : List HostCall}
    (hjournal : Journal s.activity after.activity made) (hkeys : (made.map (·.key)).Nodup)
    (hevaluator : ∀ call ∈ made, e.evaluator.isSome = true) :
    Prepared e.replaying s.activity made (s.replay after made).activity [] where
  marked key hmarked := by
    show (_ && !after.activity.hasFailed key) = false
    rw [hjournal.hasFailed hmarked, Bool.not_true, Bool.and_false]
  asked call hmem := by
    rw [← hjournal.not_hasFailed_iff hkeys hmem]
    show ((e.evaluator.map fun _ => Evaluator.scripted).isSome && !after.activity.hasFailed call.key) = _
    rw [Option.isSome_map, hevaluator call hmem, Bool.true_and]
  gives := by
    cases hsome : e.evaluator with
    | none =>
      have hmade : made = [] := List.eq_nil_iff_forall_not_mem.2 fun call hmem => by
        have hcontra := hevaluator call hmem
        rw [hsome] at hcontra
        cases hcontra
      rw [hmade]
      rfl
    | some evaluator =>
      rw [show e.replaying.evaluator = some .scripted by rw [replaying, hsome]; rfl]
      exact Evaluator.gives_scripted made

/-- A failure of the evaluator is for good and does no harm. In every run, a selector is marked exactly if a
call for it fails, marks stay, and no call is for a marked selector. The calls of one use are for selectors
of its list. Its outcome is the one that it has when the selectors that are marked in the end are searched
for without the evaluator, and all others that are to be asked for get the answers of the evaluator: the
calls that have an answer are made again, and no other. If every call of a run fails, all its outcomes are
those without an evaluator. Lists, and so selectors, are told apart by the serial numbers in the keys. -/
theorem failure_harmless (e : Engine σ) :
    (∀ uses s, ∃ made, Journal s.activity (e.useAll uses s).2.activity made ∧
      ((∀ call ∈ made, call.found = none) → ∀ {τ : Type} (c : Activity τ),
        (e.useAll uses s).1 = ((e.withEvaluator none).useAll uses ⟨s.cache, c⟩).1)) ∧
    (∀ use s, ∃ made, Journal s.activity (e.use use s).2.activity made ∧
      (∀ call ∈ made, ∃ list, e.listOf? use s = some list ∧ e.AsksOf list call) ∧
      ∃ c, e.replaying.use use (s.replay (e.use use s).2 made) =
          ((e.use use s).1, ⟨(e.use use s).2.cache, c⟩) ∧
        c.calls = answered made ∧ c.failed = (e.use use s).2.activity.failed) ∧
    ∀ uses capacity state, ∀ list ∈ e.readings uses (.start (.empty capacity) state),
      ∀ list' ∈ e.readings uses (.start (.empty capacity) state),
        list.serial = list'.serial → list = list' := by
  refine ⟨fun uses s => ?_, fun use s => ?_, fun uses capacity state =>
    eq_of_serial_eq e capacity state uses⟩
  · obtain ⟨made, hjournal, -, -⟩ := useAll_traced (e := e) id uses s
    refine ⟨made, hjournal, fun hfailed τ c => ?_⟩
    have hnone : e.evaluator = none → (none : Option (Evaluator τ)) = none := fun _ => rfl
    obtain ⟨made', hjournal', -, hrepeats⟩ := useAll_traced hnone uses s
    -- the run is the same for both engines that it is compared with, and so are its calls
    obtain rfl := hjournal.unique hjournal'
    exact (hrepeats c c.state (prepared_of_none hfailed c)).symm
  · have hnone : e.evaluator = none → (e.evaluator.map fun _ => Evaluator.scripted) = none := fun hnone =>
      Option.map_eq_none_iff.2 hnone
    obtain ⟨made, hjournal, hcalls, hkeys, hrepeats⟩ := use_traced hnone use s
    obtain ⟨c, hc, heq⟩ := hrepeats _ [] (prepared_replay hjournal hkeys fun call hmem => by
      obtain ⟨list, -, hasks⟩ := hcalls call hmem
      exact hasks.isSome)
    exact ⟨made, hjournal, hcalls, c, heq, hc.calls, hc.failed⟩

/-- A query that is made twice. -/
def lastParagraphTwice : List Use :=
  List.replicate 2 (.request (.query "p[class=x i]:last-of-type" [0]))

/-- An evaluator that always fails is asked once for a query that is made twice, and both times the query
finds what it finds without it. -/
theorem failure_harmless_paragraphs :
    ((Tree.paragraphs.engine .standard (.knowing .lastOfType) .silent (some .scripted)).useAll
      lastParagraphTwice (.start (.empty none) [])).2.activity.calls =
        [⟨0, "p:last-of-type", ⟨0, [0]⟩, none⟩] ∧
    ((Tree.paragraphs.engine .standard (.knowing .lastOfType) .silent (some .scripted)).useAll
      lastParagraphTwice (.start (.empty none) [])).1 =
        ((Tree.paragraphs.engine .standard (.knowing .lastOfType) .silent none).useAll
          lastParagraphTwice (.start (.empty none) ())).1 := by
  have hcalls : ((Tree.paragraphs.engine .standard (.knowing .lastOfType) .silent
      (some .scripted)).useAll lastParagraphTwice (.start (.empty none) [])).2.activity.calls =
        [⟨0, "p:last-of-type", ⟨0, [0]⟩, none⟩] := by
    decide +kernel
  obtain ⟨made, hjournal, hfailed⟩ := (failure_harmless (Tree.paragraphs.engine .standard
    (.knowing .lastOfType) .silent (some .scripted))).1 lastParagraphTwice (.start (.empty none) [])
  have hmade : made = [⟨0, "p:last-of-type", ⟨0, [0]⟩, none⟩] := hjournal.calls.symm.trans hcalls
  refine ⟨hcalls, hfailed (fun call hmem => ?_) (.start ())⟩
  rw [hmade] at hmem
  rw [List.mem_singleton.1 hmem]

end Engine
end TreeQuery
