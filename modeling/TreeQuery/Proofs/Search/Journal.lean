import TreeQuery.Proofs.Search.Draws
import Mathlib.Data.List.Nodup

/-!
# The journal of a search

A search writes down each call of the host evaluator, with the selector that it was for. The calls tell
which selectors are marked: those on which a call failed. For a marked selector no call is made.
-/

namespace TreeQuery

variable {σ τ : Type}

namespace Activity

variable {a b c : Activity σ} {made rest : List HostCall}

theorem hasFailed_congr (h : b.failed = a.failed) (key : SelectorKey) :
    b.hasFailed key = a.hasFailed key := by
  rw [hasFailed, hasFailed, h]

theorem hasFailed_fail (a : Activity σ) (key other : SelectorKey) :
    (a.fail key).hasFailed other = true ↔ a.hasFailed other = true ∨ key = other := by
  rw [hasFailed, hasFailed, fail, List.contains_cons, Bool.or_eq_true, beq_iff_eq, Or.comm,
    eq_comm (a := other)]

/-- The calls that lead from one activity to another. A selector is marked exactly if it was before or a
call for it fails, and no call is for a selector that is marked by then. -/
structure Journal (a b : Activity σ) (made : List HostCall) : Prop where
  calls : b.calls = a.calls ++ made
  hasFailed_iff : ∀ key, b.hasFailed key = true ↔
    a.hasFailed key = true ∨ ∃ call ∈ made, call.key = key ∧ call.found = none
  unmarked : ∀ call ∈ made, a.hasFailed call.key = false
  /-- After a call that fails there is none for its selector. -/
  permanent : made.Pairwise fun call later => call.found = none → later.key ≠ call.key

theorem journal_nil (hcalls : b.calls = a.calls) (hfailed : b.failed = a.failed) : Journal a b [] where
  calls := hcalls.trans (List.append_nil _).symm
  hasFailed_iff key := by simp [hasFailed_congr hfailed]
  unmarked _ hmem := absurd hmem List.not_mem_nil
  permanent := .nil

/-- The journal of a single call. -/
theorem journal_call (call : HostCall) {state : σ} {lookups : List Lookup}
    (h : a.hasFailed call.key = false) :
    let asked : Activity σ := ⟨state, a.failed, a.calls ++ [call], lookups⟩
    Journal a (if call.found.isSome then asked else asked.fail call.key) [call] where
  calls := by split <;> rfl
  hasFailed_iff key := by
    cases hfound : call.found with
    | none =>
      rw [Option.isSome_none, if_neg Bool.false_ne_true, hasFailed_fail]
      simp [hfound, hasFailed]
    | some found => simp [hfound, hasFailed]
  unmarked other hmem := by rwa [List.mem_singleton.1 hmem]
  permanent := List.pairwise_singleton _ _

theorem Journal.trans (h : Journal a b made) (h' : Journal b c rest) : Journal a c (made ++ rest) where
  calls := by rw [h'.calls, h.calls, List.append_assoc]
  hasFailed_iff key := by
    rw [h'.hasFailed_iff, h.hasFailed_iff, or_assoc]
    simp only [List.mem_append, or_and_right, exists_or]
  unmarked call hmem := by
    rcases List.mem_append.1 hmem with hmem | hmem
    · exact h.unmarked call hmem
    · by_contra hmarked
      have hstill := (h.hasFailed_iff call.key).2 (.inl (Bool.not_eq_false _ ▸ hmarked))
      rw [h'.unmarked call hmem] at hstill
      cases hstill
  permanent := by
    refine List.pairwise_append.2 ⟨h.permanent, h'.permanent, fun call hmem later hlater hnone heq => ?_⟩
    have hmarked := (h.hasFailed_iff later.key).2 (.inr ⟨call, hmem, heq.symm, hnone⟩)
    rw [h'.unmarked later hlater] at hmarked
    cases hmarked

/-- The activities tell which calls lead from one to the other. -/
theorem Journal.unique (h : Journal a b made) (h' : Journal a b rest) : made = rest :=
  List.append_cancel_left (h.calls.symm.trans h'.calls)

/-- What is marked stays marked. -/
theorem Journal.hasFailed (h : Journal a b made) {key : SelectorKey} (hmarked : a.hasFailed key = true) :
    b.hasFailed key = true := (h.hasFailed_iff key).2 (.inl hmarked)

/-- If no two calls are for one selector, the marks tell which calls failed. -/
theorem Journal.not_hasFailed_iff (h : Journal a b made) (hkeys : (made.map (·.key)).Nodup)
    {call : HostCall} (hmem : call ∈ made) : (!b.hasFailed call.key) = call.found.isSome := by
  cases hfound : call.found with
  | none =>
    rw [(h.hasFailed_iff call.key).2 (.inr ⟨call, hmem, rfl, hfound⟩)]
    rfl
  | some found =>
    rw [Option.isSome_some, Bool.not_eq_true', ← Bool.not_eq_true, h.hasFailed_iff, h.unmarked call hmem]
    rintro (⟨⟨⟩⟩ | ⟨other, hother, hkey, hnone⟩)
    rw [List.inj_on_of_nodup_map hkeys hother hmem hkey, hfound] at hnone
    cases hnone

end Activity

namespace Engine

variable {e : Engine σ} {evaluator : Evaluator σ} {a : Activity σ} {key : SelectorKey}
  {selector : Selector} {scope : NodeId}

/-! ## Calls -/

/-- Whether a selector can be asked for, if it is one for the host. -/
def mayAsk (e : Engine σ) (a : Activity σ) (key : SelectorKey) : Bool :=
  e.evaluator.isSome && !a.hasFailed key

theorem askHost_of_not (h : (e.mayAsk a key && e.asksHost selector) = false) :
    e.askHost key selector scope a = (none, a) := by
  unfold askHost
  cases hevaluator : e.evaluator with
  | none => rfl
  | some evaluator =>
    rw [mayAsk, hevaluator, Option.isSome_some, Bool.true_and, Bool.and_comm] at h
    simp only [h, Bool.false_eq_true, if_false]

theorem askHost_of_mayAsk (h : (e.mayAsk a key && e.asksHost selector) = true)
    (hevaluator : e.evaluator = some evaluator) {reply : Reply} {state : σ}
    (hreply : evaluator.answer scope (selector.native e.profile) a.state = (reply, state)) :
    e.askHost key selector scope a = (reply.found,
      let asked : Activity σ := ⟨state, a.failed,
        a.calls ++ [⟨scope, selector.native e.profile, key, reply.found⟩], a.lookups ++ reply.lookups⟩
      if reply.found.isSome then asked else asked.fail key) := by
  rw [mayAsk, hevaluator, Option.isSome_some, Bool.true_and, Bool.and_comm] at h
  simp only [askHost, hevaluator, h, hreply, if_true]

end Engine
end TreeQuery
