import Mathlib.Data.List.Basic
import Mathlib.Data.List.Nodup

/-!
# Lists without repetition

Erasing the repetitions of a list keeps the first occurrence of every element. It keeps their order, and
it can be done before or after elements are filtered out.
-/

namespace TreeQuery

variable {α : Type}

section EraseDups

variable [BEq α]

theorem nodup_eraseDups [LawfulBEq α] (list : List α) : list.eraseDups.Nodup := by
  match list with
  | [] => exact List.nodup_nil
  | first :: rest =>
    rw [List.eraseDups_cons, List.nodup_cons]
    refine ⟨fun hmem => ?_, nodup_eraseDups _⟩
    simpa using (List.mem_filter.1 (List.mem_eraseDups.1 hmem)).2
termination_by list.length
decreasing_by exact Nat.lt_succ_of_le (List.length_filter_le _ _)

/-- Erasing repetitions keeps the order. -/
theorem eraseDups_sublist (list : List α) : list.eraseDups.Sublist list := by
  match list with
  | [] => exact List.nil_sublist _
  | first :: rest =>
    rw [List.eraseDups_cons]
    exact ((eraseDups_sublist _).trans List.filter_sublist).cons_cons first
termination_by list.length
decreasing_by exact Nat.lt_succ_of_le (List.length_filter_le _ _)

/-- Repetitions can be erased before or after filtering. -/
theorem eraseDups_filter [LawfulBEq α] (p : α → Bool) (list : List α) :
    (list.filter p).eraseDups = list.eraseDups.filter p := by
  match list with
  | [] => rfl
  | first :: rest =>
    have hrest := eraseDups_filter p (rest.filter fun other => !other == first)
    rw [List.eraseDups_cons]
    cases hp : p first with
    | true =>
      rw [List.filter_cons_of_pos hp, List.filter_cons_of_pos hp, List.eraseDups_cons,
        List.filter_comm, hrest]
    | false =>
      have hp : ¬ p first = true := Bool.eq_false_iff.1 hp
      rw [List.filter_cons_of_neg hp, List.filter_cons_of_neg hp, ← hrest, List.filter_comm]
      -- the first element does not satisfy the condition, so none of its occurrences is left
      congr 1
      refine (List.filter_eq_self.2 fun other hother => ?_).symm
      rw [Bool.not_eq_true', beq_eq_false_iff_ne]
      rintro rfl
      exact hp (List.mem_filter.1 hother).2
termination_by list.length
decreasing_by exact Nat.lt_succ_of_le (List.length_filter_le _ _)

theorem eraseDups_cons_eq [LawfulBEq α] (first : α) (rest : List α) :
    (first :: rest).eraseDups = first :: rest.eraseDups.filter (· != first) := by
  rw [List.eraseDups_cons, eraseDups_filter]
  rfl

end EraseDups

/-- Of the elements other than one, the first `n` are found among the first `n + 1` elements. -/
theorem take_filter_ne [DecidableEq α] {list : List α} (h : list.Nodup) (n : Nat) (a : α) :
    ((list.take (n + 1)).filter (· != a)).take n = (list.filter (· != a)).take n := by
  induction list generalizing n with
  | nil => rfl
  | cons first rest ih =>
    obtain ⟨hfirst, hrest⟩ := List.nodup_cons.1 h
    rw [List.take_succ_cons]
    by_cases heq : first = a
    · subst heq
      have hne : ∀ other ∈ rest, (other != first) = true := fun other hmem =>
        bne_iff_ne.2 fun hother => hfirst (hother ▸ hmem)
      have hne' : ∀ other ∈ rest.take n, (other != first) = true := fun other hmem =>
        hne other (List.mem_of_mem_take hmem)
      rw [List.filter_cons_of_neg (by simp), List.filter_cons_of_neg (by simp),
        List.filter_eq_self.2 hne, List.filter_eq_self.2 hne', List.take_take, Nat.min_self]
    · have hkeep : (first != a) = true := bne_iff_ne.2 heq
      rw [List.filter_cons, List.filter_cons, if_pos hkeep, if_pos hkeep]
      cases n with
      | zero => rfl
      | succ n => rw [List.take_succ_cons, List.take_succ_cons, ih hrest]

end TreeQuery
