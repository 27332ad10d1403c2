import TreeQuery.Proofs.Tree.Built
import Mathlib.Data.List.Basic

/-!
# Siblings

The sibling walks from a node list the children of its parent on either side of it, the nearest first.
`ElementBefore` and `ElementJustBefore` say the same of the list of children, without a walk.
-/

namespace TreeQuery.Tree

/-- The first node is an element and stands before the second one among the children of a node. -/
def ElementBefore (t : Tree) (a b : NodeId) : Prop :=
  ∃ parent before between after,
    t.children parent = before ++ a :: (between ++ b :: after) ∧ t.view.isElement a = true

/-- The first node is the last element before the second one among the children of a node. -/
def ElementJustBefore (t : Tree) (a b : NodeId) : Prop :=
  ∃ parent before between after,
    t.children parent = before ++ a :: (between ++ b :: after) ∧ t.view.isElement a = true ∧
      ∀ other ∈ between, t.view.isElement other = false

variable {t : Tree} {parent node a b : NodeId} {before after : List NodeId}

namespace Linked

/-- The walk along the next siblings lists the children behind its start. -/
theorem runs_nextSibling (h : Linked t) (hc : t.children parent = before ++ node :: after) :
    Walk.Runs t.nextSibling (t.nextSibling node) after := by
  induction after generalizing before node with
  | nil =>
    have hlast : (t.children parent).getLast? = some node := by rw [hc]; simp
    rw [h.last hlast]
    exact .stop
  | cons next after ih =>
    rw [(h.neighbours_of_adjacent hc).1]
    have hsplit : t.children parent = (before ++ [node]) ++ next :: after := by simp [hc]
    exact .go (ih hsplit)

/-- The walk along the previous siblings lists the children in front of its start, backwards. -/
theorem runs_prevSibling (h : Linked t) (hc : t.children parent = before ++ node :: after) :
    Walk.Runs t.prevSibling (t.prevSibling node) before.reverse := by
  induction before using List.reverseRecOn generalizing node after with
  | nil =>
    have hfirst : (t.children parent).head? = some node := by rw [hc]; simp
    rw [h.first hfirst]
    exact .stop
  | append_singleton before prev ih =>
    have hsplit : t.children parent = before ++ prev :: node :: after := by simp [hc]
    rw [(h.neighbours_of_adjacent hsplit).2, List.reverse_append]
    exact .go (ih hsplit)

/-- The walk from the first child lists the children. -/
theorem runs_children (h : Linked t) (parent : NodeId) :
    Walk.Runs t.nextSibling (t.firstChild parent) (t.children parent) := by
  cases hc : t.children parent with
  | nil => simpa [firstChild, hc] using Walk.Runs.stop
  | cons first after =>
    have hfirst : t.firstChild parent = some first := by simp [firstChild, hc]
    have hsplit : t.children parent = [] ++ first :: after := hc
    rw [hfirst]
    exact .go (h.runs_nextSibling hsplit)

/-- The walk from the last child lists the children backwards. -/
theorem runs_children_reverse (h : Linked t) (parent : NodeId) :
    Walk.Runs t.prevSibling (t.lastChild parent) (t.children parent).reverse := by
  cases hc : (t.children parent).getLast? with
  | none =>
    rw [lastChild, hc, List.getLast?_eq_none_iff.1 hc]
    exact .stop
  | some last =>
    obtain ⟨before, hsplit⟩ := List.getLast?_eq_some_iff.1 hc
    rw [lastChild, hc, hsplit, List.reverse_append]
    exact .go (h.runs_prevSibling hsplit)

/-- A walk among the children of a node that ends has no more nodes than the tree. -/
theorem length_le_of_runs_siblings (h : Linked t) {step : NodeId → Option NodeId} {start : Option NodeId}
    {nodes : List NodeId} (hrun : Walk.Runs step start nodes) (hsub : nodes ⊆ t.children parent) :
    nodes.length ≤ t.size :=
  hrun.length_le fun _ hmem => h.child_lt_size (hsub hmem)

/-- The element children are the elements among the children. -/
theorem elementChildren_eq (h : Linked t) (parent : NodeId) :
    t.view.elementChildren parent = (t.children parent).filter t.view.isElement := by
  have hrun := h.runs_children parent
  have hle := h.length_le_of_runs_siblings hrun (List.Subset.refl _)
  exact congrArg (List.filter _) (hrun.trail_eq hle)

/-- From the last child on, the element children come backwards. -/
theorem elementChildrenBackward_eq (h : Linked t) (parent : NodeId) :
    t.view.elementChildrenBackward parent = (t.children parent).reverse.filter t.view.isElement := by
  have hrun := h.runs_children_reverse parent
  have hle := h.length_le_of_runs_siblings hrun fun _ => List.mem_reverse.1
  exact congrArg (List.filter _) (hrun.trail_eq hle)

/-- The elements behind a node. -/
theorem elementsAfter_eq (h : Linked t) (hc : t.children parent = before ++ node :: after) :
    t.view.elementsAfter node = after.filter t.view.isElement := by
  have hrun := h.runs_nextSibling hc
  have hsub : after ⊆ t.children parent := by simp [hc]
  exact congrArg (List.filter _) (hrun.trail_eq (h.length_le_of_runs_siblings hrun hsub))

/-- The elements in front of a node, the nearest first. -/
theorem elementsBefore_eq (h : Linked t) (hc : t.children parent = before ++ node :: after) :
    t.view.elementsBefore node = before.reverse.filter t.view.isElement := by
  have hrun := h.runs_prevSibling hc
  have hsub : before.reverse ⊆ t.children parent := by simp [hc]
  exact congrArg (List.filter _) (hrun.trail_eq (h.length_le_of_runs_siblings hrun hsub))

/-- A node without a parent has no siblings. -/
theorem elementsBefore_of_root (h : Linked t) (hp : t.parent node = none) :
    t.view.elementsBefore node = [] := by
  have hprev : t.prevSibling node = none := (h.loose hp).2
  have hrun : Walk.Runs t.prevSibling (t.prevSibling node) [] := by rw [hprev]; exact .stop
  exact congrArg (List.filter _) (hrun.trail_eq (Nat.zero_le t.size))

/-- The children of a parent fall apart at a child in one way. -/
theorem children_split_unique (h : Linked t) {before' after' : List NodeId}
    (hc : t.children parent = before ++ node :: after)
    (hc' : t.children parent = before' ++ node :: after') : before = before' ∧ after = after' := by
  have hnodup := h.nodup parent
  rw [hc] at hnodup
  have hmem : node ∉ before ∧ node ∉ after := by
    rw [List.nodup_append, List.nodup_cons] at hnodup
    exact ⟨fun hb => hnodup.2.2 node hb node List.mem_cons_self rfl, hnodup.2.1.1⟩
  rw [hc, List.append_cons_inj_of_notMem hmem.1 hmem.2] at hc'
  exact ⟨hc'.1, hc'.2.2⟩

/-- The walk along the previous siblings meets exactly the elements before a node. -/
theorem mem_elementsBefore (h : Linked t) :
    a ∈ t.view.elementsBefore b ↔ t.ElementBefore a b := by
  constructor
  · intro ha
    cases hp : t.parent b with
    | none => simp [h.elementsBefore_of_root hp] at ha
    | some p =>
      obtain ⟨before, after, hc⟩ := List.append_of_mem (h.mem_children.2 hp)
      rw [h.elementsBefore_eq hc, List.mem_filter, List.mem_reverse] at ha
      obtain ⟨first, between, rfl⟩ := List.append_of_mem ha.1
      exact ⟨p, first, between, after, by simp [hc], ha.2⟩
  · rintro ⟨p, first, between, after, hc, ha⟩
    have hc' : t.children p = (first ++ a :: between) ++ b :: after := by simp [hc]
    rw [h.elementsBefore_eq hc', List.mem_filter]
    exact ⟨by simp, ha⟩

/-- The previous element is the last element before a node. -/
theorem prevElementSibling_eq_some (h : Linked t) :
    t.view.prevElementSibling b = some a ↔ t.ElementJustBefore a b := by
  unfold View.prevElementSibling
  constructor
  · intro ha
    cases hp : t.parent b with
    | none => simp [h.elementsBefore_of_root hp] at ha
    | some p =>
      obtain ⟨before, after, hc⟩ := List.append_of_mem (h.mem_children.2 hp)
      rw [h.elementsBefore_eq hc, List.head?_filter, List.find?_eq_some_iff_append] at ha
      obtain ⟨ha, near, far, hsplit, hnear⟩ := ha
      refine ⟨p, far.reverse, near.reverse, after, ?_, ha, fun other hmem => ?_⟩
      · rw [hc, List.reverse_eq_iff.1 hsplit]
        simp
      · simpa using hnear other (List.mem_reverse.1 hmem)
  · rintro ⟨p, first, between, after, hc, ha, hbetween⟩
    have hc' : t.children p = (first ++ a :: between) ++ b :: after := by simp [hc]
    rw [h.elementsBefore_eq hc', List.head?_filter, List.find?_eq_some_iff_append]
    refine ⟨ha, between.reverse, first.reverse, by simp, fun other hmem => ?_⟩
    simp [hbetween other (List.mem_reverse.1 hmem)]

end Linked
end TreeQuery.Tree
