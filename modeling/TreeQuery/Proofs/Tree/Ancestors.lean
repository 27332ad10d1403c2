import TreeQuery.Proofs.Tree.Built

/-!
# Ancestors

`Above` is the ancestor relation that the parents span, without a walk. In a linked tree the walk
along the parents lists exactly the nodes above its start, the relation has no cycle, and any two
nodes above a third one are above one another.
-/

namespace TreeQuery.Tree

/-- The one step of the ancestor relation. -/
def IsParent (t : Tree) (parent child : NodeId) : Prop := t.parent child = some parent

/-- The proper ancestor relation, the ancestor first. -/
def Above (t : Tree) : NodeId → NodeId → Prop := Relation.TransGen t.IsParent

/-- The ancestor relation with each node above itself. -/
def AtOrAbove (t : Tree) : NodeId → NodeId → Prop := Relation.ReflTransGen t.IsParent

variable {t : Tree} {a b c p : NodeId}

namespace Above

/-- A parent is above its child. -/
theorem of_parent (h : t.parent c = some p) : t.Above p c := .single h

theorem trans (h : t.Above a b) (h' : t.Above b c) : t.Above a c := Relation.TransGen.trans h h'

/-- Above a child is its parent and what is above the parent. -/
theorem iff_parent : t.Above a c ↔ ∃ p, t.parent c = some p ∧ t.AtOrAbove a p := by
  rw [Above, Relation.TransGen.tail'_iff]
  exact exists_congr fun p => and_comm

/-- Below a node are its children and what is below a child. -/
theorem iff_head : t.Above a c ↔ ∃ child, t.IsParent a child ∧ t.AtOrAbove child c :=
  Relation.TransGen.head'_iff

theorem atOrAbove (h : t.Above a b) : t.AtOrAbove a b := h.to_reflTransGen

end Above

theorem atOrAbove_iff : t.AtOrAbove a b ↔ b = a ∨ t.Above a b := Relation.reflTransGen_iff_eq_or_transGen

namespace Linked

/-- The ancestors are the parent and the ancestors of the parent. -/
theorem ancestors_of_parent (h : Linked t) (hp : t.parent c = some p) :
    t.ancestors c = p :: t.ancestors p := by
  have hrun := h.runs_ancestors c
  rw [hp] at hrun
  exact hrun.unique (.go (h.runs_ancestors p))

theorem ancestors_of_root (h : Linked t) (hp : t.parent c = none) : t.ancestors c = [] := by
  have hrun := h.runs_ancestors c
  rw [hp] at hrun
  exact hrun.unique .stop

/-- The walk along the parents lists exactly the nodes above its start. -/
theorem mem_ancestors (h : Linked t) : a ∈ t.ancestors c ↔ t.Above a c := by
  rw [Above.iff_parent]
  cases hp : t.parent c with
  | none => simp [h.ancestors_of_root hp]
  | some p =>
    have hrun := h.runs_ancestors c
    rw [hp] at hrun
    rw [hrun.mem_iff]
    simp only [Option.some.injEq, exists_eq_left']
    exact Relation.reflTransGen_swap

/-- No node is above itself. -/
theorem not_above_self (h : Linked t) : ¬ t.Above a a := by
  intro ha
  obtain ⟨path, hpath⟩ := h.ends a
  cases hpath with
  | @go _ nodes hrun =>
    have hmem := h.mem_ancestors.2 ha
    rw [(h.runs_ancestors a).unique hrun] at hmem
    exact (List.nodup_cons.1 (Walk.Runs.go hrun).nodup).1 hmem

/-- Of two nodes above a third one, one is above the other. -/
theorem above_total (hac : t.AtOrAbove a c) (hbc : t.AtOrAbove b c) :
    t.AtOrAbove a b ∨ t.AtOrAbove b a := by
  refine (Relation.ReflTransGen.total_of_right_unique (r := Function.swap t.IsParent) ?_
    (Relation.reflTransGen_swap.1 hac) (Relation.reflTransGen_swap.1 hbc)).symm.imp
      Relation.reflTransGen_swap.2 Relation.reflTransGen_swap.2
  intro x y z hy hz
  exact Option.some.inj (hy.symm.trans hz)

/-! ## Roots -/

theorem root_of_parent (h : Linked t) (hp : t.parent c = some p) :
    t.view.root c = t.view.root p := by
  have hc : t.view.ancestors c = p :: t.view.ancestors p := h.ancestors_of_parent hp
  rw [View.root, View.root, hc, List.getLast?_cons]
  rfl

/-- The nodes of one tree have one root. -/
theorem root_eq_of_above (h : Linked t) (habove : t.Above a c) : t.view.root a = t.view.root c := by
  induction habove with
  | single hp => exact (h.root_of_parent hp).symm
  | tail _ hp ih => exact ih.trans (h.root_of_parent hp).symm

/-- A root is at or above each of its nodes. -/
theorem atOrAbove_root (h : Linked t) (node : NodeId) : t.AtOrAbove (t.view.root node) node := by
  rw [atOrAbove_iff]
  unfold View.root
  cases hlast : (t.view.ancestors node).getLast? with
  | none => exact .inl rfl
  | some top => exact .inr (h.mem_ancestors.1 (List.mem_of_getLast? hlast))

/-- A root is above each of its nodes of another kind. -/
theorem above_root (h : Linked t) (hkind : t.view.kind (t.view.root c) ≠ t.view.kind c) :
    t.Above (t.view.root c) c := by
  rcases atOrAbove_iff.1 (h.atOrAbove_root c) with heq | habove
  · exact absurd (congrArg t.view.kind heq.symm) hkind
  · exact habove

end Linked

/-! ## Appending new nodes -/

/-- Adds a node and appends it to another one. -/
def addTo? (t : Tree) (parent : NodeId) (content : NodeContent) : Option Tree :=
  (t.add content).append? parent t.nextId

/-- A new node may be appended to every node of the tree. -/
theorem Built.addTo {t' : Tree} {parent : NodeId} {content : NodeContent} (h : Built t)
    (hp : parent < t.size) (happ : t.addTo? parent content = some t') : Built t' := by
  have hlinks := links_add t content
  have hfresh : ∀ node, t.parent node ≠ some t.size := fun node hnode =>
    Nat.lt_irrefl _ (h.linked.parent_lt_size hnode)
  refine .append (h.add content) ?_ (Nat.ne_of_gt hp) ?_ happ
  · rw [hlinks.1]
    by_contra hsome
    obtain ⟨p, hp⟩ := Option.ne_none_iff_exists'.1 hsome
    exact Nat.lt_irrefl _ (lt_size_of_parent hp)
  · rw [(h.add content).linked.mem_ancestors, Above.iff_head]
    rintro ⟨child, hchild, -⟩
    rw [IsParent, hlinks.1] at hchild
    exact hfresh child hchild

/-- Adds nodes in turn, each to a node that is in the tree already. -/
def addAll? (t : Tree) : List (NodeId × NodeContent) → Option Tree
  | [] => some t
  | (parent, content) :: rest =>
    if parent < t.size then (t.addTo? parent content).bind (addAll? · rest) else none

theorem Built.addAll {steps : List (NodeId × NodeContent)} {t' : Tree} (h : Built t)
    (hadd : t.addAll? steps = some t') : Built t' := by
  induction steps generalizing t with
  | nil => exact Option.some.inj hadd ▸ h
  | cons step rest ih =>
    rw [addAll?] at hadd
    split at hadd
    · next hp =>
      obtain ⟨u, hu, hadd⟩ := Option.bind_eq_some_iff.1 hadd
      exact ih (h.addTo hp hu) hadd
    · cases hadd

/-- Where a node cannot be added, the new tree stands for the result. -/
theorem Built.getD_addAll? (h : Built t) (steps : List (NodeId × NodeContent)) :
    Built ((t.addAll? steps).getD .new) := by
  cases hadd : t.addAll? steps with
  | none => exact .new
  | some t' => exact h.addAll hadd

end TreeQuery.Tree
