import TreeQuery.Proofs.Tree.Ancestors
import Mathlib.Data.List.Nodup

/-!
# Tree order

`inOrder` lists the nodes below a node by recursion over the lists of children. The walk `descendants`
climbs up to the next node instead and has no recursion. On linked trees the two lists are equal
(`Linked.descendants_eq_inOrder`), so the walk meets each node below its scope once and no other, and in
the order of the whole tree (`Linked.pairwise_precedes`).
-/

namespace TreeQuery.Tree

/-- The nodes at most `levels` below a node: each child is followed by what is below it. -/
def inOrderTo (t : Tree) : Nat → NodeId → List NodeId
  | 0, _ => []
  | levels + 1, node => (t.children node).flatMap fun child => child :: t.inOrderTo levels child

/-- All nodes below a node, in tree order. No node is more levels down than the tree has nodes. -/
def inOrder (t : Tree) (node : NodeId) : List NodeId := t.inOrderTo t.size node

/-- How many nodes are above a node. -/
def depth (t : Tree) (node : NodeId) : Nat := (t.ancestors node).length

/-- The position of a node in the order of its tree, which starts with the root. -/
def position (t : Tree) (node : NodeId) : Nat :=
  (t.view.root node :: t.descendants (t.view.root node)).idxOf node

/-- The first node stands before the second in the order of their tree. -/
def Precedes (t : Tree) (a b : NodeId) : Prop :=
  t.view.root a = t.view.root b ∧ t.position a < t.position b

instance (t : Tree) : DecidableRel t.Precedes :=
  fun a b => inferInstanceAs (Decidable (t.view.root a = t.view.root b ∧ t.position a < t.position b))

variable {t : Tree} {scope node child p : NodeId}

namespace Linked

theorem depth_child (h : Linked t) (hp : t.parent child = some p) :
    t.depth child = t.depth p + 1 := by
  rw [depth, h.ancestors_of_parent hp, List.length_cons, depth]

/-- A node and the nodes above it are different nodes of the tree. -/
theorem depth_lt_size (h : Linked t) (hlt : node < t.size) : t.depth node < t.size := by
  have hrun := Walk.Runs.go (h.runs_ancestors node)
  refine hrun.length_le fun other hmem => ?_
  rcases List.mem_cons.1 hmem with rfl | hmem
  · exact hlt
  · obtain ⟨_, hstep⟩ := (h.runs_ancestors node).exists_step other hmem
    exact h.parent_lt_size hstep

/-- The depth grows from a node to its children, and the size of the tree bounds it. -/
theorem size_sub_depth_lt (h : Linked t) (hmem : child ∈ t.children node) :
    t.size - t.depth child < t.size - t.depth node := by
  have hdepth := h.depth_child (h.mem_children.1 hmem)
  have hlt := h.depth_lt_size (h.child_lt_size hmem)
  omega

/-- More levels than the tree can have below a node add nothing. -/
theorem inOrderTo_succ (h : Linked t) {levels : Nat} (hle : t.size ≤ levels + t.depth node) :
    t.inOrderTo (levels + 1) node = t.inOrderTo levels node := by
  induction levels generalizing node with
  | zero =>
    have hnil : t.children node = [] := by
      refine List.eq_nil_iff_forall_not_mem.2 fun child hmem => ?_
      have := h.depth_lt_size (lt_size_of_children hmem)
      omega
    simp [inOrderTo, hnil]
  | succ levels ih =>
    rw [inOrderTo, inOrderTo]
    refine List.flatMap_congr fun child hmem => ?_
    have := h.depth_child (h.mem_children.1 hmem)
    rw [ih (by omega)]

/-- The nodes below a node are its children, each followed by the nodes below it. -/
theorem inOrder_eq (h : Linked t) (node : NodeId) :
    t.inOrder node = (t.children node).flatMap fun child => child :: t.inOrder child := by
  rw [inOrder, ← h.inOrderTo_succ (Nat.le_add_right _ _)]
  rfl

/-- A node is below another one exactly if this one is above it. -/
theorem mem_inOrder (h : Linked t) : node ∈ t.inOrder scope ↔ t.Above scope node := by
  constructor
  · intro hmem
    unfold inOrder at hmem
    generalize t.size = levels at hmem
    induction levels generalizing scope with
    | zero => cases hmem
    | succ levels ih =>
      rw [inOrderTo, List.mem_flatMap] at hmem
      obtain ⟨child, hchild, hmem⟩ := hmem
      have hstep := Above.of_parent (h.mem_children.1 hchild)
      rcases List.mem_cons.1 hmem with rfl | hmem
      · exact hstep
      · exact hstep.trans (ih hmem)
  · intro habove
    induction habove using Relation.TransGen.head_induction_on with
    | single hstep =>
      rw [h.inOrder_eq, List.mem_flatMap]
      exact ⟨node, h.mem_children.2 hstep, List.mem_cons_self⟩
    | head hstep _ ih =>
      rw [h.inOrder_eq, List.mem_flatMap]
      exact ⟨_, h.mem_children.2 hstep, List.mem_cons_of_mem _ ih⟩

/-! ## The walk -/

theorem nextOutside_scope (t : Tree) (scope : NodeId) :
    t.links.nextOutside t.size scope scope = none := by
  simp [Walk.Links.nextOutside]

/-- The walk goes on with the next sibling, if there is one. -/
theorem nextOutside_of_some {next : NodeId} (hne : node ≠ scope)
    (hnext : t.nextSibling node = some next) :
    t.links.nextOutside t.size scope node = some next := by
  simp [Walk.Links.nextOutside, Tree.links, hne, hnext]

/-- Without a next sibling, the walk goes on where the parent does. -/
theorem nextOutside_of_none (h : Linked t) (hne : node ≠ scope) (hnext : t.nextSibling node = none)
    (hp : t.parent node = some p) :
    t.links.nextOutside t.size scope node = t.links.nextOutside t.size scope p := by
  have hanc : t.links.ancestors t.size node = p :: t.links.ancestors t.size p :=
    h.ancestors_of_parent hp
  rw [Walk.Links.nextOutside, Walk.Links.nextOutside, hanc,
    List.takeWhile_cons_of_pos (by simpa using hne), List.findSome?_cons_of_isNone]
  simpa [Tree.links] using hnext

/-- After a node the walk visits what is below it, and then goes on as from outside its subtree. The
second half is about the walk through the siblings from `child` on, given their subtrees. -/
theorem runs_siblings (h : Linked t) {before after rest : List NodeId}
    (hsubtree : ∀ child ∈ t.children node, ∀ rest,
      Walk.Runs (t.links.nextInOrder t.size scope) (t.links.nextOutside t.size scope child) rest →
        Walk.Runs (t.links.nextInOrder t.size scope) (some child)
          (child :: (t.inOrder child ++ rest)))
    (hscope : ∀ child ∈ t.children node, child ≠ scope)
    (hc : t.children node = before ++ child :: after)
    (hrest : Walk.Runs (t.links.nextInOrder t.size scope) (t.links.nextOutside t.size scope node)
      rest) :
    Walk.Runs (t.links.nextInOrder t.size scope) (some child)
      ((child :: after).flatMap (fun child => child :: t.inOrder child) ++ rest) := by
  induction after generalizing before child with
  | nil =>
    have hmem : child ∈ t.children node := by simp [hc]
    have hlast : (t.children node).getLast? = some child := by rw [hc]; simp
    have hout := h.nextOutside_of_none (hscope child hmem) (h.last hlast) (h.mem_children.1 hmem)
    simpa using hsubtree child hmem rest (hout ▸ hrest)
  | cons next after ih =>
    have hmem : child ∈ t.children node := by simp [hc]
    have hout := nextOutside_of_some (hscope child hmem) (h.neighbours_of_adjacent hc).1
    have hsplit : t.children node = (before ++ [child]) ++ next :: after := by simp [hc]
    have hgo := ih hsplit
    rw [← hout] at hgo
    rw [List.flatMap_cons, List.cons_append, List.cons_append, List.append_assoc]
    exact hsubtree child hmem _ hgo

/-- After a node below the scope, the walk visits what is below the node. -/
theorem runs_subtree (h : Linked t) {rest : List NodeId} (habove : t.Above scope node)
    (hrest : Walk.Runs (t.links.nextInOrder t.size scope) (t.links.nextOutside t.size scope node)
      rest) :
    Walk.Runs (t.links.nextInOrder t.size scope) (some node)
      (node :: (t.inOrder node ++ rest)) := by
  induction hlevels : t.size - t.depth node using Nat.strongRecOn generalizing node rest with
  | ind levels ih =>
    refine .go ?_
    rw [h.inOrder_eq, Walk.Links.nextInOrder]
    cases hc : t.children node with
    | nil => simpa [Tree.links, firstChild, hc] using hrest
    | cons child after =>
      have hfirst : t.links.firstChild node = some child := by simp [Tree.links, firstChild, hc]
      have hsplit : t.children node = [] ++ child :: after := hc
      rw [hfirst]
      refine h.runs_siblings ?_ ?_ hsplit hrest
      · intro child hmem rest hrest
        have hstep := Above.of_parent (h.mem_children.1 hmem)
        exact ih _ (hlevels ▸ h.size_sub_depth_lt hmem) (habove.trans hstep) hrest rfl
      · rintro child hmem rfl
        exact h.not_above_self (habove.trans (.of_parent (h.mem_children.1 hmem)))

/-- The walk through a scope visits the nodes below it in tree order. -/
theorem runs_inOrder (h : Linked t) (scope : NodeId) :
    Walk.Runs (t.links.nextInOrder t.size scope) (t.firstChild scope) (t.inOrder scope) := by
  rw [h.inOrder_eq]
  cases hc : t.children scope with
  | nil => simpa [firstChild, hc] using Walk.Runs.stop
  | cons child after =>
    have hfirst : t.firstChild scope = some child := by simp [firstChild, hc]
    have hstop : Walk.Runs (t.links.nextInOrder t.size scope)
        (t.links.nextOutside t.size scope scope) [] := by
      rw [nextOutside_scope]
      exact .stop
    have hsplit : t.children scope = [] ++ child :: after := hc
    have hgo := h.runs_siblings (fun child hmem rest hrest =>
      h.runs_subtree (.of_parent (h.mem_children.1 hmem)) hrest) ?_ hsplit hstop
    · rw [hfirst]
      simpa using hgo
    · rintro child hmem rfl
      exact h.not_above_self (.of_parent (h.mem_children.1 hmem))

/-- Below a node are no more nodes than there are in the tree. -/
theorem length_inOrder_le (h : Linked t) (scope : NodeId) : (t.inOrder scope).length ≤ t.size := by
  refine (h.runs_inOrder scope).length_le fun node hmem => ?_
  obtain ⟨_, hp, -⟩ := Above.iff_parent.1 (h.mem_inOrder.1 hmem)
  exact lt_size_of_parent hp

/-- The walk through a scope lists the nodes below it in tree order. -/
theorem descendants_eq_inOrder (h : Linked t) (scope : NodeId) :
    t.descendants scope = t.inOrder scope :=
  (h.runs_inOrder scope).trail_eq (h.length_inOrder_le scope)

/-- The walk through a scope meets exactly the nodes below it. -/
theorem mem_descendants (h : Linked t) : node ∈ t.descendants scope ↔ t.Above scope node := by
  rw [h.descendants_eq_inOrder, h.mem_inOrder]

/-- The walk through a scope meets no node twice. -/
theorem nodup_descendants (h : Linked t) (scope : NodeId) : (t.descendants scope).Nodup := by
  rw [h.descendants_eq_inOrder]
  exact (h.runs_inOrder scope).nodup

/-! ## Positions -/

/-- A list without repetition is ordered by the positions of its nodes. -/
theorem pairwise_idxOf {list : List NodeId} (h : list.Nodup) :
    list.Pairwise fun a b => list.idxOf a < list.idxOf b := by
  refine List.pairwise_iff_getElem.2 fun i j hi hj hij => ?_
  rwa [h.idxOf_getElem, h.idxOf_getElem]

/-- The nodes below a child keep their order among the nodes below its parent. -/
theorem inOrder_sublist_of_parent (h : Linked t) (hp : t.parent child = some p) :
    (t.inOrder child).Sublist (t.inOrder p) := by
  obtain ⟨before, after, hc⟩ := List.append_of_mem (h.mem_children.2 hp)
  rw [h.inOrder_eq p, hc, List.flatMap_append, List.flatMap_cons]
  refine List.Sublist.trans ?_ (List.sublist_append_right _ _)
  exact (List.sublist_cons_self _ _).trans (List.sublist_append_left _ _)

/-- The nodes below a node keep their order among the nodes below an ancestor. -/
theorem inOrder_sublist (h : Linked t) (hat : t.AtOrAbove p node) :
    (t.inOrder node).Sublist (t.inOrder p) := by
  induction hat with
  | refl => exact List.Sublist.refl _
  | tail _ hstep ih => exact (h.inOrder_sublist_of_parent hstep).trans ih

/-- The walk through a scope meets its nodes in the order of their tree. -/
theorem pairwise_precedes (h : Linked t) (scope : NodeId) :
    (t.descendants scope).Pairwise t.Precedes := by
  have hroot : ∀ node ∈ t.descendants scope, t.view.root node = t.view.root scope :=
    fun node hmem => (h.root_eq_of_above (h.mem_descendants.1 hmem)).symm
  have hnodup : (t.view.root scope :: t.descendants (t.view.root scope)).Nodup := by
    rw [List.nodup_cons, h.mem_descendants]
    exact ⟨h.not_above_self, h.nodup_descendants _⟩
  have hsub : (t.descendants scope).Sublist
      (t.view.root scope :: t.descendants (t.view.root scope)) := by
    rw [h.descendants_eq_inOrder, h.descendants_eq_inOrder]
    exact (h.inOrder_sublist (h.atOrAbove_root scope)).trans (List.sublist_cons_self _ _)
  refine ((pairwise_idxOf hnodup).sublist hsub).imp_of_mem fun ha hb hlt =>
    ⟨(hroot _ ha).trans (hroot _ hb).symm, ?_⟩
  rwa [position, position, hroot _ ha, hroot _ hb]

end Linked
end TreeQuery.Tree
