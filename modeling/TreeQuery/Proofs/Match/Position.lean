import TreeQuery.Proofs.Match.Chain

/-!
# Positions among siblings

`View.isAt` walks from one end of the children to the other and counts the elements that count. On a built
tree the position at which it meets a node is one more than the number of such elements on that side of the
node in the list of children (`isAt_iff_passed`). Texts and comments between the elements have no part in
it.
-/

namespace TreeQuery

/-- The nodes that counting passes before it comes to a node, of those in front of the node and those behind
it. -/
def Direction.passed : Direction → List NodeId → List NodeId → List NodeId
  | .forward, before, _ => before
  | .backward, _, after => after

variable {t : Tree} {parent node : NodeId} {before after : List NodeId} {counts : NodeId → Bool}

/-- In a list that is filtered, a node comes after those before it that the filter keeps. -/
theorem idxOf?_filter {p : NodeId → Bool} (hnot : node ∉ before) :
    ((before ++ node :: after).filter p).idxOf? node =
      if p node then some (before.filter p).length else none := by
  rw [List.filter_append]
  cases hp : p node with
  | false =>
    rw [List.filter_cons_of_neg (by simp [hp]), if_neg Bool.false_ne_true, List.idxOf?_eq_none_iff,
      List.mem_append]
    rintro (hmem | hmem) <;> rw [(List.mem_filter.1 hmem).2] at hp <;> cases hp
  | true =>
    rw [List.filter_cons_of_pos hp, if_pos rfl, List.idxOf?_eq_some_iff]
    refine ⟨by simp, by simp, fun j hj heq => hnot ?_⟩
    rw [List.getElem_append_left hj] at heq
    exact (List.mem_filter.1 (heq ▸ List.getElem_mem hj)).1

namespace Tree.Linked

/-- The index of a child among the elements that count, from either end. -/
theorem idxOf?_counted (h : t.Linked) (direction : Direction)
    (hc : t.children parent = before ++ node :: after) :
    ((t.view.counted parent direction).filter counts).idxOf? node =
      if t.view.isElement node && counts node then some ((direction.passed before after).filter
        fun other => t.view.isElement other && counts other).length else none := by
  have hnodup := h.nodup parent
  rw [hc, List.nodup_append, List.nodup_cons] at hnodup
  have hbefore : node ∉ before := fun hmem => hnodup.2.2 node hmem node List.mem_cons_self rfl
  cases direction with
  | forward =>
    rw [View.counted, h.elementChildren_eq, List.filter_filter, hc, idxOf?_filter hbefore]
    simp only [Bool.and_comm (counts _)]
    rfl
  | backward =>
    have hafter : node ∉ after.reverse := fun hmem => hnodup.2.1.1 (List.mem_reverse.1 hmem)
    rw [View.counted, h.elementChildrenBackward_eq, List.filter_filter, hc, List.reverse_append,
      List.reverse_cons, List.append_assoc, List.singleton_append, idxOf?_filter hafter]
    simp only [Bool.and_comm (counts _), List.filter_reverse, List.length_reverse]
    rfl

/-- A node has a position exactly if it is an element with a parent that counts. -/
theorem isAt_iff (h : t.Linked) (f : Formula) (direction : Direction) :
    t.view.isAt f direction counts node = true ↔ ∃ parent before after,
      t.parent node = some parent ∧ t.children parent = before ++ node :: after ∧
        t.view.isElement node = true ∧ counts node = true ∧
          f.selects (View.position ((direction.passed before after).filter fun other =>
            t.view.isElement other && counts other).length) = true := by
  constructor
  · intro hat
    obtain ⟨parent, hp, hat⟩ := (Option.any_eq_true _ _).1 hat
    obtain ⟨before, after, hc⟩ := List.append_of_mem (h.mem_children.2 hp)
    refine ⟨parent, before, after, hp, hc, ?_⟩
    rw [h.idxOf?_counted direction hc] at hat
    split at hat
    · next hcounts =>
      rw [Bool.and_eq_true] at hcounts
      exact ⟨hcounts.1, hcounts.2, hat⟩
    · cases hat
  · rintro ⟨parent, before, after, hp, hc, helement, hcounts, hselects⟩
    refine (Option.any_eq_true _ _).2 ⟨parent, hp, ?_⟩
    rw [h.idxOf?_counted direction hc, helement, hcounts]
    exact hselects

/-- In front of an element among the children of a node, and behind it, are fewer elements than there are
element children. -/
theorem length_passed_lt (counts : NodeId → Bool) (direction : Direction)
    (hc : t.children parent = before ++ node :: after)
    (helement : t.view.isElement node = true) :
    ((direction.passed before after).filter fun other =>
      t.view.isElement other && counts other).length <
        ((t.children parent).filter t.view.isElement).length := by
  have hle : ((direction.passed before after).filter fun other =>
      t.view.isElement other && counts other).length ≤
        ((direction.passed before after).filter t.view.isElement).length := by
    simp only [← List.countP_eq_length_filter]
    exact List.countP_mono_left fun other _ hother => (Bool.and_eq_true_iff.1 hother).1
  rw [hc, List.filter_append, List.filter_cons_of_pos helement, List.length_append, List.length_cons]
  cases direction with
  | forward =>
    dsimp only [Direction.passed] at hle ⊢
    omega
  | backward =>
    dsimp only [Direction.passed] at hle ⊢
    omega

/-- No node has more element children than the tree has nodes. -/
theorem length_elements_le (h : t.Linked) (parent : NodeId) :
    ((t.children parent).filter t.view.isElement).length ≤ t.size :=
  (List.length_filter_le _ _).trans ((h.runs_children parent).length_le fun _ => h.child_lt_size)

end Tree.Linked

/-- As long as an index and its successor have 32 bits, positions count on. -/
theorem View.position_eq {index : Nat} (h : index + 1 < Text.int32Bound) :
    View.position index = Int32.ofNat (1 + index) := by
  rw [View.position, Nat.min_eq_left (by omega), Nat.add_comm]

/-- On a built tree whose nodes have fewer than `2 ^ 31` element children, the position of a node is selected
exactly if it is an element with a parent, counts, and the formula selects one more than the number of
element children that count and that come before it, or after it when counting backward. -/
theorem isAt_iff_passed (ht : t.Built)
    (hfew : ∀ parent, ((t.children parent).filter t.view.isElement).length < Text.int32Bound)
    (f : Formula) (direction : Direction) (counts : NodeId → Bool) (node : NodeId) :
    t.view.isAt f direction counts node = true ↔ ∃ parent before after,
      t.parent node = some parent ∧ t.children parent = before ++ node :: after ∧
        t.view.isElement node = true ∧ counts node = true ∧
          f.selects (Int32.ofNat (1 + ((direction.passed before after).filter fun other =>
            t.view.isElement other && counts other).length)) = true := by
  rw [ht.linked.isAt_iff]
  refine exists_congr fun parent => exists_congr fun before => exists_congr fun after =>
    and_congr_right fun _ => and_congr_right fun hc => and_congr_right fun helement =>
      and_congr_right fun _ => ?_
  have hlt := Tree.Linked.length_passed_lt counts direction hc helement
  have := hfew parent
  rw [View.position_eq (by omega)]

/-- Counted from the end among the items, the first item of a list of two has an even position, and the text
between the items does not count. -/
theorem isAt_iff_passed_listOfTwo :
    Tree.listOfTwo.Built ∧
      (∀ parent, ((Tree.listOfTwo.children parent).filter Tree.listOfTwo.view.isElement).length <
        Text.int32Bound) ∧
      ∃ parent before after, Tree.listOfTwo.parent 2 = some parent ∧
        Tree.listOfTwo.children parent = before ++ 2 :: after ∧
          Tree.listOfTwo.view.isElement 2 = true ∧ Tree.listOfTwo.view.hasTag 2 "li" = true ∧
            (⟨2, 0⟩ : Formula).selects (Int32.ofNat (1 + ((Direction.backward.passed before after).filter
              fun other => Tree.listOfTwo.view.isElement other &&
                Tree.listOfTwo.view.hasTag other "li").length)) = true := by
  have hfew : ∀ parent, ((Tree.listOfTwo.children parent).filter Tree.listOfTwo.view.isElement).length <
      Text.int32Bound := by
    intro parent
    have hsize : Tree.listOfTwo.size = 5 := by decide +kernel
    have hle := Tree.built_listOfTwo.linked.length_elements_le parent
    rw [hsize] at hle
    exact Nat.lt_of_le_of_lt hle (by decide)
  refine ⟨Tree.built_listOfTwo, hfew, ?_⟩
  exact (isAt_iff_passed Tree.built_listOfTwo hfew ⟨2, 0⟩ .backward
    (Tree.listOfTwo.view.hasTag · "li") 2).1 (by decide +kernel)

end TreeQuery
