import TreeQuery.Proofs.Tree.Ancestors
import TreeQuery.Proofs.Tree.Siblings

/-!
# Moving from element to element

A tree links siblings of every kind, and moving from element to element has to pass the texts and comments
between them, at both ends and in the middle. `Seeks` is the loop that does so, without a bound: a derivation
is a run that ends. On a built tree every such loop ends, and together they read off the list of the elements
among the children, from either end and from any place in it (`element_navigation`).
-/

namespace TreeQuery

namespace Walk

/-- The walk from a node along `step` ends at the first node that is wanted, or where the links end. -/
inductive Seeks (step : NodeId → Option NodeId) (wanted : NodeId → Bool) :
    Option NodeId → Option NodeId → Prop
  | stop : Seeks step wanted none none
  | here {node : NodeId} : wanted node = true → Seeks step wanted (some node) (some node)
  | pass {node : NodeId} {found : Option NodeId} : wanted node = false →
      Seeks step wanted (step node) found → Seeks step wanted (some node) found

variable {step : NodeId → Option NodeId} {wanted : NodeId → Bool} {start : Option NodeId}

/-- What a walk finds is determined by its start. -/
theorem Seeks.unique {found found' : Option NodeId} (h : Seeks step wanted start found)
    (h' : Seeks step wanted start found') : found = found' := by
  induction h with
  | stop => cases h'; rfl
  | here hwanted =>
    cases h' with
    | here => rfl
    | pass hnot => rw [hwanted] at hnot; cases hnot
  | pass hnot _ ih =>
    cases h' with
    | here hwanted => rw [hwanted] at hnot; cases hnot
    | pass _ h' => exact ih h'

/-- A walk that ends finds the first of its nodes that is wanted. -/
theorem Runs.seeks {nodes : List NodeId} (h : Runs step start nodes) (wanted : NodeId → Bool) :
    Seeks step wanted start (nodes.find? wanted) := by
  induction h with
  | stop => exact .stop
  | @go node nodes _ ih =>
    cases hnode : wanted node with
    | true =>
      rw [List.find?_cons_of_pos hnode]
      exact .here hnode
    | false =>
      rw [List.find?_cons_of_neg (by simp [hnode])]
      exact .pass hnode ih

/-- Where a walk ends within the bound, the bounded walk finds what the walk finds. -/
theorem Runs.seeks_iff {nodes : List NodeId} {bound : Nat} (h : Runs step start nodes)
    (hle : nodes.length ≤ bound) (found : Option NodeId) :
    Seeks step wanted start found ↔ found = ((trail step bound start).filter wanted).head? := by
  rw [h.trail_eq hle, List.head?_filter]
  constructor
  · exact fun hfound => hfound.unique (h.seeks wanted)
  · rintro rfl
    exact h.seeks wanted

end Walk

namespace Tree

/-- The elements among the children, in order. -/
def elements (t : Tree) (parent : NodeId) : List NodeId := (t.children parent).filter t.view.isElement

variable {t : Tree} {parent node a b : NodeId} {before after : List NodeId} {found : Option NodeId}

/-- Where the elements fall apart at one of them, the children do. -/
theorem exists_split_of_elements (hsplit : t.elements parent = before ++ node :: after) :
    ∃ front back, t.children parent = front ++ node :: back ∧
      front.filter t.view.isElement = before ∧ back.filter t.view.isElement = after := by
  obtain ⟨far, rest, hchildren, hfar, hrest⟩ := List.filter_eq_append_iff.1 hsplit
  obtain ⟨near, back, rfl, hnear, -, hback⟩ := List.filter_eq_cons_iff.1 hrest
  refine ⟨far ++ near, back, by simp [hchildren], ?_, hback⟩
  rw [List.filter_append, hfar, List.filter_eq_nil_iff.2 hnear, List.append_nil]

namespace Linked

/-! ## Every walk ends -/

/-- From every node, the walks among its siblings end. -/
theorem exists_runs_siblings (h : Linked t) (node : NodeId) :
    (∃ nodes, Walk.Runs t.nextSibling (t.nextSibling node) nodes ∧ nodes.length ≤ t.size) ∧
      ∃ nodes, Walk.Runs t.prevSibling (t.prevSibling node) nodes ∧ nodes.length ≤ t.size := by
  cases hp : t.parent node with
  | none =>
    rw [(h.loose hp).1, (h.loose hp).2]
    exact ⟨⟨[], .stop, Nat.zero_le _⟩, ⟨[], .stop, Nat.zero_le _⟩⟩
  | some parent =>
    obtain ⟨before, after, hc⟩ := List.append_of_mem (h.mem_children.2 hp)
    have hsub : after ⊆ t.children parent ∧ before.reverse ⊆ t.children parent := by simp [hc]
    have hnext := h.runs_nextSibling hc
    have hprev := h.runs_prevSibling hc
    exact ⟨⟨after, hnext, h.length_le_of_runs_siblings hnext hsub.1⟩,
      ⟨before.reverse, hprev, h.length_le_of_runs_siblings hprev hsub.2⟩⟩

theorem seeks_nextElementSibling (h : Linked t) :
    Walk.Seeks t.nextSibling t.view.isElement (t.nextSibling node) found ↔
      found = t.view.nextElementSibling node := by
  obtain ⟨⟨_, hrun, hle⟩, -⟩ := h.exists_runs_siblings node
  exact hrun.seeks_iff hle found

theorem seeks_prevElementSibling (h : Linked t) :
    Walk.Seeks t.prevSibling t.view.isElement (t.prevSibling node) found ↔
      found = t.view.prevElementSibling node := by
  obtain ⟨-, ⟨_, hrun, hle⟩⟩ := h.exists_runs_siblings node
  exact hrun.seeks_iff hle found

theorem seeks_firstElementChild (h : Linked t) :
    Walk.Seeks t.nextSibling t.view.isElement (t.firstChild parent) found ↔
      found = t.view.firstElementChild parent := by
  have hrun := h.runs_children parent
  exact hrun.seeks_iff (h.length_le_of_runs_siblings hrun (List.Subset.refl _)) found

theorem seeks_lastElementChild (h : Linked t) :
    Walk.Seeks t.prevSibling t.view.isElement (t.lastChild parent) found ↔
      found = t.view.lastElementChild parent := by
  have hrun := h.runs_children_reverse parent
  exact hrun.seeks_iff (h.length_le_of_runs_siblings hrun fun _ => List.mem_reverse.1) found

/-! ## What the walks find -/

theorem firstElementChild_eq (h : Linked t) (parent : NodeId) :
    t.view.firstElementChild parent = (t.elements parent).head? :=
  congrArg List.head? (h.elementChildren_eq parent)

theorem lastElementChild_eq (h : Linked t) (parent : NodeId) :
    t.view.lastElementChild parent = (t.elements parent).getLast? := by
  rw [View.lastElementChild, h.elementChildrenBackward_eq, List.filter_reverse, List.head?_reverse]
  rfl

/-- From a child, the nearest elements are the first one behind it and the last one in front of it. -/
theorem elementSiblings_eq (h : Linked t) (hc : t.children parent = before ++ node :: after) :
    t.view.nextElementSibling node = (after.filter t.view.isElement).head? ∧
      t.view.prevElementSibling node = (before.filter t.view.isElement).getLast? := by
  constructor
  · rw [View.nextElementSibling, h.elementsAfter_eq hc]
  · rw [View.prevElementSibling, h.elementsBefore_eq hc, List.filter_reverse, List.head?_reverse]

/-- From an element, the nearest elements are the ones next to it in the list of the elements. -/
theorem elementSiblings_of_elements (h : Linked t)
    (hsplit : t.elements parent = before ++ node :: after) :
    t.view.nextElementSibling node = after.head? ∧ t.view.prevElementSibling node = before.getLast? := by
  obtain ⟨front, back, hc, rfl, rfl⟩ := exists_split_of_elements hsplit
  exact h.elementSiblings_eq hc

/-- The walk from an element to the next one, and so on, lists the elements behind it. -/
theorem runs_nextElementSibling (h : Linked t)
    (hsplit : t.elements parent = before ++ node :: after) :
    Walk.Runs t.view.nextElementSibling (t.view.nextElementSibling node) after := by
  rw [(h.elementSiblings_of_elements hsplit).1]
  induction after generalizing before node with
  | nil => exact .stop
  | cons next after ih =>
    have hnext : t.elements parent = (before ++ [node]) ++ next :: after := by simp [hsplit]
    have hrest := ih hnext
    rw [← (h.elementSiblings_of_elements hnext).1] at hrest
    exact .go hrest

/-- The walk from the first element to the next one, and so on, ends after the element children. -/
theorem runs_elementChildren (h : Linked t) (parent : NodeId) (nodes : List NodeId) :
    Walk.Runs t.view.nextElementSibling (t.view.firstElementChild parent) nodes ↔
      nodes = t.view.elementChildren parent := by
  have hruns : Walk.Runs t.view.nextElementSibling (t.view.firstElementChild parent)
      (t.elements parent) := by
    rw [h.firstElementChild_eq]
    cases hall : t.elements parent with
    | nil => exact .stop
    | cons first after =>
      have hsplit : t.elements parent = [] ++ first :: after := hall
      exact .go (h.runs_nextElementSibling hsplit)
  have heq : t.view.elementChildren parent = t.elements parent := h.elementChildren_eq parent
  rw [heq]
  constructor
  · exact fun hnodes => hnodes.unique hruns
  · rintro rfl
    exact hruns

end Linked

/-- On a built tree, moving from element to element follows the list of the elements among the children of a
node. The first and the last element child are its ends, and the element children are the list. From an
element the next and the previous one are its neighbours in the list. From another child they are the first
element behind it and the last one in front of it. Each of the loops ends, and with these answers. -/
theorem element_navigation (ht : t.Built) (parent : NodeId) :
    t.view.firstElementChild parent = (t.elements parent).head? ∧
    t.view.lastElementChild parent = (t.elements parent).getLast? ∧
    t.view.elementChildren parent = t.elements parent ∧
    (∀ before node after, t.elements parent = before ++ node :: after →
      t.view.nextElementSibling node = after.head? ∧
      t.view.prevElementSibling node = before.getLast?) ∧
    (∀ before node after, t.children parent = before ++ node :: after →
      t.view.isElement node = false →
      t.view.nextElementSibling node = (after.filter t.view.isElement).head? ∧
      t.view.prevElementSibling node = (before.filter t.view.isElement).getLast?) ∧
    (∀ node found, Walk.Seeks t.nextSibling t.view.isElement (t.nextSibling node) found ↔
      found = t.view.nextElementSibling node) ∧
    (∀ node found, Walk.Seeks t.prevSibling t.view.isElement (t.prevSibling node) found ↔
      found = t.view.prevElementSibling node) ∧
    (∀ found, Walk.Seeks t.nextSibling t.view.isElement (t.firstChild parent) found ↔
      found = t.view.firstElementChild parent) ∧
    (∀ found, Walk.Seeks t.prevSibling t.view.isElement (t.lastChild parent) found ↔
      found = t.view.lastElementChild parent) ∧
    ∀ nodes, Walk.Runs t.view.nextElementSibling (t.view.firstElementChild parent) nodes ↔
      nodes = t.view.elementChildren parent := by
  have h := ht.linked
  exact ⟨h.firstElementChild_eq parent, h.lastElementChild_eq parent, h.elementChildren_eq parent,
    fun _ _ _ hsplit => h.elementSiblings_of_elements hsplit,
    fun _ _ _ hc _ => h.elementSiblings_eq hc, fun _ _ => h.seeks_nextElementSibling,
    fun _ _ => h.seeks_prevElementSibling, fun _ => h.seeks_firstElementChild,
    fun _ => h.seeks_lastElementChild, h.runs_elementChildren parent⟩

/-- A paragraph with a text at both ends, and with a comment and a text between its two links. -/
def linkSteps : List (NodeId × NodeContent) :=
  [(0, .element ⟨"p", []⟩), (1, .text "see"), (1, .element ⟨"a", []⟩), (1, .comment "one of two"),
    (1, .text "and"), (1, .element ⟨"a", []⟩), (1, .text "below")]

/-- A document with a paragraph of two links. -/
def twoLinks : Tree := (Tree.new.addAll? linkSteps).getD .new

theorem built_twoLinks : twoLinks.Built := Built.new.getD_addAll? linkSteps

/-- The links follow each other across the comment and the text. From the comment, the links lie on either
side. -/
theorem element_navigation_twoLinks :
    twoLinks.Built ∧ twoLinks.elements 1 = [3, 6] ∧
      twoLinks.children 1 = [2, 3] ++ 4 :: [5, 6, 7] ∧ twoLinks.view.isElement 4 = false ∧
      twoLinks.view.firstElementChild 1 = some 3 ∧ twoLinks.view.lastElementChild 1 = some 6 ∧
      twoLinks.view.nextElementSibling 3 = some 6 ∧ twoLinks.view.prevElementSibling 3 = none ∧
      twoLinks.view.nextElementSibling 4 = some 6 ∧ twoLinks.view.prevElementSibling 4 = some 3 := by
  have helements : twoLinks.elements 1 = [3, 6] := by decide +kernel
  have hchildren : twoLinks.children 1 = [2, 3] ++ 4 :: [5, 6, 7] := by decide +kernel
  have hcomment : twoLinks.view.isElement 4 = false := by decide +kernel
  have hbefore : [2, 3].filter twoLinks.view.isElement = [3] := by decide +kernel
  have hafter : [5, 6, 7].filter twoLinks.view.isElement = [6] := by decide +kernel
  obtain ⟨hfirst, hlast, -, helement, hother, -⟩ := element_navigation built_twoLinks 1
  obtain ⟨hnext, hprev⟩ := helement [] 3 [6] helements
  obtain ⟨hnext', hprev'⟩ := hother [2, 3] 4 [5, 6, 7] hchildren hcomment
  rw [helements] at hfirst hlast
  rw [hafter] at hnext'
  rw [hbefore] at hprev'
  exact ⟨built_twoLinks, helements, hchildren, hcomment, hfirst, hlast, hnext, hprev, hnext', hprev'⟩

end Tree
end TreeQuery
