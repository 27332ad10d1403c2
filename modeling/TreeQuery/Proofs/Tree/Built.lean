import TreeQuery.Proofs.Tree.Runs
import TreeQuery.View
import Mathlib.Data.List.Chain

/-!
# Built trees and their links

A tree is built by adding nodes and by appending nodes without a parent to nodes that do not lie below
them. `Linked` is the invariant of the links of such a tree: the links up, down and sideways say the
same, and no node lies below itself. Every walk through a tree relies on it.
-/

namespace TreeQuery.Tree

/-- The trees that building reaches, when each appended node has no parent yet and is neither the new
parent nor one of its ancestors. -/
inductive Built : Tree → Prop
  | new : Built .new
  | add {t : Tree} (content : NodeContent) : Built t → Built (t.add content)
  | append {t t' : Tree} {parent child : NodeId} : Built t → t.parent child = none →
      child ≠ parent → child ∉ t.ancestors parent → t.append? parent child = some t' → Built t'

/-- Two nodes that the sibling links join, the left one first. -/
def Neighbours (t : Tree) (a b : NodeId) : Prop :=
  t.nextSibling a = some b ∧ t.prevSibling b = some a

/-- The links of a tree agree with each other. -/
structure Linked (t : Tree) : Prop where
  mem_children : ∀ {parent child}, child ∈ t.children parent ↔ t.parent child = some parent
  nodup : ∀ parent, (t.children parent).Nodup
  chain : ∀ parent, (t.children parent).IsChain t.Neighbours
  first : ∀ {parent child}, (t.children parent).head? = some child → t.prevSibling child = none
  last : ∀ {parent child}, (t.children parent).getLast? = some child → t.nextSibling child = none
  loose : ∀ {node}, t.parent node = none → t.nextSibling node = none ∧ t.prevSibling node = none
  ends : ∀ node, ∃ path, Walk.Runs t.parent (some node) path

/-! ## Reading a changed tree -/

variable {t t' : Tree} {parent child : NodeId}

theorem get?_modify (t : Tree) (node other : NodeId) (f : Node → Node) :
    (t.modify node f).get? other = if node = other then (t.get? other).map f else t.get? other :=
  Array.getElem?_modify

theorem get?_eq_none {node : NodeId} : t.get? node = none ↔ t.size ≤ node :=
  Array.getElem?_eq_none_iff

theorem get?_add (t : Tree) (content : NodeContent) (node : NodeId) :
    (t.add content).get? node =
      if node = t.size then some (.detached content) else t.get? node :=
  Array.getElem?_push

/-- A node with a parent is in the tree. -/
theorem lt_size_of_parent {node : NodeId} (h : t.parent node = some parent) : node < t.size := by
  by_contra hge
  have hnone := get?_eq_none.2 (Nat.le_of_not_lt hge)
  simp [Tree.parent, hnone] at h

/-- A node with children is in the tree. -/
theorem lt_size_of_children {node : NodeId} (h : child ∈ t.children node) : node < t.size := by
  by_contra hge
  have hnone := get?_eq_none.2 (Nat.le_of_not_lt hge)
  simp [Tree.children, hnone] at h

/-- A new node changes no link. -/
theorem links_add (t : Tree) (content : NodeContent) :
    (t.add content).parent = t.parent ∧ (t.add content).children = t.children ∧
      (t.add content).nextSibling = t.nextSibling ∧ (t.add content).prevSibling = t.prevSibling := by
  have hnone : t.get? t.size = none := get?_eq_none.2 (Nat.le_refl _)
  refine ⟨?_, ?_, ?_, ?_⟩ <;> funext node <;> by_cases h : node = t.size
  all_goals
    simp [Tree.parent, Tree.children, Tree.nextSibling, Tree.prevSibling, get?_add, h, hnone,
      Node.detached]

/-- A change that keeps one link of every node keeps it in the tree. -/
theorem map_get?_modify {α : Type} (t : Tree) (node other : NodeId) {f : Node → Node} {link : Node → α}
    (h : ∀ n, link (f n) = link n) :
    ((t.modify node f).get? other).map link = (t.get? other).map link := by
  rw [get?_modify]
  split
  · rw [Option.map_map]
    exact congrArg (Option.map · _) (funext h)
  · rfl

/-- A change that sets one link of a node sets it in the tree. -/
theorem map_get?_modify_set {α : Type} {target : NodeId} (hlt : target < t.size) (node : NodeId)
    {f : Node → Node} {link : Node → α} {value : α} (h : ∀ n, link (f n) = value) :
    ((t.modify target f).get? node).map link =
      if node = target then some value else (t.get? node).map link := by
  obtain ⟨n, hn⟩ : ∃ n, t.get? target = some n := ⟨_, Array.getElem?_eq_getElem hlt⟩
  rw [get?_modify]
  by_cases hnode : node = target
  · simp [hnode, hn, h]
  · simp [hnode, Ne.symm hnode]

@[simp]
theorem size_modify (t : Tree) (node : NodeId) (f : Node → Node) :
    (t.modify node f).size = t.size := Array.size_modify

theorem parent_eq (t : Tree) (node : NodeId) : t.parent node = ((t.get? node).map (·.parent)).join := by
  cases h : t.get? node <;> simp [Tree.parent, h]

theorem nextSibling_eq (t : Tree) (node : NodeId) :
    t.nextSibling node = ((t.get? node).map (·.nextSibling)).join := by
  cases h : t.get? node <;> simp [Tree.nextSibling, h]

theorem prevSibling_eq (t : Tree) (node : NodeId) :
    t.prevSibling node = ((t.get? node).map (·.prevSibling)).join := by
  cases h : t.get? node <;> simp [Tree.prevSibling, h]

/-- What appending does when it succeeds. -/
theorem append?_eq_some (h : t.append? parent child = some t') :
    parent < t.size ∧ child < t.size ∧
      t' = match (t.children parent).getLast? with
        | none => (t.modify parent fun n => { n with children := n.children ++ [child] }).modify
            child fun n => { n with parent := some parent }
        | some last => (((t.modify parent fun n => { n with children := n.children ++ [child] }).modify
            child fun n => { n with parent := some parent }).modify
              last fun n => { n with nextSibling := some child }).modify
                child fun n => { n with prevSibling := some last } := by
  unfold append? at h
  split at h
  · cases h
  · next node hnode =>
    have hparent : parent < t.size := by
      by_contra hge
      rw [get?_eq_none.2 (Nat.le_of_not_lt hge)] at hnode
      cases hnode
    have hchildren : t.children parent = node.children := by simp [Tree.children, hnode]
    split at h
    · next hchild =>
      refine ⟨hparent, hchild, ?_⟩
      rw [hchildren]
      split at h <;> simp_all
    · cases h

theorem children_append (h : t.append? parent child = some t') (node : NodeId) :
    t'.children node = if node = parent then t.children parent ++ [child] else t.children node := by
  obtain ⟨hparent, -, rfl⟩ := append?_eq_some h
  obtain ⟨n, hn⟩ : ∃ n, t.get? parent = some n := ⟨_, Array.getElem?_eq_getElem hparent⟩
  have hfirst : ((t.modify parent fun n => { n with children := n.children ++ [child] }).get? node).map
      (·.children) = if node = parent then some (t.children parent ++ [child])
        else (t.get? node).map (·.children) := by
    rw [get?_modify]
    by_cases hnode : node = parent
    · simp [hnode, hn, Tree.children]
    · simp [hnode, Ne.symm hnode]
  unfold Tree.children at hfirst ⊢
  split <;> simp only [map_get?_modify, hfirst, implies_true] <;> split <;> rfl

theorem parent_append (h : t.append? parent child = some t') (node : NodeId) :
    t'.parent node = if node = child then some parent else t.parent node := by
  obtain ⟨-, hchild, rfl⟩ := append?_eq_some h
  rw [parent_eq, parent_eq]
  split <;>
    simp only [map_get?_modify, map_get?_modify_set, hchild, size_modify, implies_true] <;>
    split <;> rfl

theorem nextSibling_append (h : t.append? parent child = some t')
    (hlt : ∀ other ∈ t.children parent, other < t.size) (node : NodeId) :
    t'.nextSibling node =
      if (t.children parent).getLast? = some node then some child else t.nextSibling node := by
  obtain ⟨-, -, rfl⟩ := append?_eq_some h
  rw [nextSibling_eq, nextSibling_eq]
  cases hlast : (t.children parent).getLast? with
  | none => simp [map_get?_modify]
  | some last =>
    have hlast : last < t.size := hlt last (List.mem_of_getLast? hlast)
    simp only [map_get?_modify, map_get?_modify_set, hlast, size_modify, implies_true,
      Option.some.injEq, @eq_comm _ last]
    split <;> rfl

theorem prevSibling_append (h : t.append? parent child = some t') (node : NodeId) :
    t'.prevSibling node =
      if node = child ∧ t.children parent ≠ [] then (t.children parent).getLast?
      else t.prevSibling node := by
  obtain ⟨-, hchild, rfl⟩ := append?_eq_some h
  rw [prevSibling_eq, prevSibling_eq]
  cases hlast : (t.children parent).getLast? with
  | none => simp [map_get?_modify, List.getLast?_eq_none_iff.1 hlast]
  | some last =>
    have hne : t.children parent ≠ [] := List.ne_nil_of_mem (List.mem_of_getLast? hlast)
    simp only [map_get?_modify, map_get?_modify_set, hchild, size_modify, implies_true, hne,
      ne_eq, not_false_eq_true, and_true]
    split <;> rfl

/-! ## The links of a built tree -/

theorem linked_new : Linked .new := by
  have hget : ∀ node n, Tree.new.get? node = some n → n = .detached .document := by
    intro node n h
    cases node with
    | zero => exact (Option.some.inj h).symm
    | succ node => cases h
  have hparent : ∀ node, Tree.new.parent node = none := by
    intro node
    cases h : Tree.new.get? node with
    | none => simp [Tree.parent, h]
    | some n => simp [Tree.parent, h, hget node n h, Node.detached]
  have hchildren : ∀ node, Tree.new.children node = [] := by
    intro node
    cases h : Tree.new.get? node with
    | none => simp [Tree.children, h]
    | some n => simp [Tree.children, h, hget node n h, Node.detached]
  have hsiblings : ∀ node, Tree.new.nextSibling node = none ∧ Tree.new.prevSibling node = none := by
    intro node
    cases h : Tree.new.get? node with
    | none => simp [Tree.nextSibling, Tree.prevSibling, h]
    | some n => simp [Tree.nextSibling, Tree.prevSibling, h, hget node n h, Node.detached]
  exact {
    mem_children := by simp [hparent, hchildren]
    nodup := by simp [hchildren]
    chain := by simp [hchildren]
    first := by simp [hchildren]
    last := by simp [hchildren]
    loose := fun _ => hsiblings _
    ends := fun node => ⟨[node], .go (by rw [hparent]; exact .stop)⟩ }

theorem Linked.add (h : Linked t) (content : NodeContent) : Linked (t.add content) := by
  obtain ⟨hparent, hchildren, hnext, hprev⟩ := links_add t content
  have hneighbours : (t.add content).Neighbours = t.Neighbours := by
    funext a b
    rw [Neighbours, Neighbours, hnext, hprev]
  exact {
    mem_children := by rw [hparent, hchildren]; exact h.mem_children
    nodup := by rw [hchildren]; exact h.nodup
    chain := by rw [hchildren, hneighbours]; exact h.chain
    first := by rw [hchildren, hprev]; exact h.first
    last := by rw [hchildren, hnext]; exact h.last
    loose := by rw [hparent, hnext, hprev]; exact h.loose
    ends := by rw [hparent]; exact h.ends }

namespace Linked

/-- A parent is in the tree. -/
theorem parent_lt_size (h : Linked t) (hp : t.parent child = some parent) : parent < t.size :=
  lt_size_of_children (h.mem_children.2 hp)

/-- A child is in the tree. -/
theorem child_lt_size (h : Linked t) (hc : child ∈ t.children parent) : child < t.size :=
  lt_size_of_parent (h.mem_children.1 hc)

/-- Adjacent children are linked to each other. -/
theorem neighbours_of_adjacent (h : Linked t) {a b : NodeId} {before after : List NodeId}
    (hc : t.children parent = before ++ a :: b :: after) : t.Neighbours a b := by
  have hchain := h.chain parent
  rw [hc, List.isChain_append_cons_cons] at hchain
  exact hchain.2.1

/-- A walk up that ends has no more nodes than the tree. -/
theorem length_le_of_runs_parent (h : Linked t) {node : NodeId} {nodes : List NodeId}
    (hrun : Walk.Runs t.parent (t.parent node) nodes) : nodes.length ≤ t.size := by
  refine hrun.length_le fun other hmem => ?_
  obtain ⟨_, hstep⟩ := hrun.exists_step other hmem
  exact h.parent_lt_size hstep

/-- The ancestors are what the walk along the parents meets. -/
theorem runs_ancestors (h : Linked t) (node : NodeId) :
    Walk.Runs t.parent (t.parent node) (t.ancestors node) := by
  obtain ⟨path, hpath⟩ := h.ends node
  cases hpath with
  | @go _ nodes hrun =>
    have heq : t.ancestors node = nodes := hrun.trail_eq (h.length_le_of_runs_parent hrun)
    rw [heq]
    exact hrun

/-- Two neighbours keep their links when a parentless node is appended somewhere. -/
theorem neighbours_append (h : Linked t) (hchild : t.parent child = none)
    (happ : t.append? parent child = some t') {other a b : NodeId}
    (hb : b ∈ t.children other) (hab : t.Neighbours a b) : t'.Neighbours a b := by
  have hbchild : b ≠ child := by
    rintro rfl
    rw [h.mem_children, hchild] at hb
    cases hb
  have halast : (t.children parent).getLast? ≠ some a := by
    intro hlast
    rw [Neighbours, h.last hlast] at hab
    cases hab.1
  refine ⟨?_, ?_⟩
  · rw [nextSibling_append happ fun _ => h.child_lt_size, if_neg halast]
    exact hab.1
  · rw [prevSibling_append happ, if_neg fun hand => hbchild hand.1]
    exact hab.2

/-- A walk up ends in the tree after appending, if it does not go through the appended node. -/
theorem ends_append (h : Linked t) (hne : child ≠ parent) (hanc : child ∉ t.ancestors parent)
    (happ : t.append? parent child = some t') (node : NodeId) :
    ∃ path, Walk.Runs t'.parent (some node) path := by
  have hup : Walk.Runs t'.parent (some parent) (parent :: t.ancestors parent) := by
    refine (Walk.Runs.go (h.runs_ancestors parent)).congr fun other hmem => ?_
    have hother : other ≠ child := by
      rintro rfl
      rcases List.mem_cons.1 hmem with heq | hmem
      · exact hne heq
      · exact hanc hmem
    rw [parent_append happ, if_neg hother]
  obtain ⟨path, hpath⟩ := h.ends node
  generalize some node = start at hpath
  induction hpath with
  | stop => exact ⟨[], .stop⟩
  | @go first nodes hrun ih =>
    by_cases hfirst : first = child
    · refine ⟨first :: parent :: t.ancestors parent, .go ?_⟩
      rw [parent_append happ, if_pos hfirst]
      exact hup
    · obtain ⟨path, hpath⟩ := ih
      refine ⟨first :: path, .go ?_⟩
      rw [parent_append happ, if_neg hfirst]
      exact hpath

theorem append (h : Linked t) (hchild : t.parent child = none) (hne : child ≠ parent)
    (hanc : child ∉ t.ancestors parent) (happ : t.append? parent child = some t') : Linked t' := by
  have hloose := h.loose hchild
  have hout : ∀ other, child ∉ t.children other := by
    intro other hmem
    rw [h.mem_children, hchild] at hmem
    cases hmem
  have hnext := nextSibling_append happ fun _ => h.child_lt_size
  have hprev := prevSibling_append happ
  refine ⟨?mem_children, ?nodup, ?chain, ?first, ?last, ?loose, h.ends_append hne hanc happ⟩
  case mem_children =>
    intro p c
    rw [children_append happ, parent_append happ]
    split_ifs with hp hc hc
    · subst hp hc; simp
    · subst hp; simp [hc, h.mem_children]
    · subst hc; simp [hout, Ne.symm hp]
    · exact h.mem_children
  case nodup =>
    intro p
    rw [children_append happ]
    split_ifs
    · rw [List.nodup_append]
      refine ⟨h.nodup _, by simp, ?_⟩
      rintro a ha b hb rfl
      rw [List.mem_singleton.1 hb] at ha
      exact hout _ ha
    · exact h.nodup p
  case chain =>
    intro p
    have hold : ∀ q, (t.children q).IsChain t'.Neighbours := fun q =>
      (h.chain q).imp_of_mem_imp fun _ _ _ hb hab => h.neighbours_append hchild happ hb hab
    rw [children_append happ]
    split_ifs
    · refine List.isChain_append.2 ⟨hold _, List.isChain_singleton _, ?_⟩
      intro a ha b hb
      obtain rfl : child = b := by simpa using hb
      have hlast : (t.children parent).getLast? = some a := ha
      have hne : t.children parent ≠ [] := List.ne_nil_of_mem (List.mem_of_getLast? hlast)
      exact ⟨by rw [hnext, if_pos hlast], by rw [hprev, if_pos ⟨rfl, hne⟩, hlast]⟩
    · exact hold p
  case first =>
    intro p c hc
    rw [children_append happ] at hc
    rw [hprev]
    split_ifs at hc with hp
    · cases hchildren : t.children parent with
      | nil =>
        obtain rfl : child = c := by simpa [hchildren] using hc
        simp [hloose]
      | cons a rest =>
        have hhead : (t.children parent).head? = some c := by simpa [hchildren] using hc
        have hcchild : c ≠ child := fun heq => hout _ (heq ▸ List.mem_of_mem_head? hhead)
        rw [if_neg fun hand => hcchild hand.1]
        exact h.first hhead
    · have hcchild : c ≠ child := fun heq => hout _ (heq ▸ List.mem_of_mem_head? hc)
      rw [if_neg fun hand => hcchild hand.1]
      exact h.first hc
  case last =>
    intro p c hc
    rw [children_append happ] at hc
    rw [hnext]
    split_ifs at hc with hp
    · obtain rfl : child = c := by simpa using hc
      rw [if_neg fun hlast => hout _ (List.mem_of_getLast? hlast)]
      exact hloose.1
    · have hclast : (t.children parent).getLast? ≠ some c := by
        intro hlast
        have hp' := h.mem_children.1 (List.mem_of_getLast? hlast)
        rw [h.mem_children.1 (List.mem_of_getLast? hc)] at hp'
        exact hp (Option.some.inj hp')
      rw [if_neg hclast]
      exact h.last hc
  case loose =>
    intro n hn
    rw [parent_append happ] at hn
    split_ifs at hn with hnchild
    have hnlast : (t.children parent).getLast? ≠ some n := by
      intro hlast
      rw [h.mem_children.1 (List.mem_of_getLast? hlast)] at hn
      cases hn
    rw [hnext, hprev, if_neg hnlast, if_neg fun hand => hnchild hand.1]
    exact h.loose hn

end Linked

/-- The links of every built tree agree. -/
theorem Built.linked (h : Built t) : Linked t := by
  induction h with
  | new => exact linked_new
  | add content _ ih => exact ih.add content
  | append _ hchild hne hanc happ ih => exact ih.append hchild hne hanc happ

end TreeQuery.Tree
