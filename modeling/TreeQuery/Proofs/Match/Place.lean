import TreeQuery.Proofs.Match.Chain
import TreeQuery.Proofs.Match.Conditions

/-!
# Where matching nodes lie

A row never leaves the tree of its first node, and once it is below a node it stays there. A selector
that is matched relative to origins therefore reaches only nodes below an origin, unless it starts with
a sibling combinator: then it reaches nodes below the parent of an origin.
-/

namespace TreeQuery

/-- Whether the combinator relates siblings. -/
def Combinator.isBeside : Combinator → Bool
  | .nextSibling | .subsequentSibling => true
  | .descendant | .child => false

/-- Whether the combinator of the part relates siblings. -/
def Part.isBeside (part : Part) : Bool := part.combinator.any (·.isBeside)

/-- Whether the selector starts with a combinator that relates siblings. -/
def Selector.startsBeside (selector : Selector) : Bool := selector.parts.head?.any Part.isBeside

variable {t : Tree} {host : Host} {link : Combinator} {a b s : NodeId}

theorem Part.isBeside_getD (part : Part) :
    (part.combinator.getD .descendant).isBeside = part.isBeside := by
  rw [Part.isBeside]
  cases part.combinator <;> rfl

namespace Tree

/-- Two nodes of which the first stands before the second among the children of a node. -/
def Before (t : Tree) (a b : NodeId) : Prop :=
  ∃ parent before between after, t.children parent = before ++ a :: (between ++ b :: after)

namespace Linked

/-- Siblings have one parent. -/
theorem parent_of_before (h : t.Linked) (hab : t.Before a b) :
    ∃ p, t.parent a = some p ∧ t.parent b = some p := by
  obtain ⟨p, before, between, after, hc⟩ := hab
  exact ⟨p, h.mem_children.1 (by simp [hc]), h.mem_children.1 (by simp [hc])⟩

theorem before_trans {c : NodeId} (h : t.Linked) (hab : t.Before a b) (hbc : t.Before b c) :
    t.Before a c := by
  obtain ⟨p, before, between, after, hc⟩ := hab
  obtain ⟨q, before', between', after', hc'⟩ := hbc
  have hp : t.parent b = some p := h.mem_children.1 (by simp [hc])
  have hq : t.parent b = some q := h.mem_children.1 (by simp [hc'])
  obtain rfl : p = q := Option.some.inj (hp.symm.trans hq)
  have hsplit : t.children p = (before ++ a :: between) ++ b :: after := by simp [hc]
  obtain ⟨-, rfl⟩ := h.children_split_unique hsplit hc'
  exact ⟨p, before, between ++ b :: between', after', by simp [hc]⟩

theorem ne_of_before (h : t.Linked) (hab : t.Before a b) : a ≠ b := by
  rintro rfl
  obtain ⟨p, before, between, after, hc⟩ := hab
  have hnodup := h.nodup p
  simp [hc, List.nodup_append] at hnodup

/-- The subtrees of siblings have no node in common. -/
theorem not_atOrAbove_of_before {c : NodeId} (h : t.Linked) (hab : t.Before a b)
    (hb : t.AtOrAbove b c) : ¬ t.AtOrAbove a c := by
  intro ha
  obtain ⟨p, hpa, hpb⟩ := h.parent_of_before hab
  -- a node above its sibling would be above their parent, which is above the node
  have hcycle : ∀ x y, t.parent x = some p → t.parent y = some p → t.AtOrAbove x y → y = x := by
    intro x y hx hy hxy
    refine (atOrAbove_iff.1 hxy).resolve_right fun habove => ?_
    obtain ⟨q, hq, hxq⟩ := Above.iff_parent.1 habove
    obtain rfl : p = q := Option.some.inj (hy.symm.trans hq)
    exact h.not_above_self (Above.iff_parent.2 ⟨p, hx, hxq⟩)
  rcases above_total ha hb with hle | hle
  · exact h.ne_of_before hab (hcycle a b hpa hpb hle).symm
  · exact h.ne_of_before hab (hcycle b a hpb hpa hle)

/-- A sibling combinator relates siblings. -/
theorem before_of_related (hbeside : link.isBeside = true) (hab : t.Related link a b) :
    t.Before a b := by
  cases link with
  | descendant | child => cases hbeside
  | nextSibling =>
    obtain ⟨p, before, between, after, hc, -⟩ := hab
    exact ⟨p, before, between, after, hc⟩
  | subsequentSibling =>
    obtain ⟨p, before, between, after, hc, -⟩ := hab
    exact ⟨p, before, between, after, hc⟩

/-- The other combinators lead below a node. -/
theorem above_of_related (hbeside : link.isBeside = false) (hab : t.Related link a b) :
    t.Above a b := by
  cases link with
  | descendant => exact hab
  | child => exact .of_parent hab
  | nextSibling | subsequentSibling => cases hbeside

/-- No combinator leads out of a subtree. -/
theorem above_of_above_related (h : t.Linked) (hab : t.Related link a b) (hs : t.Above s a) :
    t.Above s b := by
  cases hbeside : link.isBeside with
  | false => exact hs.trans (above_of_related hbeside hab)
  | true =>
    obtain ⟨p, ha, hb⟩ := h.parent_of_before (before_of_related hbeside hab)
    rw [Above.iff_parent, ha] at hs
    obtain ⟨q, hq, hsq⟩ := hs
    obtain rfl := Option.some.inj hq
    exact Above.iff_parent.2 ⟨p, hb, hsq⟩

/-- No combinator leads in front of a node. -/
theorem before_of_before_related (h : t.Linked) {first : NodeId} (hab : t.Related link a b)
    (hfirst : t.Before first s) (hs : t.AtOrAbove s a) :
    ∃ sibling, t.Before first sibling ∧ t.AtOrAbove sibling b := by
  rcases atOrAbove_iff.1 hs with rfl | habove
  · cases hbeside : link.isBeside with
    | false => exact ⟨a, hfirst, (above_of_related hbeside hab).atOrAbove⟩
    | true => exact ⟨b, h.before_trans hfirst (before_of_related hbeside hab), .refl⟩
  · exact ⟨s, hfirst, (h.above_of_above_related hab habove).atOrAbove⟩

/-- No combinator leads into another tree. -/
theorem root_of_related (h : t.Linked) (hab : t.Related link a b) :
    t.view.root a = t.view.root b := by
  cases hbeside : link.isBeside with
  | false => exact h.root_eq_of_above (above_of_related hbeside hab)
  | true =>
    obtain ⟨p, ha, hb⟩ := h.parent_of_before (before_of_related hbeside hab)
    rw [h.root_of_parent ha, h.root_of_parent hb]

end Linked

namespace Row

variable {parts : List Part} {place : Nat → NodeId} {i j : Nat}

/-- The first nodes of a row are a row. -/
theorem take (h : t.Row host parts place) (count : Nat) :
    t.Row host (parts.take count) place := by
  refine ⟨fun i part hp => ?_, fun i part hp => ?_⟩
  · rw [List.getElem?_take] at hp
    split at hp
    · exact h.accepted i part hp
    · cases hp
  · rw [List.getElem?_take] at hp
    split at hp
    · exact h.related i part hp
    · cases hp

/-- The node at each position of the chain is an element. -/
theorem isElement (h : t.Row host parts place) (hi : i < parts.length) :
    t.view.isElement (place i) = true :=
  Part.isElement_of_accepts (h.accepted i parts[i] (List.getElem?_eq_getElem hi))

/-- What a row hands on from one node to the next holds of all later nodes. -/
theorem step_induction (h : t.Row host parts place) {P : NodeId → Prop}
    (hstep : ∀ link a b, t.Related link a b → P a → P b) (hij : i ≤ j) (hj : j < parts.length)
    (hi : P (place i)) : P (place j) := by
  induction j, hij using Nat.le_induction with
  | base => exact hi
  | succ j hij ih =>
    have hlink := h.related j parts[j + 1] (List.getElem?_eq_getElem hj)
    exact hstep _ _ _ hlink (ih (by omega))

/-- A row stays below a node. -/
theorem above_of_le (h : t.Row host parts place) (ht : t.Linked) (hij : i ≤ j)
    (hj : j < parts.length) (hi : t.Above s (place i)) : t.Above s (place j) :=
  h.step_induction (fun _ _ _ hab ha => ht.above_of_above_related hab ha) hij hj hi

/-- A row stays in one tree. -/
theorem root_of_le (h : t.Row host parts place) (ht : t.Linked) (hij : i ≤ j)
    (hj : j < parts.length) : t.view.root (place i) = t.view.root (place j) :=
  h.step_induction (P := fun node => t.view.root (place i) = t.view.root node)
    (fun _ _ _ hab ha => ha.trans (ht.root_of_related hab)) hij hj rfl

end Row
end Tree

namespace Tree.Linked

variable {selector : Selector} {origins : List NodeId} {node : NodeId}

/-- What starts below an origin stays below it. -/
theorem above_of_accepts (h : t.Linked) (hbeside : selector.startsBeside = false)
    (haccepts : selector.accepts ⟨t.view, host⟩ (some origins) node = true) :
    ∃ origin ∈ origins, t.Above origin node := by
  obtain ⟨parts⟩ := selector
  obtain ⟨place, hrow, hne, rfl, hstart⟩ := (Selector.accepts_iff_row h (some origins)).1 haccepts
  obtain ⟨part, rest, rfl⟩ := List.exists_cons_of_ne_nil hne
  obtain ⟨origin, hmem, hrel⟩ := hstart origins rfl
  refine ⟨origin, hmem, hrow.above_of_le h (Nat.zero_le _) (by simp) ?_⟩
  exact above_of_related (part.isBeside_getD.trans hbeside) hrel

/-- What starts beside an origin is at or below a sibling of it. -/
theorem before_of_accepts (h : t.Linked) (hbeside : selector.startsBeside = true)
    (haccepts : selector.accepts ⟨t.view, host⟩ (some origins) node = true) :
    ∃ origin ∈ origins, ∃ sibling, t.Before origin sibling ∧ t.AtOrAbove sibling node := by
  obtain ⟨parts⟩ := selector
  obtain ⟨place, hrow, hne, rfl, hstart⟩ := (Selector.accepts_iff_row h (some origins)).1 haccepts
  obtain ⟨part, rest, rfl⟩ := List.exists_cons_of_ne_nil hne
  obtain ⟨origin, hmem, hrel⟩ := hstart origins rfl
  refine ⟨origin, hmem, ?_⟩
  have hfirst := before_of_related (part.isBeside_getD.trans hbeside) hrel
  exact hrow.step_induction (P := fun node => ∃ sibling, t.Before origin sibling ∧
    t.AtOrAbove sibling node) (fun _ _ _ hab ⟨_, hbefore, hat⟩ =>
      h.before_of_before_related hab hbefore hat) (Nat.zero_le _) (by simp) ⟨place 0, hfirst, .refl⟩

end Tree.Linked
end TreeQuery
