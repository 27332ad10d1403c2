import TreeQuery.Match
import TreeQuery.Proofs.Tree.Ancestors
import TreeQuery.Proofs.Tree.Siblings

/-!
# What a chain of parts means

A chain of parts describes a row of nodes, one for each part, in which each node is related to the one
before it as the combinator of its own part says. Matching walks the tree instead: it folds the chain
from its first part on. The two agree on every built tree, whatever the parts are.
-/

namespace TreeQuery

namespace Tree

/-- Two nodes are related as a combinator says, the earlier one first. -/
def Related (t : Tree) : Combinator → NodeId → NodeId → Prop
  | .descendant => t.Above
  | .child => t.IsParent
  | .nextSibling => t.ElementJustBefore
  | .subsequentSibling => t.ElementBefore

/-- The walk of a combinator meets exactly the nodes that the combinator relates to its start. -/
theorem Linked.mem_relatives {t : Tree} (h : Linked t) (link : Option Combinator) (a b : NodeId) :
    a ∈ t.view.relatives link b ↔ t.Related (link.getD .descendant) a b := by
  unfold View.relatives
  cases link.getD .descendant with
  | descendant => exact h.mem_ancestors
  | child => exact Option.mem_toList
  | nextSibling => exact Option.mem_toList.trans h.prevElementSibling_eq_some
  | subsequentSibling => exact h.mem_elementsBefore

/-- The nodes `place 0`, `place 1`, … satisfy the parts of a chain one by one, and each is related to
the one before it by the combinator of its own part; a part without one says descendant. -/
structure Row (t : Tree) (host : Host) (parts : List Part) (place : Nat → NodeId) : Prop where
  accepted : ∀ (i : Nat) (part : Part), parts[i]? = some part →
    part.accepts ⟨t.view, host⟩ (place i) = true
  related : ∀ (i : Nat) (part : Part), parts[i + 1]? = some part →
    t.Related (part.combinator.getD .descendant) (place i) (place (i + 1))

end Tree

variable {t : Tree} {host : Host} {parts : List Part} {node : NodeId}

namespace Part

variable {sc : Scene} {before : Option Combinator → NodeId → Bool} {part : Part}

theorem chainAccepts_singleton :
    chainAccepts sc before [part] node = true ↔
      part.accepts sc node = true ∧ before part.combinator node = true := by
  rw [chainAccepts, Bool.and_eq_true, accepts]

/-- The first part of a longer chain may stand at a relative of the node of the second part. -/
theorem chainAccepts_cons (hne : parts ≠ []) :
    chainAccepts sc before (part :: parts) node =
      chainAccepts sc (fun link n => (sc.view.relatives link n).any fun m =>
        part.accepts sc m && before part.combinator m) parts node := by
  cases parts with
  | nil => exact absurd rfl hne
  | cons next rest => rw [chainAccepts]; rfl

/-- Parts with the same nodes and the same combinators make chains with the same nodes. -/
theorem chainAccepts_congr {parts parts' : List Part}
    (h : List.Forall₂ (fun part part' => part.accepts sc = part'.accepts sc ∧
      part.combinator = part'.combinator) parts parts') :
    chainAccepts sc before parts = chainAccepts sc before parts' := by
  induction h generalizing before with
  | nil => rfl
  | @cons part part' rest rest' hpart hrest ih =>
    obtain ⟨haccepts, hlink⟩ := hpart
    funext node
    by_cases hnil : rest = []
    · subst hnil
      obtain rfl := List.forall₂_nil_left_iff.1 hrest
      rw [Bool.eq_iff_iff, chainAccepts_singleton, chainAccepts_singleton, haccepts, hlink]
    · have hnil' : rest' ≠ [] := by
        rintro rfl
        exact hnil (List.forall₂_nil_right_iff.1 hrest)
      rw [chainAccepts_cons hnil, chainAccepts_cons hnil', haccepts, hlink, ih]

/-- A chain is satisfied by the last node of a row for it, whose first node stands where the first
part may. -/
theorem chainAccepts_iff (h : t.Linked) :
    chainAccepts ⟨t.view, host⟩ before parts node = true ↔
      ∃ place, t.Row host parts place ∧ parts ≠ [] ∧ place (parts.length - 1) = node ∧
        ∀ part, parts.head? = some part → before part.combinator (place 0) = true := by
  induction parts generalizing before with
  | nil => simp [chainAccepts]
  | cons part parts ih =>
    by_cases hne : parts = []
    · subst hne
      rw [chainAccepts_singleton]
      constructor
      · rintro ⟨haccepts, hbefore⟩
        refine ⟨fun _ => node, ⟨fun i p hp => ?_, fun i p hp => by simp at hp⟩, by simp, rfl, ?_⟩
        · rcases i with _ | i <;> simp at hp
          exact hp ▸ haccepts
        · intro p hp
          obtain rfl : part = p := by simpa using hp
          exact hbefore
      · rintro ⟨place, hrow, -, rfl, hbefore⟩
        exact ⟨hrow.accepted 0 part rfl, hbefore part rfl⟩
    · rw [chainAccepts_cons hne, ih]
      obtain ⟨next, rest, rfl⟩ := List.exists_cons_of_ne_nil hne
      constructor
      · rintro ⟨place, hrow, -, hlast, hbefore⟩
        -- the new first node is a relative of the node of the second part
        obtain ⟨m, hmem, hm⟩ := List.any_eq_true.1 (hbefore next rfl)
        rw [Bool.and_eq_true] at hm
        refine ⟨fun i => i.casesOn m place, ⟨?_, ?_⟩, by simp, by simpa using hlast, ?_⟩
        · rintro (_ | i) p hp
          · obtain rfl : part = p := by simpa using hp
            exact hm.1
          · exact hrow.accepted i p hp
        · rintro (_ | i) p hp
          · obtain rfl : next = p := by simpa using hp
            exact (h.mem_relatives _ _ _).1 hmem
          · exact hrow.related i p hp
        · intro p hp
          obtain rfl : part = p := by simpa using hp
          exact hm.2
      · rintro ⟨place, hrow, -, hlast, hbefore⟩
        refine ⟨fun i => place (i + 1), ⟨fun i => hrow.accepted (i + 1), fun i =>
          hrow.related (i + 1)⟩, by simp, by simpa using hlast, fun p hp => ?_⟩
        obtain rfl : next = p := by simpa using hp
        refine List.any_eq_true.2 ⟨place 0, (h.mem_relatives _ _ _).2 (hrow.related 0 next rfl), ?_⟩
        rw [Bool.and_eq_true]
        exact ⟨hrow.accepted 0 part rfl, hbefore part rfl⟩

end Part

/-- The first part of a chain may start below an origin, or wherever its combinator leads from one. -/
def Tree.StartsAt (t : Tree) (origins : Option (List NodeId)) (parts : List Part)
    (first : NodeId) : Prop :=
  ∀ list, origins = some list → ∃ origin ∈ list,
    t.Related ((parts.head?.bind (·.combinator)).getD .descendant) origin first

theorem Tree.Linked.startsAt_iff (h : t.Linked) (origins : Option (List NodeId))
    (link : Option Combinator) (node : NodeId) :
    Scene.startsAt ⟨t.view, host⟩ origins link node = true ↔
      ∀ list, origins = some list → ∃ origin ∈ list, t.Related (link.getD .descendant) origin node := by
  cases origins with
  | none => simp [Scene.startsAt]
  | some list =>
    simp only [Scene.startsAt, List.any_eq_true, List.contains_iff_mem, h.mem_relatives,
      Option.some.injEq, forall_eq']
    exact exists_congr fun origin => and_comm

/-- Matching a selector is finding a row for its parts that ends at the node, and that starts at an
origin if there are any. -/
theorem Selector.accepts_iff_row (h : t.Linked) (origins : Option (List NodeId)) :
    Selector.accepts ⟨t.view, host⟩ origins ⟨parts⟩ node = true ↔
      ∃ place, t.Row host parts place ∧ parts ≠ [] ∧ place (parts.length - 1) = node ∧
        t.StartsAt origins parts (place 0) := by
  rw [Selector.accepts, Part.chainAccepts_iff h]
  refine exists_congr fun place => and_congr_right fun _ => and_congr_right fun hne =>
    and_congr_right fun _ => ?_
  obtain ⟨part, rest, rfl⟩ := List.exists_cons_of_ne_nil hne
  simp only [List.head?_cons, Option.some.injEq, forall_eq', h.startsAt_iff, Tree.StartsAt,
    Option.bind_some]

/-- On every built tree, a node satisfies a chain of parts, relative to origins if there are any,
exactly if it is the last node of a row for the chain that starts at one of the origins. -/
theorem accepts_iff_exists_row (ht : t.Built) (host : Host) (parts : List Part) (node : NodeId)
    (origins : Option (List NodeId)) :
    Selector.accepts ⟨t.view, host⟩ origins ⟨parts⟩ node = true ↔
      parts ≠ [] ∧ ∃ place : Nat → NodeId, t.Row host parts place ∧
        place (parts.length - 1) = node ∧ t.StartsAt origins parts (place 0) := by
  rw [Selector.accepts_iff_row ht.linked]
  constructor
  · rintro ⟨place, hrow, hne, hlast, hstart⟩
    exact ⟨hne, place, hrow, hlast, hstart⟩
  · rintro ⟨hne, place, hrow, hlast, hstart⟩
    exact ⟨place, hrow, hne, hlast, hstart⟩

/-- An element without attributes. -/
def NodeContent.named (tag : String) : NodeContent := .element ⟨tag, []⟩

/-- The selector of all elements of a name. -/
def Selector.named (tag : String) : Selector := ⟨[⟨none, false, some ⟨tag⟩, [], none⟩]⟩

/-- The children of a list of two items with a text between them, each with its parent. -/
def Tree.listSteps : List (NodeId × NodeContent) :=
  [(0, .element ⟨"ul", [("id", "top")]⟩), (1, .named "li"), (1, .text "and"), (1, .named "li")]

/-- A document with a list of two items. -/
def Tree.listOfTwo : Tree :=
  (Tree.new.addAll? Tree.listSteps).getD .new

theorem Tree.built_listOfTwo : Tree.listOfTwo.Built := Tree.Built.new.getD_addAll? Tree.listSteps

/-- The selector `#top > li + li`. -/
def Selector.secondItem : Selector :=
  ⟨[⟨none, false, none, [.id ⟨"top"⟩], none⟩, ⟨some .child, false, some ⟨"li"⟩, [], none⟩,
    ⟨some .nextSibling, false, some ⟨"li"⟩, [], none⟩]⟩

/-- The row for the second item, across the text between the items. -/
theorem exists_row_listOfTwo :
    Tree.listOfTwo.Built ∧ ∃ place : Nat → NodeId,
      Tree.listOfTwo.Row .silent Selector.secondItem.parts place ∧ place 2 = 4 ∧
        Tree.listOfTwo.StartsAt (some [0]) Selector.secondItem.parts (place 0) :=
  ⟨Tree.built_listOfTwo, ((accepts_iff_exists_row Tree.built_listOfTwo .silent
    Selector.secondItem.parts 4 (some [0])).1 (by decide +kernel)).2⟩

end TreeQuery
