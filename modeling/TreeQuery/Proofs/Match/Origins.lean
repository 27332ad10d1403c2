import TreeQuery.Proofs.Match.Place

/-!
# What origins do to a test

Origins restrict where the first part of a selector may start, and nothing else. So more origins accept
more, and no origins accept most. A selector that does not start with a combinator may start at any node
below an origin. In a document every element is below the root, so for such a selector the root as the one
origin is no restriction: searching a document from its root finds what is accepted without origins.
-/

namespace TreeQuery

/-- The second set of origins restricts less: it has all nodes of the first one, or it is none at all. -/
def OriginsLe : Option (List NodeId) → Option (List NodeId) → Prop
  | _, none => True
  | none, some _ => False
  | some origins, some origins' => origins ⊆ origins'

variable {sc : Scene} {origins origins' : Option (List NodeId)} {node : NodeId}

/-- Where a chain may start, it may start with fewer restrictions. -/
theorem Scene.startsAt_mono (h : OriginsLe origins origins') {link : Option Combinator}
    (hstart : sc.startsAt origins link node = true) : sc.startsAt origins' link node = true := by
  cases origins' with
  | none => rfl
  | some list' =>
    cases origins with
    | none => exact h.elim
    | some list =>
      obtain ⟨origin, hmem, horigin⟩ := List.any_eq_true.1 hstart
      have horigin' := h (List.contains_iff_mem.1 horigin)
      exact List.any_eq_true.2 ⟨origin, hmem, List.contains_iff_mem.2 horigin'⟩

/-- A chain whose first part may start at more nodes is accepted at more nodes. -/
theorem Part.chainAccepts_mono {before before' : Option Combinator → NodeId → Bool}
    (h : ∀ link n, before link n = true → before' link n = true) {parts : List Part}
    (haccepts : chainAccepts sc before parts node = true) :
    chainAccepts sc before' parts node = true := by
  induction parts generalizing before before' with
  | nil => exact haccepts
  | cons part rest ih =>
    by_cases hrest : rest = []
    · subst hrest
      rw [chainAccepts_singleton] at haccepts ⊢
      exact ⟨haccepts.1, h _ _ haccepts.2⟩
    · rw [chainAccepts_cons hrest] at haccepts ⊢
      -- the rest of the chain starts wherever the first part leads from a node that it accepts
      refine ih (fun link n hbefore => ?_) haccepts
      obtain ⟨m, hmem, hm⟩ := List.any_eq_true.1 hbefore
      obtain ⟨hpart, hlink⟩ := Bool.and_eq_true_iff.1 hm
      exact List.any_eq_true.2 ⟨m, hmem, Bool.and_eq_true_iff.2 ⟨hpart, h _ _ hlink⟩⟩

/-- A list that is accepted with some origins is accepted with any that restrict less. -/
theorem Selector.anyAccepts_mono (h : OriginsLe origins origins') {list : List Selector}
    (haccepts : Selector.anyAccepts sc origins list node = true) :
    Selector.anyAccepts sc origins' list node = true := by
  rw [Selector.anyAccepts_eq_any, List.any_eq_true] at haccepts ⊢
  obtain ⟨selector, hmem, hselector⟩ := haccepts
  obtain ⟨parts⟩ := selector
  exact ⟨⟨parts⟩, hmem, Part.chainAccepts_mono (fun _ _ => Scene.startsAt_mono h) hselector⟩

variable {t : Tree} {host : Host} {selector : Selector}

/-- In a document, a selector without a leading combinator may start at the root. -/
theorem Tree.Linked.accepts_root (h : t.Linked) (hlead : selector.hasLeadingCombinator = false)
    (hroot : t.view.kind (t.view.root node) = .document)
    (haccepts : selector.accepts ⟨t.view, host⟩ none node = true) :
    selector.accepts ⟨t.view, host⟩ (some [t.view.root node]) node = true := by
  obtain ⟨parts⟩ := selector
  obtain ⟨place, hrow, hne, rfl, -⟩ := (Selector.accepts_iff_row h none).1 haccepts
  refine (Selector.accepts_iff_row h _).2 ⟨place, hrow, hne, rfl, fun list hlist => ?_⟩
  obtain rfl := Option.some.inj hlist
  refine ⟨t.view.root (place (parts.length - 1)), List.mem_singleton_self _, ?_⟩
  obtain ⟨part, rest, rfl⟩ := List.exists_cons_of_ne_nil hne
  have hlink : part.combinator = none := by
    simpa [Selector.hasLeadingCombinator] using hlead
  -- the row stays in the tree of the document, so its first element is below the root
  have hfirst := hrow.root_of_le h (Nat.zero_le _)
    (by simp : (part :: rest).length - 1 < (part :: rest).length)
  have helement : t.view.kind (place 0) = .element := beq_iff_eq.1 (hrow.isElement (by simp))
  rw [List.head?_cons, Option.bind_some, hlink, ← hfirst]
  refine h.above_root fun hkind => ?_
  rw [hfirst, hroot, helement] at hkind
  cases hkind

/-- On every built tree, a node that a list accepts with some origins is accepted with all sets of origins
that have these among them, and without origins. A node in a document that is accepted without origins is
accepted with the root of the document as the one origin, if no selector of the list starts with a
combinator. -/
theorem anyAccepts_origins (ht : t.Built) (host : Host) (list : List Selector) (node : NodeId) :
    (∀ origins, Selector.anyAccepts ⟨t.view, host⟩ (some origins) list node = true →
      (∀ origins', origins ⊆ origins' →
        Selector.anyAccepts ⟨t.view, host⟩ (some origins') list node = true) ∧
      Selector.anyAccepts ⟨t.view, host⟩ none list node = true) ∧
    (t.view.kind (t.view.root node) = .document →
      (∀ selector ∈ list, selector.hasLeadingCombinator = false) →
        Selector.anyAccepts ⟨t.view, host⟩ none list node = true →
          Selector.anyAccepts ⟨t.view, host⟩ (some [t.view.root node]) list node = true) := by
  refine ⟨fun origins haccepts => ⟨fun origins' hsubset => ?_, ?_⟩, fun hroot hlead haccepts => ?_⟩
  · have hle : OriginsLe (some origins) (some origins') := hsubset
    exact Selector.anyAccepts_mono hle haccepts
  · have hle : OriginsLe (some origins) none := trivial
    exact Selector.anyAccepts_mono hle haccepts
  · rw [Selector.anyAccepts_eq_any, List.any_eq_true] at haccepts ⊢
    obtain ⟨selector, hmem, hselector⟩ := haccepts
    exact ⟨selector, hmem, ht.linked.accepts_root (hlead selector hmem) hroot hselector⟩

/-- The second item of a list is accepted wherever the origins are, as long as the document is one of
them. -/
theorem anyAccepts_origins_listOfTwo :
    Tree.listOfTwo.Built ∧
      Selector.anyAccepts ⟨Tree.listOfTwo.view, .silent⟩ none [Selector.secondItem] 4 = true ∧
      Selector.anyAccepts ⟨Tree.listOfTwo.view, .silent⟩ (some [0]) [Selector.secondItem] 4 = true ∧
      Selector.anyAccepts ⟨Tree.listOfTwo.view, .silent⟩ (some [4, 0]) [Selector.secondItem] 4 =
        true := by
  obtain ⟨hmore, hroot⟩ := anyAccepts_origins Tree.built_listOfTwo .silent [Selector.secondItem] 4
  have hnone : Selector.anyAccepts ⟨Tree.listOfTwo.view, .silent⟩ none [Selector.secondItem] 4 =
      true := by decide +kernel
  have hzero : Tree.listOfTwo.view.root 4 = 0 := by decide +kernel
  have hsome := hroot (by decide +kernel) (by decide) hnone
  rw [hzero] at hsome
  exact ⟨Tree.built_listOfTwo, hnone, hsome, (hmore [0] hsome).1 [4, 0] (by decide)⟩

end TreeQuery
