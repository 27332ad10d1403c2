import TreeQuery.Proofs.Tree.Calls
import TreeQuery.Proofs.Tree.Preorder

/-!
# The walk through a scope, without a bound

The walk through a scope keeps no stack. From a node with children it goes to the first one; from another
it climbs, until it is at a node with a next sibling or at the scope. `ClimbsTo` and `Visits` are these two
loops without a bound: a derivation is a run that ends. On a built tree every run ends, and the bounded walk
`descendants` is the list that it visits (`visits_iff`): each child of the scope, followed by what is below
it.
-/

namespace TreeQuery

namespace Walk.Links

/-- The climb from a node ends: at the scope or without a parent it leads nowhere, and else to the first
next sibling on the way up. -/
inductive ClimbsTo (links : Links) (scope : NodeId) : NodeId → Option NodeId → Prop
  | atScope : ClimbsTo links scope scope none
  | beside {node next : NodeId} : node ≠ scope → links.nextSibling node = some next →
      ClimbsTo links scope node (some next)
  | atRoot {node : NodeId} : node ≠ scope → links.nextSibling node = none → links.parent node = none →
      ClimbsTo links scope node none
  | up {node parent : NodeId} {next : Option NodeId} : node ≠ scope → links.nextSibling node = none →
      links.parent node = some parent → ClimbsTo links scope parent next → ClimbsTo links scope node next

/-- The walk within a scope ends, after exactly these nodes. -/
inductive Visits (links : Links) (scope : NodeId) : Option NodeId → List NodeId → Prop
  | stop : Visits links scope none []
  | enter {node child : NodeId} {rest : List NodeId} : links.firstChild node = some child →
      Visits links scope (some child) rest → Visits links scope (some node) (node :: rest)
  | leave {node : NodeId} {next : Option NodeId} {rest : List NodeId} : links.firstChild node = none →
      links.ClimbsTo scope node next → Visits links scope next rest →
        Visits links scope (some node) (node :: rest)

variable {links : Links} {scope node : NodeId}

/-- A climb is determined by its start. -/
theorem ClimbsTo.unique {next next' : Option NodeId} (h : links.ClimbsTo scope node next)
    (h' : links.ClimbsTo scope node next') : next = next' := by
  induction h with
  | atScope => cases h' <;> first | rfl | contradiction
  | beside hne hnext => cases h' <;> simp_all
  | atRoot hne hnext hp => cases h' <;> simp_all
  | up hne hnext hp _ ih =>
    cases h' with
    | up _ _ hp' h' =>
      rw [hp, Option.some.injEq] at hp'
      exact ih (hp' ▸ h')
    | _ => simp_all

/-- A walk within a scope is determined by its start. -/
theorem Visits.unique {start : Option NodeId} {nodes nodes' : List NodeId}
    (h : links.Visits scope start nodes) (h' : links.Visits scope start nodes') : nodes = nodes' := by
  induction h generalizing nodes' with
  | stop => cases h'; rfl
  | enter hfirst _ ih =>
    cases h' with
    | enter hfirst' h' =>
      rw [hfirst, Option.some.injEq] at hfirst'
      rw [ih (hfirst' ▸ h')]
    | leave hfirst' => rw [hfirst] at hfirst'; cases hfirst'
  | leave hfirst hclimbs _ ih =>
    cases h' with
    | enter hfirst' => rw [hfirst] at hfirst'; cases hfirst'
    | leave _ hclimbs' h' => rw [ih (hclimbs.unique hclimbs' ▸ h')]

end Walk.Links

namespace Tree

variable {t : Tree} {scope node : NodeId}

namespace Linked

/-- Without a next sibling and a parent, the bounded climb leads nowhere. -/
theorem nextOutside_of_root (h : Linked t) (hnext : t.nextSibling node = none)
    (hp : t.parent node = none) : t.links.nextOutside t.size scope node = none := by
  have hanc : t.links.ancestors t.size node = [] := h.ancestors_of_root hp
  rw [Walk.Links.nextOutside, hanc, List.findSome?_eq_none_iff]
  intro other hmem
  obtain rfl := List.mem_singleton.1 (List.takeWhile_subset _ hmem)
  exact hnext

/-- Every climb ends, and where the bounded one does. -/
theorem climbsTo (h : Linked t) (scope node : NodeId) :
    t.links.ClimbsTo scope node (t.links.nextOutside t.size scope node) := by
  obtain ⟨path, hpath⟩ := h.ends node
  generalize hstart : some node = start at hpath
  induction hpath generalizing node with
  | stop => cases hstart
  | @go first nodes _ ih =>
    obtain rfl := Option.some.inj hstart
    by_cases hne : node = scope
    · subst hne
      rw [nextOutside_scope]
      exact .atScope
    · cases hnext : t.nextSibling node with
      | some next =>
        rw [nextOutside_of_some hne hnext]
        exact .beside hne hnext
      | none =>
        cases hp : t.parent node with
        | some parent =>
          rw [h.nextOutside_of_none hne hnext hp]
          exact .up hne hnext hp (ih parent hp.symm)
        | none =>
          rw [h.nextOutside_of_root hnext hp]
          exact .atRoot hne hnext hp

/-- The walk by the bounded climb is the walk by the climb. -/
theorem visits_of_runs (h : Linked t) {start : Option NodeId} {nodes : List NodeId}
    (hrun : Walk.Runs (t.links.nextInOrder t.size scope) start nodes) :
    t.links.Visits scope start nodes := by
  induction hrun with
  | stop => exact .stop
  | @go node nodes _ ih =>
    cases hfirst : t.links.firstChild node with
    | some child =>
      have hnext : t.links.nextInOrder t.size scope node = some child := by
        rw [Walk.Links.nextInOrder, hfirst]
        rfl
      exact .enter hfirst (hnext ▸ ih)
    | none =>
      have hnext : t.links.nextInOrder t.size scope node = t.links.nextOutside t.size scope node := by
        rw [Walk.Links.nextInOrder, hfirst]
        rfl
      exact .leave hfirst (h.climbsTo scope node) (hnext ▸ ih)

/-- The walk through a scope ends, and visits the nodes that the bounded walk lists. -/
theorem visits_iff (h : Linked t) (scope : NodeId) (nodes : List NodeId) :
    t.links.Visits scope (t.firstChild scope) nodes ↔ nodes = t.descendants scope := by
  have hvisits : t.links.Visits scope (t.firstChild scope) (t.descendants scope) := by
    rw [h.descendants_eq_inOrder]
    exact h.visits_of_runs (h.runs_inOrder scope)
  constructor
  · exact fun hnodes => hnodes.unique hvisits
  · rintro rfl
    exact hvisits

/-! ## Recursion over the lists of children -/

/-- Only `descendants` lists, for each node, its children, each followed by what it lists for the child. -/
theorem eq_descendants_iff (h : Linked t) (below : NodeId → List NodeId) :
    (∀ node, below node = (t.children node).flatMap fun child => child :: below child) ↔
      below = t.descendants := by
  have hrec : ∀ node, t.descendants node =
      (t.children node).flatMap fun child => child :: t.descendants child := by
    intro node
    simp only [h.descendants_eq_inOrder]
    exact h.inOrder_eq node
  constructor
  · intro hbelow
    funext node
    induction hlevels : t.size - t.depth node using Nat.strongRecOn generalizing node with
    | ind levels ih =>
      rw [hbelow, hrec]
      refine List.flatMap_congr fun child hmem => ?_
      rw [ih _ (hlevels ▸ h.size_sub_depth_lt hmem) child rfl]
  · rintro rfl
    exact hrec

/-- Each node below the scope is listed once, and no other. -/
theorem count_descendants (h : Linked t) (scope node : NodeId) :
    (t.descendants scope).count node = if t.isBelow node scope then 1 else 0 := by
  have hmem : node ∈ t.descendants scope ↔ t.isBelow node scope = true := by
    rw [h.mem_descendants, isBelow, List.contains_iff_mem, h.mem_ancestors]
  rw [(h.nodup_descendants scope).count]
  simp only [hmem]

/-! ## Larger bounds -/

theorem ancestors_of_le (h : Linked t) {bound : Nat} (hle : t.size ≤ bound) (node : NodeId) :
    t.links.ancestors bound node = t.ancestors node := by
  have hrun := h.runs_ancestors node
  exact hrun.trail_eq ((h.length_le_of_runs_parent hrun).trans hle)

/-- A bound above the number of nodes lists no more. -/
theorem descendants_of_le (h : Linked t) {bound : Nat} (hle : t.size ≤ bound) (scope : NodeId) :
    t.links.descendants bound scope = t.descendants scope := by
  have hstep : t.links.nextInOrder bound scope = t.links.nextInOrder t.size scope := by
    funext node
    simp only [Walk.Links.nextInOrder, Walk.Links.nextOutside, h.ancestors_of_le hle,
      h.ancestors_of_le (Nat.le_refl _)]
  rw [h.descendants_eq_inOrder, Walk.Links.descendants, hstep]
  exact (h.runs_inOrder scope).trail_eq ((h.length_inOrder_le scope).trans hle)

end Linked

/-- On a built tree the walk through a scope ends, and it visits the nodes that `descendants` lists, which
is the preorder by recursion over the children: each node below the scope once, and no other. Every view with
the links of the tree lists the same nodes and has as the root of a node the last of its ancestors, or the
node itself, where the walk up ends. -/
theorem descendants_exact (ht : t.Built) (scope : NodeId) :
    (∀ nodes, t.links.Visits scope (t.firstChild scope) nodes ↔ nodes = t.descendants scope) ∧
    (∀ below : NodeId → List NodeId,
      (∀ node, below node = (t.children node).flatMap fun child => child :: below child) ↔
        below = t.descendants) ∧
    (∀ node, (t.descendants scope).count node = if t.isBelow node scope then 1 else 0) ∧
    ∀ v : View, v.links = t.links → t.size ≤ v.bound →
      v.descendants scope = t.descendants scope ∧
      v.root scope = (t.ancestors scope).getLast?.getD scope ∧
      ∃ path, Walk.Runs v.parent (some scope) path ∧ path.getLast? = some (v.root scope) := by
  have h := ht.linked
  refine ⟨h.visits_iff scope, h.eq_descendants_iff, h.count_descendants scope, ?_⟩
  intro v hlinks hbound
  have hancestors : v.ancestors scope = t.ancestors scope := by
    rw [View.ancestors, hlinks]
    exact h.ancestors_of_le hbound scope
  have hroot : v.root scope = (t.ancestors scope).getLast?.getD scope := by
    rw [View.root, hancestors]
  have hparent : v.parent = t.parent := congrArg Walk.Links.parent hlinks
  refine ⟨?_, hroot, scope :: t.ancestors scope, ?_, ?_⟩
  · rw [View.descendants, hlinks]
    exact h.descendants_of_le hbound scope
  · rw [hparent]
    exact .go (h.runs_ancestors scope)
  · rw [hroot, List.getLast?_cons]

/-- Below the section are its heading and its text. The walk does not go on to the comment behind the
section. -/
theorem descendants_exact_section :
    sectioned.Built ∧ (∀ nodes, sectioned.links.Visits 1 (some 2) nodes ↔ nodes = [2, 3]) ∧
      (sectioned.descendants 1).count 3 = 1 ∧ (sectioned.descendants 1).count 4 = 0 ∧
      sectioned.view.descendants 1 = [2, 3] ∧ sectioned.view.root 3 = 0 := by
  obtain ⟨hvisits, -, hcount, hview⟩ := descendants_exact built_sectioned 1
  obtain ⟨-, -, -, hview'⟩ := descendants_exact built_sectioned 3
  have hfirst : sectioned.firstChild 1 = some 2 := by decide +kernel
  have hbelow : sectioned.descendants 1 = [2, 3] := by decide +kernel
  rw [hfirst, hbelow] at hvisits
  refine ⟨built_sectioned, hvisits, (hcount 3).trans (by decide +kernel),
    (hcount 4).trans (by decide +kernel), ?_, ?_⟩
  · exact (hview sectioned.view rfl (Nat.le_refl _)).1.trans hbelow
  · exact (hview' sectioned.view rfl (Nat.le_refl _)).2.1.trans (by decide +kernel)

end Tree
end TreeQuery
