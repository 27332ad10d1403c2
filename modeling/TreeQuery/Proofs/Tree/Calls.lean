import TreeQuery.Proofs.Tree.Ancestors

/-!
# Calls that build a tree

Calls on a tree allocate a node, append a new node, or append a node that was allocated before. A call is
allowed if the nodes that it names are allocated, and if the node that it appends has no parent yet and is
not at or above its new parent. Appending writes up to five links on three nodes, some of them under a
condition only, and never checks what it is given. Still no sequence of allowed calls fails or leaves two
links that disagree (`links_of_calls`), in subtrees that are detached from the document as in the others.
-/

namespace TreeQuery.Tree

/-- A call that changes a tree. -/
inductive Call where
  /-- Allocates a node without links. -/
  | alloc (content : NodeContent)
  /-- Allocates a node and appends it to a parent. -/
  | appendNew (parent : NodeId) (content : NodeContent)
  /-- Appends a node that was allocated before. -/
  | append (parent child : NodeId)
  deriving DecidableEq, Repr

/-- What a call makes of a tree, unless it fails. -/
def Call.run? (t : Tree) : Call → Option Tree
  | .alloc content => some (t.add content)
  | .appendNew parent content => t.addTo? parent content
  | .append parent child => t.append? parent child

/-- Whether a call names allocated nodes only, and appends a node without a parent to a node that is not at
or below it. -/
def Call.Allowed (t : Tree) : Call → Prop
  | .alloc _ => True
  | .appendNew parent _ => parent < t.size
  | .append parent child =>
    parent < t.size ∧ child < t.size ∧ t.parent child = none ∧ ¬ t.AtOrAbove child parent

/-- Makes calls in order, up to the first that fails. -/
def runAll? (t : Tree) : List Call → Option Tree
  | [] => some t
  | call :: rest => (call.run? t).bind (·.runAll? rest)

/-- Each call is allowed in the tree that the calls before it make. -/
def AllowsAll (t : Tree) : List Call → Prop
  | [] => True
  | call :: rest => call.Allowed t ∧ ∀ t', call.run? t = some t' → t'.AllowsAll rest

variable {t : Tree} {call : Call} {calls : List Call} {parent child : NodeId}

/-- Appending fails for unknown nodes only. -/
theorem exists_append? (hp : parent < t.size) (hc : child < t.size) :
    ∃ t', t.append? parent child = some t' := by
  obtain ⟨node, hnode⟩ : ∃ node, t.get? parent = some node := ⟨_, Array.getElem?_eq_getElem hp⟩
  unfold append?
  rw [hnode]
  dsimp only
  rw [if_pos hc]
  split
  · exact ⟨_, rfl⟩
  · exact ⟨_, rfl⟩

theorem size_add (t : Tree) (content : NodeContent) : (t.add content).size = t.size + 1 :=
  Array.size_push _

/-- A call that is allowed does not fail, and goes on building. -/
theorem Built.run (h : Built t) (hallowed : call.Allowed t) :
    ∃ t', call.run? t = some t' ∧ Built t' := by
  cases call with
  | alloc content => exact ⟨_, rfl, h.add content⟩
  | appendNew parent content =>
    have hp : parent < t.size := hallowed
    have hnew : t.size < (t.add content).size := by
      rw [size_add]
      exact Nat.lt_succ_self t.size
    obtain ⟨t', happ⟩ := exists_append? (Nat.lt_trans hp hnew) hnew
    exact ⟨t', happ, h.addTo hp happ⟩
  | append parent child =>
    obtain ⟨hp, hc, hloose, hnot⟩ := hallowed
    obtain ⟨t', happ⟩ := exists_append? hp hc
    rw [atOrAbove_iff, not_or] at hnot
    refine ⟨t', happ, h.append hloose (Ne.symm hnot.1) ?_ happ⟩
    rw [h.linked.mem_ancestors]
    exact hnot.2

/-- Allowed calls do not fail, and go on building. -/
theorem Built.runAll (h : Built t) (hallowed : t.AllowsAll calls) :
    ∃ t', t.runAll? calls = some t' ∧ Built t' := by
  induction calls generalizing t with
  | nil => exact ⟨t, rfl, h⟩
  | cons call rest ih =>
    obtain ⟨t', hrun, hbuilt⟩ := h.run hallowed.1
    obtain ⟨last, hrest, hlast⟩ := ih hbuilt (hallowed.2 t' hrun)
    refine ⟨last, ?_, hlast⟩
    rw [runAll?, hrun]
    exact hrest

/-- Allowed calls on a new tree do not fail, and then the links agree. No node is above itself. A node is
among the children of another one, and once, exactly if this one is its parent. Adjacent children are
linked to each other, and there is no previous sibling of a first child, no next sibling of a last one, and
neither of a node without a parent. -/
theorem links_of_calls (hallowed : Tree.new.AllowsAll calls) :
    ∃ t, Tree.new.runAll? calls = some t ∧
      (∀ node, ¬ t.Above node node) ∧
      (∀ parent child, child ∈ t.children parent ↔ t.parent child = some parent) ∧
      (∀ parent, (t.children parent).Nodup) ∧
      (∀ parent before a b after, t.children parent = before ++ a :: b :: after →
        t.nextSibling a = some b ∧ t.prevSibling b = some a) ∧
      (∀ parent node, (t.children parent).head? = some node → t.prevSibling node = none) ∧
      (∀ parent node, (t.children parent).getLast? = some node → t.nextSibling node = none) ∧
      ∀ node, t.parent node = none → t.prevSibling node = none ∧ t.nextSibling node = none := by
  obtain ⟨t, hrun, hbuilt⟩ := Built.new.runAll hallowed
  have h := hbuilt.linked
  exact ⟨t, hrun, fun _ => h.not_above_self, fun _ _ => h.mem_children, h.nodup,
    fun _ _ _ _ _ hc => h.neighbours_of_adjacent hc, fun _ _ => h.first, fun _ _ => h.last,
    fun _ hp => (h.loose hp).symm⟩

/-! ## Checking calls -/

/-- The check of a call, which looks for the appended node on the walk up from its new parent. -/
def Call.check (t : Tree) : Call → Bool
  | .alloc _ => true
  | .appendNew parent _ => parent < t.size
  | .append parent child =>
    parent < t.size && child < t.size && (t.parent child).isNone &&
      !(parent :: t.ancestors parent).contains child

/-- The check of calls in order. -/
def checkAll (t : Tree) : List Call → Bool
  | [] => true
  | call :: rest => call.check t && (call.run? t).all (·.checkAll rest)

theorem Linked.check_iff (h : Linked t) : call.check t = true ↔ call.Allowed t := by
  cases call with
  | alloc => simp [Call.check, Call.Allowed]
  | appendNew => simp [Call.check, Call.Allowed]
  | append parent child =>
    have hup : (parent :: t.ancestors parent).contains child = true ↔ t.AtOrAbove child parent := by
      rw [List.contains_iff_mem, List.mem_cons, h.mem_ancestors, atOrAbove_iff, eq_comm]
    simp only [Call.check, Call.Allowed, Bool.and_eq_true, decide_eq_true_iff, Option.isNone_iff_eq_none,
      Bool.not_eq_eq_eq_not, Bool.not_true, ← Bool.not_eq_true, hup, and_assoc]

theorem Built.checkAll_iff (h : Built t) : t.checkAll calls = true ↔ t.AllowsAll calls := by
  induction calls generalizing t with
  | nil => simp [checkAll, AllowsAll]
  | cons call rest ih =>
    rw [checkAll, AllowsAll, Bool.and_eq_true, h.linked.check_iff, Option.all_eq_true]
    refine and_congr_right fun hallowed => ?_
    obtain ⟨t', hrun, hbuilt⟩ := h.run hallowed
    rw [hrun]
    simpa using ih hbuilt

instance (calls : List Call) : Decidable (Tree.new.AllowsAll calls) :=
  decidable_of_iff _ Built.new.checkAll_iff

/-- A section gets a heading and a text while it is detached, then its place in the document, and at last a
comment behind it. -/
def sectionCalls : List Call :=
  [.alloc (.element ⟨"section", []⟩), .appendNew 1 (.element ⟨"h1", []⟩), .appendNew 1 (.text "news"),
    .append 0 1, .appendNew 0 (.comment "end")]

/-- The heading and the text are siblings in the section, and the section and the comment in the document. -/
theorem links_of_calls_section :
    Tree.new.AllowsAll sectionCalls ∧ ∃ t, Tree.new.runAll? sectionCalls = some t ∧
      t.children 0 = [1, 4] ∧ t.children 1 = [2, 3] ∧ t.parent 1 = some 0 ∧ ¬ t.Above 1 1 ∧
      t.nextSibling 1 = some 4 ∧ t.prevSibling 3 = some 2 ∧ t.prevSibling 2 = none ∧
      t.nextSibling 3 = none ∧ t.nextSibling 0 = none := by
  have hallowed : Tree.new.AllowsAll sectionCalls := by decide +kernel
  obtain ⟨t, hrun, hacyclic, hmem, -, hadjacent, hfirst, hlast, hloose⟩ := links_of_calls hallowed
  have hchildren : (Tree.new.runAll? sectionCalls).map (fun t => (t.children 0, t.children 1, t.parent 0)) =
      some ([1, 4], [2, 3], none) := by decide +kernel
  rw [hrun, Option.map_some, Option.some.injEq, Prod.mk.injEq, Prod.mk.injEq] at hchildren
  obtain ⟨hdocument, hsection, hroot⟩ := hchildren
  exact ⟨hallowed, t, hrun, hdocument, hsection, (hmem 0 1).1 (by simp [hdocument]),
    hacyclic 1, (hadjacent 0 [] 1 4 [] hdocument).1, (hadjacent 1 [] 2 3 [] hsection).2,
    hfirst 1 2 (by simp [hsection]), hlast 1 3 (by simp [hsection]), (hloose 0 hroot).2⟩

/-- The tree that these calls build. -/
def sectioned : Tree := (Tree.new.runAll? sectionCalls).getD .new

theorem built_sectioned : sectioned.Built := by
  have hallowed : Tree.new.AllowsAll sectionCalls := by decide +kernel
  obtain ⟨t, hrun, hbuilt⟩ := Built.new.runAll hallowed
  rwa [sectioned, hrun]

end TreeQuery.Tree
