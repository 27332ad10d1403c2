import TreeQuery.Tree.Walk
import Mathlib.Data.List.Perm.Subperm
import Mathlib.Logic.Relation

/-!
# Walks that end

`trail` cuts every walk off at a bound. `Runs` says that a walk ends by itself and lists its nodes,
without a bound. A walk that ends meets no node twice, so a bound by the number of nodes cuts nothing
off (`Runs.trail_eq`).
-/

namespace TreeQuery.Walk

variable {step : NodeId → Option NodeId}

/-- The walk from `start` along `step` ends, after exactly these nodes. -/
inductive Runs (step : NodeId → Option NodeId) : Option NodeId → List NodeId → Prop
  | stop : Runs step none []
  | go {node : NodeId} {nodes : List NodeId} :
      Runs step (step node) nodes → Runs step (some node) (node :: nodes)

namespace Runs

/-- A walk is determined by its start. -/
theorem unique {start : Option NodeId} {nodes nodes' : List NodeId} (h : Runs step start nodes)
    (h' : Runs step start nodes') : nodes = nodes' := by
  induction h generalizing nodes' with
  | stop => cases h'; rfl
  | go _ ih =>
    cases h' with
    | go h' => rw [ih h']

/-- What a walk does from one of its nodes on is a walk. -/
theorem drop {start : Option NodeId} {before after : List NodeId} {node : NodeId}
    (h : Runs step start (before ++ node :: after)) : Runs step (some node) (node :: after) := by
  induction before generalizing start with
  | nil =>
    cases h with
    | go h => exact .go h
  | cons _ _ ih =>
    cases h with
    | go h => exact ih h

/-- A walk that ends meets no node twice: from a repeated node on it would go round for ever. -/
theorem nodup {start : Option NodeId} {nodes : List NodeId} (h : Runs step start nodes) :
    nodes.Nodup := by
  induction h with
  | stop => exact List.nodup_nil
  | @go node nodes h ih =>
    refine List.nodup_cons.2 ⟨fun hmem => ?_, ih⟩
    obtain ⟨before, after, rfl⟩ := List.append_of_mem hmem
    have heq := (Runs.go h).unique h.drop
    have hlen := congrArg List.length heq
    simp only [List.length_cons, List.length_append] at hlen
    omega

/-- A walk has no more nodes than there are numbers for them. -/
theorem length_le {start : Option NodeId} {nodes : List NodeId} {size : Nat}
    (h : Runs step start nodes) (hlt : ∀ node ∈ nodes, node < size) : nodes.length ≤ size := by
  have hsub : nodes ⊆ List.range size := fun node hmem => List.mem_range.2 (hlt node hmem)
  simpa using (List.subperm_of_subset h.nodup hsub).length_le

/-- A bound that is no smaller than the walk cuts nothing off. -/
theorem trail_eq {start : Option NodeId} {nodes : List NodeId} {bound : Nat}
    (h : Runs step start nodes) (hle : nodes.length ≤ bound) : trail step bound start = nodes := by
  induction h generalizing bound with
  | stop => cases bound <;> rfl
  | go _ ih =>
    cases bound with
    | zero => simp at hle
    | succ bound => rw [trail, ih (Nat.le_of_succ_le_succ hle)]

/-- A walk depends on the steps from its own nodes alone. -/
theorem congr {step' : NodeId → Option NodeId} {start : Option NodeId} {nodes : List NodeId}
    (h : Runs step start nodes) (heq : ∀ node ∈ nodes, step' node = step node) :
    Runs step' start nodes := by
  induction h with
  | stop => exact .stop
  | @go node nodes _ ih =>
    refine .go ?_
    rw [heq node List.mem_cons_self]
    exact ih fun other hmem => heq other (List.mem_cons_of_mem _ hmem)

/-- After its first node, a walk meets nodes that a step leads to. -/
theorem exists_step {node : NodeId} {nodes : List NodeId} (h : Runs step (step node) nodes) :
    ∀ other ∈ nodes, ∃ before, step before = some other := by
  generalize hstart : step node = start at h
  induction h generalizing node with
  | stop => simp
  | @go first nodes h ih =>
    intro other hmem
    rcases List.mem_cons.1 hmem with rfl | hmem
    · exact ⟨node, hstart⟩
    · exact ih rfl other hmem

/-- A walk meets the nodes that its start leads to. -/
theorem mem_iff {node other : NodeId} {nodes : List NodeId} (h : Runs step (some node) nodes) :
    other ∈ nodes ↔ Relation.ReflTransGen (fun a b => step a = some b) node other := by
  constructor
  · intro hmem
    generalize hstart : some node = start at h
    induction h generalizing node with
    | stop => simp at hmem
    | @go first nodes h ih =>
      cases hstart
      rcases List.mem_cons.1 hmem with rfl | hmem
      · exact .refl
      · cases hnext : step first with
        | none =>
          rw [hnext] at h
          cases h
          simp at hmem
        | some next => exact .head hnext (ih hmem hnext.symm)
  · intro hpath
    induction hpath using Relation.ReflTransGen.head_induction_on generalizing nodes with
    | refl =>
      cases h
      exact List.mem_cons_self
    | head hstep _ ih =>
      cases h with
      | go h =>
        rw [hstep] at h
        exact List.mem_cons_of_mem _ (ih h)

end Runs
end TreeQuery.Walk
