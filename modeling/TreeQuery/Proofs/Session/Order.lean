import TreeQuery.Proofs.Search.Order
import TreeQuery.Proofs.Session.Nested
import TreeQuery.Proofs.Session.Scope

/-!
# The order of what a query finds

A query for one branch below one node returns what it finds in tree order, whichever lookup lists its
candidates. It does not where a pseudo-class searches a selector list below a document: the nodes that
this list finds come branch by branch.
-/

namespace TreeQuery

variable {σ : Type} {t : Tree} {registry : Registry} {profile : Profile} {host : Host}
  {s : Session σ} {text : String} {selector : Selector} {scope : NodeId}

namespace Engine

/-- A search for one branch below one node returns nodes in tree order, but for nodes that two branches
of a list below the root of the tree find. -/
theorem select_ordered (h : t.Linked) (serial : Nat) (selector : Selector) (scope : NodeId) :
    Search.Ensures ((t.engine registry profile host none : Engine σ).select serial [selector] [scope])
      (List.Pairwise fun a b => t.Precedes a b ∨
        t.view.kind (t.view.root scope) = .document ∧
          selector.TakesTurns profile ⟨t.view, host⟩ (t.view.root scope) a b) := by
  unfold Engine.select
  split
  · exact Search.ensures_pure .nil
  · next first rest horigins =>
    obtain ⟨rfl, rfl⟩ : first = scope ∧ rest = [] := by
      have hsub : (first :: rest).Sublist [scope] := horigins ▸ List.filter_sublist
      simpa using hsub
    refine (Selector.searchEach_ordered _ 0 (fun _ _ => hostSound_of_none rfl _ _ _)
      (fun branch hmem key => ?_) fun x y hsub => ?_).bind fun found hfound =>
        Search.ensures_pure (hfound.sublist (eraseDups_sublist found))
    · obtain rfl := List.mem_singleton.1 hmem
      exact Selector.search_ordered h branch key first [first]
    · exact absurd hsub.length_le (by simp)

/-- Without an evaluator, a query for one branch below one node returns each node once and in tree order,
but for nodes that two branches of a list below the root of the tree find. So it returns them in tree
order if no list from which candidates are taken has two branches. -/
theorem query_ordered (ht : t.Built) (hread : Selector.read ⟨registry, profile⟩ text = .ok [selector])
    (hscope : t.view.contains scope = true)
    (hs : (t.engine registry profile host none).Reached s) :
    ∃ found, ((t.engine registry profile host none).perform (.query text [scope]) s).1 =
      .ok (.nodes found) ∧ found.Nodup ∧
      (found.Pairwise fun a b => t.Precedes a b ∨ t.view.kind (t.view.root scope) = .document ∧
        selector.TakesTurns profile ⟨t.view, host⟩ (t.view.root scope) a b) ∧
      ((∀ inner list, Relation.ReflTransGen (Selector.Draws profile) selector inner →
        inner.DrawsList profile list → list.length ≤ 1) → found.Pairwise t.Precedes) := by
  have hknown : ∀ node ∈ [scope], t.view.contains node = true := by
    intro node hmem
    rwa [List.mem_singleton.1 hmem]
  obtain ⟨serial, hquery⟩ := hs.perform_query hknown hread
  have hhost : ∀ start, (t.engine registry profile host none : Engine σ).origins [scope] = [start] →
      ∀ branch ∈ [selector], (t.engine registry profile host none : Engine σ).HostSound branch start
        [start] := fun start _ branch _ => hostSound_of_none rfl branch start [start]
  have hnodup := (select_sound serial hhost s.activity).1
  have hordered : ((t.engine registry profile host none).select serial [selector] [scope]
      s.activity).1.Pairwise _ := select_ordered ht.linked serial selector scope s.activity
  refine ⟨_, hquery, hnodup, hordered, fun hlists => hordered.imp fun hab => ?_⟩
  exact hab.resolve_right fun hturns => Selector.not_takesTurns hlists _ _ _ hturns.2

end Engine

/-- A tree with two leaves below the document. -/
def Tree.leaves : Tree := (Tree.new.addAll? [(0, .named "a"), (0, .named "b")]).getD .new

theorem Tree.built_leaves : Tree.leaves.Built := Tree.Built.new.getD_addAll? _

/-- The selector `:matches(b, a)`. -/
def Selector.lastLeafFirst : Selector :=
  ⟨[⟨none, false, none,
    [.pseudo ⟨.matchesAny, true, some "b, a", .nested [.named "b", .named "a"]⟩], none⟩]⟩

open Reader Text in
theorem Selector.read_lastLeafFirst :
    Selector.read .standard ":matches(b, a)" = .ok [Selector.lastLeafFirst] := by
  have hlist : Selector.read .standard "b, a" = .ok [.named "b", .named "a"] := by
    with_unfolding_all rfl
  have hlookup : Parser.standard.registry.lookup PseudoClass.matchesAny.name =
      some (Entry.standard .matchesAny) := by
    with_unfolding_all rfl
  have hbalanced : Balanced "b, a".toList := .append (u := "b, a".toList) (v := []) (by decide) .nil
  have hwritten : writtenArgument (some "b, a".toList) = some "b, a" := by with_unfolding_all rfl
  have hclause : nestedClause .matchesAny "b, a".toList [.named "b", .named "a"] =
      ⟨.matchesAny, true, some "b, a", .nested [.named "b", .named "a"]⟩ := by
    rw [nestedClause, hwritten]
    rfl
  rw [lastLeafFirst, ← hclause]
  exact read_nested hlookup rfl hbalanced (by decide) hlist

namespace Engine

/-- What a query finds for two leaves comes in the order of the tree or of the branches. -/
theorem query_ordered_leaves :
    Tree.leaves.Built ∧ Selector.read .standard ":matches(b, a)" = .ok [Selector.lastLeafFirst] ∧
      Tree.leaves.view.contains 0 = true ∧
      ∃ found, ((Tree.leaves.engine .standard .manual .silent none).perform
          (.query ":matches(b, a)" [0]) (.start (.empty none) ())).1 = .ok (.nodes found) ∧
        found.Nodup ∧
        (found.Pairwise fun a b => Tree.leaves.Precedes a b ∨
          Tree.leaves.view.kind (Tree.leaves.view.root 0) = .document ∧
            Selector.lastLeafFirst.TakesTurns .manual ⟨Tree.leaves.view, .silent⟩
              (Tree.leaves.view.root 0) a b) ∧
        ((∀ inner list, Relation.ReflTransGen (Selector.Draws .manual) Selector.lastLeafFirst inner →
          inner.DrawsList .manual list → list.length ≤ 1) →
            found.Pairwise Tree.leaves.Precedes) := by
  have hscope : Tree.leaves.view.contains 0 = true := by decide +kernel
  exact ⟨Tree.built_leaves, Selector.read_lastLeafFirst, hscope,
    query_ordered Tree.built_leaves Selector.read_lastLeafFirst hscope (.start none ())⟩

/-- The list in the pseudo-class names the second leaf first, and so the query returns it first. -/
theorem query_reverses_leaves :
    Selector.read .standard ":matches(b, a)" = .ok [Selector.lastLeafFirst] ∧
      ((Tree.leaves.engine .standard .manual .silent none).perform (.query ":matches(b, a)" [0])
        (.start (.empty none) ())).1.toOption.bind Answer.nodes? = some [2, 1] ∧
      ¬ [2, 1].Pairwise Tree.leaves.Precedes := by
  refine ⟨Selector.read_lastLeafFirst, ?_, ?_⟩ <;> decide +kernel

end Engine
end TreeQuery
