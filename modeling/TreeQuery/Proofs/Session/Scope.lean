import TreeQuery.Proofs.Session.Query

/-!
# Where queries find nodes

A query finds nodes below the nodes of its scope, as long as no branch of the list starts with a sibling
combinator. A branch that does is matched by nodes at or below a later sibling of a scope node. The
lookups that serve the scope alone never meet these, but the others start at the root of the tree, and
the test accepts what they list.
-/

namespace TreeQuery

variable {σ : Type} {t : Tree} {registry : Registry} {profile : Profile} {host : Host}
  {s : Session σ} {text : String} {list : List Selector} {scope : List NodeId}

/-- What starts beside a node does not lead below it. -/
theorem Tree.Linked.not_above_of_accepts (h : t.Linked) {selector : Selector} {origin node : NodeId}
    (hbeside : selector.startsBeside = true)
    (haccepts : selector.accepts ⟨t.view, host⟩ (some [origin]) node = true) :
    ¬ t.Above origin node := by
  obtain ⟨other, hother, sibling, hbefore, hat⟩ := h.before_of_accepts hbeside haccepts
  obtain rfl := List.mem_singleton.1 hother
  exact fun habove => h.not_atOrAbove_of_before hbefore hat habove.atOrAbove

/-- A match lies below an origin, or at or below a later sibling of one, as the first combinator says. -/
theorem Tree.Linked.below_or_beside (h : t.Linked) {selector : Selector} {origins : List NodeId}
    {node : NodeId} (haccepts : selector.accepts ⟨t.view, host⟩ (some origins) node = true) :
    ∃ origin ∈ origins, if selector.startsBeside then
      ∃ sibling, t.Before origin sibling ∧ t.AtOrAbove sibling node else t.Above origin node := by
  cases hbeside : selector.startsBeside with
  | false => exact h.above_of_accepts hbeside haccepts
  | true => exact h.before_of_accepts hbeside haccepts

/-- What is known of a node that a query finds. A branch that accepts it leads below an element or
document of the scope, or at or below a later sibling of one if it starts with a sibling combinator. So
below the only node of a scope are exactly the nodes that a branch of the first kind accepts. -/
structure Located (t : Tree) (host : Host) (list : List Selector) (scope : List NodeId)
    (node : NodeId) : Prop where
  accepted : ∃ branch ∈ list,
    branch.accepts ⟨t.view, host⟩ (some (scope.filter t.view.isContainer)) node = true
  below_or_beside : ∀ branch ∈ list,
    branch.accepts ⟨t.view, host⟩ (some (scope.filter t.view.isContainer)) node = true →
      ∃ origin ∈ scope, t.view.isContainer origin = true ∧ if branch.startsBeside then
        ∃ sibling, t.Before origin sibling ∧ t.AtOrAbove sibling node else t.Above origin node
  above_iff : ∀ origin, scope = [origin] → (t.Above origin node ↔
    ∃ branch ∈ list, branch.startsBeside = false ∧
      branch.accepts ⟨t.view, host⟩ (some [origin]) node = true)

namespace Engine

/-- A query without an evaluator finds nodes below its scope, but for branches that start with a sibling
combinator: what only these accept lies outside a scope of one node. -/
theorem query_located (ht : t.Built) (hread : Selector.read ⟨registry, profile⟩ text = .ok list)
    (hknown : ∀ node ∈ scope, t.view.contains node = true)
    (hs : (t.engine registry profile host none).Reached s) :
    ∃ found, ((t.engine registry profile host none).perform (.query text scope) s).1 =
      .ok (.nodes found) ∧ ∀ node ∈ found, Located t host list scope node := by
  have hlinked := ht.linked
  obtain ⟨serial, hquery⟩ := hs.perform_query hknown hread
  have hhost : ∀ start, (t.engine registry profile host none : Engine σ).origins scope = [start] →
      ∀ selector ∈ list, (t.engine registry profile host none : Engine σ).HostSound selector start
        [start] := fun start _ selector _ => hostSound_of_none rfl selector start [start]
  have hfound := select_sound serial hhost s.activity
  refine ⟨_, hquery, fun node hmem => ?_⟩
  have hbranch : ∃ branch ∈ list, branch.accepts ⟨t.view, host⟩
      (some (scope.filter t.view.isContainer)) node = true := hfound.2 node hmem
  refine ⟨hbranch, fun branch _ haccepts => ?_, ?_⟩
  · obtain ⟨origin, horigin, hplace⟩ := hlinked.below_or_beside haccepts
    obtain ⟨hscope, hcontainer⟩ := List.mem_filter.1 horigin
    exact ⟨origin, hscope, hcontainer, hplace⟩
  · rintro origin rfl
    obtain ⟨branch, hlist, haccepts⟩ := hbranch
    have hcontainer : [origin].filter t.view.isContainer = [origin] := by
      obtain ⟨other, hother, -⟩ := hlinked.below_or_beside haccepts
      obtain ⟨hother, hkind⟩ := List.mem_filter.1 hother
      rw [List.mem_singleton.1 hother] at hkind
      exact List.filter_cons_of_pos hkind
    rw [hcontainer] at haccepts
    constructor
    · intro habove
      refine ⟨branch, hlist, Bool.eq_false_iff.2 fun hbeside => ?_, haccepts⟩
      exact hlinked.not_above_of_accepts hbeside haccepts habove
    · rintro ⟨branch, -, hbeside, haccepts⟩
      obtain ⟨other, hother, habove⟩ := hlinked.above_of_accepts hbeside haccepts
      rwa [← List.mem_singleton.1 hother]

end Engine

/-- The nodes of a page with a heading and an anchor beside it, each with its parent. -/
def Tree.pageSteps : List (NodeId × NodeContent) :=
  [(0, .named "body"), (1, .named "h1"), (1, .element ⟨"a", [("name", "x")]⟩)]

/-- A page with a heading and an anchor beside it. -/
def Tree.page : Tree := (Tree.new.addAll? Tree.pageSteps).getD .new

theorem Tree.built_page : Tree.page.Built := Tree.Built.new.getD_addAll? Tree.pageSteps

/-- The selector `+ [name=x]`. -/
def Selector.anchorBeside : Selector :=
  ⟨[⟨some .nextSibling, false, none, [.attribute ⟨"name"⟩ .equals "x" false], none⟩]⟩

theorem Selector.read_anchorBeside :
    Selector.read .standard "+ [name=x]" = .ok [Selector.anchorBeside] := by
  with_unfolding_all rfl

namespace Engine

/-- The anchor beside the heading is where such a query may find a node. -/
theorem query_located_page :
    Tree.page.Built ∧ Selector.read .standard "+ [name=x]" = .ok [Selector.anchorBeside] ∧
      (∀ node ∈ [2], Tree.page.view.contains node = true) ∧
      ∃ found, ((Tree.page.engine .standard .manual .silent none).perform (.query "+ [name=x]" [2])
        (.start (.empty none) ())).1 = .ok (.nodes found) ∧
          ∀ node ∈ found, Located Tree.page .silent [Selector.anchorBeside] [2] node := by
  have hknown : ∀ node ∈ [2], Tree.page.view.contains node = true := by decide +kernel
  exact ⟨Tree.built_page, Selector.read_anchorBeside, hknown,
    query_located Tree.built_page Selector.read_anchorBeside hknown (.start none ())⟩

/-- The lookup of the attribute `name` serves the whole tree, so a query for an anchor beside the
heading finds one, which is not below the heading. -/
theorem query_leaves_page_heading :
    ((Tree.page.engine .standard .manual .silent none).perform (.query "+ [name=x]" [2])
      (.start (.empty none) ())).1.toOption.bind Answer.nodes? = some [3] ∧
        3 ∉ Tree.page.descendants 2 := by
  constructor <;> decide +kernel

end Engine
end TreeQuery
