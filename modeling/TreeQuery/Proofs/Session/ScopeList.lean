import TreeQuery.Proofs.Search.Agreement
import TreeQuery.Proofs.Session.Query

/-!
# Scopes of several nodes

A query with one node in its scope searches below this node. With several, it searches below the root of
the first one and asks of each match that it starts below one of them. In one tree this gives the union
of the queries for each node. A scope whose nodes are in several trees is searched in the first of them
only, so the order of the nodes counts.
-/

namespace TreeQuery

variable {σ : Type} {t : Tree} {registry : Registry} {profile : Profile} {host : Host}
  {s : Session σ} {text : String} {selector : Selector} {list : List Selector}
  {origins scope : List NodeId} {node : NodeId}

/-! ## Several origins -/

/-- A node is matched relative to a list of origins if it is matched relative to one of them. -/
theorem Selector.accepts_origins_iff (h : t.Linked) (selector : Selector) :
    selector.accepts ⟨t.view, host⟩ (some origins) node = true ↔
      ∃ origin ∈ origins, selector.accepts ⟨t.view, host⟩ (some [origin]) node = true := by
  obtain ⟨parts⟩ := selector
  constructor
  · intro haccepts
    obtain ⟨place, hrow, hne, hlast, hstart⟩ := (Selector.accepts_iff_row h _).1 haccepts
    obtain ⟨origin, hmem, hrelated⟩ := hstart origins rfl
    refine ⟨origin, hmem, (Selector.accepts_iff_row h _).2 ⟨place, hrow, hne, hlast, ?_⟩⟩
    rintro single ⟨⟩
    exact ⟨origin, List.mem_singleton_self origin, hrelated⟩
  · rintro ⟨origin, hmem, haccepts⟩
    obtain ⟨place, hrow, hne, hlast, hstart⟩ := (Selector.accepts_iff_row h _).1 haccepts
    obtain ⟨other, hother, hrelated⟩ := hstart [origin] rfl
    obtain rfl := List.mem_singleton.1 hother
    refine (Selector.accepts_iff_row h _).2 ⟨place, hrow, hne, hlast, ?_⟩
    rintro all ⟨⟩
    exact ⟨other, hmem, hrelated⟩

theorem Selector.anyAccepts_origins_iff (h : t.Linked) (list : List Selector) :
    Selector.anyAccepts ⟨t.view, host⟩ (some origins) list node = true ↔
      ∃ origin ∈ origins, Selector.anyAccepts ⟨t.view, host⟩ (some [origin]) list node = true := by
  simp only [Selector.anyAccepts_eq_any, List.any_eq_true]
  constructor
  · rintro ⟨selector, hselector, haccepts⟩
    obtain ⟨origin, horigin, haccepts⟩ := (selector.accepts_origins_iff h).1 haccepts
    exact ⟨origin, horigin, selector, hselector, haccepts⟩
  · rintro ⟨origin, horigin, selector, hselector, haccepts⟩
    exact ⟨selector, hselector, (selector.accepts_origins_iff h).2 ⟨origin, horigin, haccepts⟩⟩

/-! ## Scopes in one tree -/

namespace Engine

/-- Without an evaluator, a search from several nodes of one tree returns every match below one of
them. -/
theorem select_complete_of_root (serial : Nat) (h : t.Linked) (hids : t.UniqueIds)
    (hroot : ∀ a ∈ scope, ∀ b ∈ scope, t.view.root a = t.view.root b)
    (hbeside : ∀ selector ∈ list, selector.startsBeside = false)
    (haccepts : Selector.anyAccepts ⟨t.view, host⟩ (some (scope.filter t.view.isContainer)) list node =
      true) :
    Search.Ensures ((t.engine registry profile host none : Engine σ).select serial list scope)
      (node ∈ ·) := by
  rw [Selector.anyAccepts_eq_any, List.any_eq_true] at haccepts
  obtain ⟨selector, hmem, haccepts⟩ := haccepts
  obtain ⟨origin, horigin, habove⟩ := h.above_of_accepts (hbeside selector hmem) haccepts
  have horigins : (t.engine registry profile host none : Engine σ).origins scope =
      scope.filter t.view.isContainer := rfl
  unfold Engine.select
  rw [horigins]
  split
  · next hnil =>
    rw [hnil] at horigin
    cases horigin
  · next first rest hcons =>
    have hstart : t.Above (if rest.isEmpty then first else t.view.root first) node := by
      have hscope : ∀ other ∈ first :: rest, other ∈ scope := by
        rw [← hcons]
        exact fun other hother => (List.mem_filter.1 hother).1
      rw [hcons] at horigin
      cases rest with
      | nil => rwa [List.mem_singleton.1 horigin] at habove
      | cons second rest =>
        rw [List.isEmpty_cons, if_neg Bool.false_ne_true,
          hroot first (hscope first List.mem_cons_self) origin (hscope origin horigin)]
        exact h.above_root_of_above habove
    rw [hcons] at haccepts
    refine (Selector.searchEach_complete _ 0 hmem fun key => ?_).bind fun found hfound =>
      Search.ensures_pure (List.mem_eraseDups.2 hfound)
    exact Selector.search_complete h hids (hostComplete_of_none rfl t selector _ _)
      (fun inner _ root => hostComplete_of_none rfl t inner root [root]) hstart haccepts key

/-- Without an evaluator, a query with a scope in one tree finds the nodes that match relative to the
elements and documents of the scope, each once. -/
theorem Reached.query_mem_iff_of_root (hs : (t.engine registry profile host none).Reached s)
    (ht : t.Linked) (hids : t.UniqueIds) (hread : Selector.read ⟨registry, profile⟩ text = .ok list)
    (hbeside : ∀ selector ∈ list, selector.startsBeside = false)
    (hknown : ∀ node ∈ scope, t.view.contains node = true)
    (hroot : ∀ a ∈ scope, ∀ b ∈ scope, t.view.root a = t.view.root b) :
    ∃ found, ((t.engine registry profile host none).perform (.query text scope) s).1 =
      .ok (.nodes found) ∧ found.Nodup ∧ ∀ node, node ∈ found ↔
        Selector.anyAccepts ⟨t.view, host⟩ (some (scope.filter t.view.isContainer)) list node = true := by
  obtain ⟨serial, hquery⟩ := hs.perform_query hknown hread
  have hhost : ∀ start, (t.engine registry profile host none : Engine σ).origins scope = [start] →
      ∀ selector ∈ list, (t.engine registry profile host none : Engine σ).HostSound selector start
        [start] := fun start _ selector _ => hostSound_of_none rfl selector start [start]
  have hfound := select_sound serial hhost s.activity
  refine ⟨_, hquery, hfound.1, fun node => ⟨fun hmem => ?_, fun haccepts => ?_⟩⟩
  · rw [Selector.anyAccepts_eq_any, List.any_eq_true]
    exact hfound.2 node hmem
  · exact select_complete_of_root serial ht hids hroot hbeside haccepts s.activity

/-- Without an evaluator, a query with a scope in one tree finds what the queries for each node of the
scope find, in whatever sessions they are asked. -/
theorem query_scope_union {s' : NodeId → Session σ} (ht : t.Built) (hids : t.UniqueIds)
    (hread : Selector.read ⟨registry, profile⟩ text = .ok list)
    (hbeside : ∀ selector ∈ list, selector.startsBeside = false)
    (hknown : ∀ node ∈ scope, t.view.contains node = true)
    (hroot : ∀ a ∈ scope, ∀ b ∈ scope, t.view.root a = t.view.root b)
    (hs : (t.engine registry profile host none).Reached s)
    (hs' : ∀ start, (t.engine registry profile host none).Reached (s' start)) :
    ∃ (found : List NodeId) (below : NodeId → List NodeId),
      ((t.engine registry profile host none).perform (.query text scope) s).1 = .ok (.nodes found) ∧
      (∀ start ∈ scope, ((t.engine registry profile host none).perform (.query text [start])
        (s' start)).1 = .ok (.nodes (below start))) ∧
      found.Nodup ∧ ∀ node, node ∈ found ↔ ∃ start ∈ scope, node ∈ below start := by
  have hlinked := ht.linked
  obtain ⟨found, hquery, hnodup, hmem⟩ :=
    hs.query_mem_iff_of_root hlinked hids hread hbeside hknown hroot
  have hbelow : ∀ start, ∃ below, start ∈ scope →
      ((t.engine registry profile host none).perform (.query text [start]) (s' start)).1 =
        .ok (.nodes below) ∧ ∀ node, node ∈ below ↔ Selector.anyAccepts ⟨t.view, host⟩
          (some ([start].filter t.view.isContainer)) list node = true := by
    intro start
    by_cases hstart : start ∈ scope
    · have hone : ∀ a ∈ [start], a ∈ scope := by
        intro a ha
        rwa [List.mem_singleton.1 ha]
      obtain ⟨below, hsingle, -, hiff⟩ := (hs' start).query_mem_iff_of_root hlinked hids hread hbeside
        (fun a ha => hknown a (hone a ha)) (fun a ha b hb => hroot a (hone a ha) b (hone b hb))
      exact ⟨below, fun _ => ⟨hsingle, hiff⟩⟩
    · exact ⟨[], fun h => absurd h hstart⟩
  choose below hbelow using hbelow
  refine ⟨found, below, hquery, fun start hstart => (hbelow start hstart).1, hnodup, fun node => ?_⟩
  rw [hmem, Selector.anyAccepts_origins_iff hlinked]
  constructor
  · rintro ⟨origin, horigin, haccepts⟩
    obtain ⟨hstart, hcontainer⟩ := List.mem_filter.1 horigin
    refine ⟨origin, hstart, ((hbelow origin hstart).2 node).2 ?_⟩
    rwa [List.filter_cons_of_pos hcontainer]
  · rintro ⟨start, hstart, hnode⟩
    obtain ⟨origin, horigin, haccepts⟩ := (Selector.anyAccepts_origins_iff hlinked list).1
      (((hbelow start hstart).2 node).1 hnode)
    obtain ⟨hone, hcontainer⟩ := List.mem_filter.1 horigin
    obtain rfl := List.mem_singleton.1 hone
    exact ⟨origin, List.mem_filter.2 ⟨hstart, hcontainer⟩, haccepts⟩

/-- The second item of a list is found below the document, and a scope that also has the list, the text
in it and the document once more finds nothing else. -/
theorem query_scope_union_listOfTwo :
    Tree.listOfTwo.Built ∧ Tree.listOfTwo.UniqueIds ∧
      Selector.read .standard "#top > li + li" = .ok [Selector.secondItem] ∧
      Selector.secondItem.startsBeside = false ∧
      (∀ node ∈ [1, 0, 3, 0], Tree.listOfTwo.view.contains node = true) ∧
      (∀ a ∈ [1, 0, 3, 0], ∀ b ∈ [1, 0, 3, 0],
        Tree.listOfTwo.view.root a = Tree.listOfTwo.view.root b) ∧
      ∃ (found : List NodeId) (below : NodeId → List NodeId),
        ((Tree.listOfTwo.engine .standard .manual .silent none).perform
          (.query "#top > li + li" [1, 0, 3, 0]) (.start (.empty none) ())).1 = .ok (.nodes found) ∧
        (∀ start ∈ [1, 0, 3, 0], ((Tree.listOfTwo.engine .standard .manual .silent none).perform
          (.query "#top > li + li" [start]) (.start (.empty none) ())).1 = .ok (.nodes (below start))) ∧
        found.Nodup ∧ ∀ node, node ∈ found ↔ ∃ start ∈ [1, 0, 3, 0], node ∈ below start := by
  have hids : Tree.listOfTwo.UniqueIds := by decide +kernel
  have hread : Selector.read .standard "#top > li + li" = .ok [Selector.secondItem] := by
    with_unfolding_all rfl
  have hbeside : Selector.secondItem.startsBeside = false := rfl
  have hknown : ∀ node ∈ [1, 0, 3, 0], Tree.listOfTwo.view.contains node = true := by decide +kernel
  have hroot : ∀ a ∈ [1, 0, 3, 0], ∀ b ∈ [1, 0, 3, 0],
      Tree.listOfTwo.view.root a = Tree.listOfTwo.view.root b := by decide +kernel
  have hstart := Reached.start (e := Tree.listOfTwo.engine .standard .manual .silent none) none ()
  refine ⟨Tree.built_listOfTwo, hids, hread, hbeside, hknown, hroot, ?_⟩
  refine query_scope_union Tree.built_listOfTwo hids hread (fun selector hmem => ?_) hknown hroot hstart
    fun _ => hstart
  rwa [List.mem_singleton.1 hmem]

/-! ## Scopes in several trees -/

/-- Without an evaluator, a query returns the same nodes in the same order for all orders of its scope
that have their first element or document in the same tree, in whatever sessions it is asked. -/
theorem query_scope_perm {e : Engine σ} {s' : Session σ} {scope' : List NodeId}
    (hevaluator : e.evaluator = none) (hread : Selector.read e.parser text = .ok list)
    (hperm : scope.Perm scope') (hknown : ∀ node ∈ scope, e.scene.view.contains node = true)
    (hroot : (e.origins scope).head?.map e.scene.view.root =
      (e.origins scope').head?.map e.scene.view.root)
    (hs : e.Reached s) (hs' : e.Reached s') :
    ∃ found, (e.perform (.query text scope) s).1 = .ok (.nodes found) ∧
      (e.perform (.query text scope') s').1 = .ok (.nodes found) := by
  have hknown' : ∀ node ∈ scope', e.scene.view.contains node = true :=
    fun node hmem => hknown node (hperm.mem_iff.2 hmem)
  obtain ⟨serial, hquery⟩ := hs.perform_query hknown hread
  obtain ⟨serial', hquery'⟩ := hs'.perform_query hknown' hread
  refine ⟨_, hquery, ?_⟩
  rw [hquery', select_agrees hevaluator serial serial' list hperm hroot s.activity s'.activity]

end Engine

/-- A document with a paragraph, and a division without a parent that also has one. -/
def Tree.apart : Tree :=
  ((((Tree.new.addAll? [(0, .named "p")]).getD .new).add (.named "div")).addAll?
    [(2, .named "p")]).getD .new

theorem Tree.built_apart : Tree.apart.Built :=
  ((Tree.Built.new.getD_addAll? _).add _).getD_addAll? _

theorem Selector.read_paragraph : Selector.read .standard "p" = .ok [Selector.named "p"] := by
  with_unfolding_all rfl

namespace Engine

/-- With the document or its paragraph first, a query finds nothing of the division. -/
theorem query_scope_perm_apart :
    (Tree.apart.engine .standard .manual .silent (none : Option (Evaluator Unit))).evaluator = none ∧
      Selector.read .standard "p" = .ok [Selector.named "p"] ∧ [0, 2, 1].Perm [1, 0, 2] ∧
      (∀ node ∈ [0, 2, 1], Tree.apart.view.contains node = true) ∧
      ([0, 2, 1].filter Tree.apart.view.isContainer).head?.map Tree.apart.view.root =
        ([1, 0, 2].filter Tree.apart.view.isContainer).head?.map Tree.apart.view.root ∧
      ∃ found, ((Tree.apart.engine .standard .manual .silent none).perform (.query "p" [0, 2, 1])
          (.start (.empty none) ())).1 = .ok (.nodes found) ∧
        ((Tree.apart.engine .standard .manual .silent none).perform (.query "p" [1, 0, 2])
          (.start (.empty none) ())).1 = .ok (.nodes found) := by
  have hperm : [0, 2, 1].Perm [1, 0, 2] := by decide
  have hknown : ∀ node ∈ [0, 2, 1], Tree.apart.view.contains node = true := by decide +kernel
  have hroot : ([0, 2, 1].filter Tree.apart.view.isContainer).head?.map Tree.apart.view.root =
      ([1, 0, 2].filter Tree.apart.view.isContainer).head?.map Tree.apart.view.root := by
    decide +kernel
  exact ⟨rfl, Selector.read_paragraph, hperm, hknown, hroot,
    query_scope_perm rfl Selector.read_paragraph hperm hknown hroot (.start none ()) (.start none ())⟩

/-- A query looks for paragraphs in the tree of the first node of its scope only. -/
theorem query_scope_order_counts :
    Tree.apart.Built ∧ Tree.apart.UniqueIds ∧ [0, 2].Perm [2, 0] ∧
      Selector.read .standard "p" = .ok [Selector.named "p"] ∧
      (Selector.named "p").startsBeside = false ∧
      ((Tree.apart.engine .standard .manual .silent none).perform (.query "p" [0, 2])
        (.start (.empty none) ())).1.toOption.bind Answer.nodes? = some [1] ∧
      ((Tree.apart.engine .standard .manual .silent none).perform (.query "p" [2, 0])
        (.start (.empty none) ())).1.toOption.bind Answer.nodes? = some [3] := by
  refine ⟨Tree.built_apart, ?_, by decide, Selector.read_paragraph, rfl, ?_, ?_⟩ <;> decide +kernel

end Engine
end TreeQuery
