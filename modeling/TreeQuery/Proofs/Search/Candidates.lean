import TreeQuery.Proofs.Search.Draws
import TreeQuery.Proofs.Match.Place
import TreeQuery.Proofs.Tree.Preorder

/-!
# Candidates are complete

A search tests candidates only, so it finds every match exactly if every match is a candidate. The
candidates come from one of several lookups, and the last id of the selector narrows the search before
any of them is asked. On a tree without a repeated id neither step loses a match below the scope.
-/

namespace TreeQuery

variable {σ α β : Type}

/-! ## Outcomes of a search -/

namespace Search

/-- In every state of the host and of the journal, the outcome of the search has a property. -/
def Ensures (search : Search σ α) (P : α → Prop) : Prop := ∀ activity, P (search activity).1

theorem ensures_pure {P : α → Prop} {x : α} (h : P x) : Ensures (σ := σ) (pure x) P := fun _ => h

theorem Ensures.bind {search : Search σ α} {next : α → Search σ β} {P : α → Prop} {Q : β → Prop}
    (h : Ensures search P) (hnext : ∀ x, P x → Ensures (next x) Q) : Ensures (search >>= next) Q :=
  fun activity => hnext _ (h activity) (search activity).2

theorem Ensures.mono {search : Search σ α} {P Q : α → Prop} (h : Ensures search P)
    (himp : ∀ x, P x → Q x) : Ensures search Q := fun activity => himp _ (h activity)

/-- Noting a lookup changes no outcome. -/
theorem ensures_note {lookup : Lookup} {next : Search σ β} {Q : β → Prop} (h : Ensures next Q) :
    Ensures (do Activity.note lookup; next) Q := fun _ => h _

end Search

/-! ## Lookups by a scan -/

namespace Tree

/-- No two elements have one id. -/
def UniqueIds (t : Tree) : Prop :=
  ∀ a b id, t.view.id a = some id → t.view.id b = some id → a = b

/-- The engine that searches a tree without indexes. -/
def engine (t : Tree) (registry : Registry) (profile : Profile) (host : Host)
    (evaluator : Option (Evaluator σ)) : Engine σ :=
  ⟨registry, profile, ⟨t.view, host⟩, t.view.scanLookups, evaluator⟩

variable {t : Tree} {scope root node : NodeId}

/-- A node with an id is in the tree. -/
theorem lt_size_of_id {id : String} (h : t.view.id node = some id) : node < t.size := by
  by_contra hge
  have hnone := get?_eq_none.2 (Nat.le_of_not_lt hge)
  simp [View.id, view, element?, hnone] at h

theorem uniqueIds_iff : t.UniqueIds ↔ ∀ a < t.size, ∀ b < t.size,
    (t.view.id a).isSome = true → t.view.id a = t.view.id b → a = b := by
  constructor
  · intro h a _ b _ ha hab
    obtain ⟨id, hid⟩ := Option.isSome_iff_exists.1 ha
    exact h a b id hid (hab.symm.trans hid)
  · intro h a b id ha hb
    exact h a (lt_size_of_id ha) b (lt_size_of_id hb) (by rw [ha]; rfl) (ha.trans hb.symm)

instance (t : Tree) : Decidable t.UniqueIds := decidable_of_iff' _ uniqueIds_iff

theorem element?_isSome_of_isElement (h : t.view.isElement node = true) :
    (t.element? node).isSome = true := by
  rw [View.isElement, beq_iff_eq] at h
  rw [element?]
  cases hget : t.get? node with
  | none => simp [view, hget] at h
  | some n =>
    obtain ⟨content, _, _, _, _⟩ := n
    cases content with
    | element => rfl
    | document | text | comment => simp [view, hget, NodeContent.kind] at h

namespace Linked

/-- The nodes that a scan below a scope picks. -/
theorem mem_filter_descendants (h : t.Linked) {P : NodeId → Bool} (habove : t.Above scope node)
    (hP : P node = true) : node ∈ (t.view.descendants scope).filter P :=
  List.mem_filter.2 ⟨h.mem_descendants.2 habove, hP⟩

/-- A scan for an id finds its only element. -/
theorem elementById_eq (h : t.Linked) (hids : t.UniqueIds) {id : String}
    (habove : t.Above root node) (helement : t.view.isElement node = true)
    (hid : t.view.id node = some id) : t.view.elementById root id = some node := by
  have hmem := h.mem_descendants.2 habove
  cases hfind : t.view.elementById root id with
  | none =>
    have hnot := List.find?_eq_none.1 hfind node hmem
    simp [helement, hid] at hnot
  | some other =>
    have hother := List.find?_some hfind
    rw [Bool.and_eq_true, beq_iff_eq] at hother
    rw [hids other node id hother.2 hid]

/-- The root of a node is above everything below the node. -/
theorem above_root_of_above (h : t.Linked) (habove : t.Above scope node) :
    t.Above (t.view.root scope) node :=
  Relation.TransGen.trans_right (h.atOrAbove_root scope) habove

/-- A scan for all elements finds every element. -/
theorem mem_elementsByTag_none (h : t.Linked) (habove : t.Above scope node)
    (helement : t.view.isElement node = true) : node ∈ t.view.elementsByTag scope none := by
  refine h.mem_filter_descendants habove ?_
  rw [view, Option.isSome_map]
  exact element?_isSome_of_isElement helement

end Linked
end Tree

/-! ## Narrowing -/

/-- The last id of a selector stands in the part at its position. -/
theorem Selector.lastId?_eq_some {selector : Selector} {position : Nat} {id : String}
    (h : selector.lastId? = some (position, id)) :
    ∃ part name, selector.parts[position]? = some part ∧ part.id? = some name ∧ name.value = id := by
  simp only [Selector.lastId?, Option.bind_eq_bind, Option.bind_eq_some_iff] at h
  obtain ⟨_, -, part, hpart, name, hname, heq⟩ := h
  obtain ⟨rfl, rfl⟩ := by simpa using heq
  exact ⟨part, name, hpart, hname, rfl⟩

namespace Engine

/-- Whether a node may still be found after narrowing. -/
def Narrowing.Keeps (t : Tree) (node : NodeId) : Narrowing → Prop
  | .nowhere => False
  | .only element => node = element
  | .below scope => t.Above scope node

variable {t : Tree} {registry : Registry} {profile : Profile} {host : Host}
  {evaluator : Option (Evaluator σ)} {selector : Selector} {scope node : NodeId}
  {origins : List NodeId}

/-- The beginning of a selector is satisfied by the node of its last part. -/
theorem accepts_take (h : t.Linked) {parts : List Part} {place : Nat → NodeId} {position : Nat}
    (hrow : t.Row host parts place) (hstart : t.StartsAt (some origins) parts (place 0))
    (hlt : position < parts.length) :
    Selector.accepts ⟨t.view, host⟩ (some origins) ⟨parts.take (position + 1)⟩ (place position) =
      true := by
  obtain ⟨part, rest, rfl⟩ := List.exists_cons_of_length_pos (Nat.zero_lt_of_lt hlt)
  refine (Selector.accepts_iff_row h _).2 ⟨place, hrow.take _, by simp, ?_, ?_⟩
  · rw [List.length_take, Nat.min_eq_left hlt, Nat.succ_sub_one]
  · rwa [List.take_succ_cons]

/-- The last node of a row is still found below the node of any part, or beside it if the next part
is a sibling. -/
theorem narrowTo_keeps (h : t.Linked) {parts : List Part} {place : Nat → NodeId} {position : Nat}
    (hrow : t.Row host parts place) (hstart : t.StartsAt (some origins) parts (place 0))
    (hlt : position < parts.length) :
    ((t.engine registry profile host evaluator).narrowTo ⟨parts⟩ origins position
      (some (place position))).Keeps t (place (parts.length - 1)) := by
  have hupto : Selector.accepts (t.engine registry profile host evaluator).scene (some origins)
      ⟨parts.take (position + 1)⟩ (place position) = true := accepts_take h hrow hstart hlt
  simp only [narrowTo, hupto, if_true]
  cases hnext : parts[position + 1]? with
  | none =>
    have hlast : parts.length - 1 = position := by
      have := List.getElem?_eq_none_iff.1 hnext
      omega
    rw [hlast]
    rfl
  | some next =>
    obtain ⟨hlt', -⟩ := List.getElem?_eq_some_iff.1 hnext
    have hrel := hrow.related position next hnext
    -- the rest of the row stays below whatever is above the node of the next part
    have hrest : ∀ {s}, t.Above s (place (position + 1)) → t.Above s (place (parts.length - 1)) :=
      fun hs => hrow.above_of_le h (by omega) (by omega) hs
    have hbelow : (next.combinator.getD .descendant).isBeside = false →
        t.Above (place position) (place (parts.length - 1)) :=
      fun hbeside => hrest (Tree.Linked.above_of_related hbeside hrel)
    have hbeside : (next.combinator.getD .descendant).isBeside = true →
        ∃ p, t.view.parent (place position) = some p ∧ t.Above p (place (parts.length - 1)) := by
      intro hbeside
      obtain ⟨p, hp, hp'⟩ := h.parent_of_before (Tree.Linked.before_of_related hbeside hrel)
      exact ⟨p, hp, hrest (.of_parent hp')⟩
    dsimp only
    split
    · next hlink =>
      obtain ⟨p, hp, habove⟩ := hbeside (by rw [hlink]; rfl)
      rw [show (t.engine registry profile host evaluator).scene.view.parent (place position) =
        some p from hp]
      exact habove
    · next hlink =>
      obtain ⟨p, hp, habove⟩ := hbeside (by rw [hlink]; rfl)
      rw [show (t.engine registry profile host evaluator).scene.view.parent (place position) =
        some p from hp]
      exact habove
    · next hnext hsubsequent =>
      refine hbelow ?_
      rw [next.isBeside_getD, Part.isBeside]
      cases hlink : next.combinator with
      | none => rfl
      | some link =>
        cases link with
        | descendant | child => rfl
        | nextSibling => exact absurd hlink hnext
        | subsequentSibling => exact absurd hlink hsubsequent

/-- Narrowing by the last id keeps every match below the scope. -/
theorem narrow_keeps (h : t.Linked) (hids : t.UniqueIds) (habove : t.Above scope node)
    (haccepts : selector.accepts ⟨t.view, host⟩ (some origins) node = true) :
    Search.Ensures ((t.engine registry profile host evaluator).narrow selector (t.view.root scope)
      scope origins) (·.Keeps t node) := by
  obtain ⟨parts⟩ := selector
  obtain ⟨place, hrow, hne, rfl, hstart⟩ := (Selector.accepts_iff_row h (some origins)).1 haccepts
  unfold narrow
  split
  · exact Search.ensures_pure habove
  · next position id hid =>
    refine Search.ensures_note (Search.ensures_pure ?_)
    obtain ⟨hdocument, hid⟩ := Option.ite_none_right_eq_some.1 hid
    obtain ⟨part, name, hpart, hname, rfl⟩ := Selector.lastId?_eq_some hid
    have hlt : position < parts.length := (List.getElem?_eq_some_iff.1 hpart).1
    have hdocument : t.view.kind (t.view.root scope) = .document := beq_iff_eq.1 hdocument
    have haccepted := hrow.accepted position part hpart
    -- the root is a document, so it is not the element of the part but lies above it
    have hroot : t.view.root (place position) = t.view.root scope :=
      (hrow.root_of_le h (by omega) (by omega)).trans (h.root_eq_of_above habove).symm
    have helement := Part.isElement_of_accepts haccepted
    have hfound : t.view.elementById (t.view.root scope) name.value = some (place position) := by
      refine h.elementById_eq hids ?_ helement (Part.id_of_accepts haccepted hname)
      rw [← hroot]
      refine h.above_root fun hkind => ?_
      have helement : t.view.kind (place position) = .element := beq_iff_eq.1 helement
      rw [hroot, hdocument, helement] at hkind
      cases hkind
    rw [show (t.engine registry profile host evaluator).lookups.elementById (t.view.root scope)
      name.value = some (place position) from hfound]
    exact narrowTo_keeps h hrow hstart hlt

/-! ## Lists of candidates -/

variable {part : Part} {getter : PseudoClause} {inList : NodeId → Search σ (List NodeId)}

/-- The candidates that a pseudo-class lists are what the search of its selector list finds, or they do
not depend on this search and are all elements below the scope or at most one node. -/
theorem listByPseudo_cases (e : Engine σ) (getter : PseudoClause) (root scope : NodeId) :
    (∃ list, getter.pseudo = .matchesAny ∧ getter.argument = .nested list ∧
      (∀ inner ∈ list, inner.hasLeadingCombinator = false) ∧ e.scene.view.kind root = .document ∧
      ∀ inList, e.listByPseudo getter root scope inList = inList root) ∨
    ∃ listed, (listed = e.lookups.elementsByTag scope none ∨ ∃ found : Option NodeId,
      listed = found.toList) ∧
      ∀ inList, Search.Ensures (e.listByPseudo getter root scope inList) (· = listed) := by
  rcases listByPseudo_draws e getter root scope with
    ⟨listed, lookups, hlisted, h⟩ | ⟨list, hpseudo, harg, hlead, hroot, h⟩
  · exact .inr ⟨listed, hlisted, fun inList a => congrArg Prod.fst (h e.evaluator inList a)⟩
  · exact .inl ⟨list, hpseudo, harg, hlead, hroot, h e.evaluator⟩

/-- A match is among the candidates that a pseudo-class of its part lists, if the search of a selector
list without leading combinators below a document is complete. -/
theorem mem_listByPseudo (h : t.Linked) (hids : t.UniqueIds) (habove : t.Above scope node)
    (helement : t.view.isElement node = true)
    (hsatisfies : Scene.satisfies ⟨t.view, host⟩ getter.pseudo getter.argument
      (getter.argument.inList? ⟨t.view, host⟩) node = true)
    (hlist : ∀ list, getter.argument = .nested list →
      (∀ inner ∈ list, inner.hasLeadingCombinator = false) →
      t.view.kind (t.view.root scope) = .document →
      Selector.anyAccepts ⟨t.view, host⟩ none list node = true →
        Search.Ensures (inList (t.view.root scope)) (node ∈ ·)) :
    Search.Ensures ((t.engine registry profile host evaluator).listByPseudo getter
      (t.view.root scope) scope inList) (node ∈ ·) := by
  have hroot : t.view.root node = t.view.root scope := (h.root_eq_of_above habove).symm
  have hall : Search.Ensures ((t.engine registry profile host evaluator).listByTag scope none)
      (node ∈ ·) :=
    Search.ensures_note (Search.ensures_pure (h.mem_elementsByTag_none habove helement))
  obtain ⟨pseudo, hasGetter, written, argument⟩ := getter
  unfold listByPseudo
  cases pseudo with
  | focus =>
    refine Search.ensures_pure (Option.mem_toList.2 ?_)
    rw [← hroot]
    exact beq_iff_eq.1 hsatisfies
  | target =>
    obtain ⟨fragment, hfragment, hid⟩ := (Option.any_eq_true _ _).1 hsatisfies
    have hfound := h.elementById_eq hids (h.above_root_of_above habove) helement (beq_iff_eq.1 hid)
    rw [show (t.engine registry profile host evaluator).scene.host.namedFragment = some fragment
      from hfragment]
    exact Search.ensures_note (Search.ensures_pure (Option.mem_toList.2 hfound))
  | root =>
    refine Search.ensures_pure (Option.mem_toList.2 ?_)
    rw [← hroot]
    exact beq_iff_eq.1 hsatisfies
  | matchesAny =>
    cases argument with
    | nested list =>
      dsimp only [Argument.nested?]
      split
      · next hcond =>
        rw [Bool.and_eq_true, Bool.not_eq_true', List.any_eq_false] at hcond
        refine hlist list rfl (fun inner hmem => ?_) (beq_iff_eq.1 hcond.1) ?_
        · exact Bool.eq_false_iff.2 (hcond.2 inner hmem)
        · exact hsatisfies
      · exact hall
    | _ => exact hall
  | _ => exact hall

/-- A match is among the candidates for the last part. -/
theorem mem_listForPart (h : t.Linked) (hids : t.UniqueIds) (habove : t.Above scope node)
    (haccepts : part.accepts ⟨t.view, host⟩ node = true)
    (hlist : ∀ getter list, part.getter? profile = some getter → getter.argument = .nested list →
      (∀ inner ∈ list, inner.hasLeadingCombinator = false) →
      t.view.kind (t.view.root scope) = .document →
      Selector.anyAccepts ⟨t.view, host⟩ none list node = true →
        Search.Ensures (inList (t.view.root scope)) (node ∈ ·)) :
    Search.Ensures ((t.engine registry profile host evaluator).listForPart part
      (t.view.root scope) scope inList) (node ∈ ·) := by
  have helement : t.view.isElement node = true := Part.isElement_of_accepts haccepts
  unfold listForPart
  split
  · next getter hgetter =>
    have hmem : getter ∈ part.pseudos := (List.mem_filter.1 (List.mem_of_getLast? hgetter)).1
    exact mem_listByPseudo h hids habove helement (Part.satisfies_of_accepts haccepts hmem)
      fun list => hlist getter list hgetter
  · split
    · refine Search.ensures_note (Search.ensures_pure (h.mem_filter_descendants habove ?_))
      rw [helement, Bool.true_and, List.all_map, List.all_eq_true]
      exact fun name hmem => Part.hasClass_of_accepts haccepts hmem
    · split
      · next name hname =>
        refine Search.ensures_note (Search.ensures_pure (h.mem_filter_descendants
          (h.above_root_of_above habove) ?_))
        rw [helement, Bool.true_and, beq_iff_eq]
        exact Part.attr_name_of_accepts haccepts hname
      · have hlisted : node ∈ t.view.elementsByTag scope (part.tag.map (·.value)) := by
          cases htag : part.tag with
          | none => exact h.mem_elementsByTag_none habove helement
          | some name => exact h.mem_filter_descendants habove (Part.hasTag_of_accepts haccepts htag)
        refine Search.Ensures.bind (P := (node ∈ ·))
          (Search.ensures_note (Search.ensures_pure hlisted)) fun listed hmem => ?_
        split
        · exact Search.ensures_pure (List.mem_filter.2 ⟨hmem, helement⟩)
        · exact Search.ensures_pure hmem

/-- Every match below the scope is a candidate. -/
theorem mem_candidates (h : t.Linked) (hids : t.UniqueIds) (habove : t.Above scope node)
    (haccepts : selector.accepts ⟨t.view, host⟩ (some origins) node = true)
    (hlist : ∀ part getter list, selector.lastPart? = some part → part.getter? profile = some getter →
      getter.argument = .nested list → (∀ inner ∈ list, inner.hasLeadingCombinator = false) →
      t.view.kind (t.view.root scope) = .document →
      Selector.anyAccepts ⟨t.view, host⟩ none list node = true →
        Search.Ensures (inList (t.view.root scope)) (node ∈ ·)) :
    Search.Ensures ((t.engine registry profile host evaluator).candidates selector scope origins
      inList) (node ∈ ·) := by
  obtain ⟨parts⟩ := selector
  obtain ⟨place, hrow, hne, rfl, -⟩ := (Selector.accepts_iff_row h (some origins)).1 haccepts
  unfold candidates
  split
  · next hlast => exact absurd (List.getLast?_eq_none_iff.1 hlast) hne
  · next part hlast =>
    have hpart : parts[parts.length - 1]? = some part := by
      rw [← List.getLast?_eq_getElem?]
      exact hlast
    refine (narrow_keeps h hids habove haccepts).bind fun narrowing hkeeps => ?_
    cases narrowing with
    | nowhere => exact hkeeps.elim
    | only element => exact Search.ensures_pure (List.mem_singleton.2 hkeeps)
    | below inner =>
      have hbelow : t.Above inner (place (parts.length - 1)) := hkeeps
      have hroot : t.view.root scope = t.view.root inner :=
        (h.root_eq_of_above habove).trans (h.root_eq_of_above hbelow).symm
      rw [show (t.engine registry profile host evaluator).scene.view.root scope =
        t.view.root inner from hroot]
      refine mem_listForPart h hids hbelow (hrow.accepted _ part hpart) fun getter list hgetter => ?_
      rw [← hroot]
      exact hlist part getter list hlast hgetter

end Engine
end TreeQuery
