import TreeQuery.Proofs.Match.Position

/-!
# First positions

That an element is the first one to count is said in two ways. The short pseudo-classes look from the
element along its siblings and want to find none that counts. The formula `1` counts from the end of the
children and wants to meet the element first. On a built tree the two agree for an element with a parent,
whatever counts (`Tree.Linked.isAt_one`). An element without a parent has no siblings and no position, so
there the short pseudo-classes hold and their forms with a formula do not.
-/

namespace TreeQuery

/-- The formula `1`, which selects the first position. -/
def Formula.one : Formula := ⟨0, 1⟩

theorem Formula.read?_one : Formula.read? "1".toList = some .one := by decide

/-- The pseudo-classes that say the same as a short one when they have the formula `1`; all of them must
hold. -/
def PseudoClass.nthForms : PseudoClass → List PseudoClass
  | firstChild => [nthChild]
  | lastChild => [nthLastChild]
  | onlyChild => [nthChild, nthLastChild]
  | firstOfType => [nthOfType]
  | lastOfType => [nthLastOfType]
  | onlyOfType => [nthOfType, nthLastOfType]
  | firstMatch => [nthMatch]
  | lastMatch => [nthLastMatch]
  | onlyMatch => [nthMatch, nthLastMatch]
  | _ => []

/-- The direction in which the nodes stand that counting passes. -/
def Direction.reverse : Direction → Direction
  | .forward => .backward
  | .backward => .forward

/-! ## The formula `1` -/

theorem Formula.selects_one (position : Int32) : Formula.one.selects position = (position == 1) := by
  have hselects : Formula.one.selects position = (position.toInt64 - Int32.toInt64 1 == 0) := rfl
  rw [hselects, Bool.eq_iff_iff, beq_iff_eq, beq_iff_eq, Int64.sub_eq_iff_eq_add, Int64.zero_add,
    ← Int64.toInt_inj, Int32.toInt_toInt64, Int32.toInt_toInt64, Int32.toInt_inj]

/-- Only the first index has the position 1, also where positions do not count on. -/
theorem View.position_eq_one {index : Nat} : View.position index = 1 ↔ index = 0 := by
  have hlt : min (index + 1) (Text.int32Bound - 1) < 2 ^ 31 :=
    Nat.lt_of_le_of_lt (Nat.min_le_right _ _) (by decide)
  rw [View.position, ← Int32.toInt_inj, Int32.toInt_ofNat_of_lt hlt, Int32.toInt_one,
    show Text.int32Bound - 1 = 2147483647 from rfl]
  omega

variable {t : Tree} {parent node : NodeId} {before after : List NodeId} {counts : NodeId → Bool}

namespace Tree.Linked

/-! ## Looking along the siblings -/

/-- The siblings on the side that counting comes from are those that it passes. -/
theorem any_beside_reverse (h : t.Linked) (direction : Direction)
    (hc : t.children parent = before ++ node :: after) :
    (t.view.beside node direction.reverse).any counts =
      (direction.passed before after).any fun other => t.view.isElement other && counts other := by
  cases direction with
  | forward =>
    rw [Direction.reverse, View.beside, h.elementsBefore_eq hc, List.any_filter, List.any_reverse]
    rfl
  | backward =>
    rw [Direction.reverse, View.beside, h.elementsAfter_eq hc, List.any_filter]
    rfl

/-- The position of an element with a parent that counts. -/
theorem isAt_eq_selects (h : t.Linked) (f : Formula) (direction : Direction)
    (hc : t.children parent = before ++ node :: after) (helement : t.view.isElement node = true)
    (hcounts : counts node = true) :
    t.view.isAt f direction counts node =
      f.selects (View.position ((direction.passed before after).filter fun other =>
        t.view.isElement other && counts other).length) := by
  have hparent : t.view.parent node = some parent := h.mem_children.1 (by rw [hc]; simp)
  rw [View.isAt, hparent, Option.any_some, h.idxOf?_counted direction hc, helement, hcounts]
  rfl

/-- An element with a parent that counts is at the first position exactly if no sibling counts on the side
that counting comes from. -/
theorem isAt_one (h : t.Linked) (direction : Direction) (hparent : t.parent node = some parent)
    (helement : t.view.isElement node = true) (hcounts : counts node = true) :
    t.view.isAt .one direction counts node = !(t.view.beside node direction.reverse).any counts := by
  obtain ⟨before, after, hc⟩ := List.append_of_mem (h.mem_children.2 hparent)
  rw [h.isAt_eq_selects .one direction hc helement hcounts, Formula.selects_one,
    h.any_beside_reverse direction hc, Bool.eq_iff_iff, beq_iff_eq, View.position_eq_one,
    List.length_eq_zero_iff, List.filter_eq_nil_iff, Bool.not_eq_true', List.any_eq_false]

end Tree.Linked

/-- A node without a parent is at no position. -/
theorem View.isAt_of_root {v : View} (hparent : v.parent node = none) (f : Formula) (direction : Direction)
    (counts : NodeId → Bool) : v.isAt f direction counts node = false := by
  rw [isAt, hparent]
  rfl

/-! ## The short pseudo-classes -/

/-- An element is of its own type. -/
theorem Tree.sameType_self (helement : t.view.isElement node = true) :
    t.view.sameType node node = true := by
  obtain ⟨name, hname⟩ : ∃ name, t.view.tag node = some name := by
    rw [View.isElement, beq_iff_eq] at helement
    simp only [view] at helement ⊢
    rw [element?]
    cases hget : t.get? node with
    | none => simp [hget] at helement
    | some n =>
      obtain ⟨content, _, _, _, _⟩ := n
      cases content with
      | element e => exact ⟨e.tag, rfl⟩
      | document | text | comment => simp [hget, NodeContent.kind] at helement
  simp [View.sameType, View.hasTag, hname, Text.sameLetters]

/-- There is a nearest element exactly if there is any at all. -/
theorem List.isNone_head?_eq (nodes : List NodeId) :
    nodes.head?.isNone = !nodes.any fun _ => true := by
  cases nodes <;> simp

theorem View.isNone_prevElementSibling (v : View) (node : NodeId) :
    (v.prevElementSibling node).isNone = !(v.beside node .backward).any fun _ => true :=
  List.isNone_head?_eq _

theorem View.isNone_nextElementSibling (v : View) (node : NodeId) :
    (v.nextElementSibling node).isNone = !(v.beside node .forward).any fun _ => true :=
  List.isNone_head?_eq _

/-- Of an element with a parent, a short pseudo-class says that its forms with the formula `1` hold. -/
theorem Tree.Linked.satisfies_short (h : t.Linked) (host : Host) {pseudo : PseudoClass}
    (hforms : pseudo.nthForms ≠ []) (hown : pseudo.isRelative = false)
    (helement : t.view.isElement node = true) (hparent : t.parent node = some parent)
    (argument : Argument) (inList? : Option (NodeId → Bool)) :
    Scene.satisfies ⟨t.view, host⟩ pseudo argument inList? node =
      pseudo.nthForms.all fun nth =>
        Scene.satisfies ⟨t.view, host⟩ nth (.formula .one) inList? node := by
  have hall (direction : Direction) : t.view.isAt .one direction (fun _ => true) node =
      !(t.view.beside node direction.reverse).any fun _ => true :=
    h.isAt_one direction hparent helement rfl
  have htype (direction : Direction) :=
    h.isAt_one direction hparent helement (Tree.sameType_self helement)
  cases pseudo <;> try first | exact absurd rfl hforms | cases hown
  all_goals
    simp only [PseudoClass.nthForms, List.all_cons, List.all_nil, Bool.and_true, Scene.satisfies,
      Argument.formula?, Option.any_some, hall, htype, Direction.reverse,
      View.isNone_prevElementSibling, View.isNone_nextElementSibling]

/-- The pseudo-classes with a formula that look at all siblings or at those of the same type. -/
def PseudoClass.positional : List PseudoClass := [nthChild, nthLastChild, nthOfType, nthLastOfType]

theorem PseudoClass.mem_positional {pseudo nth : PseudoClass} (hown : pseudo.isRelative = false)
    (hnth : nth ∈ pseudo.nthForms) : nth ∈ positional := by
  have hall : ∀ pseudo ∈ all, pseudo.isRelative = false → ∀ nth ∈ pseudo.nthForms, nth ∈ positional := by
    decide
  exact hall pseudo (mem_all pseudo) hown nth hnth

/-- Of a node without a parent, no form with a formula holds. -/
theorem Scene.satisfies_positional_of_root {sc : Scene} (hparent : sc.view.parent node = none)
    {nth : PseudoClass} (hnth : nth ∈ PseudoClass.positional) (argument : Argument)
    (inList? : Option (NodeId → Bool)) : sc.satisfies nth argument inList? node = false := by
  have hnever (direction : Direction) (counts : NodeId → Bool) :
      (argument.formula?.any fun f => sc.view.isAt f direction counts node) = false := by
    simp only [View.isAt_of_root hparent]
    cases argument.formula? <;> rfl
  simp only [PseudoClass.positional, List.mem_cons, List.not_mem_nil, or_false] at hnth
  rcases hnth with rfl | rfl | rfl | rfl
  all_goals exact hnever _ _

/-- On a built tree, each short pseudo-class about the place of an element among its siblings says, of an
element with a parent, that its forms with the formula `1` hold. Of an element without a parent none of
these forms holds, whatever the formula. -/
theorem satisfies_iff_nthForms (ht : t.Built) (host : Host) {pseudo : PseudoClass}
    (hforms : pseudo.nthForms ≠ []) (hown : pseudo.isRelative = false)
    (helement : t.view.isElement node = true) (argument : Argument)
    (inList? : Option (NodeId → Bool)) :
    (t.parent node ≠ none →
      (Scene.satisfies ⟨t.view, host⟩ pseudo argument inList? node = true ↔
        ∀ nth ∈ pseudo.nthForms,
          Scene.satisfies ⟨t.view, host⟩ nth (.formula .one) inList? node = true)) ∧
      (t.parent node = none → ∀ nth ∈ pseudo.nthForms,
        Scene.satisfies ⟨t.view, host⟩ nth argument inList? node = false) := by
  constructor
  · intro hne
    obtain ⟨parent, hparent⟩ := Option.ne_none_iff_exists'.1 hne
    rw [ht.linked.satisfies_short host hforms hown helement hparent, List.all_eq_true]
  · intro hroot nth hnth
    exact Scene.satisfies_positional_of_root hroot (PseudoClass.mem_positional hown hnth) argument inList?

/-- The last item of a list of two is the last item from the end, and the text between the items does not
count. -/
theorem satisfies_iff_nthForms_listOfTwo :
    Tree.listOfTwo.Built ∧ PseudoClass.lastOfType.nthForms ≠ [] ∧
      PseudoClass.lastOfType.isRelative = false ∧ Tree.listOfTwo.view.isElement 4 = true ∧
        Tree.listOfTwo.parent 4 ≠ none ∧ ∀ nth ∈ PseudoClass.lastOfType.nthForms,
          Scene.satisfies ⟨Tree.listOfTwo.view, .silent⟩ nth (.formula .one) none 4 = true := by
  have hforms : PseudoClass.lastOfType.nthForms ≠ [] := by decide
  have hown : PseudoClass.lastOfType.isRelative = false := rfl
  have helement : Tree.listOfTwo.view.isElement 4 = true := by decide +kernel
  have hparent : Tree.listOfTwo.parent 4 ≠ none := by decide +kernel
  refine ⟨Tree.built_listOfTwo, hforms, hown, helement, hparent, ?_⟩
  exact ((satisfies_iff_nthForms Tree.built_listOfTwo .silent hforms hown helement .none none).1
    hparent).1 (by decide +kernel)

end TreeQuery
