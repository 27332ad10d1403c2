import TreeQuery.Proofs.Compiled.Shape
import TreeQuery.Proofs.Match.First
import TreeQuery.Proofs.Native.ReadBack
import TreeQuery.Proofs.Reader.Conditions
import TreeQuery.Proofs.Selector.WellFormed

/-!
# Like siblings

Some pseudo-classes compare an element with the siblings that are like it: those that satisfy the shape of
the part, which is the part without these pseudo-classes. So the shape says which element satisfies a part
and where the element has to stand among its siblings (`accepts_iff_shape`). It does not matter where in the
part they are written, since a part is read as a whole before anything is compared.
-/

namespace TreeQuery

open Text Reader

/-! ## Siblings -/

namespace Tree

/-- The nodes in front of a node and behind it among the children of its parent. A node without a parent
has none. -/
def Siblings (t : Tree) (node : NodeId) (before after : List NodeId) : Prop :=
  match t.parent node with
  | none => before = [] ∧ after = []
  | some parent => t.children parent = before ++ node :: after

/-- The elements among some nodes that are like an element. -/
def likeAmong (t : Tree) (like : NodeId → Bool) (nodes : List NodeId) : List NodeId :=
  nodes.filter fun other => t.view.isElement other && like other

/-- What a pseudo-class that compares with like siblings says of a node between its siblings. -/
def Compares (t : Tree) (like : NodeId → Bool) (clause : PseudoClause) (node : NodeId)
    (before after : List NodeId) : Prop :=
  let counted (nodes : List NodeId) : Prop := t.parent node ≠ none ∧
    ∃ f, clause.argument.formula? = some f ∧
      f.selects (Int32.ofNat (1 + (t.likeAmong like nodes).length)) = true
  match clause.pseudo with
  | .firstMatch => t.likeAmong like before = []
  | .lastMatch => t.likeAmong like after = []
  | .onlyMatch => t.likeAmong like before = [] ∧ t.likeAmong like after = []
  | .nthMatch => counted before
  | .nthLastMatch => counted after
  | _ => True

variable {t : Tree} {node parent : NodeId} {before after : List NodeId} {like : NodeId → Bool}

theorem siblings_of_parent (hparent : t.parent node = some parent) :
    t.Siblings node before after ↔ t.children parent = before ++ node :: after := by
  rw [Siblings, hparent]

namespace Linked

theorem exists_siblings (h : t.Linked) (node : NodeId) : ∃ before after, t.Siblings node before after := by
  cases hparent : t.parent node with
  | none => exact ⟨[], [], by rw [Siblings, hparent]; exact ⟨rfl, rfl⟩⟩
  | some parent =>
    obtain ⟨before, after, hc⟩ := List.append_of_mem (h.mem_children.2 hparent)
    exact ⟨before, after, (siblings_of_parent hparent).2 hc⟩

/-- The walks along the siblings start from nowhere at a node without a parent. -/
theorem beside_of_root (h : t.Linked) (hparent : t.parent node = none) (direction : Direction) :
    t.view.beside node direction = [] := by
  cases direction with
  | forward =>
    have hnext : t.nextSibling node = none := (h.loose hparent).1
    have hrun : Walk.Runs t.nextSibling (t.nextSibling node) [] := by rw [hnext]; exact .stop
    exact congrArg (List.filter _) (hrun.trail_eq (Nat.zero_le t.size))
  | backward => exact h.elementsBefore_of_root hparent

/-- The walk along the siblings on one side meets a like element exactly if there is one. -/
theorem any_beside_eq_false (h : t.Linked) (hsiblings : t.Siblings node before after)
    (direction : Direction) :
    (t.view.beside node direction.reverse).any like = false ↔
      t.likeAmong like (direction.passed before after) = [] := by
  cases hparent : t.parent node with
  | none =>
    rw [Siblings, hparent] at hsiblings
    obtain ⟨rfl, rfl⟩ := hsiblings
    rw [h.beside_of_root hparent]
    cases direction <;> simp [Direction.passed, likeAmong]
  | some parent =>
    rw [h.any_beside_reverse direction ((siblings_of_parent hparent).1 hsiblings), likeAmong,
      List.filter_eq_nil_iff, List.any_eq_false]

/-- A like element has one more than the number of like elements on one side as its position, as long as
positions count on. -/
theorem isAt_like (h : t.Linked)
    (hfew : ∀ parent, ((t.children parent).filter t.view.isElement).length < int32Bound)
    (hsiblings : t.Siblings node before after) (helement : t.view.isElement node = true)
    (hlike : like node = true) (f : Formula) (direction : Direction) :
    t.view.isAt f direction like node = true ↔ t.parent node ≠ none ∧
      f.selects (Int32.ofNat (1 + (t.likeAmong like (direction.passed before after)).length)) = true := by
  cases hparent : t.parent node with
  | none =>
    rw [View.isAt_of_root hparent]
    simp
  | some parent =>
    have hc := (siblings_of_parent hparent).1 hsiblings
    have hlt := length_passed_lt like direction hc helement
    have hbound := hfew parent
    rw [h.isAt_eq_selects f direction hc helement hlike, View.position_eq (by omega)]
    simp [likeAmong]

end Linked
end Tree

/-- A tree with fewer than `2 ^ 31` nodes has no node with more element children. -/
theorem Tree.Linked.few_of_size {t : Tree} (h : t.Linked) (hsize : t.size < int32Bound) (parent : NodeId) :
    ((t.children parent).filter t.view.isElement).length < int32Bound :=
  Nat.lt_of_le_of_lt (h.length_elements_le parent) hsize

/-! ## Comparing with like siblings -/

/-- The argument of a pseudo-class that compares with like siblings is the rest of its part. -/
theorem PseudoClause.isRelative_argument {clause : PseudoClause}
    (hfits : clause.argument.Fits (Entry.standard clause.pseudo).grammar)
    (hrelative : clause.pseudo.isRelative = true) : clause.argument.isRelative = true := by
  obtain ⟨pseudo, hasGetter, written, argument⟩ := clause
  cases pseudo <;> cases hrelative
  all_goals
    cases argument with
    | relative formula => rfl
    | _ => exact hfits.elim

variable {t : Tree} {host : Host} {part : Part} {node : NodeId} {before after : List NodeId}

/-- Comparing a like element with its siblings is counting those that are like it. -/
theorem Tree.Linked.compares_iff (h : t.Linked)
    (hfew : ∀ parent, ((t.children parent).filter t.view.isElement).length < int32Bound)
    (hsiblings : t.Siblings node before after) (helement : t.view.isElement node = true)
    {like : NodeId → Bool} (hlike : like node = true) {clause : PseudoClause}
    (hfits : clause.argument.Fits (Entry.standard clause.pseudo).grammar) :
    Scene.compares ⟨t.view, host⟩ like clause node = true ↔
      t.Compares like clause node before after := by
  have hnone (direction : Direction) : (!(t.view.beside node direction.reverse).any like) = true ↔
      t.likeAmong like (direction.passed before after) = [] := by
    rw [Bool.not_eq_true', h.any_beside_eq_false hsiblings]
  have hcounted (direction : Direction) :
      (clause.argument.formula?.any fun f => t.view.isAt f direction like node) = true ↔
        t.parent node ≠ none ∧ ∃ f, clause.argument.formula? = some f ∧
          f.selects (Int32.ofNat (1 +
            (t.likeAmong like (direction.passed before after)).length)) = true := by
    simp only [Option.any_eq_true, h.isAt_like hfew hsiblings helement hlike]
    constructor
    · rintro ⟨f, hf, hparent, hselects⟩
      exact ⟨hparent, f, hf, hselects⟩
    · rintro ⟨hparent, f, hf, hselects⟩
      exact ⟨f, hf, hparent, hselects⟩
  have hrelative := clause.isRelative_argument hfits
  unfold Scene.compares Tree.Compares
  cases hpseudo : clause.pseudo <;> rw [hpseudo] at hrelative <;> dsimp only
  case firstMatch =>
    rw [hrelative rfl, Bool.true_and]
    exact hnone .forward
  case lastMatch =>
    rw [hrelative rfl, Bool.true_and]
    exact hnone .backward
  case onlyMatch =>
    rw [hrelative rfl, Bool.true_and, Bool.and_eq_true]
    exact and_congr (hnone .forward) (hnone .backward)
  case nthMatch =>
    rw [hrelative rfl, Bool.true_and]
    exact hcounted .forward
  case nthLastMatch =>
    rw [hrelative rfl, Bool.true_and]
    exact hcounted .backward
  all_goals simp

/-- An element satisfies a part exactly if it satisfies the shape of the part, and each pseudo-class that
compares with like siblings holds of it. -/
theorem Part.accepts_iff_compares (h : t.Linked)
    (hfew : ∀ parent, ((t.children parent).filter t.view.isElement).length < int32Bound)
    (hsiblings : t.Siblings node before after)
    (hfits : ∀ clause ∈ part.pseudos, clause.argument.Fits (Entry.standard clause.pseudo).grammar) :
    part.accepts ⟨t.view, host⟩ node = true ↔ part.shape.accepts ⟨t.view, host⟩ node = true ∧
      ∀ clause ∈ part.pseudos,
        t.Compares (part.shape.accepts ⟨t.view, host⟩) clause node before after := by
  have hshape : part.shape.accepts ⟨t.view, host⟩ = part.isLike ⟨t.view, host⟩ :=
    funext (part.accepts_shape ⟨t.view, host⟩)
  rw [accepts_iff, hshape]
  refine and_congr_right fun hlike => forall₂_congr fun clause hmem => ?_
  exact h.compares_iff hfew hsiblings (isLike_iff.1 hlike).1 hlike (hfits clause hmem)

/-! ## Position one in place of a short pseudo-class -/

/-- The pseudo-class `nth` with the argument `1`. -/
def PseudoClause.one (nth : PseudoClass) : PseudoClause :=
  ⟨nth, (Entry.standard nth).hasGetter, some "1", .relative (some .one)⟩

/-- The one form with a formula that a pseudo-class for the first or last like sibling has. -/
theorem PseudoClass.eq_of_nthForms {short nth : PseudoClass} (hrelative : short.isRelative = true)
    (hforms : short.nthForms = [nth]) :
    short = firstMatch ∧ nth = nthMatch ∨ short = lastMatch ∧ nth = nthLastMatch := by
  cases short <;> cases hrelative <;> simp_all [nthForms]

/-- Of a like element with a parent, a pseudo-class for the first or last like sibling says what its form with
the formula `1` says. -/
theorem Tree.Linked.compares_one (h : t.Linked) {short nth : PseudoClass} {clause : PseudoClause}
    (hrelative : short.isRelative = true) (hforms : short.nthForms = [nth])
    (hpseudo : clause.pseudo = short) (hargument : clause.argument.isRelative = true)
    {parent : NodeId} (hparent : t.parent node = some parent)
    (helement : t.view.isElement node = true) {like : NodeId → Bool} (hlike : like node = true) :
    Scene.compares ⟨t.view, host⟩ like (.one nth) node =
      Scene.compares ⟨t.view, host⟩ like clause node := by
  have hone (direction : Direction) := h.isAt_one direction hparent helement hlike
  unfold Scene.compares
  rw [hpseudo]
  rcases PseudoClass.eq_of_nthForms hrelative hforms with ⟨rfl, rfl⟩ | ⟨rfl, rfl⟩ <;> dsimp only
  · rw [hargument]
    exact congrArg (true && ·) (hone .forward)
  · rw [hargument]
    exact congrArg (true && ·) (hone .backward)

/-- Replacing a condition by another one that holds of the same like elements replaces nothing that is
compared. -/
theorem Part.accepts_replace {sc : Scene} {clauses behind : List Clause} {clause clause' : PseudoClause}
    (hrelative : clause.pseudo.isRelative = true) (hrelative' : clause'.pseudo.isRelative = true)
    (hclauses : part.clauses = clauses ++ .pseudo clause :: behind)
    (hsame : part.isLike sc node = true → sc.compares (part.isLike sc) clause' node =
      sc.compares (part.isLike sc) clause node) :
    Part.accepts sc { part with clauses := clauses ++ .pseudo clause' :: behind } node =
      part.accepts sc node := by
  have hshape : Part.shape { part with clauses := clauses ++ .pseudo clause' :: behind } = part.shape := by
    have hfilter (c : PseudoClause) (hc : c.pseudo.isRelative = true) :
        (clauses ++ .pseudo c :: behind).filter (!·.isRelative) =
          clauses.filter (!·.isRelative) ++ behind.filter (!·.isRelative) := by
      rw [List.filter_append, List.filter_cons_of_neg]
      simpa [Clause.isRelative, Clause.pseudo?] using hc
    simp only [shape, hclauses, hfilter _ hrelative, hfilter _ hrelative']
  have hlike : Part.isLike sc { part with clauses := clauses ++ .pseudo clause' :: behind } =
      part.isLike sc := by
    funext other
    rw [← accepts_shape, hshape, accepts_shape]
  have hpseudos (c : PseudoClause) : (clauses ++ .pseudo c :: behind).filterMap Clause.pseudo? =
      clauses.filterMap Clause.pseudo? ++ c :: behind.filterMap Clause.pseudo? := by
    rw [List.filterMap_append, List.filterMap_cons]
    rfl
  rw [accepts, accepts, hlike, pseudos, pseudos, hclauses, hpseudos, hpseudos]
  cases hnode : part.isLike sc node with
  | false => rfl
  | true => simp only [List.all_append, List.all_cons, hsame hnode]

namespace Reader

/-- A name with the argument `1` is read in front of every text. -/
theorem readPseudo_one {nested : ListReader} {nth : PseudoClass}
    (hgrammar : (Entry.standard nth).grammar = .relativeFormula) (after : List Char) :
    readPseudo ⟨.standard, p⟩ nested (nth.name.toList ++ '(' :: '1' :: ')' :: after) =
      .done (.pseudo (.one nth)) after := by
  have hname : ident? (nth.name.toList ++ '(' :: '1' :: ')' :: after) =
      some (⟨nth.name⟩, '(' :: '1' :: ')' :: after) := by
    refine nth.isWhole_name.ident?_append fun c hc => ?_
    obtain rfl := Option.some.inj hc
    decide
  have hgroup : readGroup ('(' :: '1' :: ')' :: after) = .done (some ['1']) after := by
    have hinner : group? ('(' :: (['1'] ++ ')' :: after)) = some (['1'], after) :=
      group?_eq_some.2 ⟨rfl, rfl, rfl⟩
    unfold readGroup
    rw [skipBlank_of_not_blank (by decide)]
    simp only [show group? ('(' :: '1' :: ')' :: after) = _ from hinner]
  have hargument : readArgument nested (Entry.standard nth) (some ['1']) after =
      .done (.relative (some .one)) after := by
    unfold readArgument
    rw [hgrammar]
    have hformula : readFormula ['1'] after = .done .one after := by
      rw [readFormula, show Formula.read? ['1'] = some .one from Formula.read?_one]
      rfl
    show (readFormula ['1'] after).map _ = _
    rw [hformula]
    rfl
  unfold readPseudo
  rw [hname]
  dsimp only
  rw [hgroup]
  dsimp only [Reading.andThen]
  rw [lookup_name]
  dsimp only
  rw [hargument, Entry.pseudo_standard]
  rfl

/-- A pseudo-class without parentheses ends with its name. -/
theorem readPseudo_relative {nested : ListReader} {s after rest : List Char} {name : Ident}
    {short : PseudoClass} {clause : Clause} (hname : ident? s = some (name, after))
    (hlookup : Registry.standard.lookup name.value = some (Entry.standard short))
    (hgrammar : (Entry.standard short).grammar = .relative)
    (h : readPseudo ⟨.standard, p⟩ nested s = .done clause rest) :
    rest = after ∧ ∃ clause', clause = .pseudo clause' ∧ clause'.pseudo = short ∧
      clause'.argument.isRelative = true := by
  obtain ⟨_, _, inner?, entry, argument, hname', hgroup, hentry, hargument, rfl⟩ := readPseudo_eq_done.1 h
  rw [hname] at hname'
  cases hname'
  rw [hlookup] at hentry
  cases hentry
  unfold readArgument at hargument
  rw [hgrammar] at hargument
  dsimp only [withoutArgument] at hargument
  split at hargument
  · cases hargument
  · next hnone =>
    cases hargument
    rcases readGroup_eq_done hgroup with ⟨rfl, rfl⟩ | ⟨inner, rfl, -⟩
    · exact ⟨rfl, _, rfl, Entry.pseudo_standard short, rfl⟩
    · exact absurd rfl hnone

/-- In the text of a part stand `front`, a colon, a name of the pseudo-class and `after`, and the colon comes
where a condition is read. -/
def WritesAt (p : Profile) (s front : List Char) (pseudo : PseudoClass) (after : List Char) : Prop :=
  ∃ clauses tally u name, s = front ++ ':' :: u ∧
    ClausesTo ⟨.standard, p⟩ (standardLists p) (.start (readTag (subjectMark s).2).1)
        (readTag (subjectMark s).2).2 clauses tally (':' :: u) ∧
      ident? u = some (name, after) ∧
        Registry.standard.lookup name.value = some (Entry.standard pseudo)

/-- In the text of a part the form with the argument `1` can stand in place of a pseudo-class for the first or
last like sibling, wherever that is written. -/
theorem exists_readPart_one (h : t.Linked) {link : Option Combinator} {s front after rest : List Char}
    {short nth : PseudoClass} (hpart : readPart ⟨.standard, p⟩ (standardLists p) link s = .done part rest)
    (hwrites : WritesAt p s front short after) (hrelative : short.isRelative = true)
    (hforms : short.nthForms = [nth]) {parent : NodeId} (hparent : t.parent node = some parent) :
    ∃ part', readPart ⟨.standard, p⟩ (standardLists p) link
        (front ++ ':' :: (nth.name.toList ++ '(' :: '1' :: ')' :: after)) = .done part' rest ∧
      part'.accepts ⟨t.view, host⟩ node = part.accepts ⟨t.view, host⟩ node := by
  obtain ⟨clauses, tally, u, name, hs, hto, hname, hlookup⟩ := hwrites
  have hgrammar : (Entry.standard short).grammar = .relative ∧
      (Entry.standard nth).grammar = .relativeFormula ∧ nth.isRelative = true := by
    rcases PseudoClass.eq_of_nthForms hrelative hforms with ⟨rfl, rfl⟩ | ⟨rfl, rfl⟩
    · exact ⟨rfl, rfl, rfl⟩
    · exact ⟨rfl, rfl, rfl⟩
  -- the part was read, so the pseudo-class was
  obtain ⟨clause, v, hclause⟩ : ∃ clause v, readPseudo ⟨.standard, p⟩ (standardLists p) u = .done clause v := by
    obtain ⟨all, v, hall, -⟩ := Reading.andThen_eq_done.1 hpart
    rw [hto.readClauses_eq] at hall
    obtain ⟨_, hlater, -⟩ := Reading.map_eq_done.1 hall
    rw [readClauses_eq] at hlater
    obtain ⟨clause, v, hclause, -⟩ := Reading.andThen_eq_done.1 hlater
    exact ⟨clause, v, hclause⟩
  obtain ⟨rfl, clause, rfl, hpseudo, hargument⟩ :=
    readPseudo_relative hname hlookup hgrammar.1 hclause
  have hone : readClause? ⟨.standard, p⟩ (standardLists p) tally.hasId
      (':' :: (nth.name.toList ++ '(' :: '1' :: ')' :: v)) = some (.done (.pseudo (.one nth)) v) :=
    congrArg some (readPseudo_one hgrammar.2.1 v)
  obtain ⟨front', behind, hs', hclauses, hread⟩ := readPart_replace hto hpart
    (congrArg some hclause) hone
  obtain rfl : front = front' := List.append_cancel_right (hs.symm.trans hs')
  refine ⟨_, hread, Part.accepts_replace (hpseudo ▸ hrelative) hgrammar.2.2 hclauses fun hlike => ?_⟩
  exact h.compares_one hrelative hforms hpseudo hargument hparent (Part.isLike_iff.1 hlike).1 hlike

end Reader

/-! ## Parts that were read -/

/-- The selectors that stand in one that was read are legible. -/
theorem Selector.legible_of_nests {text : String} {list : List Selector} {selector inner : Selector}
    (h : Selector.read ⟨.standard, p⟩ text = .ok list) (hmem : selector ∈ list)
    (hnests : selector.Nests inner) : inner.Legible p False := by
  induction hnests with
  | refl => exact legible_of_read h hmem
  | tail _ hinner ih => exact ih.of_mem_inner hinner

theorem Selector.Legible.fits {selector : Selector} (h : selector.Legible p False)
    (hpart : part ∈ selector.parts) :
    ∀ clause ∈ part.pseudos, clause.argument.Fits (Entry.standard clause.pseudo).grammar := by
  cases h with
  | intro _ _ _ legible _ =>
    intro clause hmem
    have hclause := (legible part hpart).clauses _ (Part.mem_pseudos.1 hmem)
    exact fits_readArgument (PseudoClause.Legible.argument hclause [])

/-- What the pseudo-classes mean that compare an element with its like siblings, on a built tree whose nodes
have fewer than `2 ^ 31` element children, and for all parts of what was read: the element satisfies the part
without them, and stands where they say among the siblings that do. All of them store that same part. For an
element with a parent, the first or last like sibling can be asked for by its position `1` instead, wherever
in the text of the part this is done. -/
theorem accepts_iff_shape (ht : t.Built)
    (hfew : ∀ parent, ((t.children parent).filter t.view.isElement).length < int32Bound) (host : Host)
    {text : String} {list : List Selector} {selector inner : Selector}
    (hread : Selector.read ⟨.standard, p⟩ text = .ok list) (hmem : selector ∈ list)
    (hnests : selector.Nests inner) (hpart : part ∈ inner.parts) (node : NodeId) :
    (∃ before after, t.Siblings node before after ∧
      (part.accepts ⟨t.view, host⟩ node = true ↔ part.shape.accepts ⟨t.view, host⟩ node = true ∧
        ∀ clause ∈ part.pseudos,
          t.Compares (part.shape.accepts ⟨t.view, host⟩) clause node before after)) ∧
      (∀ q, ∀ pseudo ∈ (part.compiled q).pseudos, pseudo.pseudo.isRelative = true →
        ∀ formula shape, pseudo.argument = .relative formula shape →
          shape.neutral = (part.shape.compiled q).neutral) ∧
        (t.parent node ≠ none → ∀ link s rest front short after nth,
          readPart ⟨.standard, p⟩ (standardLists p) link s = .done part rest → WritesAt p s front short after →
            short.isRelative = true → short.nthForms = [nth] →
              ∃ part', readPart ⟨.standard, p⟩ (standardLists p) link
                  (front ++ ':' :: (nth.name.toList ++ '(' :: '1' :: ')' :: after)) = .done part' rest ∧
                part'.accepts ⟨t.view, host⟩ node = part.accepts ⟨t.view, host⟩ node) := by
  refine ⟨?_, fun q pseudo hpseudo hrelative formula shape hargument => ?_, ?_⟩
  · obtain ⟨before, after, hsiblings⟩ := ht.linked.exists_siblings node
    have hfits := (Selector.legible_of_nests hread hmem hnests).fits hpart
    exact ⟨before, after, hsiblings, Part.accepts_iff_compares ht.linked hfew hsiblings hfits⟩
  · exact part.neutral_of_relative q hpseudo hrelative hargument
  · intro hne link s rest front short after nth hpart hwrites hrelative hforms
    obtain ⟨parent, hparent⟩ := Option.ne_none_iff_exists'.1 hne
    exact exists_readPart_one ht.linked hpart hwrites hrelative hforms hparent

/-- The part `li:first-match:empty`. -/
def Part.firstEmptyItem : Part :=
  ⟨none, false, some ⟨"li"⟩,
    [.pseudo ⟨.firstMatch, false, none, .relative none⟩, .pseudo ⟨.empty, false, none, .none⟩], none⟩

/-- The first empty item of a list is the one with position 1 among the empty items. -/
theorem accepts_iff_shape_firstEmptyItem :
    Tree.listOfTwo.Built ∧
      (∀ parent, ((Tree.listOfTwo.children parent).filter Tree.listOfTwo.view.isElement).length <
        int32Bound) ∧
      Selector.read .standard "li:first-match:empty" = .ok [⟨[.firstEmptyItem]⟩] ∧
      Selector.Nests ⟨[.firstEmptyItem]⟩ ⟨[.firstEmptyItem]⟩ ∧
      Part.firstEmptyItem.accepts ⟨Tree.listOfTwo.view, .silent⟩ 2 = true ∧
      ∃ part', readPart .standard (readLists .standard) none "li:nth-match(1):empty".toList = .done part' [] ∧
        part'.accepts ⟨Tree.listOfTwo.view, .silent⟩ 2 = true := by
  have hread : Selector.read .standard "li:first-match:empty" = .ok [⟨[.firstEmptyItem]⟩] := by
    with_unfolding_all rfl
  have hfew := Tree.built_listOfTwo.linked.few_of_size (by decide +kernel)
  have hnests : Selector.Nests ⟨[.firstEmptyItem]⟩ ⟨[.firstEmptyItem]⟩ := .refl
  have haccepts : Part.firstEmptyItem.accepts ⟨Tree.listOfTwo.view, .silent⟩ 2 = true := by decide +kernel
  have hwrites : WritesAt .manual "li:first-match:empty".toList "li".toList .firstMatch ":empty".toList :=
    ⟨[], .start (some ⟨"li"⟩), "first-match:empty".toList, ⟨"first-match"⟩, by decide, .here _ _,
      by decide, by decide⟩
  have hpart : readPart .standard (readLists .standard) none "li:first-match:empty".toList =
      .done .firstEmptyItem [] := by
    with_unfolding_all rfl
  have hmem : Part.firstEmptyItem ∈ [Part.firstEmptyItem] := List.mem_cons_self
  obtain ⟨-, -, hone⟩ := accepts_iff_shape Tree.built_listOfTwo hfew .silent hread List.mem_cons_self hnests
    hmem 2
  obtain ⟨part', hread', hsame⟩ := hone (by decide +kernel) none _ [] _ .firstMatch _ .nthMatch hpart
    hwrites rfl rfl
  exact ⟨Tree.built_listOfTwo, hfew, hread, hnests, haccepts, part', hread', hsame.trans haccepts⟩

end TreeQuery
