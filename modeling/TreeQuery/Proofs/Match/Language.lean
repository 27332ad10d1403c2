import TreeQuery.Language
import TreeQuery.Match
import TreeQuery.Proofs.Match.IgnoreCase
import TreeQuery.Proofs.Text.Ascii
import TreeQuery.Proofs.Tree.Ancestors

/-!
# Languages

A language code is compared with the wanted one in three ways: along the characters, by a cut at a number of
bytes with a look at the byte behind it (`isLanguageInBytes`), and, in small ASCII letters, by the comparison
that attribute conditions have for language codes. All three agree, for making an ASCII letter small keeps its
number of bytes and makes no hyphen.

The code of a node is that of the nearest node at or above it that has one (`Tree.Inherits`), and it alone
decides, also where a node further up has a code that would do.
-/

namespace TreeQuery

open Text
open String (utf8Len)

/-! ## Codes -/

/-- Whether a language code is the wanted one or one of its subtags, found by the number of bytes of the wanted
one: there is a place after that many bytes, what stands before it has the wanted letters, and the next byte,
if there is one, is a hyphen. -/
def isLanguageInBytes (wanted code : String) : Bool :=
  (cutAt? wanted.utf8ByteSize code.toList).any (fun cut => sameLetters (String.ofList cut.1) wanted) &&
    ((utf8 code.toList)[wanted.utf8ByteSize]?).all (· == 0x2D)

variable {wanted code : String} {s : List Char}

/-- A code is of a language if it has the letters of the language in front of its end or of a hyphen. -/
theorem isLanguage_iff :
    isLanguage wanted code = true ↔ ∃ head rest, code.toList = head ++ rest ∧
      head.map Char.toLower = wanted.toList.map Char.toLower ∧ StartsWith (· == '-') rest := by
  unfold isLanguage
  constructor
  · intro h
    split at h
    · cases h
    · next hdrop =>
      obtain ⟨head, happ, hhead⟩ := dropLetters?_eq_some.1 hdrop
      exact ⟨head, [], happ, hhead, startsWith_nil _⟩
    · next c rest hdrop =>
      obtain ⟨head, happ, hhead⟩ := dropLetters?_eq_some.1 hdrop
      exact ⟨head, c :: rest, happ, hhead, startsWith_cons.2 h⟩
  · rintro ⟨head, rest, happ, hhead, hrest⟩
    rw [dropLetters?_eq_some.2 ⟨head, happ, hhead⟩]
    cases rest with
    | nil => rfl
    | cons c rest => exact startsWith_cons.1 hrest

theorem startsWith_hyphen_map_toLower :
    StartsWith (· == '-') (s.map Char.toLower) ↔ StartsWith (· == '-') s := by
  cases s with
  | nil => rfl
  | cons c s =>
    rw [List.map_cons, startsWith_cons, startsWith_cons, beq_iff_eq, beq_iff_eq]
    exact toLower_eq_hyphen

/-- The comparison of language codes in small ASCII letters. -/
theorem compare_foldAscii_iff :
    Comparator.startsWithCode.compare (foldAscii code).toList (foldAscii wanted).toList = true ↔
      ∃ head rest, code.toList = head ++ rest ∧
        head.map Char.toLower = wanted.toList.map Char.toLower ∧ StartsWith (· == '-') rest := by
  rw [Comparator.compare, Comparator.isCodeOf_iff, toList_foldAscii, toList_foldAscii]
  constructor
  · rintro ⟨small, happ, hsmall⟩
    obtain ⟨head, rest, hcode, hhead, rfl⟩ := List.map_eq_append_iff.1 happ
    exact ⟨head, rest, hcode, hhead, startsWith_hyphen_map_toLower.1 hsmall⟩
  · rintro ⟨head, rest, hcode, hhead, hrest⟩
    refine ⟨rest.map Char.toLower, ?_, startsWith_hyphen_map_toLower.2 hrest⟩
    rw [hcode, List.map_append, hhead]

/-- The bytes of a code say the same as its characters. -/
theorem isLanguageInBytes_iff :
    isLanguageInBytes wanted code = true ↔ ∃ head rest, code.toList = head ++ rest ∧
      head.map Char.toLower = wanted.toList.map Char.toLower ∧ StartsWith (· == '-') rest := by
  have hbyte : ∀ head rest, code.toList = head ++ rest → utf8Len head = wanted.utf8ByteSize →
      (((utf8 code.toList)[wanted.utf8ByteSize]?).all (· == 0x2D) = true ↔ StartsWith (· == '-') rest) := by
    intro head rest happ hlen
    rw [happ, ← hlen, utf8_append_getElem?]
    cases rest with
    | nil => exact iff_of_true rfl (startsWith_nil _)
    | cons c rest =>
      obtain ⟨b, hb⟩ : ∃ b, (utf8 (c :: rest)).head? = some b := exists_head?_utf8 c rest
      rw [startsWith_cons, beq_iff_eq, ← head?_utf8_eq_hyphen c rest, hb, Option.all_some, beq_iff_eq,
        Option.some.injEq]
  have hletters : ∀ head, sameLetters (String.ofList head) wanted = true ↔
      head.map Char.toLower = wanted.toList.map Char.toLower := by
    intro head
    rw [sameLetters, beq_iff_eq, ← String.toList_inj, toList_foldAscii, toList_foldAscii, String.toList_ofList]
  rw [isLanguageInBytes, Bool.and_eq_true, Option.any_eq_true]
  constructor
  · rintro ⟨⟨⟨head, rest⟩, hcut, hhead⟩, hrest⟩
    obtain ⟨happ, hlen⟩ := cutAt?_eq_some.1 hcut
    exact ⟨head, rest, happ, (hletters head).1 hhead, (hbyte head rest happ hlen).1 hrest⟩
  · rintro ⟨head, rest, happ, hhead, hrest⟩
    -- the same letters have as many bytes
    have hlen : utf8Len head = wanted.utf8ByteSize := by
      rw [← utf8Len_map_toLower, hhead, utf8Len_map_toLower, String.utf8Len_toList]
    exact ⟨⟨(head, rest), cutAt?_eq_some.2 ⟨happ, hlen⟩, (hletters head).2 hhead⟩,
      (hbyte head rest happ hlen).2 hrest⟩

theorem isLanguageInBytes_eq (wanted code : String) : isLanguageInBytes wanted code = isLanguage wanted code :=
  Bool.eq_iff_iff.2 (isLanguageInBytes_iff.trans isLanguage_iff.symm)

theorem isLanguage_eq_compare (wanted code : String) :
    isLanguage wanted code =
      Comparator.startsWithCode.compare (foldAscii code).toList (foldAscii wanted).toList :=
  Bool.eq_iff_iff.2 (isLanguage_iff.trans compare_foldAscii_iff.symm)

/-- No code is of the language if the number of bytes of the language is no place of the code. -/
theorem isLanguage_of_not_isValid (h : ¬ (String.Pos.Raw.mk wanted.utf8ByteSize).IsValid code) :
    isLanguage wanted code = false := by
  rw [← isSome_cutAt?, Bool.not_eq_true, Option.isSome_eq_false_iff, Option.isNone_iff_eq_none] at h
  have hbytes : isLanguageInBytes wanted code = false := by
    rw [isLanguageInBytes, h]
    rfl
  rwa [isLanguageInBytes_eq] at hbytes

/-! ## Inheritance -/

/-- The node has its value of the attribute from `a`, the nearest node at or above it that has one: whatever
other node at or above it has one is above `a`. -/
structure Tree.Inherits (t : Tree) (name : String) (node a : NodeId) (value : String) : Prop where
  atOrAbove : t.AtOrAbove a node
  attr : t.view.attr a name = some value
  nearest : ∀ b, t.AtOrAbove b node → (t.view.attr b name).isSome = true → t.AtOrAbove b a

namespace Tree.Linked

variable {t : Tree} {node a : NodeId} {name value : String}

/-- A node with a value inherits no other. -/
theorem inherits_of_some {own : String} (h : Linked t) (hown : t.view.attr node name = some own) :
    t.Inherits name node a value ↔ a = node ∧ value = own := by
  constructor
  · intro hinherits
    have hnode : t.AtOrAbove node a := by
      refine hinherits.nearest node .refl ?_
      rw [hown]
      rfl
    obtain rfl : a = node := by
      rcases atOrAbove_iff.1 hnode with heq | habove
      · exact heq
      · exact absurd (habove.trans_left hinherits.atOrAbove) h.not_above_self
    have hattr := hinherits.attr
    rw [hown] at hattr
    exact ⟨rfl, (Option.some.inj hattr).symm⟩
  · rintro ⟨rfl, rfl⟩
    exact ⟨.refl, hown, fun _ hb _ => hb⟩

/-- A node without a value inherits what its parent inherits. -/
theorem inherits_of_none (hnone : t.view.attr node name = none) :
    t.Inherits name node a value ↔ ∃ p, t.parent node = some p ∧ t.Inherits name p a value := by
  have hother : ∀ b, t.AtOrAbove b node → (t.view.attr b name).isSome = true →
      ∃ p, t.parent node = some p ∧ t.AtOrAbove b p := by
    intro b hb hsome
    rcases atOrAbove_iff.1 hb with rfl | habove
    · rw [hnone] at hsome
      cases hsome
    · exact Above.iff_parent.1 habove
  constructor
  · intro hinherits
    have hsome : (t.view.attr a name).isSome = true := by
      rw [hinherits.attr]
      rfl
    obtain ⟨p, hp, ha⟩ := hother a hinherits.atOrAbove hsome
    exact ⟨p, hp, ha, hinherits.attr, fun b hb => hinherits.nearest b (hb.tail hp)⟩
  · rintro ⟨p, hp, hinherits⟩
    refine ⟨hinherits.atOrAbove.tail hp, hinherits.attr, fun b hb hsome => ?_⟩
    obtain ⟨q, hq, hbq⟩ := hother b hb hsome
    obtain rfl : q = p := Option.some.inj (hq.symm.trans hp)
    exact hinherits.nearest b hbq hsome

/-- The search for the value looks at the node first, and then goes on from its parent. -/
theorem inheritedAttribute_eq (h : Linked t) (node : NodeId) (name : String) :
    t.view.inheritedAttribute node name =
      (t.view.attr node name).or ((t.parent node).bind (t.view.inheritedAttribute · name)) := by
  have hancestors : t.view.ancestors node =
      ((t.parent node).map fun p => p :: t.view.ancestors p).getD [] := by
    cases hp : t.parent node with
    | none => exact h.ancestors_of_root hp
    | some p => exact h.ancestors_of_parent hp
  rw [View.inheritedAttribute, hancestors, List.findSome?_cons]
  cases t.view.attr node name with
  | some value => rfl
  | none => cases t.parent node <;> rfl

/-- The inherited value of a node is that of the nearest node at or above it that has one. -/
theorem inheritedAttribute_eq_some (h : Linked t) :
    t.view.inheritedAttribute node name = some value ↔ ∃ a, t.Inherits name node a value := by
  -- by induction along the walk up from the node
  obtain ⟨path, hpath⟩ := h.ends node
  generalize hstart : some node = start at hpath
  induction hpath generalizing node with
  | stop => cases hstart
  | @go first nodes _ ih =>
    obtain rfl := Option.some.inj hstart
    rw [h.inheritedAttribute_eq]
    cases hattr : t.view.attr node name with
    | some own =>
      simp only [h.inherits_of_some hattr]
      rw [Option.some_or, Option.some.injEq]
      constructor
      · rintro rfl
        exact ⟨node, rfl, rfl⟩
      · rintro ⟨_, -, rfl⟩
        rfl
    | none =>
      simp only [inherits_of_none hattr]
      rw [Option.none_or, Option.bind_eq_some_iff]
      constructor
      · rintro ⟨p, hp, hvalue⟩
        obtain ⟨a, ha⟩ := (ih hp.symm).1 hvalue
        exact ⟨a, p, hp, ha⟩
      · rintro ⟨a, p, hp, ha⟩
        exact ⟨p, hp, (ih hp.symm).2 ⟨a, ha⟩⟩

end Tree.Linked

/-- The pseudo-class for a language looks at the inherited code. -/
theorem accepts_lang {sc : Scene} {clause : PseudoClause} (hlang : clause.pseudo = .lang)
    (hwanted : clause.argument = .text wanted) (node : NodeId) :
    (Clause.pseudo clause).accepts sc node =
      (sc.view.inheritedAttribute node "lang").any (isLanguage wanted) := by
  obtain ⟨pseudo, hasGetter, written, argument⟩ := clause
  obtain rfl : pseudo = .lang := hlang
  obtain rfl : argument = .text wanted := hwanted
  rfl

/-- A code is the wanted one, or it goes on with a hyphen. -/
theorem isLanguage_iff_eq_or :
    isLanguage wanted code = true ↔ foldAscii code = foldAscii wanted ∨
      ∃ subtag, foldAscii code = foldAscii wanted ++ "-" ++ subtag := by
  rw [isLanguage_eq_compare, Comparator.compare, Comparator.isCodeOf_iff]
  constructor
  · rintro ⟨rest, happ, hrest⟩
    cases rest with
    | nil =>
      rw [List.append_nil] at happ
      exact .inl (String.toList_inj.1 happ)
    | cons c subtag =>
      rw [startsWith_cons, beq_iff_eq] at hrest
      subst hrest
      refine .inr ⟨String.ofList subtag, String.toList_inj.1 ?_⟩
      rw [happ, String.toList_append, String.toList_append, List.append_assoc]
      show _ = _ ++ '-' :: (String.ofList subtag).toList
      rw [String.toList_ofList]
  · rintro (heq | ⟨subtag, heq⟩)
    · exact ⟨[], by rw [heq, List.append_nil], startsWith_nil _⟩
    · refine ⟨'-' :: subtag.toList, ?_, startsWith_cons.2 rfl⟩
      rw [heq, String.toList_append, String.toList_append, List.append_assoc]
      rfl

/-- A language code is compared alike along its characters, in bytes, and in small ASCII letters as attribute
conditions compare it: it has the letters of the wanted one in front of its end or of a hyphen. Where the wanted
one has as many bytes as end inside of a character of the code, or behind its end, it is not of the language. On
a built tree, a node is of the language exactly if the code of the nearest node at or above it that has a code
is. -/
theorem language_agrees :
    (∀ wanted code : String,
      isLanguageInBytes wanted code = isLanguage wanted code ∧
      isLanguage wanted code =
        Comparator.startsWithCode.compare (foldAscii code).toList (foldAscii wanted).toList ∧
      (isLanguage wanted code = true ↔ foldAscii code = foldAscii wanted ∨
        ∃ subtag, foldAscii code = foldAscii wanted ++ "-" ++ subtag) ∧
      (¬ (String.Pos.Raw.mk wanted.utf8ByteSize).IsValid code → isLanguage wanted code = false)) ∧
    ∀ (t : Tree) (sc : Scene), t.Built → sc.view = t.view →
      ∀ (clause : PseudoClause) (wanted : String), clause.pseudo = .lang → clause.argument = .text wanted →
        ∀ node, (Clause.pseudo clause).accepts sc node = true ↔
          ∃ a code, t.Inherits "lang" node a code ∧ isLanguage wanted code = true := by
  refine ⟨fun wanted code => ⟨isLanguageInBytes_eq wanted code, isLanguage_eq_compare wanted code,
    isLanguage_iff_eq_or, isLanguage_of_not_isValid⟩, fun t sc ht hview clause wanted hlang hwanted node => ?_⟩
  rw [accepts_lang hlang hwanted, hview, Option.any_eq_true]
  constructor
  · rintro ⟨code, hcode, hof⟩
    obtain ⟨a, ha⟩ := ht.linked.inheritedAttribute_eq_some.1 hcode
    exact ⟨a, code, ha, hof⟩
  · rintro ⟨a, code, ha, hof⟩
    exact ⟨code, ht.linked.inheritedAttribute_eq_some.2 ⟨a, ha⟩, hof⟩

/-- A part in a book with a code, and in the part another one with an empty code. -/
def codeSteps : List (NodeId × NodeContent) :=
  [(0, .element ⟨"book", [("lang", "DE-at")]⟩), (1, .element ⟨"part", []⟩),
    (2, .element ⟨"part", [("lang", "")]⟩), (3, .element ⟨"p", []⟩)]

/-- A document with two codes, one inside of the other. -/
def twoCodes : Tree := (Tree.new.addAll? codeSteps).getD .new

theorem built_twoCodes : twoCodes.Built := Tree.Built.new.getD_addAll? codeSteps

/-- The outer part has the code of the book. The paragraph has the empty code, and not that of the book. One byte
is no place of a code that starts with a character of two. -/
theorem language_agrees_twoCodes :
    let clause : PseudoClause := ⟨.lang, false, some "de", .text "de"⟩
    let sc : Scene := ⟨twoCodes.view, .silent⟩
    twoCodes.Built ∧ sc.view = twoCodes.view ∧ clause.pseudo = .lang ∧ clause.argument = .text "de" ∧
      (∃ a code, twoCodes.Inherits "lang" 2 a code ∧ isLanguage "de" code = true) ∧
      (¬ ∃ a code, twoCodes.Inherits "lang" 4 a code ∧ isLanguage "de" code = true) ∧
      ¬ (String.Pos.Raw.mk "d".utf8ByteSize).IsValid "é" ∧ isLanguage "d" "é" = false := by
  intro clause sc
  obtain ⟨hcodes, htree⟩ := language_agrees
  obtain ⟨-, -, -, hinside⟩ := hcodes "d" "é"
  have hholds := htree twoCodes sc built_twoCodes rfl clause "de" rfl rfl
  have houter : (Clause.pseudo clause).accepts sc 2 = true := by decide +kernel
  have hinner : ¬ (Clause.pseudo clause).accepts sc 4 = true := by decide +kernel
  have hplace : ¬ (String.Pos.Raw.mk "d".utf8ByteSize).IsValid "é" := by
    rw [← isSome_cutAt?]
    decide
  exact ⟨built_twoCodes, rfl, rfl, rfl, (hholds 2).1 houter, fun h => hinner ((hholds 4).2 h), hplace,
    hinside hplace⟩

end TreeQuery
