import TreeQuery.Proofs.Native.Tiers
import TreeQuery.Proofs.Reader.Stages

/-!
# The vocabulary of a host

A host has its own names for pseudo-classes, and may know no mark of the subject. The text for the host keeps to
that vocabulary outside of arguments, in containments as well (`Selector.isOf_pieces`). An argument is
printed as it was written: inside of it the text has the words of the source, whatever the host calls them
(`Selector.native_vocabulary`).
-/

namespace TreeQuery

open Reader Text

variable {parser : Parser} {p : Profile} {selector : Selector} {part : Part} {clause : PseudoClause}
  {word : Selector.Word}

/-- The word belongs to the vocabulary of the host. -/
def Selector.Word.IsHostWord (p : Profile) : Word → Prop
  | mark => p.marksSubject = true
  | pseudo kind name => name = p.hostName kind

instance (p : Profile) : (word : Selector.Word) → Decidable (word.IsHostWord p)
  | .mark => inferInstanceAs (Decidable (p.marksSubject = true))
  | .pseudo kind name => inferInstanceAs (Decidable (name = p.hostName kind))

/-! ## The pieces of a text for a host -/

/-- A piece of a text for a host. -/
inductive NativePiece where
  /-- Names, combinators and conditions that are no pseudo-classes. -/
  | plain (s : List Char)
  | word (word : Selector.Word)
  /-- The argument of a pseudo-class, in its parentheses. -/
  | argument (clause : PseudoClause) (text : String)

namespace NativePiece

/-- The characters of a piece. -/
def text : NativePiece → List Char
  | .plain s => s
  | .word own => own.text
  | .argument _ written => '(' :: (written.toList ++ [')'])

/-- The piece has the word: it is the word, or an argument in which the word is written. -/
def Speaks (parser : Parser) (word : Selector.Word) : NativePiece → Prop
  | .plain _ => False
  | .word own => own = word
  | .argument clause _ => clause.Utters parser word

/-- The piece may stand in a text for the host that is told these pseudo-classes. -/
def IsOf (p : Profile) (told : PseudoClause → Prop) : NativePiece → Prop
  | .plain _ => True
  | .word own => own.IsHostWord p
  | .argument clause written => told clause ∧ clause.written = some written

theorem IsOf.mono {told told' : PseudoClause → Prop} (h : ∀ clause, told clause → told' clause)
    {piece : NativePiece} (hpiece : piece.IsOf p told) : piece.IsOf p told' := by
  cases piece with
  | plain => trivial
  | word => exact hpiece
  | argument => exact ⟨h _ hpiece.1, hpiece.2⟩

end NativePiece

/-- The pieces of a condition. -/
def Clause.pieces (p : Profile) : Clause → List NativePiece
  | .pseudo clause =>
    if clause.isSupported p then
      .word (.pseudo clause.pseudo (p.hostName clause.pseudo)) ::
        (clause.written.map (NativePiece.argument clause)).toList
    else []
  | clause => [.plain (clause.native p).toList]

/-- The pieces of a part without its combinator and containment. -/
def Part.headPieces (p : Profile) (part : Part) : List NativePiece :=
  (if part.subject && p.marksSubject then [.word .mark] else []) ++
    .plain part.nameText :: part.clauses.flatMap (·.pieces p)

mutual

/-- The pieces of a containment. -/
def Selector.piecesWithin (p : Profile) : Option Selector → List NativePiece
  | none => []
  | some inner => if p.marksSubject && inner.isSupported p then .plain [' '] :: inner.pieces p else []

/-- The pieces of a part without its combinator. -/
def Part.pieces (p : Profile) : Part → List NativePiece
  | ⟨combinator, subject, tag, clauses, containment⟩ =>
    Part.headPieces p ⟨combinator, subject, tag, clauses, none⟩ ++ Selector.piecesWithin p containment

/-- The pieces of parts that follow another. -/
def Part.piecesRest (p : Profile) : List Part → List NativePiece
  | [] => []
  | part :: rest => .plain part.nativeLink.toList :: (part.pieces p ++ Part.piecesRest p rest)

/-- The pieces of the text of a selector. -/
def Selector.pieces (p : Profile) : Selector → List NativePiece
  | ⟨[]⟩ => []
  | ⟨part :: rest⟩ => part.pieces p ++ Part.piecesRest p rest

end

/-! ## The pieces make up the text -/

theorem Clause.text_pieces (p : Profile) (clause : Clause) :
    (clause.pieces p).flatMap (·.text) = (clause.native p).toList := by
  obtain _ | _ | _ | clause := clause
  · simp [pieces, NativePiece.text]
  · simp [pieces, NativePiece.text]
  · simp [pieces, NativePiece.text]
  · rw [pieces, native]
    split
    · cases hwritten : clause.written <;> simp [NativePiece.text, Selector.Word.text]
    · rfl

theorem Clause.text_pieces_all (p : Profile) (clauses : List Clause) :
    (clauses.flatMap (·.pieces p)).flatMap (·.text) = (String.join (clauses.map (·.native p))).toList := by
  induction clauses with
  | nil => rfl
  | cons clause rest ih =>
    rw [List.flatMap_cons, List.flatMap_append, ih, text_pieces, List.map_cons, String.join_cons,
      String.toList_append]

theorem Part.text_headPieces (p : Profile) (part : Part) :
    (part.headPieces p).flatMap (·.text) = (part.nativeHead p).toList := by
  have hmark : (if part.subject && p.marksSubject then [NativePiece.word .mark] else []).flatMap (·.text) =
      (if part.subject && p.marksSubject then "$" else "").toList := by
    split <;> rfl
  have hname : part.nameText = ((part.tag.map (·.raw)).getD "*").toList := by
    rw [nameText]
    cases part.tag <;> rfl
  rw [headPieces, nativeHead, List.flatMap_append, List.flatMap_cons, hmark, Clause.text_pieces_all,
    String.toList_append, String.toList_append, ← hname, List.append_assoc]
  rfl

mutual

theorem Selector.text_piecesWithin (p : Profile) : ∀ containment : Option Selector,
    (Selector.piecesWithin p containment).flatMap (·.text) = (Selector.nativeWithin p containment).toList
  | none => by
    rw [Selector.piecesWithin, Selector.nativeWithin]
    rfl
  | some inner => by
    have hinner := Selector.text_pieces p inner
    rw [Selector.piecesWithin, Selector.nativeWithin]
    split
    · rw [List.flatMap_cons, hinner, String.toList_append]
      rfl
    · rfl

theorem Part.text_pieces (p : Profile) : ∀ part : Part,
    (part.pieces p).flatMap (·.text) = (part.native p).toList
  | ⟨combinator, subject, tag, clauses, containment⟩ => by
    have hwithin := Selector.text_piecesWithin p containment
    rw [Part.pieces, Part.native, List.flatMap_append, Part.text_headPieces, hwithin, String.toList_append]

theorem Part.text_piecesRest (p : Profile) : ∀ parts : List Part,
    (Part.piecesRest p parts).flatMap (·.text) = (Part.nativeRest p parts).toList
  | [] => by
    rw [Part.piecesRest, Part.nativeRest]
    rfl
  | part :: rest => by
    have hpart := Part.text_pieces p part
    have hrest := Part.text_piecesRest p rest
    rw [Part.piecesRest, Part.nativeRest, List.flatMap_cons, List.flatMap_append, hpart, hrest,
      String.toList_append, String.toList_append, List.append_assoc]
    rfl

/-- The pieces of the text of a selector make up the text. -/
theorem Selector.text_pieces (p : Profile) : ∀ selector : Selector,
    (selector.pieces p).flatMap (·.text) = (selector.native p).toList
  | ⟨[]⟩ => by
    rw [Selector.pieces, Selector.native]
    rfl
  | ⟨part :: rest⟩ => by
    have hpart := Part.text_pieces p part
    have hrest := Part.text_piecesRest p rest
    rw [Selector.pieces, Selector.native, List.flatMap_append, hpart, hrest, String.toList_append]

end

/-! ## What the pieces are -/

theorem Clause.isOf_pieces {clause : Clause} {piece : NativePiece} (h : piece ∈ clause.pieces p) :
    piece.IsOf p fun told => clause = .pseudo told := by
  obtain _ | _ | _ | clause := clause
  · rw [List.mem_singleton.1 h]
    trivial
  · rw [List.mem_singleton.1 h]
    trivial
  · rw [List.mem_singleton.1 h]
    trivial
  · rw [pieces] at h
    split at h
    · rcases List.mem_cons.1 h with rfl | hargument
      · rfl
      · obtain ⟨text, hwritten, rfl⟩ := Option.map_eq_some_iff.1 (Option.mem_toList.1 hargument)
        exact ⟨rfl, hwritten⟩
    · cases h

theorem Part.isOf_headPieces {piece : NativePiece} (h : piece ∈ part.headPieces p) :
    piece.IsOf p fun told => .pseudo told ∈ part.clauses := by
  rcases List.mem_append.1 h with hmark | hrest
  · split at hmark
    · next hmarks =>
      rw [List.mem_singleton.1 hmark]
      exact (Bool.and_eq_true_iff.1 hmarks).2
    · cases hmark
  · rcases List.mem_cons.1 hrest with rfl | hclauses
    · trivial
    · obtain ⟨clause, hclause, hpiece⟩ := List.mem_flatMap.1 hclauses
      refine (Clause.isOf_pieces hpiece).mono ?_
      rintro told rfl
      exact hclause

mutual

theorem Selector.isOf_piecesWithin (p : Profile) : ∀ containment : Option Selector,
    ∀ piece ∈ Selector.piecesWithin p containment,
      piece.IsOf p fun told => ∃ inner, containment = some inner ∧ inner.Mentions told
  | none => by
    intro piece hpiece
    rw [Selector.piecesWithin] at hpiece
    cases hpiece
  | some inner => by
    intro piece hpiece
    rw [Selector.piecesWithin] at hpiece
    split at hpiece
    · rcases List.mem_cons.1 hpiece with rfl | hpiece
      · trivial
      · exact (Selector.isOf_pieces p inner piece hpiece).mono fun _ h => ⟨inner, rfl, h⟩
    · cases hpiece

theorem Part.isOf_pieces (p : Profile) : ∀ part : Part, ∀ piece ∈ part.pieces p, piece.IsOf p part.Mentions
  | ⟨combinator, subject, tag, clauses, containment⟩ => by
    intro piece hpiece
    rw [Part.pieces] at hpiece
    rcases List.mem_append.1 hpiece with hhead | hwithin
    · exact (Part.isOf_headPieces hhead).mono fun _ h => .inl h
    · exact (Selector.isOf_piecesWithin p containment piece hwithin).mono fun _ h => .inr h

theorem Part.isOf_piecesRest (p : Profile) : ∀ parts : List Part,
    ∀ piece ∈ Part.piecesRest p parts, piece.IsOf p fun told => ∃ part ∈ parts, part.Mentions told
  | [] => by
    intro piece hpiece
    rw [Part.piecesRest] at hpiece
    cases hpiece
  | part :: rest => by
    intro piece hpiece
    rw [Part.piecesRest] at hpiece
    rcases List.mem_cons.1 hpiece with rfl | hpiece
    · trivial
    · rcases List.mem_append.1 hpiece with hpart | hrest
      · exact (Part.isOf_pieces p part piece hpart).mono fun _ h => ⟨part, List.mem_cons_self, h⟩
      · refine (Part.isOf_piecesRest p rest piece hrest).mono ?_
        rintro told ⟨other, hmem, h⟩
        exact ⟨other, List.mem_cons_of_mem _ hmem, h⟩

/-- Outside of arguments the text for a host has the names of the host, and the mark of the subject only if the
host knows it. The arguments in it are those of the pseudo-classes of the selector, as they were written. -/
theorem Selector.isOf_pieces (p : Profile) : ∀ selector : Selector,
    ∀ piece ∈ selector.pieces p, piece.IsOf p selector.Mentions
  | ⟨[]⟩ => by
    intro piece hpiece
    rw [Selector.pieces] at hpiece
    cases hpiece
  | ⟨part :: rest⟩ => by
    intro piece hpiece
    rw [Selector.pieces] at hpiece
    rcases List.mem_append.1 hpiece with hpart | hrest
    · exact (Part.isOf_pieces p part piece hpart).mono fun _ h => Selector.mentions_of_mem List.mem_cons_self h
    · refine (Part.isOf_piecesRest p rest piece hrest).mono ?_
      rintro told ⟨other, hmem, h⟩
      exact Selector.mentions_of_mem (List.mem_cons_of_mem _ hmem) h

end

/-! ## Arguments of a supported selector -/

theorem Part.mem_piecesRest {parts : List Part} {piece : NativePiece} (hpart : part ∈ parts)
    (h : piece ∈ part.pieces p) : piece ∈ Part.piecesRest p parts := by
  induction parts with
  | nil => cases hpart
  | cons first rest ih =>
    rw [piecesRest]
    refine List.mem_cons_of_mem _ (List.mem_append.2 ?_)
    rcases List.mem_cons.1 hpart with rfl | hrest
    · exact .inl h
    · exact .inr (ih hrest)

theorem Selector.mem_pieces {piece : NativePiece} (hpart : part ∈ selector.parts) (h : piece ∈ part.pieces p) :
    piece ∈ selector.pieces p := by
  obtain ⟨_ | ⟨first, rest⟩⟩ := selector
  · cases hpart
  · rw [pieces, List.mem_append]
    rcases List.mem_cons.1 hpart with rfl | hrest
    · exact .inl h
    · exact .inr (Part.mem_piecesRest hrest h)

theorem Part.mem_pieces_of_clause {piece : NativePiece} {clause : Clause} (hclause : clause ∈ part.clauses)
    (h : piece ∈ clause.pieces p) : piece ∈ part.pieces p := by
  obtain ⟨combinator, subject, tag, clauses, containment⟩ := part
  rw [pieces]
  refine List.mem_append_left _ (List.mem_append_right _ (List.mem_cons_of_mem _ ?_))
  exact List.mem_flatMap.2 ⟨clause, hclause, h⟩

theorem Part.mem_pieces_of_containment {piece : NativePiece} {inner : Selector}
    (hinner : part.containment = some inner) (hsupported : (p.marksSubject && inner.isSupported p) = true)
    (h : piece ∈ inner.pieces p) : piece ∈ part.pieces p := by
  obtain ⟨combinator, subject, tag, clauses, containment⟩ := part
  obtain rfl : containment = some inner := hinner
  rw [pieces, Selector.piecesWithin, if_pos hsupported]
  exact List.mem_append_right _ (List.mem_cons_of_mem _ h)

/-- The text of a supported selector has all arguments of the selector. -/
theorem Selector.argument_mem_pieces (hmentions : selector.Mentions clause) (h : selector.isSupported p = true)
    {text : String} (hwritten : clause.written = some text) : .argument clause text ∈ selector.pieces p := by
  -- full support leaves out no condition and no containment on the way to the pseudo-class
  induction hmentions with
  | here hpart hclause =>
    have hsupported := isSupported_clause h hpart (Part.mem_pseudos.2 hclause)
    refine mem_pieces hpart (Part.mem_pieces_of_clause hclause ?_)
    rw [Clause.pieces, if_pos hsupported, hwritten]
    exact List.mem_cons_of_mem _ List.mem_cons_self
  | within hpart hinner _ ih =>
    have hwithin := (Part.isSupported_iff.1 ((isSupported_iff.1 h).2 _ hpart)).2
    rw [hinner] at hwithin
    have hsupported := Bool.and_eq_true_iff.1 hwithin
    exact mem_pieces hpart (Part.mem_pieces_of_containment hinner hwithin (ih hsupported.2 hwritten))

/-! ## The vocabulary of the whole text -/

/-- The text for the host has the word, in arguments at any depth or outside of them. -/
def Selector.NativeSpeaks (parser : Parser) (p : Profile) (selector : Selector) (word : Word) : Prop :=
  ∃ piece ∈ selector.pieces p, piece.Speaks parser word

/-- The text for the host has the word in an argument. -/
def Selector.NativeSpeaksInside (parser : Parser) (p : Profile) (selector : Selector) (word : Word) : Prop :=
  ∃ clause text, .argument clause text ∈ selector.pieces p ∧ clause.Utters parser word

namespace Selector

theorem nativeSpeaks_iff : selector.NativeSpeaks parser p word ↔
    .word word ∈ selector.pieces p ∨ selector.NativeSpeaksInside parser p word := by
  constructor
  · rintro ⟨piece, hmem, hspeaks⟩
    cases piece with
    | plain => exact hspeaks.elim
    | word own =>
      obtain rfl : own = word := hspeaks
      exact .inl hmem
    | argument clause text => exact .inr ⟨clause, text, hmem, hspeaks⟩
  · rintro (hmem | ⟨clause, text, hmem, hutters⟩)
    · exact ⟨_, hmem, rfl⟩
    · exact ⟨_, hmem, hutters⟩

/-- In its arguments the text of a supported selector has the words of the arguments of the selector. -/
theorem nativeSpeaksInside_iff (h : selector.isSupported p = true) :
    selector.NativeSpeaksInside parser p word ↔
      ∃ clause, selector.Mentions clause ∧ clause.Utters parser word := by
  constructor
  · rintro ⟨clause, text, hmem, hutters⟩
    exact ⟨clause, (isOf_pieces p selector _ hmem).1, hutters⟩
  · rintro ⟨clause, hmentions, hutters⟩
    obtain ⟨list, text, hargument, hwritten, hspeaks⟩ := hutters
    exact ⟨clause, text, argument_mem_pieces hmentions h hwritten, list, text, hargument, hwritten, hspeaks⟩

/-- Words of the text for the host stand in it. -/
theorem NativeSpeaks.isInfix (h : selector.NativeSpeaks parser p word) :
    word.text <:+: (selector.native p).toList := by
  obtain ⟨piece, hmem, hspeaks⟩ := h
  have hpiece : piece.text <:+: (selector.native p).toList := by
    rw [← text_pieces, List.flatMap_def]
    exact List.infix_of_mem_flatten (List.mem_map_of_mem hmem)
  refine List.IsInfix.trans ?_ hpiece
  cases piece with
  | plain => exact hspeaks.elim
  | word own =>
    obtain rfl : own = word := hspeaks
    exact List.infix_refl _
  | argument clause text =>
    have hwritten := (isOf_pieces p selector _ hmem).2
    obtain ⟨list, text', -, hwritten', hspeaks⟩ := hspeaks
    obtain rfl := Option.some.inj (hwritten.symm.trans hwritten')
    exact hspeaks.isInfix.trans ⟨['('], [')'], rfl⟩

end Selector

/-- The reader comes by the branch of every selector of a list. -/
theorem Reader.exists_readBranch_of_mem {text : String} {list : List Selector}
    (h : Selector.read parser text = .ok list) (hmem : selector ∈ list) :
    ∃ s rest, Reaches parser (.list text.toList) (.branches s) ∧
      readBranch parser (readLists parser) s = .ok (some selector, rest) := by
  have hbranches : ∀ {s list}, readBranches parser (readLists parser) s = .ok list → selector ∈ list →
      ∃ s' rest, Reaches parser (.branches s) (.branches s') ∧
        readBranch parser (readLists parser) s' = .ok (some selector, rest) := by
    intro s list h hmem
    revert hmem
    refine readBranches_induction (motive := fun s list => selector ∈ list →
      ∃ s' rest, Reaches parser (.branches s) (.branches s') ∧
        readBranch parser (readLists parser) s' = .ok (some selector, rest)) ?_ ?_ h
    · intro s selector? rest hbranch _ hmem
      rw [Option.mem_toList.1 hmem] at hbranch
      exact ⟨s, rest, .refl, hbranch⟩
    · intro s selector? rest more others hbranch hcomma ih hmem
      rcases List.mem_append.1 hmem with hmem | hmem
      · rw [Option.mem_toList.1 hmem] at hbranch
        exact ⟨s, rest, .refl, hbranch⟩
      · obtain ⟨s', rest', hreaches, hbranch'⟩ := ih hmem
        exact ⟨s', rest', .head (.nextBranch hbranch hcomma) hreaches, hbranch'⟩
  rw [Selector.read_eq_ok] at h
  by_cases hblank : trim text.toList = []
  · rw [readLists_eq, readList, hblank] at h
    cases h
    cases hmem
  · rw [readLists_of_trim_ne hblank] at h
    obtain ⟨s, rest, hreaches, hbranch⟩ := hbranches h hmem
    exact ⟨s, rest, .head .list hreaches, hbranch⟩

/-- The vocabulary of a text for a host. For every text that reads as a list and every fully supported selector of
the list, the text for the host has outside of arguments the names of the host only, and the mark of a subject only
if the host knows it. In its arguments it has just the words that the branch of the selector has in its arguments.
So the whole text keeps to the vocabulary of the host, at every depth, if and only if the arguments of the branch
do. -/
theorem Selector.native_vocabulary {text : String} {list : List Selector}
    (hread : Selector.read parser text = .ok list) (hmem : selector ∈ list)
    (hsupported : selector.isSupported p = true) :
    (selector.pieces p).flatMap (·.text) = (selector.native p).toList ∧
      (∀ word, selector.NativeSpeaks parser p word → word.text <:+: (selector.native p).toList) ∧
      (∀ word, .word word ∈ selector.pieces p → word.IsHostWord p) ∧
        ∃ s rest, Reaches parser (.list text.toList) (.branches s) ∧
          readBranch parser (readLists parser) s = .ok (some selector, rest) ∧
            (∀ word, selector.NativeSpeaksInside parser p word ↔
              SpeaksInside parser (.parts true (skipBlank s)) word) ∧
              ((∀ word, selector.NativeSpeaks parser p word → word.IsHostWord p) ↔
                ∀ word, SpeaksInside parser (.parts true (skipBlank s)) word → word.IsHostWord p) := by
  have houtside : ∀ word, .word word ∈ selector.pieces p → word.IsHostWord p :=
    fun word hpiece => isOf_pieces p selector _ hpiece
  obtain ⟨s, rest, hreaches, hbranch⟩ := exists_readBranch_of_mem hread hmem
  have hinside : ∀ word, selector.NativeSpeaksInside parser p word ↔
      SpeaksInside parser (.parts true (skipBlank s)) word := by
    intro word
    obtain ⟨parts⟩ := selector
    exact (nativeSpeaksInside_iff hsupported).trans (speaksInside_iff (readBranch_eq_some hbranch)).symm
  refine ⟨text_pieces p selector, fun _ => NativeSpeaks.isInfix, houtside, s, rest, hreaches, hbranch, hinside,
    fun h word hspeaks => ?_, fun h word hspeaks => ?_⟩
  · exact h word (nativeSpeaks_iff.2 (.inr ((hinside word).2 hspeaks)))
  · rcases nativeSpeaks_iff.1 hspeaks with hpiece | hargument
    · exact houtside word hpiece
    · exact h word ((hinside word).1 hargument)

/-- The profile of a host that evaluates `:not` and knows `:matches` under a name of its own. -/
def Profile.renaming : Profile :=
  (Profile.reaching .not 4).withSupport .matchesAny ⟨4, some "-webkit-any"⟩

/-- The condition `:matches(a)`. -/
def PseudoClause.matchesLink : PseudoClause :=
  nestedClause .matchesAny "a".toList [⟨[⟨none, false, some ⟨"a"⟩, [], none⟩]⟩]

theorem Parser.lookup_matches :
    Parser.standard.registry.lookup PseudoClass.matchesAny.name = some (Entry.standard .matchesAny) := by
  decide +kernel

theorem Selector.read_matchesLink :
    Selector.read .standard ":matches(a)" = .ok [.ofPseudo .matchesLink] := by
  have hbalanced : Balanced "a".toList := .append (u := "a".toList) (v := []) (by decide) .nil
  exact read_nested Parser.lookup_matches rfl hbalanced (by decide) (by with_unfolding_all rfl)

/-- The condition `:not(:matches(a))`. -/
def PseudoClause.notMatching : PseudoClause :=
  nestedClause .not ":matches(a)".toList [.ofPseudo .matchesLink]

theorem Selector.read_notMatching :
    Selector.read .standard ":not(:matches(a))" = .ok [.ofPseudo .notMatching] := by
  have hinner : Balanced "a".toList := .append (u := "a".toList) (v := []) (by decide) .nil
  have hbalanced : Balanced ":matches(a)".toList :=
    .append (u := ":matches".toList) (v := "(a)".toList) (by decide) (.round hinner .nil)
  exact read_nested Parser.lookup_not rfl hbalanced (by decide +kernel) read_matchesLink

theorem Selector.isSupported_notMatching : (ofPseudo .notMatching).isSupported .renaming = true := by
  decide +kernel

/-- The name of `:matches` stands in the argument of `:not(:matches(a))`. -/
theorem PseudoClause.utters_notMatching :
    PseudoClause.notMatching.Utters .standard (.pseudo .matchesAny "matches") := by
  refine ⟨_, ":matches(a)", rfl, by decide +kernel, ?_⟩
  have hlink : readCombinator true false ":matches(a)".toList = .done none ":matches(a)".toList := by
    with_unfolding_all rfl
  have hname : ident? "matches(a)".toList = some (⟨"matches"⟩, "(a)".toList) := by with_unfolding_all rfl
  have hreaches : Reaches .standard (.list ":matches(a)".toList) (.clauses (.start none) ":matches(a)".toList) :=
    .head .list (.head .branch (.head (.part (by decide) hlink) (.single .clauses)))
  exact .outside hreaches (.pseudo hname Parser.lookup_matches)

namespace Selector

/-- The text for the host has the name of `:matches` in the argument of `:not(:matches(a))`. -/
theorem nativeSpeaksInside_notMatching :
    (ofPseudo .notMatching).NativeSpeaksInside .standard .renaming (.pseudo .matchesAny "matches") := by
  have hmentions : (ofPseudo .notMatching).Mentions .notMatching := .here List.mem_cons_self List.mem_cons_self
  exact (nativeSpeaksInside_iff isSupported_notMatching).2 ⟨_, hmentions, PseudoClause.utters_notMatching⟩

/-- A host is told of `:not` by its own name for it, and of what it does not call `:matches` in an argument, since
the branch has that name there. -/
theorem native_vocabulary_notMatching :
    Selector.read .standard ":not(:matches(a))" = .ok [.ofPseudo .notMatching] ∧
      (ofPseudo .notMatching).isSupported .renaming = true ∧
        (∀ word, .word word ∈ (ofPseudo .notMatching).pieces .renaming → word.IsHostWord .renaming) ∧
          ∃ s, Reaches .standard (.list ":not(:matches(a))".toList) (.branches s) ∧
            SpeaksInside .standard (.parts true (skipBlank s)) (.pseudo .matchesAny "matches") := by
  obtain ⟨-, -, houtside, s, rest, hreaches, -, hinside, -⟩ :=
    native_vocabulary read_notMatching List.mem_cons_self isSupported_notMatching
  exact ⟨read_notMatching, isSupported_notMatching, houtside, s, hreaches,
    (hinside _).1 nativeSpeaksInside_notMatching⟩

/-- A host that knows `:matches` by another name only is told of `:not(:matches(a))` as of a selector that it
supports in full, with `:matches` under the name in the source. -/
theorem native_notMatching :
    Selector.read .standard ":not(:matches(a))" = .ok [.ofPseudo .notMatching] ∧
      (ofPseudo .notMatching).isSupported .renaming = true ∧
        (ofPseudo .notMatching).native .renaming = "*:not(:matches(a))" ∧
          Profile.renaming.hostName .matchesAny = "-webkit-any" ∧
            ∃ word, (ofPseudo .notMatching).NativeSpeaks .standard .renaming word ∧
              word = .pseudo .matchesAny "matches" ∧ ¬ word.IsHostWord .renaming := by
  have hspeaks := nativeSpeaks_iff.2 (.inr nativeSpeaksInside_notMatching)
  exact ⟨read_notMatching, isSupported_notMatching, by decide +kernel, by decide +kernel, _, hspeaks, rfl,
    by decide +kernel⟩

end Selector
end TreeQuery
