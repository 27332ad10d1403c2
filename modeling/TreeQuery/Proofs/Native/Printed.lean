import TreeQuery.Proofs.Native.Kept
import TreeQuery.Proofs.Reader.Legible

/-!
# The text for a host

The text for a host is the text of what is kept of the selector, condition by condition. This module
says what it looks like from outside: with which characters its pieces start, that a piece can stand in
front of the next one, and that a containment can stand inside another selector, since all its brackets
and quotes are closed and its commas stand inside of them.

An argument is printed as it was written. The one that ends in a backslash, because the escaped blank
after it was trimmed, would hide the closing parenthesis, so arguments must not end in one.
-/

namespace TreeQuery

open Text

/-- A profile under which a host knows every pseudo-class by its standard name. -/
def Profile.UsesStandardNames (p : Profile) : Prop := ∀ pseudo, p.hostName pseudo = pseudo.name

/-- An argument that the text for a host has, in the selector or in a containment of it. -/
inductive Selector.Prints (p : Profile) : Selector → String → Prop
  | argument {selector : Selector} {part : Part} {clause : PseudoClause} {text : String}
      (hpart : part ∈ selector.parts) (hclause : .pseudo clause ∈ part.clauses)
      (hsupported : clause.isSupported p = true) (hwritten : clause.written = some text) :
      Prints p selector text
  | within {selector inner : Selector} {part : Part} {text : String}
      (hpart : part ∈ selector.parts)
      (hinner : Selector.keptWithin p part.containment = some inner) (hprints : Prints p inner text) :
      Prints p selector text

/-- No argument of the part that the text for the host has ends in a backslash. -/
def Part.PrintsClosed (p : Profile) (part : Part) : Prop :=
  ∀ pseudo text, Clause.pseudo pseudo ∈ part.clauses → pseudo.isSupported p = true →
    pseudo.written = some text → EndsUnescaped text.toList

variable {p : Profile} {part : Part} {clause : Clause} {parts : List Part} {tail : List Char}

theorem Selector.printsClosed_of_mem {selector : Selector}
    (h : ∀ text, selector.Prints p text → EndsUnescaped text.toList) (hmem : part ∈ selector.parts) :
    part.PrintsClosed p :=
  fun _ text hclause hsupported hwritten => h text (.argument hmem hclause hsupported hwritten)

/-! ## The characters of the text -/

/-- The comparison in an attribute condition. -/
def Clause.comparison (comparator : Comparator) (operand : String) (ignoreCase : Bool) : List Char :=
  if comparator = .present then []
  else comparator.text.toList ++ (quote operand.toList ++ if ignoreCase then [' ', 'i'] else [])

/-- The argument of a pseudo-class in its parentheses. -/
def PseudoClause.group (clause : PseudoClause) : List Char :=
  (clause.written.map fun text => '(' :: (text.toList ++ [')'])).getD []

namespace Clause

theorem toList_native_id (name : Ident) : ((Clause.id name).native p).toList = '#' :: name.raw.toList := by
  rw [native, String.toList_append]
  rfl

theorem toList_native_class (name : Ident) :
    ((Clause.hasClass name).native p).toList = '.' :: name.raw.toList := by
  rw [native, String.toList_append]
  rfl

theorem toList_native_attribute {name : Ident} {comparator : Comparator} {operand : String}
    {ignoreCase : Bool} (h : (Clause.attribute name comparator operand ignoreCase).isSupported p = true) :
    ((Clause.attribute name comparator operand ignoreCase).native p).toList =
      '[' :: (name.raw.toList ++ (comparison comparator operand ignoreCase ++ [']'])) := by
  rw [native, if_pos h, comparison]
  cases comparator <;> cases ignoreCase <;> simp

theorem toList_native_pseudo (hnames : p.UsesStandardNames) {clause : PseudoClause}
    (h : (Clause.pseudo clause).isSupported p = true) :
    ((Clause.pseudo clause).native p).toList = ':' :: (clause.pseudo.name.toList ++ clause.group) := by
  have hsupported : clause.isSupported p = true := h
  rw [native, if_pos hsupported, hnames, PseudoClause.group]
  cases clause.written <;> simp

/-- A condition that the host does not evaluate is left out. -/
theorem native_of_not_supported (h : clause.isSupported p = false) : clause.native p = "" := by
  obtain _ | _ | _ | clause := clause
  · cases h
  · cases h
  · rw [native, if_neg (Bool.eq_false_iff.1 h)]
  · have hsupported : clause.isSupported p = false := h
    rw [native, if_neg (Bool.eq_false_iff.1 hsupported)]

/-- The texts of conditions in a row. -/
def nativeText (p : Profile) (clauses : List Clause) : List Char :=
  clauses.flatMap fun clause => (clause.native p).toList

theorem nativeText_cons (clause : Clause) (rest : List Clause) :
    nativeText p (clause :: rest) = (clause.native p).toList ++ nativeText p rest := rfl

theorem toList_join_native (clauses : List Clause) :
    (String.join (clauses.map (·.native p))).toList =
      nativeText p (clauses.filter (·.isSupported p)) := by
  induction clauses with
  | nil => rfl
  | cons clause rest ih =>
    rw [List.map_cons, String.join_cons, String.toList_append, ih, List.filter_cons]
    split
    · rfl
    · next h =>
      rw [native_of_not_supported (Bool.eq_false_iff.2 h)]
      rfl

/-- The text of a condition starts with the character of its kind. -/
theorem exists_cons_native (hnames : p.UsesStandardNames) (h : clause.isSupported p = true) :
    ∃ c s, (clause.native p).toList = c :: s ∧ c ∈ ['#', '.', '[', ':'] := by
  obtain name | name | _ | _ := clause
  · exact ⟨_, _, toList_native_id name, by decide⟩
  · exact ⟨_, _, toList_native_class name, by decide⟩
  · exact ⟨_, _, toList_native_attribute h, by decide⟩
  · exact ⟨_, _, toList_native_pseudo hnames h, by decide⟩

end Clause
/-! ## Pieces in front of each other -/

namespace Text

/-- A text that may stand behind a condition: it does not go on with a name, and it does not open a
parenthesis. -/
structure EndsClause (tail : List Char) : Prop where
  name : EndsName tail
  group : (skipBlank tail).head? ≠ some '('

/-- A text that may stand behind a part: nothing, or a blank in front of what is no parenthesis. -/
def EndsPart (tail : List Char) : Prop :=
  tail = [] ∨ ∃ s, tail = ' ' :: s ∧ (skipBlank s).head? ≠ some '('

/-- A text that starts like a part in a text for a host. -/
def StartsPart (s : List Char) : Prop :=
  ∃ c t, s = c :: t ∧ isBlank c = false ∧ (isIdentChar c = true ∨ c ∈ ['\\', '$', '*'])

theorem EndsPart.endsClause (h : EndsPart tail) : EndsClause tail := by
  rcases h with rfl | ⟨s, rfl, hs⟩
  · refine ⟨fun c hc => ?_, fun hc => ?_⟩
    · cases hc
    · cases hc
  · refine ⟨fun c hc => ?_, fun hc => ?_⟩
    · obtain rfl := Option.some.inj hc
      decide
    · exact hs hc

/-- Behind a part no condition follows. -/
theorem EndsPart.readClause?_eq_none (h : EndsPart tail) (parser : Parser) (nested : ListReader)
    (hasId : Bool) : Reader.readClause? parser nested hasId tail = none := by
  rcases h with rfl | ⟨s, rfl, -⟩ <;> rfl

/-- A condition may follow another one. -/
theorem endsClause_cons {c : Char} (h : c ∈ ['#', '.', '[', ':']) (s : List Char) :
    EndsClause (c :: s) := by
  have hc : isBlank c = false ∧ isIdentChar c = false ∧ c ≠ '\\' ∧ c ≠ '(' := by
    simp only [List.mem_cons, List.not_mem_nil, or_false] at h
    rcases h with rfl | rfl | rfl | rfl <;> decide
  obtain ⟨hblank, hident, hslash, hopen⟩ := hc
  refine ⟨fun d hd => ?_, fun hd => ?_⟩
  · obtain rfl := Option.some.inj hd
    exact ⟨hident, hslash⟩
  · rw [skipBlank_of_not_blank hblank] at hd
    exact hopen (Option.some.inj hd)

namespace StartsPart

variable {s : List Char}

theorem ne_nil (h : StartsPart s) : s ≠ [] := by
  obtain ⟨c, t, rfl, -⟩ := h
  exact List.cons_ne_nil c t

theorem skipBlank_eq (h : StartsPart s) : skipBlank s = s := by
  obtain ⟨c, t, rfl, hblank, -⟩ := h
  exact skipBlank_of_not_blank hblank t

/-- What starts a part is none of the characters that end a branch, combine or open a group. -/
theorem head_ne (h : StartsPart s) {c : Char} (hc : c ∈ [',', '>', '+', '~', '(']) :
    s.head? ≠ some c := by
  obtain ⟨d, t, rfl, -, hd⟩ := h
  rintro ⟨⟩
  simp only [List.mem_cons, List.not_mem_nil, or_false] at hc
  rcases hc with rfl | rfl | rfl | rfl | rfl <;> exact absurd hd (by decide)

end StartsPart
end Text

/-! ## Parts -/

/-- The first character of the part is no blank in the text for the host: a blank can start the name of
a subject, behind its mark only. -/
def Part.StartsUnblank (p : Profile) (part : Part) : Prop :=
  (part.kept p).subject = false → ∀ name, part.tag = some name →
    ∀ c, name.raw.toList.head? = some c → isBlank c = false

namespace Part

/-- The name of a part in the text. -/
def nameText (part : Part) : List Char := (part.tag.map (·.raw.toList)).getD ['*']

theorem toList_nativeHead (p : Profile) (part : Part) :
    (part.nativeHead p).toList =
      (if (part.kept p).subject then ['$'] else []) ++
        (part.nameText ++ Clause.nativeText p (part.kept p).clauses) := by
  rw [nativeHead, String.toList_append, String.toList_append, Clause.toList_join_native, List.append_assoc,
    nameText]
  congr 1
  · show _ = if part.subject && p.marksSubject then _ else _
    split <;> rfl
  · congr 1
    cases part.tag <;> rfl

theorem startsPart_nativeHead {quiet : Prop} (h : part.Legible p quiet) (hunblank : part.StartsUnblank p)
    (tail : List Char) : StartsPart ((part.nativeHead p).toList ++ tail) := by
  rw [toList_nativeHead]
  cases hsubject : (part.kept p).subject with
  | true => exact ⟨'$', _, rfl, by decide, by decide⟩
  | false =>
    rw [nameText]
    cases htag : part.tag with
    | none => exact ⟨'*', _, rfl, by decide, by decide⟩
    | some name =>
      obtain ⟨c, s, hraw⟩ := List.exists_cons_of_ne_nil (h.tag name htag).ne_nil
      have hhead : name.raw.toList.head? = some c := by rw [hraw, List.head?_cons]
      refine ⟨c, s ++ (Clause.nativeText p (part.kept p).clauses ++ tail), by simp [hraw],
        hunblank hsubject name htag c hhead, ?_⟩
      exact ((h.tag name htag).head hhead).imp_right fun hc => by simp [hc]

theorem native_eq (p : Profile) (part : Part) :
    (part.native p).toList =
      (part.nativeHead p).toList ++ (Selector.nativeWithin p part.containment).toList := by
  obtain ⟨combinator, subject, tag, clauses, containment⟩ := part
  rw [native, String.toList_append]
  rfl

end Part

theorem Selector.toList_nativeWithin (p : Profile) (containment : Option Selector) :
    (Selector.nativeWithin p containment).toList =
      ((Selector.keptWithin p containment).map fun inner => ' ' :: (inner.native p).toList).getD [] := by
  cases containment with
  | none => rw [nativeWithin]; rfl
  | some inner =>
    rw [nativeWithin, Selector.keptWithin, Option.filter_some]
    split
    · rw [String.toList_append]; rfl
    · rfl

/-- The parts of a selector that stands in a containment start with no blanks: their host knows the mark
of the subject. -/
theorem Part.startsUnblank_of_marksSubject {quiet : Prop} (hmarks : p.marksSubject = true)
    (h : part.Legible p quiet) : part.StartsUnblank p := by
  intro hsubject
  refine h.tagHead ?_
  simpa [Part.kept, hmarks] using hsubject

theorem Selector.startsPart_native {quiet : Prop} {selector : Selector} (h : selector.Legible p quiet)
    (hunblank : ∀ part ∈ selector.parts, part.StartsUnblank p) : StartsPart (selector.native p).toList := by
  cases h with
  | intro nonempty _ _ legible _ =>
    obtain ⟨part, rest, rfl⟩ := List.exists_cons_of_ne_nil nonempty
    rw [native, String.toList_append, Part.native_eq, List.append_assoc]
    exact Part.startsPart_nativeHead (legible part List.mem_cons_self)
      (hunblank part List.mem_cons_self) _

theorem Selector.endsPart_nativeWithin {containment : Option Selector}
    (h : ∀ inner, Selector.keptWithin p containment = some inner → inner.Legible p True) :
    EndsPart (Selector.nativeWithin p containment).toList := by
  rw [toList_nativeWithin]
  cases hkept : keptWithin p containment with
  | none => exact .inl rfl
  | some inner =>
    have hmarks : p.marksSubject = true := by
      obtain ⟨-, hsupported⟩ := Option.filter_eq_some_iff.1 hkept
      rw [Bool.and_eq_true] at hsupported
      exact hsupported.1
    have hinner := h inner hkept
    have hunblank : ∀ part ∈ inner.parts, part.StartsUnblank p := by
      cases hinner with
      | intro _ _ _ legible _ =>
        exact fun part hmem => Part.startsUnblank_of_marksSubject hmarks (legible part hmem)
    have hstarts := startsPart_native hinner hunblank
    refine .inr ⟨(inner.native p).toList, rfl, ?_⟩
    rw [hstarts.skipBlank_eq]
    exact hstarts.head_ne (by decide)

/-- The text of a combinator behind its first blank. -/
def Combinator.sign : Combinator → List Char
  | descendant => []
  | child => ['>', ' ']
  | nextSibling => ['+', ' ']
  | subsequentSibling => ['~', ' ']

theorem Combinator.toList_text (link : Combinator) : link.text.toList = ' ' :: link.sign := by
  cases link <;> rfl

theorem Part.toList_nativeRest_cons {link : Combinator} (hlink : part.combinator = some link)
    (rest : List Part) :
    (Part.nativeRest p (part :: rest)).toList =
      ' ' :: (link.sign ++ ((part.nativeHead p).toList ++
        ((Selector.nativeWithin p part.containment).toList ++ (Part.nativeRest p rest).toList))) := by
  rw [nativeRest, String.toList_append, String.toList_append, native_eq, nativeLink, hlink,
    List.append_assoc, List.append_assoc]
  show link.text.toList ++ _ = _
  rw [Combinator.toList_text, List.cons_append]

/-- What follows a part is nothing or a combinator with blanks around it. -/
theorem Part.endsPart_nativeRest {quiet : Prop} (hlinked : ∀ part ∈ parts, part.combinator ≠ none)
    (hlegible : ∀ part ∈ parts, part.Legible p quiet) (hunblank : ∀ part ∈ parts, part.StartsUnblank p) :
    EndsPart (Part.nativeRest p parts).toList := by
  cases parts with
  | nil => exact .inl rfl
  | cons part rest =>
    obtain ⟨link, hlink⟩ := Option.ne_none_iff_exists'.1 (hlinked part List.mem_cons_self)
    have hstarts := startsPart_nativeHead (hlegible part List.mem_cons_self)
      (hunblank part List.mem_cons_self)
      ((Selector.nativeWithin p part.containment).toList ++ (Part.nativeRest p rest).toList)
    rw [toList_nativeRest_cons hlink]
    refine .inr ⟨_, rfl, ?_⟩
    cases link with
    | descendant =>
      rw [Combinator.sign, List.nil_append, hstarts.skipBlank_eq]
      exact hstarts.head_ne (by decide)
    | child | nextSibling | subsequentSibling =>
      rw [Combinator.sign, List.cons_append, skipBlank_of_not_blank (by decide)]
      simp

/-! ## Calm texts -/

/-- A text that ends outside of brackets and quotes, with no commas outside of them. -/
structure Text.Calm (s : List Char) : Prop where
  run : Nesting.start.run s = .start
  quiet : Quiet s

theorem Text.Even.calm {s : List Char} (h : Even s) : Calm s := ⟨h.run 0, h.passes 0⟩

theorem Text.Calm.append {u v : List Char} (hu : Calm u) (hv : Calm v) : Calm (u ++ v) := by
  refine ⟨?_, passes_append.2 ⟨hu.quiet, ?_⟩⟩
  · rw [Nesting.run_append, hu.run, hv.run]
  · rw [hu.run]
    exact hv.quiet

theorem PseudoClause.calm_group {clause : PseudoClause} (h : clause.Legible p True)
    (hclosed : ∀ text, clause.written = some text → EndsUnescaped text.toList) : Calm clause.group := by
  rw [group]
  cases hwritten : clause.written with
  | none => exact even_nil.calm
  | some text =>
    have hargument := h.written text hwritten
    refine ⟨run_group (hargument.closed (hclosed text hwritten)), ?_⟩
    refine passes_cons.2 ⟨fun hcomma => absurd hcomma.2 (by decide), passes_append.2
      ⟨hargument.quiet trivial, passes_cons.2 ⟨fun hcomma => absurd hcomma.2 (by decide), passes_nil _ _⟩⟩⟩

/-- The standard name of a pseudo-class is a whole name. -/
theorem PseudoClass.isWhole_name (pseudo : PseudoClass) : Ident.IsWhole ⟨pseudo.name⟩ := by
  have hall : ∀ pseudo ∈ PseudoClass.all, identSpan pseudo.name.toList = (pseudo.name.toList, []) ∧
      pseudo.name.toList ≠ [] := by decide +kernel
  obtain ⟨hspan, hne⟩ := hall pseudo pseudo.mem_all
  exact ⟨hspan, hne⟩

namespace Clause

theorem calm_native (hnames : p.UsesStandardNames) (h : clause.Legible p True)
    (hsupported : clause.isSupported p = true)
    (hclosed : ∀ pseudo text, clause = .pseudo pseudo → pseudo.written = some text →
      EndsUnescaped text.toList) : Calm (clause.native p).toList := by
  obtain name | name | ⟨name, comparator, operand, ignoreCase⟩ | pseudo := clause
  · rw [toList_native_id]
    exact (Ident.IsWhole.even h).cons (by decide) |>.calm
  · rw [toList_native_class]
    exact (Ident.IsWhole.even h).cons (by decide) |>.calm
  · rw [toList_native_attribute hsupported]
    have hcomparison : Even (comparison comparator operand ignoreCase) := by
      rw [comparison]
      split
      · exact even_nil
      · refine .append ?_ ((even_quote _).append ?_)
        · cases comparator <;> exact even_of_isPlain (by decide)
        · split
          · exact even_of_isPlain (by decide)
          · exact even_nil
    have hinside := (h.1.even.append hcomparison).bracket
    rw [List.append_assoc] at hinside
    exact hinside.calm
  · rw [toList_native_pseudo hnames hsupported]
    have hname := (pseudo.pseudo.isWhole_name.even.cons (c := ':') (by decide)).calm
    exact hname.append (PseudoClause.calm_group h fun text htext => hclosed pseudo text rfl htext)

end Clause

theorem Part.calm_nativeHead (hnames : p.UsesStandardNames) (h : part.Legible p True)
    (hclosed : part.PrintsClosed p) : Calm (part.nativeHead p).toList := by
  have hmark : Even (if (part.kept p).subject then ['$'] else []) := by
    split
    · exact even_of_isPlain (by decide)
    · exact even_nil
  have hname : Even part.nameText := by
    rw [nameText]
    cases htag : part.tag with
    | none => exact even_of_isPlain (by decide)
    | some name => exact (h.tag name htag).even
  have hclauses : ∀ clauses : List Clause, (∀ clause ∈ clauses, clause ∈ (part.kept p).clauses) →
      Calm (Clause.nativeText p clauses) := by
    intro clauses hmem
    induction clauses with
    | nil => exact even_nil.calm
    | cons clause rest ih =>
      obtain ⟨hclause, hsupported⟩ := List.mem_filter.1 (hmem clause List.mem_cons_self)
      have hrest := ih fun other hother => hmem other (List.mem_cons_of_mem _ hother)
      rw [Clause.nativeText_cons]
      refine .append (Clause.calm_native hnames (h.clauses clause hclause) hsupported ?_) hrest
      rintro pseudo text rfl
      exact hclosed pseudo text hclause hsupported
  rw [toList_nativeHead]
  exact hmark.calm.append (hname.calm.append (hclauses _ fun _ => id))

theorem Part.calm_nativeRest (hlinked : ∀ part ∈ parts, part.combinator ≠ none)
    (hhead : ∀ part ∈ parts, Calm (part.nativeHead p).toList)
    (hwithin : ∀ part ∈ parts, Calm (Selector.nativeWithin p part.containment).toList) :
    Calm (Part.nativeRest p parts).toList := by
  induction parts with
  | nil => exact even_nil.calm
  | cons part rest ih =>
    obtain ⟨link, hlink⟩ := Option.ne_none_iff_exists'.1 (hlinked part List.mem_cons_self)
    have hsign : Even (' ' :: link.sign) := by
      cases link <;> exact even_of_isPlain (by decide)
    have hrest := ih (fun other hmem => hlinked other (List.mem_cons_of_mem _ hmem))
      (fun other hmem => hhead other (List.mem_cons_of_mem _ hmem))
      (fun other hmem => hwithin other (List.mem_cons_of_mem _ hmem))
    rw [toList_nativeRest_cons hlink, ← List.cons_append]
    exact hsign.calm.append ((hhead part List.mem_cons_self).append
      ((hwithin part List.mem_cons_self).append hrest))

/-- The text of a selector that was read in a containment can stand in one again. -/
theorem Selector.calm_native (hnames : p.UsesStandardNames) {quiet : Prop} {selector : Selector}
    (h : selector.Legible p quiet) (hquiet : quiet)
    (hclosed : ∀ text, selector.Prints p text → EndsUnescaped text.toList) :
    Calm (selector.native p).toList := by
  induction h with
  | intro nonempty linked subject legible contained ih =>
    next quiet parts =>
    have hhead : ∀ part ∈ parts, Calm (part.nativeHead p).toList := by
      intro part hmem
      exact Part.calm_nativeHead hnames ((legible part hmem).mono fun _ => hquiet)
        (printsClosed_of_mem hclosed hmem)
    have hwithin : ∀ part ∈ parts, Calm (nativeWithin p part.containment).toList := by
      intro part hmem
      rw [toList_nativeWithin]
      cases hkept : keptWithin p part.containment with
      | none => exact even_nil.calm
      | some inner =>
        obtain ⟨hinner, -⟩ := Option.filter_eq_some_iff.1 hkept
        have hcalm := ih part hmem inner hinner trivial fun text hprints =>
          hclosed text (.within hmem hkept hprints)
        -- a containment stands behind a blank
        have hblank : Even [' '] := even_of_isPlain (by decide)
        exact hblank.calm.append hcalm
    obtain ⟨part, rest, rfl⟩ := List.exists_cons_of_ne_nil nonempty
    rw [native, String.toList_append, Part.native_eq]
    refine .append (.append (hhead part List.mem_cons_self) (hwithin part List.mem_cons_self)) ?_
    exact Part.calm_nativeRest linked (fun other hmem => hhead other (List.mem_cons_of_mem _ hmem))
      (fun other hmem => hwithin other (List.mem_cons_of_mem _ hmem))

end TreeQuery
