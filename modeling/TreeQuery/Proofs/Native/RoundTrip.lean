import TreeQuery.Proofs.Native.ReadBack
import TreeQuery.Proofs.Reader.BareBlanks
import TreeQuery.Proofs.Reader.Profiles

/-!
# The round trip of a supported selector

A selector that a host evaluates as a whole reads back from its text for the host as a selector with the
same nodes, if the blanks of the text that it was read from are bare. Without blanks in its names and
backslashes at the ends of its arguments nothing of the text is lost (`Selector.Lasting`), so the text
reads as what is kept of the selector: all of it, but for marks of subjects, which do not matter to the
nodes. A parser that counts classes may overflow on it, if the profile of the host does not count them.
-/

namespace TreeQuery

open Text

/-! ## The end of the text -/

namespace Text

variable {u v : List Char}

/-- The text does not end in a blank. -/
def EndsUnblank (s : List Char) : Prop := ∀ c, s.getLast? = some c → isBlank c = false

theorem EndsUnblank.of_forall (h : ∀ c ∈ u, isBlank c = false) : EndsUnblank u :=
  fun c hc => h c (List.mem_of_getLast? hc)

theorem EndsUnblank.of_all (h : (u.all fun c => !isBlank c) = true) : EndsUnblank u :=
  .of_forall fun c hc => by simpa using List.all_eq_true.1 h c hc

theorem EndsUnblank.append_of_ne_nil (u : List Char) (hne : v ≠ []) (hv : EndsUnblank v) :
    EndsUnblank (u ++ v) := by
  intro c hc
  rw [List.getLast?_append, List.getLast?_eq_some_getLast hne, Option.some_or] at hc
  exact hv c (by rw [List.getLast?_eq_some_getLast hne, hc])

theorem EndsUnblank.append (hu : EndsUnblank u) (hv : EndsUnblank v) : EndsUnblank (u ++ v) := by
  by_cases hne : v = []
  · rwa [hne, List.append_nil]
  · exact .append_of_ne_nil u hne hv

end Text

variable {p : Profile} {part : Part} {clause : Clause} {parts : List Part} {quiet : Prop}

theorem Clause.endsUnblank_native (hnames : p.UsesStandardNames) (h : clause.Bare) :
    EndsUnblank (clause.native p).toList := by
  by_cases hsupported : clause.isSupported p = true
  · obtain name | name | ⟨name, comparator, operand, ignoreCase⟩ | pseudo := clause
    · rw [toList_native_id]
      exact .append (u := ['#']) (.of_all (by decide)) (.of_forall h)
    · rw [toList_native_class]
      exact .append (u := ['.']) (.of_all (by decide)) (.of_forall h)
    · rw [toList_native_attribute hsupported, ← List.append_assoc, ← List.cons_append]
      exact .append_of_ne_nil _ (List.cons_ne_nil _ _) (.of_all (by decide))
    · rw [toList_native_pseudo hnames hsupported]
      have hname : ∀ pseudo ∈ PseudoClass.all,
          ((':' :: pseudo.name.toList).all fun c => !isBlank c) = true := by decide +kernel
      refine .append (u := ':' :: pseudo.pseudo.name.toList) (.of_all (hname _ pseudo.pseudo.mem_all)) ?_
      rw [PseudoClause.group]
      cases pseudo.written with
      | none => exact .of_all rfl
      | some text =>
        rw [Option.map_some, Option.getD_some, ← List.cons_append]
        exact .append_of_ne_nil _ (List.cons_ne_nil _ _) (.of_all (by decide))
  · rw [native_of_not_supported (Bool.eq_false_iff.2 hsupported)]
    exact .of_all rfl

namespace Part

theorem Bare.startsUnblank (h : part.Bare) : part.StartsUnblank p :=
  fun _ name hname c hc => h.tag name hname c (List.mem_of_head? hc)

theorem endsUnblank_nativeHead (hnames : p.UsesStandardNames) (h : part.Bare) :
    EndsUnblank (part.nativeHead p).toList := by
  have hclauses : ∀ clauses : List Clause, (∀ clause ∈ clauses, clause.Bare) →
      EndsUnblank (Clause.nativeText p clauses) := by
    intro clauses hbare
    induction clauses with
    | nil => exact .of_all rfl
    | cons clause rest ih =>
      rw [List.forall_mem_cons] at hbare
      rw [Clause.nativeText_cons]
      exact (Clause.endsUnblank_native hnames hbare.1).append (ih hbare.2)
  have hname : EndsUnblank part.nameText := by
    rw [nameText]
    cases htag : part.tag with
    | none => exact .of_all (by decide)
    | some name => exact .of_forall (h.tag name htag)
  rw [toList_nativeHead]
  refine .append ?_ (hname.append (hclauses _ fun clause hmem => h.clauses clause (List.mem_filter.1 hmem).1))
  split
  · exact .of_all (by decide)
  · exact .of_all rfl

theorem endsUnblank_nativeRest (hlinked : ∀ part ∈ parts, part.combinator ≠ none)
    (hne : ∀ part ∈ parts, (part.nativeHead p).toList ≠ [])
    (hhead : ∀ part ∈ parts, EndsUnblank (part.nativeHead p).toList)
    (hwithin : ∀ part ∈ parts, EndsUnblank (Selector.nativeWithin p part.containment).toList) :
    EndsUnblank (Part.nativeRest p parts).toList := by
  induction parts with
  | nil => exact .of_all rfl
  | cons part rest ih =>
    rw [List.forall_mem_cons] at hlinked hne hhead hwithin
    obtain ⟨link, hlink⟩ := Option.ne_none_iff_exists'.1 hlinked.1
    have hpart := hhead.1.append (hwithin.1.append (ih hlinked.2 hne.2 hhead.2 hwithin.2))
    rw [toList_nativeRest_cons hlink, ← List.cons_append]
    exact .append_of_ne_nil _ (List.append_ne_nil_of_left_ne_nil hne.1 _) hpart

end Part

namespace Selector

variable {selector : Selector}

theorem Bare.startsUnblank (h : selector.Bare) : ∀ part ∈ selector.parts, part.StartsUnblank p := by
  cases h with
  | intro bare _ => exact fun part hmem => (bare part hmem).startsUnblank

/-- No blank ends the text of a bare selector. -/
theorem Bare.endsUnblank_native (hnames : p.UsesStandardNames) (h : selector.Bare)
    (hlegible : selector.Legible p quiet) : EndsUnblank (selector.native p).toList := by
  induction h generalizing quiet with
  | @intro parts bare contained ih =>
    cases hlegible with
    | intro nonempty linked subject legible within =>
      have hhead : ∀ part ∈ parts, EndsUnblank (part.nativeHead p).toList :=
        fun part hmem => Part.endsUnblank_nativeHead hnames (bare part hmem)
      have hwithin : ∀ part ∈ parts, EndsUnblank (nativeWithin p part.containment).toList := by
        intro part hmem
        rw [toList_nativeWithin]
        cases hkept : keptWithin p part.containment with
        | none => exact .of_all rfl
        | some inner =>
          obtain ⟨hinner, -⟩ := Option.filter_eq_some_iff.1 hkept
          have hlegible := within part hmem inner hinner
          have hstarts := startsPart_native (p := p) hlegible (contained part hmem inner hinner).startsUnblank
          show EndsUnblank ([' '] ++ (inner.native p).toList)
          exact .append_of_ne_nil _ hstarts.ne_nil (ih part hmem inner hinner hlegible)
      have hne : ∀ part ∈ parts, (part.nativeHead p).toList ≠ [] := by
        intro part hmem
        have hstarts := Part.startsPart_nativeHead (p := p) (legible part hmem) (bare part hmem).startsUnblank []
        rw [List.append_nil] at hstarts
        exact hstarts.ne_nil
      obtain ⟨first, rest, rfl⟩ := List.exists_cons_of_ne_nil nonempty
      rw [List.forall_mem_cons] at hhead hwithin hne
      rw [native, String.toList_append, Part.native_eq]
      exact (hhead.1.append hwithin.1).append
        (Part.endsUnblank_nativeRest linked hne.2 hhead.2 hwithin.2)

/-- No argument in the text of a bare selector ends in a backslash. -/
theorem Bare.endsUnescaped_of_prints {text : String} (h : selector.Bare) (hprints : selector.Prints p text) :
    EndsUnescaped text.toList := by
  induction hprints with
  | argument hpart hclause _ hwritten =>
    cases h with
    | intro bare _ => exact (bare _ hpart).clauses _ hclause _ hwritten
  | within hpart hinner _ ih =>
    cases h with
    | intro _ contained => exact ih (contained _ hpart _ (Option.filter_eq_some_iff.1 hinner).1)

theorem Bare.lasting (hnames : p.UsesStandardNames) (h : selector.Bare) (hlegible : selector.Legible p quiet) :
    selector.Lasting p :=
  ⟨h.startsUnblank, fun _ => h.endsUnescaped_of_prints, h.endsUnblank_native hnames hlegible⟩

/-- A selector that is read from a text with bare blanks lasts. -/
theorem lasting_of_read (hnames : p.UsesStandardNames) {text : String} {list : List Selector}
    (hread : Selector.read ⟨.standard, p⟩ text = .ok list) (hblanks : BareBlanks text.toList)
    (hmem : selector ∈ list) : selector.Lasting p := by
  have hbare := Reader.readsBare_readLists _ _ _ (Selector.read_eq_ok.1 hread) hblanks selector hmem
  exact hbare.lasting hnames (legible_of_read hread hmem)

/-- A selector that a host evaluates as a whole reads back from its text for the host, as one selector with the
same nodes in every tree. The parser without an evaluator reads the text alike, but for one thing: it counts
classes. If the profile of the host does not, a part may have one lookup too many for that parser. -/
theorem read_native_of_isSupported (hnames : p.UsesStandardNames) {text : String} {list : List Selector}
    (hread : Selector.read ⟨.standard, p⟩ text = .ok list) (hblanks : BareBlanks text.toList)
    (hmem : selector ∈ list) (hsupported : selector.isSupported p = true) :
    ∃ copy, Selector.read ⟨.standard, p⟩ (selector.native p) = .ok [copy] ∧
      (Selector.read .standard (selector.native p) = .ok [copy] ∨
        p.classLookup = false ∧ Selector.read .standard (selector.native p) = .error .overflow) ∧
      ∀ sc origins node, copy.accepts sc origins node = selector.accepts sc origins node := by
  have hlasting := lasting_of_read hnames hread hblanks hmem
  have hback := read_eq_ok.2 (standardLists_native hnames (legible_of_read hread hmem) hlasting)
  refine ⟨selector.kept p, hback, ?_, fun sc origins node => by rw [accepts_kept_eq hsupported]⟩
  rcases read_eq_or_overflow .standard .manual p (selector.native p) with heq | ⟨-, hclasses, hoverflow⟩ |
    ⟨hmanual, -, -⟩
  · exact .inl (heq.trans hback)
  · exact .inr ⟨hclasses, hoverflow⟩
  · cases hmanual

end Selector

/-- The profile of an evaluator that knows one pseudo-class at the lowest tier. -/
def Profile.knowing (pseudo : PseudoClass) : Profile :=
  { Profile.manual with pseudoSupport := [(pseudo, ⟨1, none⟩)], hasEvaluator := true }

theorem Profile.usesStandardNames_knowing (pseudo : PseudoClass) :
    (Profile.knowing pseudo).UsesStandardNames := by
  intro other
  rw [hostName, support?, knowing, List.lookup_cons]
  split <;> rfl

/-- The selector `li:lang(de) > p`. -/
def Selector.germanParagraph : Selector :=
  ⟨[⟨none, false, some ⟨"li"⟩, [.pseudo ⟨.lang, false, some "de", .text "de"⟩], none⟩,
    ⟨some .child, false, some ⟨"p"⟩, [], none⟩]⟩

/-- The blanks of a selector are not those of its text for the host, and its nodes are the same. -/
theorem Selector.read_native_germanParagraph :
    (Profile.knowing .lang).UsesStandardNames ∧
      Selector.read ⟨.standard, .knowing .lang⟩ "li:lang( de )>p" = .ok [germanParagraph] ∧
        BareBlanks "li:lang( de )>p".toList ∧ germanParagraph.isSupported (.knowing .lang) = true ∧
          germanParagraph.native (.knowing .lang) = "li:lang(de) > p" ∧
            ∃ copy, Selector.read .standard (germanParagraph.native (.knowing .lang)) = .ok [copy] ∧
              ∀ sc origins node, copy.accepts sc origins node = germanParagraph.accepts sc origins node := by
  have hnames := Profile.usesStandardNames_knowing .lang
  have hread : Selector.read ⟨.standard, .knowing .lang⟩ "li:lang( de )>p" = .ok [germanParagraph] := by
    with_unfolding_all rfl
  have hblanks : BareBlanks "li:lang( de )>p".toList := by decide
  have hsupported : germanParagraph.isSupported (.knowing .lang) = true := by decide +kernel
  obtain ⟨copy, -, hback | ⟨hclasses, -⟩, hsame⟩ :=
    read_native_of_isSupported hnames hread hblanks List.mem_cons_self hsupported
  · exact ⟨hnames, hread, hblanks, hsupported, by decide +kernel, copy, hback, hsame⟩
  · cases hclasses

/-- The profile of a tree without an index of classes. -/
def Profile.withoutClasses : Profile := { Profile.manual with classLookup := false }

/-- No blank stands in the text of a class and attribute conditions. -/
theorem bareBlanks_classAndNameTests (n : Nat) : BareBlanks (classAndNameTestsText n).toList := by
  have hclass : ".c".toList.any isBlank = false := by decide
  have hnameTest : "[name=x]".toList.any isBlank = false := by decide
  have hnone : ∀ c ∈ (classAndNameTestsText n).toList, isBlank c = false := by
    rw [classAndNameTestsText, String.toList_ofList]
    intro c hc
    rcases List.mem_append.1 hc with hc | hc
    · exact Bool.eq_false_iff.2 (List.any_eq_false.1 hclass c hc)
    · obtain ⟨test, htest, hc⟩ := List.mem_flatten.1 hc
      rw [List.eq_of_mem_replicate htest] at hc
      exact Bool.eq_false_iff.2 (List.any_eq_false.1 hnameTest c hc)
  intro u c v htext hblank
  rw [hnone c (htext ▸ List.mem_append_right _ List.mem_cons_self)] at hblank
  cases hblank

/-- Of such a selector a host is told everything. -/
theorem Selector.kept_classAndNameTests (p : Profile) (n : Nat) :
    (classAndNameTests n).isSupported p = true ∧ (classAndNameTests n).kept p = classAndNameTests n := by
  have hclauses : ∀ clause ∈ Clause.hasClass ⟨"c"⟩ :: List.replicate n Clause.nameTest,
      clause.isSupported p = true := by
    refine List.forall_mem_cons.2 ⟨rfl, fun clause hmem => ?_⟩
    rw [List.eq_of_mem_replicate hmem]
    rfl
  have hsupported := List.all_eq_true.2 hclauses
  rw [← Clause.allSupported_eq_all] at hsupported
  constructor
  · simp [classAndNameTests, isSupported_iff, hasLeadingCombinator, Part.isSupported, hsupported,
      isSupportedWithin]
  · simp [classAndNameTests, kept, Part.keptChain, Part.kept, Part.detached, keptWithin,
      List.filter_eq_self.2 hclauses]

/-- With 255 such conditions the class is the 256th lookup. So the selector is read for a tree without an index
of classes, which is told all of it, and the text overflows where classes are counted. -/
theorem Selector.read_native_overflow :
    Profile.withoutClasses.UsesStandardNames ∧
      Selector.read ⟨.standard, .withoutClasses⟩ (classAndNameTestsText 255) = .ok [classAndNameTests 255] ∧
        BareBlanks (classAndNameTestsText 255).toList ∧
          (classAndNameTests 255).isSupported .withoutClasses = true ∧
            Selector.read .standard ((classAndNameTests 255).native .withoutClasses) = .error .overflow := by
  have hnames : Profile.withoutClasses.UsesStandardNames := fun _ => rfl
  have hread : Selector.read ⟨.standard, .withoutClasses⟩ (classAndNameTestsText 255) =
      .ok [classAndNameTests 255] := read_classAndNameTests (by decide)
  have hblanks := bareBlanks_classAndNameTests 255
  obtain ⟨hsupported, hkept⟩ := kept_classAndNameTests .withoutClasses 255
  have hlasting := lasting_of_read hnames hread hblanks List.mem_cons_self
  have hback := read_eq_ok.2 (standardLists_native hnames (legible_of_read hread List.mem_cons_self) hlasting)
  rw [hkept] at hback
  refine ⟨hnames, hread, hblanks, hsupported, read_eq_overflow (fun _ => rfl) hback List.mem_cons_self
    List.mem_cons_self ?_⟩
  rw [Part.directLookups_classAndNameTests]
  decide

end TreeQuery
