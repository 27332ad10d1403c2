import TreeQuery.Proofs.Text.Nesting
import Mathlib.Data.List.DropRight
import Mathlib.Data.List.TakeWhile

/-!
# Names, blanks and strings are read back

A name that was read is read again in front of any text that does not go on with the name. A quoted
string is read back whatever it holds. A trimmed text is its own trimming.
-/

namespace TreeQuery

namespace Text

variable {s u v tail : List Char} {c : Char}

/-! ## Blanks -/

theorem skipBlank_append (s : List Char) :
    ∃ u, s = u ++ skipBlank s ∧ ∀ c ∈ u, isBlank c = true :=
  ⟨s.takeWhile isBlank, List.takeWhile_append_dropWhile.symm, fun _ h => List.mem_takeWhile_imp h⟩

theorem skipBlank_of_not_blank (h : isBlank c = false) (s : List Char) :
    skipBlank (c :: s) = c :: s := List.dropWhile_cons_of_neg (by simp [h])

theorem skipBlank_of_blank (h : isBlank c = true) (s : List Char) :
    skipBlank (c :: s) = skipBlank s := List.dropWhile_cons_of_pos h

/-- What follows the blanks does not start with one. -/
theorem not_blank_of_skipBlank (h : (skipBlank s).head? = some c) : isBlank c = false := by
  have hhead := List.head?_dropWhile_not isBlank s
  rw [show (s.dropWhile isBlank).head? = some c from h] at hhead
  simpa using hhead

/-- A text that does not start with a blank. -/
theorem skipBlank_eq_self (h : ∀ c, s.head? = some c → isBlank c = false) : skipBlank s = s := by
  cases s with
  | nil => rfl
  | cons c s => exact skipBlank_of_not_blank (h c rfl) s

theorem skipBlank_skipBlank (s : List Char) : skipBlank (skipBlank s) = skipBlank s :=
  skipBlank_eq_self fun _ h => not_blank_of_skipBlank h

theorem even_of_isBlank (h : ∀ c ∈ u, isBlank c = true) : Even u :=
  even_of_isPlain (List.all_eq_true.2 fun c hc => isPlain_of_isBlank (h c hc))

/-- A text of which neither end is blank. -/
structure IsTrimmed (s : List Char) : Prop where
  head : ∀ c, s.head? = some c → isBlank c = false
  last : ∀ c, s.getLast? = some c → isBlank c = false

theorem trim_eq_rdropWhile (s : List Char) : trim s = (skipBlank s).rdropWhile isBlank := rfl

theorem isTrimmed_trim (s : List Char) : IsTrimmed (trim s) := by
  rw [trim_eq_rdropWhile]
  refine ⟨fun c hc => ?_, fun c hc => ?_⟩
  · obtain ⟨v, hv⟩ := List.rdropWhile_prefix isBlank (l := skipBlank s)
    refine not_blank_of_skipBlank (s := s) ?_
    rw [← hv, List.head?_append, hc, Option.some_or]
  · obtain ⟨hne, rfl⟩ := List.mem_getLast?_eq_getLast hc
    exact Bool.eq_false_iff.2 (List.rdropWhile_last_not isBlank _ hne)

/-- A text without blanks at its ends is its own trimming. -/
theorem IsTrimmed.trim_eq (h : IsTrimmed s) : trim s = s := by
  rw [trim_eq_rdropWhile, skipBlank_eq_self h.head, List.rdropWhile_eq_self_iff]
  intro hne
  exact Bool.eq_false_iff.1 (h.last _ (List.getLast?_eq_some_getLast hne))

/-- A text is its trimming between blanks. -/
theorem trim_append (s : List Char) :
    ∃ u v, s = u ++ (trim s ++ v) ∧ (∀ c ∈ u, isBlank c = true) ∧ ∀ c ∈ v, isBlank c = true := by
  obtain ⟨u, hu, hublank⟩ := skipBlank_append s
  refine ⟨u, (skipBlank s).rtakeWhile isBlank, ?_, hublank, fun c hc => List.mem_rtakeWhile_imp hc⟩
  rw [trim_eq_rdropWhile, List.rdropWhile_append_rtakeWhile]
  exact hu

theorem length_trim_le (s : List Char) : (trim s).length ≤ s.length := by
  obtain ⟨u, v, hs, -, -⟩ := trim_append s
  have happ := congrArg List.length hs
  rw [List.length_append, List.length_append] at happ
  omega

/-! ## Quoted strings -/

/-- Up to the closing quote of its own, an escaped text is read back. -/
theorem closeQuote?_escape (s tail : List Char) :
    closeQuote? '"' (escape s ++ '"' :: tail) = some (s, tail) := by
  induction s with
  | nil => rfl
  | cons c s ih =>
    rw [escape]
    split
    · rw [List.cons_append, List.cons_append, closeQuote?, ih]
      rfl
    · next h =>
      rw [Bool.or_eq_true, beq_iff_eq, beq_iff_eq, not_or] at h
      rw [List.cons_append, closeQuote?_cons h.2, if_neg (by simpa using h.1), ih]
      rfl

/-- A quoted string is read back. -/
theorem quoted?_quote (s tail : List Char) : quoted? (quote s ++ tail) = some (s, tail) := by
  have hclose := closeQuote?_escape s tail
  rw [quote, List.append_assoc, List.cons_append, List.singleton_append, quoted?, if_pos (by decide), hclose]

theorem even_quote (s : List Char) : Even (quote s) := by
  have hread := quoted?_quote s []
  obtain ⟨u, hu, heven⟩ := exists_of_quoted? hread
  rw [List.append_nil, List.append_nil] at hu
  rwa [hu]

/-! ## Names -/

/-- A text that does not go on with a name. -/
def EndsName (s : List Char) : Prop := ∀ c, s.head? = some c → isIdentChar c = false ∧ c ≠ '\\'

/-- A character that is no backslash goes on with the name or ends it. -/
theorem identSpan_cons (hslash : c ≠ '\\') (s : List Char) :
    identSpan (c :: s) =
      if isIdentChar c then (identSpan s).map (c :: ·) id else ([], c :: s) := by
  rw [identSpan]
  · intro heq
    exact absurd heq hslash
  · intro d t heq
    exact absurd heq hslash

/-- The characters of a name are read again as one name. -/
theorem identSpan_append_of_endsName (s : List Char) (htail : EndsName tail) :
    identSpan ((identSpan s).1 ++ tail) = ((identSpan s).1, tail) := by
  have hnil : identSpan tail = ([], tail) := by
    cases tail with
    | nil => rfl
    | cons c tail =>
      obtain ⟨hc, hslash⟩ := htail c rfl
      rw [identSpan_cons hslash, if_neg (by simp [hc])]
  fun_induction identSpan s with
  | case1 => exact hnil
  | case2 => exact hnil
  | case3 c s ih =>
    rw [Prod.map_fst, List.cons_append, List.cons_append, identSpan, ih]
    rfl
  | case4 c s hnilc hconsc hc ih =>
    rw [Prod.map_fst, List.cons_append, identSpan_cons (ne_backslash_of_cases hnilc hconsc), if_pos hc, ih]
    rfl
  | case5 => exact hnil

end Text

namespace Ident

/-- A name as a reader leaves it: it is read back whole. -/
structure IsWhole (i : Ident) : Prop where
  span : Text.identSpan i.raw.toList = (i.raw.toList, [])
  ne_nil : i.raw.toList ≠ []

variable {i : Ident} {s rest tail : List Char} {c : Char}

/-- What is read as a name is a whole name in front of the rest. -/
theorem isWhole_of_read (h : Text.ident? s = some (i, rest)) :
    i.IsWhole ∧ s = i.raw.toList ++ rest := by
  have happ := Text.identSpan_append s
  have hnil : Text.EndsName [] := fun c hc => by cases hc
  have hspan := Text.identSpan_append_of_endsName s hnil
  unfold Text.ident? at h
  split at h
  · cases h
  · next d raw tail heq =>
    obtain ⟨rfl, rfl⟩ := Prod.mk.inj (Option.some.inj h)
    rw [heq] at happ hspan
    refine ⟨⟨?_, ?_⟩, ?_⟩
    · simpa using hspan
    · simp
    · simpa using happ.symm

namespace IsWhole

/-- A whole name is read back in front of a text that does not go on with it. -/
theorem ident?_append (h : i.IsWhole) (htail : Text.EndsName tail) :
    Text.ident? (i.raw.toList ++ tail) = some (i, tail) := by
  have hspan := Text.identSpan_append_of_endsName i.raw.toList htail
  rw [h.span] at hspan
  have hne := h.ne_nil
  unfold Text.ident?
  rw [hspan]
  cases hraw : i.raw.toList with
  | nil => exact absurd hraw hne
  | cons c raw =>
    dsimp only
    rw [← hraw, String.ofList_toList]

theorem even (h : i.IsWhole) : Text.Even i.raw.toList := by
  have heven := Text.even_identSpan i.raw.toList
  rwa [h.span] at heven

/-- A name starts with a character of names or with an escape. -/
theorem head (h : i.IsWhole) (hhead : i.raw.toList.head? = some c) :
    Text.isIdentChar c = true ∨ c = '\\' := by
  by_contra hnot
  rw [not_or, Bool.not_eq_true] at hnot
  have hspan := h.span
  -- a name with any other head would have been read as no name at all
  have hends : Text.EndsName i.raw.toList := by
    intro d hd
    rw [hhead] at hd
    obtain rfl := Option.some.inj hd
    exact hnot
  have hnil := Text.identSpan_append_of_endsName [] hends
  rw [show (Text.identSpan []).1 ++ i.raw.toList = i.raw.toList from rfl, hspan] at hnil
  exact h.ne_nil (Prod.mk.inj hnil).1

theorem head_ne (h : i.IsWhole) (hc : Text.isIdentChar c = false) (hslash : c ≠ '\\') :
    i.raw.toList.head? ≠ some c := by
  intro hhead
  rcases h.head hhead with hident | heq
  · rw [hc] at hident
    cases hident
  · exact hslash heq

theorem head?_append (h : i.IsWhole) (tail : List Char) :
    (i.raw.toList ++ tail).head? = i.raw.toList.head? := by
  obtain ⟨c, s, hraw⟩ := List.exists_cons_of_ne_nil h.ne_nil
  rw [hraw]
  rfl

end IsWhole
end Ident
end TreeQuery
