import TreeQuery.Text.Blank

/-!
# The pieces of a text

The pieces of a text between separators are a split as the library has it. A piece is a stretch without a
separator that reaches to a separator or to the end of the text on both sides (`mem_pieces_iff`). The words
of an attribute value are its pieces between word breaks, the empty ones left out.
-/

namespace TreeQuery.Text

variable {sep : Char → Bool} {s a b : List Char} {c : Char}

theorem pieces_eq_splitOnP (sep : Char → Bool) (s : List Char) : pieces sep s = s.splitOnP sep := by
  induction s with
  | nil => rfl
  | cons c s ih => rw [pieces, ih, List.splitOnP_cons_eq_if_modifyHead]

/-- A text without a separator is one piece. -/
theorem pieces_of_forall (h : ∀ c ∈ s, sep c = false) : pieces sep s = [s] := by
  rw [pieces_eq_splitOnP, List.splitOnP_eq_singleton h]

/-- The pieces on the two sides of a separator have nothing to do with each other. -/
theorem pieces_append_cons (a b : List Char) (h : sep c = true) :
    pieces sep (a ++ c :: b) = pieces sep a ++ pieces sep b := by
  rw [pieces_eq_splitOnP, List.splitOnP_append_cons a b h, pieces_eq_splitOnP, pieces_eq_splitOnP]

/-- A text has no separator, or it has a first one. -/
theorem forall_or_exists_first (sep : Char → Bool) (s : List Char) :
    (∀ c ∈ s, sep c = false) ∨
      ∃ a c b, s = a ++ c :: b ∧ (∀ d ∈ a, sep d = false) ∧ sep c = true := by
  by_cases h : ∃ c ∈ s, sep c = true
  · obtain ⟨x, hx, hsep⟩ := h
    obtain ⟨c, a, b, ha, hc, hs, -⟩ := List.exists_of_eraseP hx hsep
    exact .inr ⟨a, c, b, hs, fun d hd => Bool.eq_false_iff.2 (ha d hd), hc⟩
  · exact .inl fun c hc => Bool.eq_false_iff.2 fun hsep => h ⟨c, hc, hsep⟩

/-- What holds of the texts without a separator, and of a text if it holds behind its first separator, holds
of all texts. -/
theorem pieces_induction (sep : Char → Bool) {P : List Char → Prop}
    (last : ∀ s, (∀ c ∈ s, sep c = false) → P s)
    (step : ∀ a c b, (∀ d ∈ a, sep d = false) → sep c = true → P b → P (a ++ c :: b))
    (s : List Char) : P s := by
  induction hn : s.length using Nat.strongRecOn generalizing s with
  | ind n ih =>
    rcases forall_or_exists_first sep s with hnone | ⟨a, c, b, rfl, ha, hc⟩
    · exact last s hnone
    · have hlength : b.length < n := by
        simp only [List.length_append, List.length_cons] at hn
        omega
      exact step a c b ha hc (ih _ hlength b rfl)

/-- No piece has a separator in it. -/
theorem forall_of_mem_pieces (h : a ∈ pieces sep s) : ∀ c ∈ a, sep c = false := by
  induction s using pieces_induction sep with
  | last s hs =>
    rw [pieces_of_forall hs, List.mem_singleton] at h
    exact h ▸ hs
  | step lead c rest hlead hc ih =>
    rw [pieces_append_cons lead rest hc, pieces_of_forall hlead, List.singleton_append,
      List.mem_cons] at h
    rcases h with rfl | h
    · exact hlead
    · exact ih h

/-! ## Where pieces stand -/

/-- The text is empty or starts with a character of a kind. -/
def StartsWith (kind : Char → Bool) (s : List Char) : Prop := ∀ c, s.head? = some c → kind c = true

theorem startsWith_nil (kind : Char → Bool) : StartsWith kind [] := fun _ h => nomatch h

theorem startsWith_cons {kind : Char → Bool} : StartsWith kind (c :: s) ↔ kind c = true :=
  ⟨fun h => h c rfl, fun h _ hd => Option.some.inj hd ▸ h⟩

theorem StartsWith.append {kind : Char → Bool} (ha : StartsWith kind a) (hb : StartsWith kind b) :
    StartsWith kind (a ++ b) := by
  cases a with
  | nil => exact hb
  | cons d a => exact startsWith_cons.2 (startsWith_cons.1 ha)

/-- The pieces of a text are the stretches without a separator between separators or the ends. -/
theorem mem_pieces_iff : a ∈ pieces sep s ↔ (∀ c ∈ a, sep c = false) ∧ ∃ lead rest,
    s = lead ++ a ++ rest ∧ StartsWith sep lead.reverse ∧ StartsWith sep rest := by
  constructor
  · intro h
    refine ⟨forall_of_mem_pieces h, ?_⟩
    induction s using pieces_induction sep with
    | last s hs =>
      rw [pieces_of_forall hs, List.mem_singleton] at h
      exact ⟨[], [], by simp [h], startsWith_nil sep, startsWith_nil sep⟩
    | step first c b hfirst hc ih =>
      rw [pieces_append_cons first b hc, pieces_of_forall hfirst, List.singleton_append,
        List.mem_cons] at h
      rcases h with rfl | h
      · exact ⟨[], c :: b, by simp, startsWith_nil sep, startsWith_cons.2 hc⟩
      · obtain ⟨lead, rest, rfl, hlead, hrest⟩ := ih h
        refine ⟨first ++ c :: lead, rest, by simp, ?_, hrest⟩
        rw [List.reverse_append, List.reverse_cons, List.append_assoc]
        exact hlead.append (startsWith_cons.2 hc)
  · rintro ⟨ha, lead, rest, rfl, hlead, hrest⟩
    -- what stands behind the piece splits off, and then what stands before it
    have hfront : a ∈ pieces sep (a ++ rest) := by
      cases rest with
      | nil => simp [pieces_of_forall ha]
      | cons c rest =>
        rw [pieces_append_cons a rest (startsWith_cons.1 hrest), pieces_of_forall ha]
        exact List.mem_append_left _ (List.mem_singleton_self a)
    rcases List.eq_nil_or_concat lead with rfl | ⟨front, c, rfl⟩
    · exact hfront
    · rw [List.concat_eq_append, List.reverse_append] at hlead
      rw [List.concat_eq_append, List.append_assoc, List.append_assoc, List.singleton_append,
        pieces_append_cons front _ (startsWith_cons.1 hlead)]
      exact List.mem_append_right _ hfront

/-- The words of a text are its pieces between word breaks, if there is a character in them. -/
theorem mem_words_iff : a ∈ words s ↔ a ≠ [] ∧ (∀ c ∈ a, isWordBreak c = false) ∧ ∃ lead rest,
    s = lead ++ a ++ rest ∧ StartsWith isWordBreak lead.reverse ∧ StartsWith isWordBreak rest := by
  rw [words, List.mem_filter, mem_pieces_iff, and_comm]
  refine and_congr ?_ Iff.rfl
  rw [Bool.not_eq_true', List.isEmpty_eq_false_iff]

end TreeQuery.Text
