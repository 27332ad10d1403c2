import TreeQuery.Registry
import Mathlib

/-!
# Registered names and the case of their letters

A name is looked up under its own spelling first and then in small letters. A registered name is kept as it
was given. So two names that differ in the case of ASCII letters alone mean the same as long as no spelling
with capitals is registered, but such a spelling hides the name in small letters, or is not found by any other.
After any insertions, case does not matter exactly if each inserted name has the entry of its spelling in
small letters (`lookup_insertAll_letters`).
-/

namespace TreeQuery

open Text

namespace Text

theorem foldAscii_foldAscii (s : String) : foldAscii (foldAscii s) = foldAscii s := by
  rw [foldAscii, foldAscii, String.toList_ofList, List.map_map]
  exact congrArg String.ofList (List.map_congr_left fun c _ => Char.toLower_toLower_eq_toLower c)

end Text

namespace Registry

variable {r start : Registry} {name other : String} {calls : List (String × Entry)}

/-! ## Insertions -/

/-- Registers entries in order. -/
def insertAll (r : Registry) : List (String × Entry) → Registry
  | [] => r
  | (name, entry) :: rest => (r.insert name entry).insertAll rest

/-- Entries of one spelling are taken out without a change for the others. -/
theorem lookup_filter_of_ne (h : other ≠ name) (entries : List (String × Entry)) :
    (entries.filter (·.1 != name)).lookup other = entries.lookup other := by
  induction entries with
  | nil => rfl
  | cons first rest ih =>
    by_cases hfirst : first.1 = name
    · have hother : (other == first.1) = false := beq_eq_false_iff_ne.2 (hfirst ▸ h)
      rw [List.filter_cons_of_neg (by simp [hfirst]), ih, List.lookup_cons, hother]
    · have hkeep : (first.1 != name) = true := bne_iff_ne.2 hfirst
      rw [List.filter_cons, if_pos hkeep, List.lookup_cons, List.lookup_cons, ih]

/-- An insertion sets the entry of one spelling. -/
theorem get?_insert (r : Registry) (name : String) (entry : Entry) (other : String) :
    (r.insert name entry).get? other = if other = name then some entry else r.get? other := by
  rw [insert, get?, List.lookup_cons]
  split_ifs with h
  · rw [beq_iff_eq.2 h]
  · rw [beq_eq_false_iff_ne.2 h, lookup_filter_of_ne h, get?]

/-- Insertions of other spellings keep the entry of a name. -/
theorem get?_insertAll_of_not_mem (h : name ∉ calls.map Prod.fst) :
    (r.insertAll calls).get? name = r.get? name := by
  induction calls generalizing r with
  | nil => rfl
  | cons call rest ih =>
    rw [List.map_cons, List.mem_cons, not_or] at h
    rw [insertAll, ih h.2, get?_insert, if_neg h.1]

/-- A name that has an entry keeps one. -/
theorem isSome_get?_insertAll (h : (r.get? name).isSome = true) :
    ((r.insertAll calls).get? name).isSome = true := by
  induction calls generalizing r with
  | nil => exact h
  | cons call rest ih =>
    refine ih ?_
    rw [get?_insert]
    split
    · rfl
    · exact h

/-- A name that is inserted has an entry. -/
theorem isSome_get?_of_mem (h : name ∈ calls.map Prod.fst) :
    ((r.insertAll calls).get? name).isSome = true := by
  induction calls generalizing r with
  | nil => cases h
  | cons call rest ih =>
    rcases List.mem_cons.1 h with rfl | h
    · refine isSome_get?_insertAll (r := r.insert call.1 call.2) ?_
      rw [get?_insert, if_pos rfl]
      rfl
    · exact ih h

/-! ## Spellings -/

/-- The name has the entry of its spelling in small letters, or neither has one. -/
def AgreesInSmall (r : Registry) (name : String) : Prop := r.get? name = r.get? (foldAscii name)

instance (r : Registry) (name : String) : Decidable (r.AgreesInSmall name) :=
  inferInstanceAs (Decidable (r.get? name = r.get? (foldAscii name)))

/-- A name is looked up in small letters, unless its own spelling has another entry. -/
theorem lookup_eq_of_agreesInSmall (h : r.get? name = none ∨ r.AgreesInSmall name) :
    r.lookup name = r.get? (foldAscii name) := by
  rw [lookup]
  rcases h with h | h
  · rw [h]
    rfl
  · rw [h]
    cases r.get? (foldAscii name) <;> rfl

theorem lookup_foldAscii (r : Registry) (name : String) :
    r.lookup (foldAscii name) = r.get? (foldAscii name) := by
  have hagrees : r.AgreesInSmall (foldAscii name) := congrArg r.get? (foldAscii_foldAscii name).symm
  rw [lookup_eq_of_agreesInSmall (.inr hagrees), foldAscii_foldAscii]

/-- The standard names have no capitals. -/
theorem foldAscii_of_standard (h : r = .empty ∨ r = .standard) (name : String) :
    r.get? name = none ∨ foldAscii name = name := by
  rcases h with rfl | rfl
  · exact .inl rfl
  · cases hget : Registry.standard.get? name with
    | none => exact .inl rfl
    | some entry =>
      have hsmall : ∀ p ∈ PseudoClass.all, foldAscii p.name = p.name := by decide +kernel
      obtain ⟨before, after, hsplit, -⟩ := List.lookup_eq_some_iff.1 hget
      have hmem : (name, entry) ∈ Registry.standard.entries := by
        rw [hsplit]
        simp
      obtain ⟨p, hp, heq⟩ := List.mem_map.1 hmem
      obtain rfl := congrArg Prod.fst heq
      exact .inr (hsmall p hp)

/-- After insertions a name is looked up in small letters, unless it is inserted under its own spelling, with
another entry. -/
theorem lookup_insertAll_of_agrees (hstart : start = .empty ∨ start = .standard)
    (h : name ∈ calls.map Prod.fst → (start.insertAll calls).AgreesInSmall name) :
    (start.insertAll calls).lookup name = (start.insertAll calls).get? (foldAscii name) := by
  refine lookup_eq_of_agreesInSmall ?_
  by_cases hmem : name ∈ calls.map Prod.fst
  · exact .inr (h hmem)
  · rcases foldAscii_of_standard hstart name with hnone | hsmall
    · exact .inl ((get?_insertAll_of_not_mem hmem).trans hnone)
    · exact .inr (congrArg (start.insertAll calls).get? hsmall.symm)

/-- After any insertions into the empty or the standard registry, two names that differ in the case of ASCII
letters alone mean the same, if each of the two that is inserted under its own spelling has the entry of the
spelling in small letters. This holds for all such names exactly if each inserted name has that entry. -/
theorem lookup_insertAll_letters (hstart : start = .empty ∨ start = .standard)
    (calls : List (String × Entry)) :
    (∀ a b, sameLetters a b = true →
      (∀ name ∈ [a, b], name ∈ calls.map Prod.fst → (start.insertAll calls).AgreesInSmall name) →
        (start.insertAll calls).lookup a = (start.insertAll calls).lookup b) ∧
    ((∀ a b, sameLetters a b = true →
        (start.insertAll calls).lookup a = (start.insertAll calls).lookup b) ↔
      ∀ name ∈ calls.map Prod.fst, (start.insertAll calls).AgreesInSmall name) := by
  have hpair : ∀ a b, sameLetters a b = true →
      (∀ name ∈ [a, b], name ∈ calls.map Prod.fst → (start.insertAll calls).AgreesInSmall name) →
        (start.insertAll calls).lookup a = (start.insertAll calls).lookup b := by
    intro a b hsame hagrees
    rw [lookup_insertAll_of_agrees hstart (hagrees a (by simp)),
      lookup_insertAll_of_agrees hstart (hagrees b (by simp)), beq_iff_eq.1 hsame]
  refine ⟨hpair, fun hall name hmem => ?_,
    fun hagrees a b hsame => hpair a b hsame fun name _ => hagrees name⟩
  obtain ⟨entry, hentry⟩ := Option.isSome_iff_exists.1 (isSome_get?_of_mem (r := start) hmem)
  have hsame : sameLetters name (foldAscii name) = true := beq_iff_eq.2 (foldAscii_foldAscii name).symm
  have hlookup := hall name (foldAscii name) hsame
  rw [lookup_foldAscii, lookup, hentry] at hlookup
  rw [AgreesInSmall, hentry]
  exact hlookup

/-- The name `any` is given an entry, the name `ANY` another one, and at last `any` the same one. -/
def shortCalls : List (String × Entry) :=
  [("any", Entry.standard .not), ("ANY", Entry.standard .matchesAny), ("any", Entry.standard .matchesAny)]

/-- In the end each spelling of `any` means the same, and so does each spelling of a standard name. -/
theorem lookup_insertAll_letters_any :
    sameLetters "Any" "aNY" = true ∧
      (Registry.standard.insertAll shortCalls).lookup "Any" =
        (Registry.standard.insertAll shortCalls).lookup "aNY" ∧
      (Registry.standard.insertAll shortCalls).lookup "NOT" =
        (Registry.standard.insertAll shortCalls).lookup "not" := by
  have hsame : sameLetters "Any" "aNY" = true := by decide +kernel
  have hnot : sameLetters "NOT" "not" = true := by decide +kernel
  obtain ⟨hpair, hall⟩ := lookup_insertAll_letters (.inr rfl) shortCalls
  have hagrees : ∀ name ∈ shortCalls.map Prod.fst,
      (Registry.standard.insertAll shortCalls).AgreesInSmall name := by decide +kernel
  exact ⟨hsame, hpair _ _ hsame fun name _ => hagrees name, hall.2 hagrees _ _ hnot⟩

/-- A name that is registered with a capital is not found in small letters. -/
theorem lookup_capitalTop :
    sameLetters "Top" "top" = true ∧
      (Registry.empty.insertAll [("Top", Entry.standard .root)]).lookup "Top" = some (Entry.standard .root) ∧
      (Registry.empty.insertAll [("Top", Entry.standard .root)]).lookup "top" = none := by
  decide +kernel

end Registry
end TreeQuery
