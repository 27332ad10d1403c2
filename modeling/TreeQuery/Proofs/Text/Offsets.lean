import Mathlib.Data.String.Basic

/-!
# Places counted in bytes

Between two characters of a text is a place, and the number of bytes before it tells which. A number of bytes
may also lie behind the end of the text, or inside of a character. `cutAt?` cuts a text at a number of bytes, and
makes no cut where no place is (`isSome_cutAt?`).
-/

namespace TreeQuery.Text

open String (utf8Len)

/-- Cuts a text at a number of bytes. There is no cut behind the end or inside of a character. -/
def cutAt? : Nat → List Char → Option (List Char × List Char)
  | 0, s => some ([], s)
  | _ + 1, [] => none
  | n + 1, c :: s =>
    if c.utf8Size ≤ n + 1 then (cutAt? (n + 1 - c.utf8Size) s).map fun r => (c :: r.1, r.2) else none

variable {n : Nat} {s u v : List Char}

theorem cutAt?_append (u v : List Char) : cutAt? (utf8Len u) (u ++ v) = some (u, v) := by
  induction u with
  | nil => cases v <;> rfl
  | cons c u ih =>
    have hpos := c.utf8Size_pos
    obtain ⟨n, hn⟩ : ∃ n, utf8Len u + c.utf8Size = n + 1 := ⟨utf8Len u + c.utf8Size - 1, by omega⟩
    have hrest : n + 1 - c.utf8Size = utf8Len u := by omega
    rw [String.utf8Len_cons, hn, List.cons_append, cutAt?, if_pos (by omega), hrest, ih]
    rfl

/-- A cut has as many bytes before it as asked for. -/
theorem cutAt?_eq_some : cutAt? n s = some (u, v) ↔ s = u ++ v ∧ utf8Len u = n := by
  constructor
  · intro h
    fun_induction cutAt? n s generalizing u with
    | case1 s =>
      obtain ⟨rfl, rfl⟩ := Prod.mk.inj (Option.some.inj h)
      exact ⟨rfl, rfl⟩
    | case2 => cases h
    | case3 n c s hle ih =>
      obtain ⟨r, hr, heq⟩ := Option.map_eq_some_iff.1 h
      obtain ⟨rfl, rfl⟩ := Prod.mk.inj heq
      obtain ⟨rfl, hlen⟩ := ih hr
      refine ⟨rfl, ?_⟩
      rw [String.utf8Len_cons]
      omega
    | case4 => cases h
  · rintro ⟨rfl, rfl⟩
    exact cutAt?_append u v

/-- A text can be cut just at its valid positions. -/
theorem isSome_cutAt? {n : Nat} {text : String} :
    (cutAt? n text.toList).isSome = true ↔ (String.Pos.Raw.mk n).IsValid text := by
  rw [Option.isSome_iff_exists, String.Pos.Raw.isValid_iff_exists_append]
  constructor
  · rintro ⟨⟨u, v⟩, hcut⟩
    obtain ⟨happ, rfl⟩ := cutAt?_eq_some.1 hcut
    refine ⟨String.ofList u, String.ofList v, ?_, (String.rawEndPos_ofList u).symm⟩
    rw [← String.ofList_append, ← happ, String.ofList_toList]
  · rintro ⟨first, second, rfl, hn⟩
    refine ⟨(first.toList, second.toList), cutAt?_eq_some.2 ⟨String.toList_append, ?_⟩⟩
    rw [String.utf8Len_toList]
    exact (congrArg String.Pos.Raw.byteIdx hn).symm

/-! ## The bytes of a text -/

/-- The bytes of a text in UTF-8. -/
def utf8 (s : List Char) : List UInt8 := s.flatMap String.utf8EncodeChar

theorem length_utf8 (s : List Char) : (utf8 s).length = utf8Len s := by
  induction s with
  | nil => rfl
  | cons c s ih =>
    have hcons : utf8 (c :: s) = String.utf8EncodeChar c ++ utf8 s := List.flatMap_cons
    rw [hcons, List.length_append, String.length_utf8EncodeChar, ih, String.utf8Len_cons, Nat.add_comm]

/-- The byte behind a place is the first one of the character there. -/
theorem utf8_append_getElem? (u v : List Char) : (utf8 (u ++ v))[utf8Len u]? = (utf8 v).head? := by
  have happ : utf8 (u ++ v) = utf8 u ++ utf8 v := List.flatMap_append
  rw [happ, List.getElem?_append_right (Nat.le_of_eq (length_utf8 u)), length_utf8, Nat.sub_self,
    List.head?_eq_getElem?]

/-- A character has a first byte. -/
theorem exists_head?_utf8 (c : Char) (s : List Char) : ∃ b, (utf8 (c :: s)).head? = some b := by
  have hpos := c.utf8Size_pos
  have hlength := length_utf8 (c :: s)
  rw [String.utf8Len_cons] at hlength
  cases hbytes : utf8 (c :: s) with
  | nil =>
    rw [hbytes, List.length_nil] at hlength
    omega
  | cons b bytes => exact ⟨b, rfl⟩

/-- A hyphen is one byte, and no other character starts with this byte. -/
theorem head?_utf8_eq_hyphen (c : Char) (s : List Char) : (utf8 (c :: s)).head? = some 0x2D ↔ c = '-' := by
  constructor
  · intro h
    have hfirst : ∀ n : Nat, n < 256 → UInt8.ofNat n = 0x2D → n = 0x2D := fun n hn heq => by
      have hval := congrArg UInt8.toNat heq
      rwa [UInt8.toNat_ofNat_of_lt' hn] at hval
    rw [utf8, List.flatMap_cons] at h
    unfold String.utf8EncodeChar at h
    dsimp only at h
    -- the first byte of a longer character is larger
    split_ifs at h with hone htwo hthree
    · have hval : c.val.toNat = 0x2D := hfirst _ (by omega) (Option.some.inj h)
      exact Char.toNat_inj.1 hval
    · have hlarge := hfirst _ (by omega) (Option.some.inj h)
      omega
    · have hlarge := hfirst _ (by omega) (Option.some.inj h)
      omega
    · have hlarge := hfirst _ (by omega) (Option.some.inj h)
      omega
  · rintro rfl
    rfl

end TreeQuery.Text
