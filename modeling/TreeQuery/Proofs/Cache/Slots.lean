import TreeQuery.Cache
import TreeQuery.Proofs.Distinct

/-!
# The slots of a cache

No key has two slots, so a lookup finds all that is kept of its key and only changes the order of the
slots. A value that is put in gets a serial number that no slot had before, and stands first.
-/

namespace TreeQuery.Cache

variable {α ε : Type} {c : Cache α} {key : String} {value : α} {slot : Slot α}

/-- The kept keys, the most recently used first. -/
def keys (c : Cache α) : List String := c.slots.map (·.key)

/-- The first elements of a list, as many as a capacity allows. -/
def firstOf {β : Type} (capacity : Option Nat) (list : List β) : List β :=
  match capacity with
  | none => list
  | some n => list.take n

theorem fit_eq_firstOf (capacity : Option Nat) (slots : List (Slot α)) :
    fit capacity slots = firstOf capacity slots := by
  cases capacity <;> rfl

theorem firstOf_nil {β : Type} (capacity : Option Nat) : firstOf capacity ([] : List β) = [] := by
  cases capacity with
  | none => rfl
  | some n => exact List.take_nil

theorem firstOf_sublist {β : Type} (capacity : Option Nat) (list : List β) :
    (firstOf capacity list).Sublist list := by
  cases capacity with
  | none => exact .refl _
  | some n => exact List.take_sublist n list

theorem map_firstOf {β γ : Type} (f : β → γ) (capacity : Option Nat) (list : List β) :
    (firstOf capacity list).map f = firstOf capacity (list.map f) := by
  cases capacity with
  | none => rfl
  | some n => exact List.map_take

/-! ## Looking up -/

theorem find?_isSome : (c.find? key).isSome = true ↔ key ∈ c.keys := by
  rw [find?, List.find?_isSome, keys, List.mem_map]
  simp only [beq_iff_eq]

theorem find?_eq_none : c.find? key = none ↔ key ∉ c.keys := by
  rw [← find?_isSome, Bool.not_eq_true, Option.isSome_eq_false_iff, Option.isNone_iff_eq_none]

theorem mem_of_find? (h : c.find? key = some slot) : slot ∈ c.slots ∧ slot.key = key := by
  rw [find?] at h
  have hkey := List.find?_some h
  exact ⟨List.mem_of_find?_eq_some h, beq_iff_eq.1 hkey⟩

/-- A kept slot is what a lookup of its key finds. -/
theorem find?_of_mem (h : c.keys.Nodup) (hmem : slot ∈ c.slots) : c.find? slot.key = some slot := by
  obtain ⟨found, hfound⟩ := Option.isSome_iff_exists.1
    (find?_isSome.2 (List.mem_map_of_mem hmem) : (c.find? slot.key).isSome = true)
  obtain ⟨hmem', hkey⟩ := mem_of_find? hfound
  rw [hfound, List.inj_on_of_nodup_map h hmem' hmem hkey]

theorem get_of_find? (h : c.find? key = some slot) :
    c.get key = (some slot, { c with slots := slot :: c.others key }) := by
  rw [get, h]

theorem get_of_missing (h : c.find? key = none) : c.get key = (none, c) := by
  rw [get, h]

theorem get_fst (c : Cache α) (key : String) : (c.get key).1 = c.find? key := by
  rw [get]
  split <;> simp_all

theorem capacity_get (c : Cache α) (key : String) : (c.get key).2.capacity = c.capacity := by
  rw [get]
  split <;> rfl

theorem nextSerial_get (c : Cache α) (key : String) : (c.get key).2.nextSerial = c.nextSerial := by
  rw [get]
  split <;> rfl

/-- The keys of the other slots. -/
theorem map_key_others (c : Cache α) (key : String) :
    (c.others key).map (·.key) = c.keys.filter (· != key) := by
  rw [others, keys, List.filter_map]
  rfl

/-- A slot with the others of a cache is all of the cache, in some order. -/
theorem cons_others_perm (h : c.keys.Nodup) (hfind : c.find? key = some slot) :
    (slot :: c.others key).Perm c.slots := by
  obtain ⟨hmem, rfl⟩ := mem_of_find? hfind
  have hslots : c.slots.Nodup := .of_map _ h
  have hnot : slot ∉ c.others slot.key := fun hother => by
    simpa using (List.mem_filter.1 hother).2
  refine (List.perm_ext_iff_of_nodup (List.nodup_cons.2 ⟨hnot, hslots.filter _⟩) hslots).2
    fun other => ⟨fun hother => ?_, fun hother => ?_⟩
  · rcases List.mem_cons.1 hother with rfl | hother
    · exact hmem
    · exact (List.mem_filter.1 hother).1
  · by_cases hkey : other.key = slot.key
    · rw [List.inj_on_of_nodup_map h hother hmem hkey]
      exact List.mem_cons_self
    · exact List.mem_cons_of_mem _ (List.mem_filter.2 ⟨hother, bne_iff_ne.2 hkey⟩)

/-- A lookup only changes the order of the slots. -/
theorem slots_get_perm (h : c.keys.Nodup) (key : String) : (c.get key).2.slots.Perm c.slots := by
  cases hfind : c.find? key with
  | none => rw [get_of_missing hfind]
  | some slot =>
    rw [get_of_find? hfind]
    exact cons_others_perm h hfind

/-- A lookup makes its key the most recently used one, if it is kept. -/
theorem keys_get (c : Cache α) (key : String) : (c.get key).2.keys =
    if key ∈ c.keys then key :: c.keys.filter (· != key) else c.keys := by
  cases hfind : c.find? key with
  | none => rw [get_of_missing hfind, if_neg (find?_eq_none.1 hfind)]
  | some slot =>
    have hmem : key ∈ c.keys := find?_isSome.1 (by rw [hfind]; rfl)
    rw [get_of_find? hfind, if_pos hmem, keys, List.map_cons, map_key_others, (mem_of_find? hfind).2]

/-- A lookup keeps slots only. -/
theorem mem_slots_of_get (h : slot ∈ (c.get key).2.slots) : slot ∈ c.slots := by
  cases hfind : c.find? key with
  | none => rwa [get_of_missing hfind] at h
  | some kept =>
    rw [get_of_find? hfind] at h
    rcases List.mem_cons.1 h with rfl | hother
    · exact (mem_of_find? hfind).1
    · exact (List.mem_filter.1 hother).1

/-- A lookup returns a slot of the key. -/
theorem mem_slots_of_get_eq_some (h : (c.get key).1 = some slot) :
    slot ∈ c.slots ∧ slot.key = key := mem_of_find? (get_fst c key ▸ h)

/-! ## Putting in -/

/-- The slots after putting in a value. -/
theorem slots_put (c : Cache α) (key : String) (value : α) : (c.put key value).2.slots =
    firstOf c.capacity (⟨key, c.nextSerial, value⟩ :: c.others key) := fit_eq_firstOf _ _

theorem keys_put (c : Cache α) (key : String) (value : α) :
    (c.put key value).2.keys = firstOf c.capacity (key :: c.keys.filter (· != key)) := by
  rw [keys, slots_put, map_firstOf, List.map_cons, map_key_others]

/-- The cache after putting in a value has old slots and the new one. -/
theorem mem_slots_of_put (h : slot ∈ (c.put key value).2.slots) :
    slot = ⟨key, c.nextSerial, value⟩ ∨ slot ∈ c.slots := by
  rw [slots_put] at h
  exact (List.mem_cons.1 ((firstOf_sublist _ _).mem h)).imp_right fun hother =>
    (List.mem_filter.1 hother).1

/-- A value that is put in is kept, unless nothing can be. -/
theorem find?_put (h : c.capacity ≠ some 0) (key : String) (value : α) :
    (c.put key value).2.find? key = some (c.put key value).1 := by
  obtain ⟨rest, hrest⟩ : ∃ rest, (c.put key value).2.slots = ⟨key, c.nextSerial, value⟩ :: rest := by
    rw [slots_put]
    cases hcapacity : c.capacity with
    | none => exact ⟨_, rfl⟩
    | some n =>
      obtain ⟨m, rfl⟩ := Nat.exists_eq_succ_of_ne_zero fun hn => h (hn ▸ hcapacity)
      exact ⟨_, List.take_succ_cons⟩
  rw [find?, hrest, List.find?_cons_of_pos (by simp)]
  rfl

theorem commit_of_find? (h : c.find? key = some slot) (value : α) :
    c.commit key value = (slot, (c.get key).2) := by
  rw [commit, get_of_find? h]

theorem commit_of_missing (h : c.find? key = none) (value : α) :
    c.commit key value = c.put key value := by
  rw [commit, get_of_missing h]

/-! ## Getting or inserting -/

variable {build : Cache α → Except ε α × Cache α}

theorem getOrInsert_of_find? (h : c.find? key = some slot) :
    c.getOrInsert key build = (.ok slot, (c.get key).2) := by
  rw [getOrInsert, get_of_find? h]

/-- What happens on a miss is up to the building. -/
theorem getOrInsert_of_missing (h : c.find? key = none) :
    c.getOrInsert key build = match build c with
      | (.error e, c) => (.error e, c)
      | (.ok value, c) => (.ok (c.commit key value).1, (c.commit key value).2) := by
  unfold getOrInsert
  split
  · next heq =>
    rw [get_of_missing h] at heq
    cases heq
  · next heq =>
    rw [get_of_missing h] at heq
    cases heq
    rfl

/-! ## What every cache keeps to -/

/-- What holds of every cache that comes from an empty one. -/
structure Sound (c : Cache α) : Prop where
  /-- No key has two slots. -/
  nodup : c.keys.Nodup
  /-- No slot has a serial number that is still to be given. -/
  serial_lt : ∀ slot ∈ c.slots, slot.serial < c.nextSerial
  /-- The capacity is kept. -/
  size_le : ∀ n, c.capacity = some n → c.size ≤ n

theorem sound_empty (capacity : Option Nat) : (empty capacity : Cache α).Sound where
  nodup := List.nodup_nil
  serial_lt _ hmem := absurd hmem List.not_mem_nil
  size_le n _ := Nat.zero_le n

theorem sound_clear (c : Cache α) : c.clear.Sound where
  nodup := List.nodup_nil
  serial_lt _ hmem := absurd hmem List.not_mem_nil
  size_le n _ := Nat.zero_le n

namespace Sound

theorem get (h : c.Sound) (key : String) : (c.get key).2.Sound where
  nodup := ((slots_get_perm h.nodup key).map _).nodup_iff.2 h.nodup
  serial_lt slot hmem := by
    rw [nextSerial_get]
    exact h.serial_lt slot (mem_slots_of_get hmem)
  size_le n hn := by
    rw [size, (slots_get_perm h.nodup key).length_eq]
    exact h.size_le n (capacity_get c key ▸ hn)

theorem put (h : c.Sound) (key : String) (value : α) : (c.put key value).2.Sound where
  nodup := by
    rw [keys_put]
    refine List.Nodup.sublist (firstOf_sublist _ _) (List.nodup_cons.2 ⟨fun hmem => ?_, h.nodup.filter _⟩)
    simpa using (List.mem_filter.1 hmem).2
  serial_lt slot hmem := by
    rcases mem_slots_of_put hmem with rfl | hold
    · exact Nat.lt_succ_self _
    · exact Nat.lt_succ_of_lt (h.serial_lt slot hold)
  size_le n hn := by
    have hcapacity : c.capacity = some n := hn
    rw [size, slots_put, hcapacity]
    exact List.length_take_le n _

/-- A full cache gives up its last slot for a new key. -/
theorem slots_put_of_missing (h : c.Sound) (hcapacity : c.capacity ≠ some 0)
    (hmissing : c.find? key = none) (value : α) : (c.put key value).2.slots =
      ⟨key, c.nextSerial, value⟩ ::
        if c.capacity = some c.slots.length then c.slots.dropLast else c.slots := by
  have hothers : c.others key = c.slots := List.filter_eq_self.2 fun slot hmem => by
    rw [bne_iff_ne]
    rintro rfl
    exact find?_eq_none.1 hmissing (List.mem_map_of_mem hmem)
  rw [slots_put, hothers]
  cases hn : c.capacity with
  | none => rfl
  | some n =>
    have hsize : c.slots.length ≤ n := h.size_le n hn
    obtain ⟨k, rfl⟩ := Nat.exists_eq_succ_of_ne_zero fun hzero => hcapacity (hzero ▸ hn)
    rw [firstOf, List.take_succ_cons]
    refine congrArg (_ :: ·) ?_
    split
    · next hfull =>
      rw [List.dropLast_eq_take, ← Option.some.inj hfull]
      rfl
    · next hroom =>
      have hne : k.succ ≠ c.slots.length := fun heq => hroom (congrArg some heq)
      exact List.take_of_length_le (by omega)

end Sound
end TreeQuery.Cache
