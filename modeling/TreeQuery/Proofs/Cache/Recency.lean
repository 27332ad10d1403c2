import TreeQuery.Proofs.Cache.Map
import Mathlib.Data.List.Induction

/-!
# A cache keeps the values that were used last

A cache is compared with the record of what was done with it. The record knows nothing of slots or of a
capacity: it lists the keys that were asked for with success, the latest first. The kept keys are the
first distinct keys of this list, as many as the capacity allows.

A look-up that is followed by an insertion touches the slots up to three times, and each time may reorder
them or give one up. It still counts as one use of its key.
-/

namespace TreeQuery

variable {ε α : Type}

/-- One use of a cache. What is built for a missing key is built without the cache. -/
inductive CacheUse (ε α : Type) where
  | get (key : String)
  | getOrInsert (key : String) (built : Except ε α)
  | clear

namespace CacheUse

/-- The key that is asked for. -/
def key? : CacheUse ε α → Option String
  | get key | getOrInsert key _ => some key
  | clear => none

/-- Whether the cache is emptied. -/
def isClear : CacheUse ε α → Bool
  | clear => true
  | _ => false

end CacheUse

namespace Cache

/-- What a use gives: the slot of its key, or nothing, or the error of the building. -/
abbrev Outcome (ε α : Type) := Except ε (Option (Slot α))

/-- Whether a slot is given. -/
def Outcome.isSuccess : Outcome ε α → Bool
  | .ok (some _) => true
  | _ => false

/-- Uses a cache. -/
def use (c : Cache α) : CacheUse ε α → Outcome ε α × Cache α
  | .get key => (.ok (c.get key).1, (c.get key).2)
  | .getOrInsert key built =>
    let (outcome, c) := c.getOrInsert key fun c => (built, c)
    (outcome.map some, c)
  | .clear => (.ok none, c.clear)

/-- The record of uses in order, and the cache after them. -/
def useAll (c : Cache α) : List (CacheUse ε α) → List (CacheUse ε α × Outcome ε α) × Cache α
  | [] => ([], c)
  | u :: rest =>
    ((u, (c.use u).1) :: ((c.use u).2.useAll rest).1, ((c.use u).2.useAll rest).2)

/-- The cache after uses of an empty one. -/
def after (capacity : Option Nat) (uses : List (CacheUse ε α)) : Cache α :=
  ((empty capacity).useAll uses).2

/-- The record of uses of an empty cache. -/
def record (capacity : Option Nat) (uses : List (CacheUse ε α)) : List (CacheUse ε α × Outcome ε α) :=
  ((empty capacity).useAll uses).1

/-- The keys that were asked for with success since the cache was last emptied, the latest first. -/
def accessed (record : List (CacheUse ε α × Outcome ε α)) : List String :=
  (record.reverse.takeWhile (!·.1.isClear)).filterMap fun entry =>
    if entry.2.isSuccess then entry.1.key? else none

/-! ## One use -/

variable {c : Cache α} {u : CacheUse ε α} {key : String} {built : Except ε α}

/-- A use finds a slot of its key, or it puts in what was built for a missing key, or it empties the cache,
or it changes nothing and gives no slot. -/
theorem use_cases (c : Cache α) (u : CacheUse ε α) :
    (∃ key slot, u.key? = some key ∧ c.find? key = some slot ∧
      c.use u = (.ok (some slot), (c.get key).2)) ∨
    (∃ key value, u = .getOrInsert key (.ok value) ∧ c.find? key = none ∧
      c.use u = (.ok (some (c.put key value).1), (c.put key value).2)) ∨
    (u = .clear ∧ c.use u = (.ok none, c.clear)) ∨
    (u.isClear = false ∧ (c.use u).1.isSuccess = false ∧ (c.use u).2 = c) := by
  cases u with
  | clear => exact .inr (.inr (.inl ⟨rfl, rfl⟩))
  | get key =>
    cases hfind : c.find? key with
    | some slot => exact .inl ⟨key, slot, rfl, hfind, by rw [use, get_fst, hfind]⟩
    | none => exact .inr (.inr (.inr ⟨rfl, by rw [use, get_of_missing hfind]; exact ⟨rfl, rfl⟩⟩))
  | getOrInsert key built =>
    cases hfind : c.find? key with
    | some slot => exact .inl ⟨key, slot, rfl, hfind, by rw [use, getOrInsert_of_find? hfind]; rfl⟩
    | none =>
      cases built with
      | error e =>
        refine .inr (.inr (.inr ⟨rfl, ?_⟩))
        rw [use, getOrInsert_of_missing hfind]
        exact ⟨rfl, rfl⟩
      | ok value =>
        refine .inr (.inl ⟨key, value, rfl, hfind, ?_⟩)
        rw [use, getOrInsert_of_missing hfind]
        dsimp only
        rw [commit_of_missing hfind]
        rfl

/-- A use succeeds exactly if its key is kept or the building of its value succeeds. -/
theorem isSuccess_use (c : Cache α) (u : CacheUse ε α) : (c.use u).1.isSuccess = true ↔
    ∃ key, u.key? = some key ∧ (key ∈ c.keys ∨ ∃ value, u = .getOrInsert key (.ok value)) := by
  cases u with
  | clear => exact ⟨nofun, fun ⟨key, hkey, _⟩ => nomatch hkey⟩
  | get key =>
    have hget : (c.use (.get key : CacheUse ε α)).1.isSuccess = (c.find? key).isSome := by
      rw [use, get_fst]
      cases c.find? key <;> rfl
    rw [hget, find?_isSome]
    constructor
    · exact fun hmem => ⟨key, rfl, .inl hmem⟩
    · rintro ⟨_, ⟨⟩, hmem | ⟨_, ⟨⟩⟩⟩
      exact hmem
  | getOrInsert key built =>
    cases hfind : c.find? key with
    | some slot =>
      rw [use, getOrInsert_of_find? hfind]
      exact ⟨fun _ => ⟨key, rfl, .inl (find?_isSome.1 (by rw [hfind]; rfl))⟩, fun _ => rfl⟩
    | none =>
      have hmissing := find?_eq_none.1 hfind
      rw [use, getOrInsert_of_missing hfind]
      cases built with
      | error e =>
        refine ⟨nofun, ?_⟩
        rintro ⟨_, ⟨⟩, hmem | ⟨_, ⟨⟩⟩⟩
        exact absurd hmem hmissing
      | ok value => exact ⟨fun _ => ⟨key, rfl, .inr ⟨value, rfl⟩⟩, fun _ => rfl⟩

theorem capacity_use (c : Cache α) (u : CacheUse ε α) : (c.use u).2.capacity = c.capacity := by
  rcases use_cases c u with ⟨key, slot, -, -, huse⟩ | ⟨key, value, -, -, huse⟩ | ⟨-, huse⟩ | ⟨-, -, huse⟩
  · rw [huse, capacity_get]
  · rw [huse]
    rfl
  · rw [huse]
    rfl
  · rw [huse]

theorem Sound.use (h : c.Sound) (u : CacheUse ε α) : (c.use u).2.Sound := by
  rcases use_cases c u with ⟨key, slot, -, -, huse⟩ | ⟨key, value, -, -, huse⟩ | ⟨-, huse⟩ | ⟨-, -, huse⟩
  · rw [huse]
    exact h.get key
  · rw [huse]
    exact h.put key value
  · rw [huse]
    exact sound_clear c
  · rwa [huse]

/-! ## The record -/

theorem useAll_concat (c : Cache α) (uses : List (CacheUse ε α)) (u : CacheUse ε α) :
    c.useAll (uses ++ [u]) = ((c.useAll uses).1 ++ [(u, ((c.useAll uses).2.use u).1)],
      ((c.useAll uses).2.use u).2) := by
  induction uses generalizing c with
  | nil => rfl
  | cons first rest ih => rw [List.cons_append, useAll, ih, useAll, List.cons_append]

theorem after_concat (capacity : Option Nat) (uses : List (CacheUse ε α)) (u : CacheUse ε α) :
    after capacity (uses ++ [u]) = ((after capacity uses).use u).2 := by
  rw [after, useAll_concat, after]

theorem record_concat (capacity : Option Nat) (uses : List (CacheUse ε α)) (u : CacheUse ε α) :
    record capacity (uses ++ [u]) =
      record capacity uses ++ [(u, ((after capacity uses).use u).1)] := by
  rw [record, useAll_concat, record, after]

/-- What the last entry of a record adds to the keys that were asked for. -/
theorem accessed_concat (record : List (CacheUse ε α × Outcome ε α)) (u : CacheUse ε α)
    (outcome : Outcome ε α) : accessed (record ++ [(u, outcome)]) =
      if u.isClear then []
      else (if outcome.isSuccess then u.key? else none).toList ++ accessed record := by
  rw [accessed, List.reverse_append, List.reverse_singleton, List.singleton_append, List.takeWhile_cons]
  cases u.isClear with
  | true => rfl
  | false =>
    rw [Bool.not_false, if_pos rfl, List.filterMap_cons, if_neg Bool.false_ne_true]
    dsimp only
    cases (if outcome.isSuccess then u.key? else none) <;> rfl

theorem capacity_after (capacity : Option Nat) (uses : List (CacheUse ε α)) :
    (after capacity uses).capacity = capacity := by
  induction uses using List.reverseRecOn with
  | nil => rfl
  | append_singleton uses u ih => rw [after_concat, capacity_use, ih]

theorem sound_after (capacity : Option Nat) (uses : List (CacheUse ε α)) :
    (after capacity uses).Sound := by
  induction uses using List.reverseRecOn with
  | nil => exact sound_empty capacity
  | append_singleton uses u ih =>
    rw [after_concat]
    exact ih.use u

/-! ## Recency -/

/-- Moving a key to the front of the first distinct keys gives the first distinct keys of the longer
record. -/
theorem firstOf_cons (capacity : Option Nat) {distinct : List String} (h : distinct.Nodup) (key : String) :
    firstOf capacity (key :: (firstOf capacity distinct).filter (· != key)) =
      firstOf capacity (key :: distinct.filter (· != key)) := by
  cases capacity with
  | none => rfl
  | some n =>
    cases n with
    | zero => rfl
    | succ n =>
      show (key :: _).take (n + 1) = (key :: _).take (n + 1)
      rw [List.take_succ_cons, List.take_succ_cons]
      exact congrArg (key :: ·) (take_filter_ne h n key)

/-- A key that is kept already pushes no key out. -/
theorem firstOf_cons_of_mem (capacity : Option Nat) {distinct : List String} (h : distinct.Nodup)
    (hmem : key ∈ firstOf capacity distinct) :
    key :: (firstOf capacity distinct).filter (· != key) =
      firstOf capacity (key :: (firstOf capacity distinct).filter (· != key)) := by
  cases capacity with
  | none => rfl
  | some n =>
    have hnodup : (distinct.take n).Nodup := h.sublist (List.take_sublist n distinct)
    have hlength : ((distinct.take n).filter (· != key)).length + 1 ≤ n := by
      have := List.length_filter_lt_length_iff_exists.2
        (⟨key, hmem, by simp⟩ : ∃ x ∈ distinct.take n, ¬ (x != key) = true)
      have := List.length_take_le n distinct
      omega
    exact (List.take_of_length_le hlength).symm

/-- The kept keys are the first distinct ones that were asked for. -/
theorem keys_after (capacity : Option Nat) (uses : List (CacheUse ε α)) :
    (after capacity uses).keys =
      firstOf capacity (accessed (record capacity uses)).eraseDups := by
  induction uses using List.reverseRecOn with
  | nil => exact (firstOf_nil capacity).symm
  | append_singleton uses u ih =>
    have hnodup := nodup_eraseDups (accessed (record capacity uses))
    have hcapacity := capacity_after capacity uses
    rw [after_concat, record_concat, accessed_concat]
    rcases use_cases (after capacity uses) u with
      ⟨key, slot, hkey, hfind, huse⟩ | ⟨key, value, rfl, hfind, huse⟩ | ⟨rfl, huse⟩ | ⟨hclear, hfail, huse⟩
    · have hmem := find?_isSome.1 (by rw [hfind]; rfl : ((after capacity uses).find? key).isSome = true)
      have hclear : u.isClear = false := by
        cases u with
        | clear => cases hkey
        | _ => rfl
      rw [huse, hclear, if_neg Bool.false_ne_true, hkey]
      show _ = firstOf capacity (key :: accessed (record capacity uses)).eraseDups
      rw [keys_get, if_pos hmem, eraseDups_cons_eq, ← firstOf_cons capacity hnodup]
      rw [ih] at hmem ⊢
      exact firstOf_cons_of_mem capacity hnodup hmem
    · rw [huse]
      show _ = firstOf capacity (key :: accessed (record capacity uses)).eraseDups
      rw [keys_put, hcapacity, eraseDups_cons_eq, ← firstOf_cons capacity hnodup, ih]
    · rw [huse]
      exact (firstOf_nil capacity).symm
    · rw [huse, hclear, hfail, ih]
      rfl

/-! ## Values -/

/-- A slot was kept before a use, or the use put it in. -/
theorem mem_slots_of_use {slot : Slot α} (h : slot ∈ (c.use u).2.slots) : slot ∈ c.slots ∨
    u = .getOrInsert slot.key (.ok slot.value) ∧ slot.key ∉ c.keys := by
  rcases use_cases c u with ⟨key, found, -, -, huse⟩ | ⟨key, value, rfl, hfind, huse⟩ |
    ⟨-, huse⟩ | ⟨-, -, huse⟩
  · rw [huse] at h
    exact .inl (mem_slots_of_get h)
  · rw [huse] at h
    rcases mem_slots_of_put h with rfl | hold
    · exact .inr ⟨rfl, find?_eq_none.1 hfind⟩
    · exact .inl hold
  · rw [huse] at h
    exact absurd h List.not_mem_nil
  · rw [huse] at h
    exact .inl h

/-- One of the uses put the slot in, with what it built for a key that was missing, and the slot has been
kept since. -/
def KeptSince (capacity : Option Nat) (uses : List (CacheUse ε α)) (slot : Slot α) : Prop :=
  ∃ before later, uses = before ++ .getOrInsert slot.key (.ok slot.value) :: later ∧
    slot.key ∉ (after capacity before).keys ∧ ∀ middle, middle <+: later →
      slot ∈ (after capacity (before ++ .getOrInsert slot.key (.ok slot.value) :: middle)).slots

/-- Every kept slot was put in by one of the uses. -/
theorem keptSince_of_mem (capacity : Option Nat) (uses : List (CacheUse ε α)) {slot : Slot α}
    (h : slot ∈ (after capacity uses).slots) : KeptSince capacity uses slot := by
  induction uses using List.reverseRecOn with
  | nil => exact absurd h List.not_mem_nil
  | append_singleton uses u ih =>
    have hlast := h
    rw [after_concat] at hlast
    rcases mem_slots_of_use hlast with hold | ⟨rfl, hmissing⟩
    · obtain ⟨before, later, rfl, hmissing, hkept⟩ := ih hold
      refine ⟨before, later ++ [u], by simp, hmissing, fun middle hmiddle => ?_⟩
      rcases List.prefix_concat_iff.1 hmiddle with rfl | hmiddle
      · simpa using h
      · exact hkept middle hmiddle
    · refine ⟨uses, [], rfl, hmissing, fun middle hmiddle => ?_⟩
      rw [List.prefix_nil.1 hmiddle]
      exact h

end Cache

/-! ## Other maps -/

namespace RecencyMap

variable {map : RecencyMap α} {m : map.State} {c : Cache α}

/-- Uses a map in the place of a cache. -/
def use (map : RecencyMap α) (m : map.State) : CacheUse ε α → Except ε (Option α) × map.State
  | .get key => (.ok (map.get m key).1, (map.get m key).2)
  | .getOrInsert key built =>
    ((map.getOrInsert m key built).1.map some, (map.getOrInsert m key built).2)
  | .clear => (.ok none, map.clear m)

/-- What uses in order give, and the map after them. -/
def useAll (map : RecencyMap α) (m : map.State) :
    List (CacheUse ε α) → List (Except ε (Option α)) × map.State
  | [] => ([], m)
  | u :: rest =>
    ((map.use m u).1 :: (map.useAll (map.use m u).2 rest).1, (map.useAll (map.use m u).2 rest).2)

theorem Represents.use (h : Represents map m c) (u : CacheUse ε α) :
    (map.use m u).1 = (c.use u).1.map (Option.map (·.value)) ∧
      Represents map (map.use m u).2 (c.use u).2 := by
  cases u with
  | get key =>
    obtain ⟨hfound, hget⟩ := h.get key
    exact ⟨congrArg Except.ok hfound, hget⟩
  | getOrInsert key built =>
    obtain ⟨houtcome, hget⟩ := h.getOrInsert key built
    refine ⟨?_, hget⟩
    show (map.getOrInsert m key built).1.map some =
      ((c.getOrInsert key fun c => (built, c)).1.map some).map (Option.map (·.value))
    rw [houtcome]
    cases (c.getOrInsert key fun c => (built, c)).1 <;> rfl
  | clear => exact ⟨rfl, h.clear⟩

theorem Represents.useAll (h : Represents map m c) (uses : List (CacheUse ε α)) :
    (map.useAll m uses).1 = (c.useAll uses).1.map (·.2.map (Option.map (·.value))) ∧
      Represents map (map.useAll m uses).2 (c.useAll uses).2 := by
  induction uses generalizing m c with
  | nil => exact ⟨rfl, h⟩
  | cons u rest ih =>
    obtain ⟨hfirst, hnext⟩ := h.use u
    obtain ⟨hothers, hlast⟩ := ih hnext
    exact ⟨congrArg₂ _ hfirst hothers, hlast⟩

end RecencyMap

namespace Cache

/-- After any uses of an empty cache, the kept keys are the first distinct keys that were asked for with
success since it was last emptied, the latest first, as many as the capacity allows. Each of them holds
what was built when it was last put in. A use succeeds if its key is kept or its value can be built, and
else it changes nothing. All this holds of a program over any map with the laws of `RecencyMap`, which gives
the same and keeps the same. -/
theorem holds_recent (capacity : Option Nat) (uses : List (CacheUse ε α)) :
    (after capacity uses).keys = firstOf capacity (accessed (record capacity uses)).eraseDups ∧
      (after capacity uses).keys.Nodup ∧
      (∀ n, capacity = some n → (after capacity uses).size ≤ n) ∧
      (∀ slot ∈ (after capacity uses).slots, KeptSince capacity uses slot) ∧
      (∀ u : CacheUse ε α, ((after capacity uses).use u).1.isSuccess = true ↔ ∃ key, u.key? = some key ∧
        (key ∈ (after capacity uses).keys ∨ ∃ value, u = .getOrInsert key (.ok value))) ∧
      (∀ u : CacheUse ε α, u.isClear = false → ((after capacity uses).use u).1.isSuccess = false →
        ((after capacity uses).use u).2 = after capacity uses) ∧
      ∀ map : RecencyMap α, capacity ≠ some 0 →
        (map.useAll (map.new capacity) uses).1 =
            (record capacity uses).map (·.2.map (Option.map (·.value))) ∧
          map.entries (map.useAll (map.new capacity) uses).2 =
            (after capacity uses).slots.map fun slot => (slot.key, slot.value) := by
  have hsound := sound_after capacity uses
  refine ⟨keys_after capacity uses, hsound.nodup, fun n hn => ?_,
    fun slot hmem => keptSince_of_mem capacity uses hmem, isSuccess_use _, fun u hclear hfail => ?_,
    fun map hcapacity => ?_⟩
  · exact hsound.size_le n ((capacity_after capacity uses).trans hn)
  · rcases use_cases (after capacity uses) u with ⟨key, slot, -, -, huse⟩ | ⟨key, value, -, -, huse⟩ |
      ⟨rfl, -⟩ | ⟨-, -, huse⟩
    · rw [huse] at hfail
      cases hfail
    · rw [huse] at hfail
      cases hfail
    · cases hclear
    · exact huse
  · obtain ⟨houtcomes, hrepresents⟩ := (map.represents_new hcapacity).useAll uses
    exact ⟨houtcomes, hrepresents.entries⟩

/-- Four keys for two places, one of which cannot be built. -/
def usesOfFour : List (CacheUse Unit Nat) :=
  [.getOrInsert "a" (.ok 0), .getOrInsert "b" (.ok 1), .get "a", .getOrInsert "c" (.ok 2),
    .getOrInsert "d" (.error ()), .get "b"]

/-- The second use of the first key makes the second one the first to be given up. -/
theorem holds_recent_usesOfFour : (after (some 2) usesOfFour).keys = ["c", "a"] ∧
    (RecencyMap.ofCache Nat).entries
      ((RecencyMap.ofCache Nat).useAll ((RecencyMap.ofCache Nat).new (some 2)) usesOfFour).2 =
        [("c", 2), ("a", 0)] := by
  obtain ⟨hkeys, -, -, -, -, -, hmap⟩ := holds_recent (some 2) usesOfFour
  rw [hkeys, (hmap (RecencyMap.ofCache Nat) (by decide)).2]
  decide

end Cache
end TreeQuery
