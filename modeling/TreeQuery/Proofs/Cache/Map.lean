import TreeQuery.Proofs.Cache.Slots

/-!
# Caches over any map

The slots of a cache are a list, but a program that keeps its values in a map of its own needs no more of
the map than `RecencyMap` says: a lookup that finds something makes it the most recently used, and an
insertion into a full map gives up what was not used for the longest time. A program over such a map keeps
and returns the same as a cache.
-/

namespace TreeQuery

/-- A map that keeps what was used last, with the laws by which it does so. -/
structure RecencyMap (α : Type) where
  State : Type
  new : Option Nat → State
  get : State → String → Option α × State
  put : State → String → α → State
  clear : State → State
  capacity : State → Option Nat
  /-- The entries, the most recently used first. -/
  entries : State → List (String × α)
  capacity_new : ∀ n, n ≠ some 0 → capacity (new n) = n
  capacity_get : ∀ m key, capacity (get m key).2 = capacity m
  capacity_put : ∀ m key value, capacity (put m key value) = capacity m
  capacity_clear : ∀ m, capacity (clear m) = capacity m
  entries_new : ∀ n, n ≠ some 0 → entries (new n) = []
  entries_clear : ∀ m, entries (clear m) = []
  get_eq_lookup : ∀ m key, (get m key).1 = (entries m).lookup key
  /-- What is found moves to the front. -/
  entries_get_of_some : ∀ m key value, (entries m).lookup key = some value →
    entries (get m key).2 = (key, value) :: (entries m).filter (·.1 != key)
  entries_get_of_none : ∀ m key, (entries m).lookup key = none → entries (get m key).2 = entries m
  /-- A new entry stands at the front. A full map gives up its last one. -/
  entries_put_of_none : ∀ m key value, (entries m).lookup key = none →
    entries (put m key value) = (key, value) ::
      if capacity m = some (entries m).length then (entries m).dropLast else entries m

namespace RecencyMap

variable {α ε : Type} {map : RecencyMap α} {m : map.State} {c : Cache α} {key : String} {value : α}

/-- Puts in a value that was built after its key was missed, unless the key was put in meanwhile. -/
def commit (map : RecencyMap α) (m : map.State) (key : String) (value : α) : α × map.State :=
  match map.get m key with
  | (some kept, m) => (kept, m)
  | (none, m) => (value, map.put m key value)

/-- Looks up a key, and on a miss puts in what is built. -/
def getOrInsert (map : RecencyMap α) (m : map.State) (key : String) (built : Except ε α) :
    Except ε α × map.State :=
  match map.get m key with
  | (some kept, m) => (.ok kept, m)
  | (none, m) => match built with
    | .error e => (.error e, m)
    | .ok value => let (value, m) := map.commit m key value; (.ok value, m)

/-- What an entry of a map tells of a slot. -/
def entryOf (slot : Slot α) : String × α := (slot.key, slot.value)

/-- The map and the cache keep the same. -/
structure Represents (map : RecencyMap α) (m : map.State) (c : Cache α) : Prop where
  capacity : map.capacity m = c.capacity
  entries : map.entries m = c.slots.map entryOf
  sound : c.Sound
  capacity_ne_zero : c.capacity ≠ some 0

theorem lookup_map_entryOf (slots : List (Slot α)) (key : String) :
    (slots.map entryOf).lookup key = (slots.find? (·.key == key)).map (·.value) := by
  induction slots with
  | nil => rfl
  | cons slot rest ih =>
    rw [List.map_cons, entryOf, List.lookup_cons, List.find?_cons, ih, BEq.comm (a := key)]
    cases slot.key == key <;> rfl

theorem map_entryOf_get {slot : Slot α} (hfind : c.find? key = some slot) :
    (c.get key).2.slots.map entryOf =
      (key, slot.value) :: (c.slots.map entryOf).filter (·.1 != key) := by
  rw [Cache.get_of_find? hfind, List.filter_map, ← (Cache.mem_of_find? hfind).2]
  rfl

theorem map_entryOf_put (hsound : c.Sound) (hcapacity : c.capacity ≠ some 0)
    (hmissing : c.find? key = none) (value : α) : (c.put key value).2.slots.map entryOf =
      (key, value) :: if c.capacity = some (c.slots.map entryOf).length
        then (c.slots.map entryOf).dropLast else c.slots.map entryOf := by
  rw [hsound.slots_put_of_missing hcapacity hmissing, List.length_map, List.map_cons,
    apply_ite (List.map entryOf), List.map_dropLast]
  rfl

theorem represents_new (map : RecencyMap α) {capacity : Option Nat} (h : capacity ≠ some 0) :
    Represents map (map.new capacity) (.empty capacity) where
  capacity := map.capacity_new capacity h
  entries := map.entries_new capacity h
  sound := Cache.sound_empty capacity
  capacity_ne_zero := h

namespace Represents

theorem lookup (h : Represents map m c) (key : String) :
    (map.entries m).lookup key = (c.find? key).map (·.value) := by
  rw [h.entries, lookup_map_entryOf, Cache.find?]

theorem clear (h : Represents map m c) : Represents map (map.clear m) c.clear where
  capacity := (map.capacity_clear m).trans h.capacity
  entries := map.entries_clear m
  sound := Cache.sound_clear c
  capacity_ne_zero := h.capacity_ne_zero

theorem get (h : Represents map m c) (key : String) :
    (map.get m key).1 = (c.get key).1.map (·.value) ∧
      Represents map (map.get m key).2 (c.get key).2 := by
  have hlookup := h.lookup key
  refine ⟨by rw [map.get_eq_lookup, hlookup, Cache.get_fst], ?_, ?_, h.sound.get key, ?_⟩
  · rw [map.capacity_get, h.capacity, Cache.capacity_get]
  · cases hfind : c.find? key with
    | some slot =>
      rw [hfind] at hlookup
      rw [map.entries_get_of_some m key slot.value hlookup, h.entries, map_entryOf_get hfind]
    | none =>
      rw [hfind] at hlookup
      rw [map.entries_get_of_none m key hlookup, Cache.get_of_missing hfind, h.entries]
  · rw [Cache.capacity_get]
    exact h.capacity_ne_zero

theorem put (h : Represents map m c) (hmissing : c.find? key = none) (value : α) :
    Represents map (map.put m key value) (c.put key value).2 where
  capacity := (map.capacity_put m key value).trans h.capacity
  entries := by
    have hlookup := h.lookup key
    rw [hmissing] at hlookup
    rw [map.entries_put_of_none m key value hlookup,
      map_entryOf_put h.sound h.capacity_ne_zero hmissing, h.capacity, h.entries]
  sound := h.sound.put key value
  capacity_ne_zero := h.capacity_ne_zero

theorem commit (h : Represents map m c) (key : String) (value : α) :
    (map.commit m key value).1 = (c.commit key value).1.value ∧
      Represents map (map.commit m key value).2 (c.commit key value).2 := by
  obtain ⟨hget, hrepresents⟩ := h.get key
  rw [Cache.get_fst] at hget
  cases hfind : c.find? key with
  | some slot =>
    rw [hfind] at hget
    have hcommit : map.commit m key value = (slot.value, (map.get m key).2) := by
      rw [RecencyMap.commit, ← Prod.eta (map.get m key), hget]
      rfl
    rw [hcommit, Cache.commit_of_find? hfind]
    exact ⟨rfl, hrepresents⟩
  | none =>
    rw [hfind] at hget
    have hcommit : map.commit m key value = (value, map.put (map.get m key).2 key value) := by
      rw [RecencyMap.commit, ← Prod.eta (map.get m key), hget]
      rfl
    rw [Cache.get_of_missing hfind] at hrepresents
    rw [hcommit, Cache.commit_of_missing hfind]
    exact ⟨rfl, hrepresents.put hfind value⟩

theorem getOrInsert (h : Represents map m c) (key : String) (built : Except ε α) :
    (map.getOrInsert m key built).1 = (c.getOrInsert key fun c => (built, c)).1.map (·.value) ∧
      Represents map (map.getOrInsert m key built).2 (c.getOrInsert key fun c => (built, c)).2 := by
  obtain ⟨hget, hrepresents⟩ := h.get key
  rw [Cache.get_fst] at hget
  cases hfind : c.find? key with
  | some slot =>
    rw [hfind] at hget
    have hgetOrInsert : map.getOrInsert m key built = (.ok slot.value, (map.get m key).2) := by
      rw [RecencyMap.getOrInsert, ← Prod.eta (map.get m key), hget]
      rfl
    rw [hgetOrInsert, Cache.getOrInsert_of_find? hfind]
    exact ⟨rfl, hrepresents⟩
  | none =>
    rw [hfind] at hget
    rw [Cache.get_of_missing hfind] at hrepresents
    rw [Cache.getOrInsert_of_missing hfind, RecencyMap.getOrInsert, ← Prod.eta (map.get m key), hget]
    cases built with
    | error e => exact ⟨rfl, hrepresents⟩
    | ok value =>
      obtain ⟨hvalue, hcommit⟩ := hrepresents.commit key value
      exact ⟨congrArg Except.ok hvalue, hcommit⟩

end Represents

/-- A cache is such a map itself. -/
def ofCache (α : Type) : RecencyMap α where
  State := { c : Cache α // c.Sound ∧ c.capacity ≠ some 0 }
  new capacity :=
    if h : capacity = some 0 then ⟨.empty none, Cache.sound_empty none, nofun⟩
    else ⟨.empty capacity, Cache.sound_empty capacity, h⟩
  get c key := ((c.1.get key).1.map (·.value),
    ⟨(c.1.get key).2, c.2.1.get key, by rw [Cache.capacity_get]; exact c.2.2⟩)
  put c key value := ⟨(c.1.put key value).2, c.2.1.put key value, c.2.2⟩
  clear c := ⟨c.1.clear, Cache.sound_clear c.1, c.2.2⟩
  capacity c := c.1.capacity
  entries c := c.1.slots.map entryOf
  capacity_new n hn := by rw [dif_neg hn]; rfl
  capacity_get c key := Cache.capacity_get c.1 key
  capacity_put _ _ _ := rfl
  capacity_clear _ := rfl
  entries_new n hn := by rw [dif_neg hn]; rfl
  entries_clear _ := rfl
  get_eq_lookup c key := by rw [lookup_map_entryOf, Cache.get_fst]; rfl
  entries_get_of_some c key value h := by
    rw [lookup_map_entryOf] at h
    obtain ⟨slot, hfind, rfl⟩ := Option.map_eq_some_iff.1 h
    exact map_entryOf_get hfind
  entries_get_of_none c key h := by
    rw [lookup_map_entryOf, Option.map_eq_none_iff] at h
    exact congrArg (fun found => found.2.slots.map entryOf) (Cache.get_of_missing h)
  entries_put_of_none c key value h := by
    rw [lookup_map_entryOf, Option.map_eq_none_iff] at h
    exact map_entryOf_put c.2.1 c.2.2 h value

end RecencyMap
end TreeQuery
