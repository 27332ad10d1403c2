import TreeQuery.Proofs.Cache.Slots
import Mathlib.Data.List.Induction
import Mathlib.Logic.Function.Basic

/-!
# Calls that race for a cache

`Cache.getOrInsert` holds the cache twice: when it looks its key up, and when it commits what it built.
Between the two, other calls may take any steps. Here the steps of any number of calls are interleaved in
any order, with lookups and clearing by others.

Every commit looks for its key again. So a key never has two slots, a call returns what is kept under its
key at its last step, and all calls for a key return one slot for as long as the key stays kept.
-/

namespace TreeQuery

variable {ε α : Type}

/-- How far a call of `Cache.getOrInsert` is. -/
inductive Call (ε α : Type) where
  /-- The key is not looked up yet. -/
  | waiting
  /-- The key was missing, and the value is being built. -/
  | building
  /-- The value is built and not committed yet. -/
  | built (value : α)
  | returned (slot : Slot α)
  | failed (error : ε)

/-- A cache with the calls that run on it. -/
structure Race (ε α : Type) where
  cache : Cache α
  calls : Nat → Call ε α

namespace Race

/-- A step that nothing interrupts. -/
inductive Event (ε α : Type) where
  /-- A call looks up its key. -/
  | lookUp (id : Nat)
  /-- A call is done with building its value. -/
  | build (id : Nat) (outcome : Except ε α)
  /-- A call commits its value. -/
  | commit (id : Nat)
  /-- A key is looked up by someone else. -/
  | get (key : String)
  /-- The cache is emptied. -/
  | clear

/-- The call whose step it is. -/
def Event.call? : Event ε α → Option Nat
  | lookUp id | build id _ | commit id => some id
  | _ => none

/-- No call has begun. -/
def start (capacity : Option Nat) : Race ε α := ⟨.empty capacity, fun _ => .waiting⟩

/-- Moves a call on. -/
def advance (r : Race ε α) (id : Nat) (call : Call ε α) (cache : Cache α) : Race ε α :=
  ⟨cache, Function.update r.calls id call⟩

/-- Takes a step, if the call is up to it. -/
def step? (keys : Nat → String) (r : Race ε α) : Event ε α → Option (Race ε α)
  | .lookUp id => match r.calls id with
    | .waiting => match r.cache.get (keys id) with
      | (some slot, cache) => some (r.advance id (.returned slot) cache)
      | (none, cache) => some (r.advance id .building cache)
    | _ => none
  | .build id outcome => match r.calls id with
    | .building => match outcome with
      | .ok value => some (r.advance id (.built value) r.cache)
      | .error error => some (r.advance id (.failed error) r.cache)
    | _ => none
  | .commit id => match r.calls id with
    | .built value =>
      let (slot, cache) := r.cache.commit (keys id) value
      some (r.advance id (.returned slot) cache)
    | _ => none
  | .get key => some { r with cache := (r.cache.get key).2 }
  | .clear => some { r with cache := r.cache.clear }

/-- Takes steps in order. -/
def run? (keys : Nat → String) (r : Race ε α) : List (Event ε α) → Option (Race ε α)
  | [] => some r
  | event :: rest => (r.step? keys event).bind (·.run? keys rest)

/-! ## One step -/

variable {keys : Nat → String} {capacity : Option Nat} {r r' : Race ε α} {event : Event ε α}
  {id : Nat} {key : String} {slot : Slot α} {value : α}

@[simp] theorem advance_cache (r : Race ε α) (id : Nat) (call : Call ε α) (cache : Cache α) :
    (r.advance id call cache).cache = cache := rfl

@[simp] theorem advance_calls_self (r : Race ε α) (id : Nat) (call : Call ε α) (cache : Cache α) :
    (r.advance id call cache).calls id = call := Function.update_self ..

theorem advance_calls_of_ne {other : Nat} (h : other ≠ id) (call : Call ε α) (cache : Cache α) :
    (r.advance id call cache).calls other = r.calls other := Function.update_of_ne h ..

/-- After a step of a call, another one is as it was before. -/
theorem calls_advance_cases {other : Nat} {call call' : Call ε α} {cache : Cache α}
    (h : (r.advance id call cache).calls other = call') :
    (other = id ∧ call = call') ∨ r.calls other = call' := by
  by_cases heq : other = id
  · rw [heq, advance_calls_self] at h
    exact .inl ⟨heq, h⟩
  · rw [advance_calls_of_ne heq] at h
    exact .inr h

/-- What a step can do. A call returns the slot that it finds under its key, at its first step or at its
last, or the slot that it puts in when there is none. -/
theorem step?_cases (h : r.step? keys event = some r') :
    (∃ id slot, event.call? = some id ∧ r.cache.find? (keys id) = some slot ∧
      r' = r.advance id (.returned slot) (r.cache.get (keys id)).2) ∨
    (∃ id value, event = .commit id ∧ r.calls id = .built value ∧ r.cache.find? (keys id) = none ∧
      r' = r.advance id (.returned (r.cache.put (keys id) value).1) (r.cache.put (keys id) value).2) ∨
    (∃ id value, event = .build id (.ok value) ∧ r' = r.advance id (.built value) r.cache) ∨
    (∃ id error, event = .build id (.error error) ∧ r' = r.advance id (.failed error) r.cache) ∨
    (∃ id, event = .lookUp id ∧ r' = r.advance id .building r.cache) ∨
    (event.call? = none ∧ r'.calls = r.calls ∧
      ((∃ key, r'.cache = (r.cache.get key).2) ∨ r'.cache = r.cache.clear)) := by
  cases event with
  | lookUp id =>
    cases hcall : r.calls id <;> simp only [step?, hcall, reduceCtorEq] at h
    cases hfind : r.cache.find? (keys id) with
    | some slot =>
      rw [Cache.get_of_find? hfind] at h
      refine .inl ⟨id, slot, rfl, hfind, ?_⟩
      rw [Cache.get_of_find? hfind]
      exact (Option.some.inj h).symm
    | none =>
      rw [Cache.get_of_missing hfind] at h
      exact .inr (.inr (.inr (.inr (.inl ⟨id, rfl, (Option.some.inj h).symm⟩))))
  | build id outcome =>
    cases hcall : r.calls id <;> simp only [step?, hcall, reduceCtorEq] at h
    cases outcome with
    | ok value => exact .inr (.inr (.inl ⟨id, value, rfl, (Option.some.inj h).symm⟩))
    | error error => exact .inr (.inr (.inr (.inl ⟨id, error, rfl, (Option.some.inj h).symm⟩)))
  | commit id =>
    cases hcall : r.calls id <;> simp only [step?, hcall, reduceCtorEq] at h
    next value =>
    cases hfind : r.cache.find? (keys id) with
    | some slot =>
      rw [Cache.commit_of_find? hfind] at h
      exact .inl ⟨id, slot, rfl, hfind, (Option.some.inj h).symm⟩
    | none =>
      rw [Cache.commit_of_missing hfind] at h
      exact .inr (.inl ⟨id, value, rfl, hcall, hfind, (Option.some.inj h).symm⟩)
  | get key =>
    obtain rfl := Option.some.inj h
    exact .inr (.inr (.inr (.inr (.inr ⟨rfl, rfl, .inl ⟨key, rfl⟩⟩))))
  | clear =>
    obtain rfl := Option.some.inj h
    exact .inr (.inr (.inr (.inr (.inr ⟨rfl, rfl, .inr rfl⟩))))

/-- What a step can do to the cache. -/
theorem cache_cases (h : r.step? keys event = some r') :
    (∃ key, r'.cache = (r.cache.get key).2) ∨
    (∃ key value, r.cache.find? key = none ∧ r'.cache = (r.cache.put key value).2) ∨
    r'.cache = r.cache ∨ r'.cache = r.cache.clear := by
  rcases step?_cases h with ⟨id, slot, -, -, rfl⟩ | ⟨id, value, -, -, hfind, rfl⟩ | ⟨id, value, -, rfl⟩ |
    ⟨id, error, -, rfl⟩ | ⟨id, -, rfl⟩ | ⟨-, -, ⟨key, hget⟩ | hclear⟩
  · exact .inl ⟨keys id, rfl⟩
  · exact .inr (.inl ⟨keys id, value, hfind, rfl⟩)
  · exact .inr (.inr (.inl rfl))
  · exact .inr (.inr (.inl rfl))
  · exact .inr (.inr (.inl rfl))
  · exact .inl ⟨key, hget⟩
  · exact .inr (.inr (.inr hclear))

theorem capacity_step (h : r.step? keys event = some r') : r'.cache.capacity = r.cache.capacity := by
  rcases cache_cases h with ⟨key, hcache⟩ | ⟨key, value, -, hcache⟩ | hcache | hcache
  · rw [hcache, Cache.capacity_get]
  · rw [hcache]
    rfl
  · rw [hcache]
  · rw [hcache]
    rfl

theorem nextSerial_step (h : r.step? keys event = some r') :
    r.cache.nextSerial ≤ r'.cache.nextSerial := by
  rcases cache_cases h with ⟨key, hcache⟩ | ⟨key, value, -, hcache⟩ | hcache | hcache
  · exact Nat.le_of_eq (by rw [hcache, Cache.nextSerial_get])
  · rw [hcache]
    exact Nat.le_succ _
  · exact Nat.le_of_eq (by rw [hcache])
  · exact Nat.le_of_eq (by rw [hcache, Cache.clear])

theorem sound_step (hsound : r.cache.Sound) (h : r.step? keys event = some r') : r'.cache.Sound := by
  rcases cache_cases h with ⟨key, hcache⟩ | ⟨key, value, -, hcache⟩ | hcache | hcache
  · rw [hcache]
    exact hsound.get key
  · rw [hcache]
    exact hsound.put key value
  · rwa [hcache]
  · rw [hcache]
    exact Cache.sound_clear _

/-- A slot was kept before a step, or its key was missing. -/
theorem mem_slots_step (h : r.step? keys event = some r') (hmem : slot ∈ r'.cache.slots) :
    slot ∈ r.cache.slots ∨ r.cache.find? slot.key = none := by
  rcases cache_cases h with ⟨key, hcache⟩ | ⟨key, value, hfind, hcache⟩ | hcache | hcache
  · rw [hcache] at hmem
    exact .inl (Cache.mem_slots_of_get hmem)
  · rw [hcache] at hmem
    rcases Cache.mem_slots_of_put hmem with rfl | hold
    · exact .inr hfind
    · exact .inl hold
  · rw [hcache] at hmem
    exact .inl hmem
  · rw [hcache] at hmem
    exact absurd hmem List.not_mem_nil

/-- A key that is kept before and after a step has one slot before and after. -/
theorem find?_step (hsound : r.cache.Sound) (h : r.step? keys event = some r')
    (hfind : r.cache.find? key = some slot) (hkept : key ∈ r'.cache.keys) :
    r'.cache.find? key = some slot := by
  obtain ⟨slot', hfind'⟩ := Option.isSome_iff_exists.1 (Cache.find?_isSome.2 hkept)
  obtain ⟨hmem', rfl⟩ := Cache.mem_of_find? hfind'
  rcases mem_slots_step h hmem' with hold | hmissing
  · rw [hfind', ← hfind, Cache.find?_of_mem hsound.nodup hold]
  · rw [hmissing] at hfind
    cases hfind

/-- A call that returns at a step returns what is kept under its key after the step. -/
theorem find?_of_returned (hsound : r.cache.Sound) (hcapacity : r.cache.capacity ≠ some 0)
    (h : r.step? keys event = some r') (hcall : event.call? = some id)
    (hreturned : r'.calls id = .returned slot) : r'.cache.find? (keys id) = some slot := by
  rcases step?_cases h with ⟨id', found, hid, hfind, rfl⟩ | ⟨id', value, rfl, -, hfind, rfl⟩ |
    ⟨id', value, rfl, rfl⟩ | ⟨id', error, rfl, rfl⟩ | ⟨id', rfl, rfl⟩ | ⟨hnone, -, -⟩
  · obtain rfl : id = id' := Option.some.inj (hcall.symm.trans hid)
    rw [advance_calls_self] at hreturned
    obtain rfl := Call.returned.inj hreturned
    obtain ⟨hmem, hkey⟩ := Cache.mem_of_find? hfind
    have hsound' := hsound.get (keys id)
    rw [advance_cache, ← hkey]
    exact Cache.find?_of_mem (hkey ▸ hsound'.nodup)
      ((Cache.slots_get_perm hsound.nodup _).mem_iff.2 hmem)
  · obtain rfl : id' = id := Option.some.inj hcall
    rw [advance_calls_self] at hreturned
    obtain rfl := Call.returned.inj hreturned
    exact Cache.find?_put hcapacity _ _
  · obtain rfl : id' = id := Option.some.inj hcall
    rw [advance_calls_self] at hreturned
    cases hreturned
  · obtain rfl : id' = id := Option.some.inj hcall
    rw [advance_calls_self] at hreturned
    cases hreturned
  · obtain rfl : id' = id := Option.some.inj hcall
    rw [advance_calls_self] at hreturned
    cases hreturned
  · rw [hnone] at hcall
    cases hcall

/-! ## All slots that are given -/

/-- The slot is kept, or a call returned it. -/
def Gives (r : Race ε α) (slot : Slot α) : Prop :=
  slot ∈ r.cache.slots ∨ ∃ id, r.calls id = .returned slot

/-- A slot was given before a step, or the step puts it in: it has the value that a call for its key had
built, and the next serial number. -/
theorem gives_step (h : r.step? keys event = some r') (hgives : r'.Gives slot) :
    r.Gives slot ∨ ∃ id value, event = .commit id ∧ r.calls id = .built value ∧
      slot = (r.cache.put (keys id) value).1 ∧ r'.cache.nextSerial = r.cache.nextSerial + 1 := by
  -- a call that is not the one that moves on has returned nothing new
  have hcalls : ∀ {id' : Nat} {call : Call ε α} {cache : Cache α}, r' = r.advance id' call cache →
      (∀ other, call = .returned other → r.Gives other) → (∀ other ∈ cache.slots, r.Gives other) →
        r.Gives slot := by
    rintro id' call cache rfl hcall hcache
    rcases hgives with hkept | ⟨other, hreturned⟩
    · exact hcache slot hkept
    · rcases calls_advance_cases hreturned with ⟨-, heq⟩ | hold
      · exact hcall slot heq
      · exact .inr ⟨other, hold⟩
  rcases step?_cases h with ⟨id', found, -, hfind, hr⟩ | ⟨id', value, rfl, hbuilt, -, rfl⟩ |
    ⟨id', value, -, hr⟩ | ⟨id', error, -, hr⟩ | ⟨id', -, hr⟩ | ⟨-, hsame, hcache⟩
  · refine .inl (hcalls hr ?_ fun other hmem => .inl (Cache.mem_slots_of_get hmem))
    rintro _ ⟨⟩
    exact .inl (Cache.mem_of_find? hfind).1
  · rcases hgives with hkept | ⟨other, hreturned⟩
    · rcases Cache.mem_slots_of_put hkept with rfl | hold
      · exact .inr ⟨id', value, rfl, hbuilt, rfl, rfl⟩
      · exact .inl (.inl hold)
    · rcases calls_advance_cases hreturned with ⟨-, heq⟩ | hold
      · exact .inr ⟨id', value, rfl, hbuilt, (Call.returned.inj heq).symm, rfl⟩
      · exact .inl (.inr ⟨other, hold⟩)
  · exact .inl (hcalls hr nofun fun other hmem => .inl hmem)
  · exact .inl (hcalls hr nofun fun other hmem => .inl hmem)
  · exact .inl (hcalls hr nofun fun other hmem => .inl hmem)
  · rcases hgives with hkept | ⟨other, hreturned⟩
    · rcases hcache with ⟨key, hget⟩ | hclear
      · exact .inl (.inl (Cache.mem_slots_of_get (hget ▸ hkept)))
      · rw [hclear] at hkept
        exact absurd hkept List.not_mem_nil
    · exact .inl (.inr ⟨other, hsame ▸ hreturned⟩)

/-- A call that has built a value had it built before a step, or the step builds it. -/
theorem built_step (h : r.step? keys event = some r') (hbuilt : r'.calls id = .built value) :
    r.calls id = .built value ∨ event = .build id (.ok value) := by
  have hcalls : ∀ {id' : Nat} {call : Call ε α} {cache : Cache α}, r' = r.advance id' call cache →
      call ≠ .built value → r.calls id = .built value := by
    rintro id' call cache rfl hcall
    exact (calls_advance_cases hbuilt).resolve_left fun heq => hcall heq.2
  rcases step?_cases h with ⟨id', found, -, -, hr⟩ | ⟨id', value', -, -, -, hr⟩ |
    ⟨id', value', rfl, rfl⟩ | ⟨id', error, -, hr⟩ | ⟨id', -, hr⟩ | ⟨-, hsame, -⟩
  · exact .inl (hcalls hr nofun)
  · exact .inl (hcalls hr nofun)
  · rcases calls_advance_cases hbuilt with ⟨rfl, heq⟩ | hold
    · rw [Call.built.inj heq]
      exact .inr rfl
    · exact .inl hold
  · exact .inl (hcalls hr nofun)
  · exact .inl (hcalls hr nofun)
  · exact .inl (hsame ▸ hbuilt)

/-! ## Runs -/

theorem run?_concat (r : Race ε α) (events : List (Event ε α)) (event : Event ε α) :
    r.run? keys (events ++ [event]) = (r.run? keys events).bind (·.step? keys event) := by
  induction events generalizing r with
  | nil => exact Option.bind_fun_some (r.step? keys event)
  | cons first rest ih =>
    rw [List.cons_append, run?, run?, Option.bind_assoc]
    exact congrArg _ (funext ih)

/-- What holds after any steps from the start. -/
structure Reached (keys : Nat → String) (capacity : Option Nat) (events : List (Event ε α))
    (r : Race ε α) : Prop where
  sound : r.cache.Sound
  capacity : r.cache.capacity = capacity
  /-- A call that has built a value took a step for it. -/
  built : ∀ id value, r.calls id = .built value → .build id (.ok value) ∈ events
  /-- A given slot has a value that was built for its key. -/
  given : ∀ slot, r.Gives slot → ∃ id, keys id = slot.key ∧ .build id (.ok slot.value) ∈ events
  serial_lt : ∀ slot, r.Gives slot → slot.serial < r.cache.nextSerial
  /-- No serial number is given twice. -/
  unique : ∀ slot slot', r.Gives slot → r.Gives slot' → slot.serial = slot'.serial → slot = slot'

theorem reached_start (keys : Nat → String) (capacity : Option Nat) :
    Reached keys capacity [] (start capacity : Race ε α) where
  sound := Cache.sound_empty capacity
  capacity := rfl
  built _ _ h := nomatch h
  given _ h := by rcases h with h | ⟨_, ⟨⟩⟩; exact absurd h List.not_mem_nil
  serial_lt _ h := by rcases h with h | ⟨_, ⟨⟩⟩; exact absurd h List.not_mem_nil
  unique _ _ h := by rcases h with h | ⟨_, ⟨⟩⟩; exact absurd h List.not_mem_nil

variable {events : List (Event ε α)}

theorem Reached.step (hr : Reached keys capacity events r) (h : r.step? keys event = some r') :
    Reached keys capacity (events ++ [event]) r' where
  sound := sound_step hr.sound h
  capacity := (capacity_step h).trans hr.capacity
  built id value hbuilt := by
    rcases built_step h hbuilt with hold | rfl
    · exact List.mem_append_left _ (hr.built id value hold)
    · exact List.mem_append_right _ (List.mem_singleton_self _)
  given slot hgives := by
    rcases gives_step h hgives with hold | ⟨id, value, -, hbuilt, rfl, -⟩
    · obtain ⟨id, hkey, hmem⟩ := hr.given slot hold
      exact ⟨id, hkey, List.mem_append_left _ hmem⟩
    · exact ⟨id, rfl, List.mem_append_left _ (hr.built id value hbuilt)⟩
  serial_lt slot hgives := by
    rcases gives_step h hgives with hold | ⟨id, value, -, -, rfl, hnext⟩
    · exact Nat.lt_of_lt_of_le (hr.serial_lt slot hold) (nextSerial_step h)
    · rw [hnext]
      exact Nat.lt_succ_self _
  unique slot slot' hgives hgives' heq := by
    rcases gives_step h hgives with hold | ⟨id, value, rfl, hbuilt, rfl, -⟩ <;>
      rcases gives_step h hgives' with hold' | ⟨id', value', hcommit, hbuilt', rfl, -⟩
    · exact hr.unique slot slot' hold hold' heq
    · exact absurd (heq ▸ hr.serial_lt slot hold) (Nat.lt_irrefl _)
    · exact absurd (heq ▸ hr.serial_lt slot' hold') (Nat.lt_irrefl _)
    · -- one step puts in one slot
      obtain rfl := Event.commit.inj hcommit
      rw [Call.built.inj (hbuilt.symm.trans hbuilt')]

theorem reached_run (hrun : (start capacity).run? keys events = some r) :
    Reached keys capacity events r := by
  induction events using List.reverseRecOn generalizing r with
  | nil =>
    obtain rfl := Option.some.inj hrun
    exact reached_start keys capacity
  | append_singleton events event ih =>
    rw [run?_concat] at hrun
    obtain ⟨before, hbefore, hstep⟩ := Option.bind_eq_some_iff.1 hrun
    exact (ih hbefore).step hstep

/-! ## One entry for all -/

/-- The step is the last one of a call, which returns a slot. -/
def Returns (keys : Nat → String) (event : Event ε α) (id : Nat) (slot : Slot α) (r r' : Race ε α) : Prop :=
  r.step? keys event = some r' ∧ event.call? = some id ∧ r'.calls id = .returned slot

/-- Steps lead from one moment to another, and at all moments from the first to the last the key is
kept. -/
inductive Keeps (keys : Nat → String) (key : String) : Race ε α → Race ε α → Prop where
  | refl {r : Race ε α} : key ∈ r.cache.keys → Keeps keys key r r
  | tail {r s s' : Race ε α} {event : Event ε α} : Keeps keys key r s →
      s.step? keys event = some s' → key ∈ s'.cache.keys → Keeps keys key r s'

/-- While a key is kept, its slot stays the same. -/
theorem Keeps.find? {s : Race ε α} (h : Keeps keys key r s) (hsound : r.cache.Sound)
    (hfind : r.cache.find? key = some slot) : s.cache.Sound ∧ s.cache.find? key = some slot := by
  induction h with
  | refl => exact ⟨hsound, hfind⟩
  | tail _ hstep hkept ih => exact ⟨sound_step ih.1 hstep, find?_step ih.1 hstep ih.2 hkept⟩

/-- Two calls for one key return one slot, if the key is kept from the return of the first to that of the
second. -/
theorem Reached.returns_unique (hr : Reached keys capacity events r) (hcapacity : capacity ≠ some 0)
    {event' : Event ε α} {id' : Nat} {slot' : Slot α} {r₁ r₂ r₃ : Race ε α}
    (hfirst : Returns keys event id slot r r₁) (hkeeps : Keeps keys (keys id) r₁ r₂)
    (hsecond : Returns keys event' id' slot' r₂ r₃) (hkey : keys id' = keys id) : slot' = slot := by
  obtain ⟨hstep, hcall, hreturned⟩ := hfirst
  obtain ⟨hstep', hcall', hreturned'⟩ := hsecond
  have hfind₁ := find?_of_returned hr.sound (hr.capacity ▸ hcapacity) hstep hcall hreturned
  have hsound₁ := sound_step hr.sound hstep
  obtain ⟨hsound₂, hfind₂⟩ := hkeeps.find? hsound₁ hfind₁
  have hcapacity₂ : r₂.cache.capacity ≠ some 0 := by
    have hsame : r₂.cache.capacity = r₁.cache.capacity := by
      clear hfind₁ hsound₁ hfind₂ hsound₂ hstep'
      induction hkeeps with
      | refl => rfl
      | tail _ hstep _ ih => exact (capacity_step hstep).trans ih
    rw [hsame, capacity_step hstep, hr.capacity]
    exact hcapacity
  have hfind₃ := find?_of_returned hsound₂ hcapacity₂ hstep' hcall' hreturned'
  rw [hkey] at hfind₃
  have hkept : keys id ∈ r₃.cache.keys := Cache.find?_isSome.1 (by rw [hfind₃]; rfl)
  have hsame := find?_step hsound₂ hstep' hfind₂ hkept
  exact Option.some.inj (hfind₃.symm.trans hsame)

/-- A value that is committed when its key is kept is dropped for the kept one. -/
theorem commit_of_kept (hsound : r.cache.Sound) (hbuilt : r.calls id = .built value)
    (hfind : r.cache.find? (keys id) = some slot) :
    ∃ r', r.step? keys (.commit id) = some r' ∧ r'.calls id = .returned slot ∧
      r'.cache.slots.Perm r.cache.slots ∧ r'.cache.nextSerial = r.cache.nextSerial := by
  refine ⟨r.advance id (.returned slot) (r.cache.get (keys id)).2, ?_, advance_calls_self .., ?_, ?_⟩
  · simp only [step?, hbuilt, Cache.commit_of_find? hfind]
  · exact Cache.slots_get_perm hsound.nodup _
  · exact Cache.nextSerial_get _ _

/-- In every interleaving of calls, no key has two slots, and a kept value was built as a whole by a call
for its key. A call returns what is kept under its key when it returns. Two calls for one key return one
slot as long as the key stays kept between them: the first value that is put in counts, and one that comes
later is dropped. Slots are told apart by their serial numbers. -/
theorem share_one_entry (hcapacity : capacity ≠ some 0)
    (hrun : (start capacity).run? keys events = some r) :
    r.cache.keys.Nodup ∧
      (∀ slot ∈ r.cache.slots, ∃ id, keys id = slot.key ∧ .build id (.ok slot.value) ∈ events) ∧
      (∀ event id slot r', Returns keys event id slot r r' → r'.cache.find? (keys id) = some slot) ∧
      (∀ event id slot r₁ r₂ event' id' slot' r₃, Returns keys event id slot r r₁ →
        Keeps keys (keys id) r₁ r₂ → Returns keys event' id' slot' r₂ r₃ → keys id' = keys id →
          slot' = slot) ∧
      (∀ id value slot, r.calls id = .built value → r.cache.find? (keys id) = some slot →
        ∃ r', r.step? keys (.commit id) = some r' ∧ r'.calls id = .returned slot ∧
          r'.cache.slots.Perm r.cache.slots ∧ r'.cache.nextSerial = r.cache.nextSerial) ∧
      ∀ slot slot', r.Gives slot → r.Gives slot' → slot.serial = slot'.serial → slot = slot' := by
  have hr := reached_run hrun
  refine ⟨hr.sound.nodup, fun slot hmem => hr.given slot (.inl hmem), ?_, ?_, ?_, hr.unique⟩
  · rintro event id slot r' ⟨hstep, hcall, hreturned⟩
    exact find?_of_returned hr.sound (hr.capacity ▸ hcapacity) hstep hcall hreturned
  · intro event id slot r₁ r₂ event' id' slot' r₃ hfirst hkeeps hsecond hkey
    exact hr.returns_unique hcapacity hfirst hkeeps hsecond hkey
  · exact fun id value slot hbuilt hfind => commit_of_kept hr.sound hbuilt hfind

/-- Two calls look up one key before either has built its value, and the second one commits first. -/
def twoCalls : List (Event Unit Nat) :=
  [.lookUp 0, .lookUp 1, .build 0 (.ok 7), .build 1 (.ok 8), .commit 1]

/-- The first of the two calls returns the value of the second. -/
theorem share_one_entry_twoCalls :
    ∃ r r', (start (some 1)).run? (fun _ => "a") twoCalls = some r ∧
      r.calls 1 = .returned ⟨"a", 0, 8⟩ ∧ r.calls 0 = .built 7 ∧
      r.step? (fun _ => "a") (.commit 0) = some r' ∧ r'.calls 0 = .returned ⟨"a", 0, 8⟩ ∧
      r'.cache.slots = [⟨"a", 0, 8⟩] := by
  obtain ⟨-, -, -, -, hcommit, -⟩ := share_one_entry (by decide)
    (rfl : (start (some 1)).run? (fun _ => "a") twoCalls = some _)
  obtain ⟨r', hstep, hreturned, hslots, -⟩ := hcommit 0 7 ⟨"a", 0, 8⟩ rfl rfl
  exact ⟨_, r', rfl, rfl, rfl, hstep, hreturned, List.perm_singleton.1 hslots⟩

end Race
end TreeQuery
