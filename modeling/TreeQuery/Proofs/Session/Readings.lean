import TreeQuery.Proofs.Session.Reached

/-!
# Lists that a session reads

A list that was read can be searched for later, also when the cache has given it up. Its serial number
tells it from all other lists: a request finds a list in the cache, or reads one anew under a number that
no list had before.
-/

namespace TreeQuery

variable {σ : Type}

/-- What a session can be used for. -/
inductive Use where
  /-- Answering a request. -/
  | request (request : Request)
  /-- Searching for a list that was read before. -/
  | search (list : ParsedList) (scope : List NodeId)

namespace Engine

/-- Uses a session. -/
def use (e : Engine σ) : Use → Session σ → Except RequestError Answer × Session σ
  | .request request, s => e.perform request s
  | .search list scope, s =>
    let (found, activity) := e.select list.serial list.value scope s.activity
    (.ok (.nodes found), { s with activity })

/-- Uses a session several times, in order. -/
def useAll (e : Engine σ) : List Use → Session σ → List (Except RequestError Answer) × Session σ
  | [], s => ([], s)
  | use :: rest, s =>
    let (first, s) := e.use use s
    let (others, s) := e.useAll rest s
    (first :: others, s)

/-- The list that a request reads, anew or from the cache. -/
def reading? (e : Engine σ) (request : Request) (s : Session σ) : Option ParsedList :=
  if (e.unknown? request.checkedNodes).isSome then none
  else request.selector?.bind fun text => (e.parser.readCached text s.cache).1.toOption

/-- The list that a use is about. -/
def listOf? (e : Engine σ) : Use → Session σ → Option ParsedList
  | .request request, s => e.reading? request s
  | .search list _, _ => some list

/-- The lists that are read while a session is used. -/
def readings (e : Engine σ) : List Use → Session σ → List ParsedList
  | [], _ => []
  | .request request :: rest, s =>
    (e.reading? request s).toList ++ e.readings rest (e.perform request s).2
  | use :: rest, s => e.readings rest (e.use use s).2

end Engine

/-! ## Known lists -/

/-- Lists that are known of a cache: all that it keeps and others, with different numbers below the next
one. -/
structure Cache.Knows {α : Type} (known : List (Slot α)) (c : Cache α) : Prop where
  kept : ∀ slot ∈ c.slots, slot ∈ known
  serial_lt : ∀ slot ∈ known, slot.serial < c.nextSerial
  unique : ∀ slot ∈ known, ∀ slot' ∈ known, slot.serial = slot'.serial → slot = slot'

namespace Cache.Knows

variable {α : Type} {known : List (Slot α)} {c : Cache α} {slot : Slot α}

theorem empty (capacity : Option Nat) : Knows [] (Cache.empty capacity : Cache α) where
  kept _ hmem := hmem
  serial_lt _ hmem := absurd hmem List.not_mem_nil
  unique _ hmem := absurd hmem List.not_mem_nil

/-- A known list may be named again. -/
theorem cons (h : Knows known c) (hmem : slot ∈ known) : Knows (slot :: known) c where
  kept other hother := List.mem_cons_of_mem _ (h.kept other hother)
  serial_lt other hother := (List.mem_cons.1 hother).elim (· ▸ h.serial_lt slot hmem) (h.serial_lt other)
  unique other hother other' hother' := by
    have hknown : ∀ any ∈ slot :: known, any ∈ known := fun any hany =>
      (List.mem_cons.1 hany).elim (· ▸ hmem) id
    exact h.unique other (hknown other hother) other' (hknown other' hother')

theorem get (h : Knows known c) (key : String) : Knows known (c.get key).2 where
  kept other hother := h.kept other (Cache.mem_slots_of_get hother)
  serial_lt other hother := by
    rw [Cache.nextSerial_get]
    exact h.serial_lt other hother
  unique := h.unique

/-- A value that is put in has a number of its own. -/
theorem put (h : Knows known c) (key : String) (value : α) :
    Knows ((c.put key value).1 :: known) (c.put key value).2 where
  kept other hother := by
    rcases Cache.mem_slots_of_put hother with rfl | hold
    · exact List.mem_cons_self
    · exact List.mem_cons_of_mem _ (h.kept other hold)
  serial_lt other hother := by
    rcases List.mem_cons.1 hother with rfl | hold
    · exact Nat.lt_succ_self _
    · exact Nat.lt_succ_of_lt (h.serial_lt other hold)
  unique other hother other' hother' heq := by
    rcases List.mem_cons.1 hother with rfl | hold <;> rcases List.mem_cons.1 hother' with rfl | hold'
    · rfl
    · exact absurd (heq ▸ h.serial_lt other' hold') (Nat.lt_irrefl _)
    · exact absurd (heq ▸ h.serial_lt other hold) (Nat.lt_irrefl _)
    · exact h.unique other hold other' hold' heq

end Cache.Knows

/-- What is read through a cache is known, or has a number of its own. -/
theorem Parser.knows_readCached (parser : Parser) {known : List ParsedList}
    {cache : Cache (List Selector)} (h : Cache.Knows known cache) (text : String) :
    Cache.Knows ((parser.readCached text cache).1.toOption.toList ++ known)
      (parser.readCached text cache).2 := by
  unfold readCached
  cases hfind : cache.find? text with
  | some slot =>
    rw [Cache.getOrInsert_of_find? hfind]
    exact (h.get text).cons (h.kept slot (Cache.mem_of_find? hfind).1)
  | none =>
    rw [Cache.getOrInsert_of_missing hfind]
    cases Selector.read parser text with
    | error error => exact h
    | ok list =>
      dsimp only
      rw [Cache.commit_of_missing hfind]
      exact h.put text list

namespace Engine

variable {e : Engine σ} {s : Session σ} {known : List ParsedList}

theorem knows_perform (h : Cache.Knows known s.cache) (request : Request) :
    Cache.Knows ((e.reading? request s).toList ++ known) (e.perform request s).2.cache := by
  unfold perform reading?
  cases e.unknown? request.checkedNodes with
  | some node => exact h
  | none =>
    cases request.selector? with
    | none => exact ⟨fun _ hmem => absurd hmem List.not_mem_nil, h.serial_lt, h.unique⟩
    | some text =>
      have hread := e.parser.knows_readCached h text
      dsimp only [Option.isSome_none, Bool.false_eq_true, if_false, Option.bind_some]
      cases hcached : e.parser.readCached text s.cache with
      | mk outcome cache =>
        rw [hcached] at hread
        cases outcome with
        | error error => exact hread
        | ok list => exact hread

/-- Lists that are read in a run are known, with the lists before it, at some later time. -/
theorem knows_readings (h : Cache.Knows known s.cache) (uses : List Use) :
    ∃ (all : List ParsedList) (cache : Cache (List Selector)), Cache.Knows all cache ∧
      (∀ list ∈ known, list ∈ all) ∧ ∀ list ∈ e.readings uses s, list ∈ all := by
  induction uses generalizing s known with
  | nil => exact ⟨known, s.cache, h, fun _ hmem => hmem, fun _ hmem => absurd hmem List.not_mem_nil⟩
  | cons use rest ih =>
    cases use with
    | request request =>
      obtain ⟨all, cache, hall, hknown, hrest⟩ := ih (knows_perform h request)
      refine ⟨all, cache, hall, fun list hmem => hknown list (List.mem_append_right _ hmem),
        fun list hmem => ?_⟩
      rcases List.mem_append.1 hmem with hfirst | hlater
      · exact hknown list (List.mem_append_left _ hfirst)
      · exact hrest list hlater
    | search list scope => exact ih (s := (e.use (.search list scope) s).2) h

/-- The number of a list tells it from all others: lists that are read under one number, in a session that
begins with an empty cache, are one list. -/
theorem eq_of_serial_eq (e : Engine σ) (capacity : Option Nat) (state : σ) (uses : List Use) :
    ∀ list ∈ e.readings uses (.start (.empty capacity) state),
      ∀ list' ∈ e.readings uses (.start (.empty capacity) state),
        list.serial = list'.serial → list = list' := by
  obtain ⟨all, cache, hall, -, hmem⟩ := knows_readings (e := e)
    (s := .start (.empty capacity) state) (Cache.Knows.empty capacity) uses
  exact fun list hlist list' hlist' => hall.unique list (hmem list hlist) list' (hmem list' hlist')

end Engine
end TreeQuery
