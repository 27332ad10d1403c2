import TreeQuery.Profile.Document
import TreeQuery.Session

/-!
# Configurations

A configuration chooses the size of the cache for selector lists and the capability profile.
-/

namespace TreeQuery

/-- The choices for a session. -/
structure Configuration where
  /-- The most selector lists in the cache; nothing means any number. -/
  cacheCapacity : Option Nat
  profile : Profile
  deriving DecidableEq, Repr

/-- Why a document is no configuration. -/
inductive ConfigurationError where
  /-- The document is not JSON, or not of the right form. -/
  | malformed
  /-- A cache of limited size must hold something. -/
  | zeroCapacity
  deriving DecidableEq, Repr, Inhabited

/-- The wording of the error. -/
def ConfigurationError.message : ConfigurationError → String
  | malformed => "invalid engine configuration"
  | zeroCapacity => "cache_capacity must be greater than zero"

namespace Configuration

/-- The configuration of an empty document. -/
def standard : Configuration := ⟨some Cache.defaultCapacity, .manual⟩

instance : Inhabited Configuration := ⟨standard⟩

/-- Reads a configuration, whatever its capacity is. -/
def ofJson? (json : Json) : Option Configuration := do
  match ← json.record? ["cache_capacity", "capabilities"] with
  | [capacity, profile] => do
    let capacity ←
      Json.fieldOr standard.cacheCapacity (Json.orNull (Json.natBelow? UInt64.size)) capacity
    let profile ← Json.fieldOr standard.profile Profile.ofJson? profile
    some ⟨capacity, profile⟩
  | _ => none

/-- Reads a configuration from a document. -/
def read (document : String) : Except ConfigurationError Configuration :=
  match (Json.read? document).bind ofJson? with
  | none => .error .malformed
  | some c => if c.cacheCapacity == some 0 then .error .zeroCapacity else .ok c

/-- The first state of a session of this configuration. Its cache holds one list at least. -/
def session {σ : Type} (c : Configuration) (state : σ) : Session σ :=
  .start (.empty (c.cacheCapacity.map (max 1 ·))) state

/-- An engine of this configuration, with the standard names of the pseudo-classes. -/
def engine {σ : Type} (c : Configuration) (scene : Scene) (lookups : Lookups)
    (evaluator : Option (Evaluator σ)) : Engine σ :=
  ⟨.standard, c.profile, scene, lookups, evaluator⟩

end Configuration
end TreeQuery
