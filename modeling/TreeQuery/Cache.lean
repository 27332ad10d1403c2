/-!
# A cache of recent values

A cache keeps the values of the keys that were used last. Its slots are a list, the most recently
used first; a full cache gives up the last one. Every value that is put in gets a serial number, so
two results with one number are the same value, kept from one insertion.
-/

namespace TreeQuery

/-- A kept value with its key and its serial number. -/
structure Slot (α : Type) where
  key : String
  serial : Nat
  value : α
  deriving DecidableEq, Repr

/-- A cache of at most `capacity` values, or of any number. -/
structure Cache (α : Type) where
  capacity : Option Nat
  /-- The slots, the most recently used first; no key occurs twice. -/
  slots : List (Slot α)
  /-- The serial number of the next value that is put in. -/
  nextSerial : Nat
  deriving DecidableEq, Repr

namespace Cache

variable {α ε : Type}

/-- The cache without slots. -/
def empty (capacity : Option Nat) : Cache α := ⟨capacity, [], 0⟩

/-- The capacity when none is chosen. -/
def defaultCapacity : Nat := 256

instance : Inhabited (Cache α) := ⟨empty (some defaultCapacity)⟩

/-- The number of kept values. -/
def size (c : Cache α) : Nat := c.slots.length

/-- The most values that the cache can keep: with no capacity chosen, the largest number of 64
bits. -/
def maxSize (c : Cache α) : Nat := c.capacity.getD (UInt64.size - 1)

/-- The slot of a key, if it is kept. -/
def find? (c : Cache α) (key : String) : Option (Slot α) := c.slots.find? (·.key == key)

/-- The slots of the other keys. -/
def others (c : Cache α) (key : String) : List (Slot α) := c.slots.filter (·.key != key)

/-- Looks up a key and makes it the most recently used one. -/
def get (c : Cache α) (key : String) : Option (Slot α) × Cache α :=
  match c.find? key with
  | none => (none, c)
  | some slot => (some slot, { c with slots := slot :: c.others key })

/-- Keeps at most as many slots as the capacity allows. -/
def fit (capacity : Option Nat) (slots : List (Slot α)) : List (Slot α) :=
  match capacity with
  | none => slots
  | some n => slots.take n

/-- Puts in a value, as the most recently used one, and gives up what no longer fits. -/
def put (c : Cache α) (key : String) (value : α) : Slot α × Cache α :=
  let slot : Slot α := ⟨key, c.nextSerial, value⟩
  (slot, { c with slots := fit c.capacity (slot :: c.others key), nextSerial := c.nextSerial + 1 })

/-- Puts in a value that was built after its key was missed. If the key was put in meanwhile, the
value is dropped for the kept one. -/
def commit (c : Cache α) (key : String) (value : α) : Slot α × Cache α :=
  match c.get key with
  | (some slot, c) => (slot, c)
  | (none, c) => c.put key value

/-- Looks up a key, and on a miss builds its value and puts it in. The building may itself use the
cache, and if it fails nothing is put in. -/
def getOrInsert (c : Cache α) (key : String) (build : Cache α → Except ε α × Cache α) :
    Except ε (Slot α) × Cache α :=
  match c.get key with
  | (some slot, c) => (.ok slot, c)
  | (none, c) => match build c with
    | (.error e, c) => (.error e, c)
    | (.ok value, c) => let (slot, c) := c.commit key value; (.ok slot, c)

/-- Gives up every slot. -/
def clear (c : Cache α) : Cache α := { c with slots := [] }

end Cache
end TreeQuery
