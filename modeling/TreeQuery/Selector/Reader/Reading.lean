import TreeQuery.Selector
import TreeQuery.SyntaxError

/-!
# Outcomes of reading

A reader takes a text and returns what it read with the text that follows. It fails in two ways. A
branch that no element can satisfy is dead: it is left out of its list, and the list goes on after
it. A text that breaks the rules makes the whole list fail, and so does a part with too many
conditions to be counted.
-/

namespace TreeQuery

/-- The outcome of reading an `α`. -/
inductive Reading (α : Type) where
  /-- The value, and the text after it. -/
  | done (value : α) (rest : List Char)
  /-- No element can satisfy the branch; the text from there on is still unread. -/
  | dead (rest : List Char)
  /-- The list cannot be read. -/
  | fatal (error : ReadError SyntaxCause)

/-- A reader of the selector lists one level further in. -/
abbrev ListReader := List Char → Except (ReadError SyntaxCause) (List Selector)

namespace Reading

variable {α β : Type}

/-- Goes on with the value and the text after it. -/
def andThen (r : Reading α) (next : α → List Char → Reading β) : Reading β :=
  match r with
  | done value rest => next value rest
  | dead rest => dead rest
  | fatal error => fatal error

/-- Changes the value. -/
def map (f : α → β) (r : Reading α) : Reading β := r.andThen fun value rest => done (f value) rest

/-- A reading that leaves fewer than `live` characters, or fewer than `dead` ones when the branch is
dead. -/
def Leaves (live dead : Nat) : Reading α → Prop
  | .done _ rest => rest.length < live
  | .dead rest => rest.length < dead
  | .fatal _ => True

theorem Leaves.mono {live dead live' dead' : Nat} {r : Reading α} (h : r.Leaves live dead)
    (hlive : live ≤ live') (hdead : dead ≤ dead') : r.Leaves live' dead' := by
  cases r <;> simp only [Leaves] at h ⊢ <;> omega

theorem Leaves.andThen {live dead live' : Nat} {r : Reading α}
    {next : α → List Char → Reading β} (h : r.Leaves live' dead)
    (hnext : ∀ value rest, rest.length < live' → (next value rest).Leaves live dead) :
    (r.andThen next).Leaves live dead := by
  cases r with
  | done value rest => exact hnext value rest h
  | dead rest => exact h
  | fatal error => exact h

theorem Leaves.map {live dead : Nat} {r : Reading α} {f : α → β} (h : r.Leaves live dead) :
    (r.map f).Leaves live dead := h.andThen fun _ _ hlt => hlt

end Reading

end TreeQuery
