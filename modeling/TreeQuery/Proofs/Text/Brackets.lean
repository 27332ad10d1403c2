import TreeQuery.Proofs.Text.Nesting

/-!
# Texts with nested brackets

The scan over brackets counts round and square ones together and takes a text as it comes. `Balanced` says
which texts are properly nested: each bracket that stands outside of quotes and escapes is closed by one of
its kind, and no quote or escape is open at the end. Such a text is what the parentheses around it enclose
(`Balanced.group?_eq`).
-/

namespace TreeQuery.Text

/-- A text in which brackets outside of quotes and escapes are properly nested, with no open quote and no
pending escape at the end. -/
inductive Balanced : List Char → Prop
  | nil : Balanced []
  /-- A character that is no backslash, no quote and no bracket. -/
  | char {c : Char} {s : List Char} (hplain : c = ',' ∨ isPlain c = true) (hs : Balanced s) :
      Balanced (c :: s)
  | escape (c : Char) {s : List Char} (hs : Balanced s) : Balanced ('\\' :: c :: s)
  | string {s content rest : List Char} (hquoted : quoted? s = some (content, rest))
      (hrest : Balanced rest) : Balanced s
  | round {u v : List Char} (hu : Balanced u) (hv : Balanced v) : Balanced ('(' :: (u ++ ')' :: v))
  | square {u v : List Char} (hu : Balanced u) (hv : Balanced v) : Balanced ('[' :: (u ++ ']' :: v))

namespace Balanced

variable {s u v : List Char} {stop : Char}

/-- Brackets around a text open and close one level. -/
theorem run_brackets {left right : Char} {depth : Nat}
    (hleft : (Nesting.inBrackets depth).step left = .inBrackets (depth + 1))
    (hright : (Nesting.inBrackets (depth + 1)).step right = .inBrackets depth)
    (hu : (Nesting.inBrackets (depth + 1)).run u = .inBrackets (depth + 1))
    (hv : (Nesting.inBrackets depth).run v = .inBrackets depth) :
    (Nesting.inBrackets depth).run (left :: (u ++ right :: v)) = .inBrackets depth := by
  rw [Nesting.run_cons, hleft, Nesting.run_append, hu, Nesting.run_cons, hright, hv]

/-- No scan stops at a bracket that it passes into, nor at the one that closes it. -/
theorem passes_brackets {left right : Char} {depth : Nat} (hstop : left ≠ stop)
    (hleft : (Nesting.inBrackets depth).step left = .inBrackets (depth + 1))
    (hright : (Nesting.inBrackets (depth + 1)).step right = .inBrackets depth)
    (hu : (Nesting.inBrackets (depth + 1)).run u = .inBrackets (depth + 1))
    (hpu : Passes stop (.inBrackets (depth + 1)) u) (hpv : Passes stop (.inBrackets depth) v) :
    Passes stop (.inBrackets depth) (left :: (u ++ right :: v)) := by
  rw [passes_cons, hleft, passes_append, hu, passes_cons, hright]
  refine ⟨fun h => hstop h.2, hpu, fun h => ?_, hpv⟩
  rw [Nesting.isOutside_iff] at h
  cases h.1

/-- The scan for a closing parenthesis passes over the text, and is as deep behind it as in front of it. -/
theorem run_and_passes (h : Balanced s) (depth : Nat) :
    (Nesting.inBrackets depth).run s = .inBrackets depth ∧ Passes ')' (.inBrackets depth) s := by
  induction h generalizing depth with
  | nil => exact ⟨rfl, passes_nil _ _⟩
  | @char c s hplain _ ih =>
    obtain ⟨hrun, hpasses⟩ := ih depth
    have hstep : (Nesting.inBrackets depth).step c = .inBrackets depth := by
      rcases hplain with rfl | hplain
      · rfl
      · exact step_of_isPlain hplain depth
    rw [Nesting.run_cons, passes_cons, hstep]
    refine ⟨hrun, fun hstop => ?_, hpasses⟩
    obtain ⟨-, rfl⟩ := hstop
    rcases hplain with hcomma | hplain
    · exact absurd hcomma (by decide)
    · cases hplain
  | @escape c s _ ih =>
    obtain ⟨hrun, hpasses⟩ := ih depth
    have hstep : ((Nesting.inBrackets depth).step '\\').step c = .inBrackets depth := rfl
    rw [Nesting.run_cons, Nesting.run_cons, passes_cons, passes_cons, hstep]
    refine ⟨hrun, fun hstop => ?_, fun hstop => ?_, hpasses⟩
    · exact absurd hstop.2 (by decide)
    · simp [Nesting.step, Nesting.inBrackets, Nesting.isOutside] at hstop
  | string hquoted _ ih =>
    obtain ⟨hrun, hpasses⟩ := ih depth
    obtain ⟨u, rfl, hu⟩ := run_of_quoted? hquoted
    rw [Nesting.run_append, passes_append, (hu depth).1]
    exact ⟨hrun, (hu depth).2 ')' (by decide), hpasses⟩
  | round _ _ ihu ihv | square _ _ ihu ihv =>
    obtain ⟨hrun, hpasses⟩ := ihu (depth + 1)
    exact ⟨run_brackets rfl rfl hrun (ihv depth).1,
      passes_brackets (by decide) rfl rfl hrun hpasses (ihv depth).2⟩

/-- Characters that the scan takes no notice of, and commas, may stand in front. -/
theorem append (hu : u.all (fun c => c == ',' || isPlain c) = true) (hv : Balanced v) : Balanced (u ++ v) := by
  induction u with
  | nil => exact hv
  | cons c u ih =>
    rw [List.all_cons, Bool.and_eq_true, Bool.or_eq_true, beq_iff_eq] at hu
    exact .char hu.1 (ih hu.2)

/-- Parentheses around the text enclose just that text. -/
theorem group?_eq (h : Balanced s) (rest : List Char) :
    group? ('(' :: (s ++ ')' :: rest)) = some (s, rest) := by
  obtain ⟨hrun, hpasses⟩ := h.run_and_passes 0
  exact group?_eq_some.2 ⟨rfl, hpasses, hrun⟩

end Balanced
end TreeQuery.Text
