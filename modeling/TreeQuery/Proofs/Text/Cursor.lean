import TreeQuery.Proofs.Text.Names
import TreeQuery.Proofs.Text.Offsets

/-!
# Reading by bytes

The readers take a text apart as a list of characters, and with a few functions only: they look at the text, take
a character, skip blanks, and read a name, a quoted string, an argument in parentheses or a branch. With the text as
bytes, what is left of it is told by a number, the offset of a cursor. The functions are then moves of the cursor
(`Move`), which add up numbers of bytes and cut the text at their sums. A cut at a number that lies behind the end
or inside of a character fails.

No move fails where the cursor stands at a place. It leaves the cursor at a place and answers as the function on
characters does (`Move.agrees`). So no run of moves from the start of a text fails, whatever the moves are and
however they depend on the answers (`Move.exists_performAll?`).
-/

namespace TreeQuery.Text

open String (utf8Len)

variable {s v rest : List Char} {c : Char}

/-! ## Slices -/

/-- The text between two numbers of bytes. -/
def slice? (text : List Char) (first last : Nat) : Option (List Char) :=
  if first ≤ last then (cutAt? first text).bind fun cut => (cutAt? (last - first) cut.2).map (·.1) else none

theorem slice?_append (u v w : List Char) :
    slice? (u ++ (v ++ w)) (utf8Len u) (utf8Len u + utf8Len v) = some v := by
  rw [slice?, if_pos (Nat.le_add_right _ _), cutAt?_append, Option.bind_some, Nat.add_sub_cancel_left,
    cutAt?_append]
  rfl

/-! ## Scans with offsets -/

/-- The characters of a text, each with the number of bytes in front of it. -/
def charIndices (offset : Nat) : List Char → List (Nat × Char)
  | [] => []
  | c :: s => (offset, c) :: charIndices (offset + c.utf8Size) s

/-- The content of a quoted string up to its closing quote, and the offset behind the quote. As everywhere, the
character behind a backslash is taken with it. -/
def closeOffset? (mark : Char) : List (Nat × Char) → Option (List Char × Nat)
  | [] => none
  | [(_, '\\')] => none
  | (_, '\\') :: (_, c) :: s => (closeOffset? mark s).map fun r => (c :: r.1, r.2)
  | (offset, c) :: s =>
    if c == mark then some ([], offset + c.utf8Size)
    else (closeOffset? mark s).map fun r => (c :: r.1, r.2)

/-- The offset of the first `stop` outside of every bracket and quote. -/
def scanOffset? (stop : Char) (depth : Nat) : Option Char → List (Nat × Char) → Option Nat
  | _, [] => none
  | some mark, (_, c) :: s =>
    if c == '\\' then match s with
      | [] => none
      | _ :: s => scanOffset? stop depth (some mark) s
    else scanOffset? stop depth (if c == mark then none else some mark) s
  | none, (offset, c) :: s =>
    if depth == 0 && c == stop then some offset
    else if c == '\\' then match s with
      | [] => none
      | _ :: s => scanOffset? stop depth none s
    else if isQuote c then scanOffset? stop depth (some c) s
    else if c == '(' || c == '[' then scanOffset? stop (depth + 1) none s
    else if c == ')' || c == ']' then scanOffset? stop (depth - 1) none s
    else scanOffset? stop depth none s

theorem closeOffset?_cons {mark : Char} (hslash : c ≠ '\\') (offset : Nat) (s : List (Nat × Char)) :
    closeOffset? mark ((offset, c) :: s) =
      if c == mark then some ([], offset + c.utf8Size)
      else (closeOffset? mark s).map fun r => (c :: r.1, r.2) := by
  rw [closeOffset?]
  · exact fun _ => hslash
  · exact fun _ _ _ _ => hslash

/-- The offset behind a closing quote is that of the text behind it. -/
theorem closeOffset?_of_some {mark : Char} {content : List Char} (h : closeQuote? mark s = some (content, rest)) :
    ∃ u, s = u ++ rest ∧
      ∀ offset, closeOffset? mark (charIndices offset s) = some (content, offset + utf8Len u) := by
  fun_induction closeQuote? mark s generalizing content with
  | case1 => cases h
  | case2 => cases h
  | case3 c s ih =>
    obtain ⟨⟨content, rest⟩, hclose, heq⟩ := Option.map_eq_some_iff.1 h
    cases heq
    obtain ⟨u, rfl, hu⟩ := ih hclose
    refine ⟨'\\' :: c :: u, rfl, fun offset => ?_⟩
    rw [charIndices, charIndices, closeOffset?, hu, Option.map_some, String.utf8Len_cons, String.utf8Len_cons]
    congr 2
    omega
  | case4 c s hnil hcons hmark =>
    cases h
    refine ⟨[c], rfl, fun offset => ?_⟩
    rw [charIndices, closeOffset?_cons (ne_backslash_of_cases hnil hcons), if_pos hmark, String.utf8Len_cons,
      String.utf8Len_nil, Nat.zero_add]
  | case5 c s hnil hcons hmark ih =>
    obtain ⟨⟨content, rest⟩, hclose, heq⟩ := Option.map_eq_some_iff.1 h
    cases heq
    obtain ⟨u, rfl, hu⟩ := ih hclose
    refine ⟨c :: u, rfl, fun offset => ?_⟩
    rw [charIndices, closeOffset?_cons (ne_backslash_of_cases hnil hcons), if_neg hmark, hu, Option.map_some,
      String.utf8Len_cons]
    congr 2
    omega

theorem closeOffset?_of_none {mark : Char} (h : closeQuote? mark s = none) (offset : Nat) :
    closeOffset? mark (charIndices offset s) = none := by
  fun_induction closeQuote? mark s generalizing offset with
  | case1 => rfl
  | case2 => rfl
  | case3 c s ih =>
    rw [charIndices, charIndices, closeOffset?, ih (Option.map_eq_none_iff.1 h), Option.map_none]
  | case4 => cases h
  | case5 c s hnil hcons hmark ih =>
    rw [charIndices, closeOffset?_cons (ne_backslash_of_cases hnil hcons), if_neg hmark,
      ih (Option.map_eq_none_iff.1 h), Option.map_none]

theorem scanOffset?_nil (stop : Char) (depth : Nat) (mark : Option Char) :
    scanOffset? stop depth mark [] = none := by
  cases mark <;> rfl

/-- In a quote. -/
theorem scanOffset?_some_cons (stop : Char) (depth : Nat) (mark : Char) (offset : Nat) (c : Char)
    (s : List (Nat × Char)) :
    scanOffset? stop depth (some mark) ((offset, c) :: s) =
      if c == '\\' then scanOffset? stop depth (some mark) (s.drop 1)
      else scanOffset? stop depth (if c == mark then none else some mark) s := by
  cases s <;> rfl

/-- Outside of quotes. -/
theorem scanOffset?_none_cons (stop : Char) (depth : Nat) (offset : Nat) (c : Char) (s : List (Nat × Char)) :
    scanOffset? stop depth none ((offset, c) :: s) =
      if depth == 0 && c == stop then some offset
      else if c == '\\' then scanOffset? stop depth none (s.drop 1)
      else if isQuote c then scanOffset? stop depth (some c) s
      else if c == '(' || c == '[' then scanOffset? stop (depth + 1) none s
      else if c == ')' || c == ']' then scanOffset? stop (depth - 1) none s
      else scanOffset? stop depth none s := by
  cases s <;> rfl

/-- A step in a quote. -/
theorem Nesting.step_some (depth : Nat) (mark c : Char) :
    (⟨depth, some mark, false⟩ : Nesting).step c =
      if c == '\\' then ⟨depth, some mark, true⟩
      else ⟨depth, if c == mark then none else some mark, false⟩ := by
  simp only [Nesting.step, Bool.false_eq_true, if_false]
  split_ifs <;> rfl

/-- A step outside of quotes. -/
theorem Nesting.step_none (depth : Nat) (c : Char) :
    (⟨depth, none, false⟩ : Nesting).step c =
      if c == '\\' then ⟨depth, none, true⟩
      else if isQuote c then ⟨depth, some c, false⟩
      else if c == '(' || c == '[' then ⟨depth + 1, none, false⟩
      else if c == ')' || c == ']' then ⟨depth - 1, none, false⟩
      else ⟨depth, none, false⟩ := rfl

/-- No scan stops in a quote. -/
theorem Nesting.isOutside_some (depth : Nat) (mark : Char) (escaped : Bool) :
    (⟨depth, some mark, escaped⟩ : Nesting).isOutside = false := by
  simp [Nesting.isOutside]

theorem Nesting.isOutside_none (depth : Nat) : (⟨depth, none, false⟩ : Nesting).isOutside = (depth == 0) := by
  simp [Nesting.isOutside]

/-- An escaped character stops no scan. -/
theorem scan?_escaped (stop : Char) (depth : Nat) (mark : Option Char) (c : Char) (s : List Char) :
    scan? stop ⟨depth, mark, true⟩ (c :: s) =
      (scan? stop ⟨depth, mark, false⟩ s).map fun r => (c :: r.1, r.2) := by
  have hinside : (⟨depth, mark, true⟩ : Nesting).isOutside = false := by simp [Nesting.isOutside]
  rw [scan?, hinside]
  rfl

/-- What a scan takes has the offset of its text in front of it. -/
theorem map_cons_offset (c : Char) (offset : Nat) (r? : Option (List Char × List Char)) :
    (r?.map fun r => (c :: r.1, r.2)).map (fun r => offset + utf8Len r.1) =
      r?.map fun r => offset + c.utf8Size + utf8Len r.1 := by
  cases r? with
  | none => rfl
  | some r =>
    simp only [Option.map_some, String.utf8Len_cons, Option.some.injEq]
    omega

/-- The scan by offsets stops where the scan along the characters stops. -/
theorem scanOffset?_eq (stop : Char) (depth : Nat) (mark : Option Char) (offset : Nat) (s : List Char) :
    scanOffset? stop depth mark (charIndices offset s) =
      (scan? stop ⟨depth, mark, false⟩ s).map fun r => offset + utf8Len r.1 := by
  -- an escape takes two characters at once
  induction hlength : s.length using Nat.strongRecOn generalizing depth mark offset s with
  | ind length ih =>
    cases s with
    | nil => rw [charIndices, scanOffset?_nil, scan?, Option.map_none]
    | cons c s =>
      rw [List.length_cons] at hlength
      have hnext : ∀ depth mark, scanOffset? stop depth mark (charIndices (offset + c.utf8Size) s) =
          ((scan? stop ⟨depth, mark, false⟩ s).map fun r => (c :: r.1, r.2)).map
            fun r => offset + utf8Len r.1 := fun depth mark => by
        rw [map_cons_offset]
        exact ih s.length (by omega) depth mark _ s rfl
      have hescape : scanOffset? stop depth mark ((charIndices (offset + c.utf8Size) s).drop 1) =
          ((scan? stop ⟨depth, mark, true⟩ s).map fun r => (c :: r.1, r.2)).map
            fun r => offset + utf8Len r.1 := by
        rw [map_cons_offset]
        cases s with
        | nil => rw [charIndices, List.drop_nil, scanOffset?_nil, scan?, Option.map_none]
        | cons d s =>
          rw [List.length_cons] at hlength
          rw [charIndices, List.drop_succ_cons, List.drop_zero, scan?_escaped, map_cons_offset]
          exact ih s.length (by omega) depth mark _ s rfl
      rw [charIndices, scan?]
      cases mark with
      | some mark =>
        rw [scanOffset?_some_cons, Nesting.isOutside_some, Bool.false_and, if_neg Bool.false_ne_true,
          Nesting.step_some, hescape]
        split_ifs
        · rfl
        · exact hnext depth none
        · exact hnext depth (some mark)
      | none =>
        rw [scanOffset?_none_cons, Nesting.isOutside_none]
        by_cases hstop : (depth == 0 && c == stop) = true
        · rw [if_pos hstop, if_pos hstop]
          rfl
        · rw [if_neg hstop, if_neg hstop, Nesting.step_none, hescape]
          split_ifs
          · rfl
          · exact hnext depth (some c)
          · exact hnext (depth + 1) none
          · exact hnext (depth - 1) none
          · exact hnext depth none

theorem scanOffset?_start (stop : Char) (offset : Nat) (s : List Char) :
    scanOffset? stop 0 none (charIndices offset s) = (scan? stop .start s).map fun r => offset + utf8Len r.1 :=
  scanOffset?_eq stop 0 none offset s

/-! ## The cursor -/

/-- A place in a text, told by the number of bytes in front of it. -/
structure Cursor where
  text : List Char
  offset : Nat

/-- A step of a loop along the text: how many bytes are skipped, if the loop goes on. They are those of some
characters. -/
structure Stride where
  size? : List Char → Option Nat
  takes : ∀ {s n}, size? s = some n → ∃ c u t, s = c :: u ++ t ∧ n = utf8Len (c :: u)

/-- Over a blank. -/
def Stride.blank : Stride where
  size?
    | [] => none
    | c :: _ => if isBlank c then some c.utf8Size else none
  takes {s n} h := by
    split at h
    · cases h
    · next c t =>
      obtain ⟨-, hsize⟩ := Option.ite_none_right_eq_some.1 h
      exact ⟨c, [], t, rfl, (Option.some.inj hsize).symm.trans (Nat.zero_add _).symm⟩

/-- Over a character of names, or over a backslash and the character that it escapes. -/
def Stride.name : Stride where
  size?
    | [] => none
    | ['\\'] => none
    | '\\' :: c :: _ => some (1 + c.utf8Size)
    | c :: _ => if isIdentChar c then some c.utf8Size else none
  takes {s n} h := by
    split at h
    · cases h
    · cases h
    · next c t =>
      refine ⟨'\\', [c], t, rfl, (Option.some.inj h).symm.trans ?_⟩
      rw [Nat.add_comm, String.utf8Len_cons, String.utf8Len_cons, String.utf8Len_nil, Nat.zero_add]
      rfl
    · next c t _ _ =>
      obtain ⟨-, hsize⟩ := Option.ite_none_right_eq_some.1 h
      exact ⟨c, [], t, rfl, (Option.some.inj hsize).symm.trans (Nat.zero_add _).symm⟩

theorem Stride.name_cons (hslash : c ≠ '\\') (s : List Char) :
    Stride.name.size? (c :: s) = if isIdentChar c then some c.utf8Size else none := by
  show Stride.name.1 (c :: s) = _
  unfold Stride.name
  dsimp only
  split <;> simp_all

namespace Cursor

variable {cursor : Cursor} {stride : Stride}

/-- The text from the cursor on, if the cursor stands at a place. -/
def rest? (cursor : Cursor) : Option (List Char) := (cutAt? cursor.offset cursor.text).map (·.2)

def skip (cursor : Cursor) (bytes : Nat) : Cursor := { cursor with offset := cursor.offset + bytes }

theorem rest?_eq_some : cursor.rest? = some s ↔ ∃ u, cursor.text = u ++ s ∧ utf8Len u = cursor.offset := by
  unfold rest?
  rw [Option.map_eq_some_iff]
  constructor
  · rintro ⟨⟨u, v⟩, hcut, rfl⟩
    exact ⟨u, cutAt?_eq_some.1 hcut⟩
  · rintro ⟨u, h⟩
    exact ⟨(u, s), cutAt?_eq_some.2 h, rfl⟩

/-- Behind some characters the cursor stands at a place. -/
theorem rest?_skip (h : cursor.rest? = some (v ++ s)) : (cursor.skip (utf8Len v)).rest? = some s := by
  obtain ⟨u, htext, hoffset⟩ := rest?_eq_some.1 h
  refine rest?_eq_some.2 ⟨u ++ v, ?_, ?_⟩
  · rw [List.append_assoc]
    exact htext
  · rw [String.utf8Len_append, hoffset]
    rfl

/-- The text between two places is a slice. -/
theorem slice?_skip (h : cursor.rest? = some (v ++ s)) :
    slice? cursor.text cursor.offset (cursor.skip (utf8Len v)).offset = some v := by
  obtain ⟨u, htext, hoffset⟩ := rest?_eq_some.1 h
  have hslice := slice?_append u v s
  rwa [← htext, hoffset] at hslice

/-- Where there is a rest, the cursor stands within the text and between two characters. -/
theorem isValid_of_rest? (h : cursor.rest? = some s) :
    (String.Pos.Raw.mk cursor.offset).IsValid (String.ofList cursor.text) := by
  obtain ⟨cut, hcut, -⟩ := Option.map_eq_some_iff.1 h
  rw [← isSome_cutAt?, String.toList_ofList, hcut]
  rfl

theorem skip_nil (cursor : Cursor) : cursor.skip (utf8Len []) = cursor := rfl

theorem skip_skip (cursor : Cursor) (m n : Nat) : (cursor.skip m).skip n = cursor.skip (m + n) := by
  unfold skip
  rw [Nat.add_assoc]

/-- Steps along the text as long as the stride goes on: the number of steps, and the cursor behind them. -/
def run? (stride : Stride) (cursor : Cursor) : Option (Nat × Cursor) :=
  match _h : cursor.rest? with
  | none => none
  | some s => match _hsize : stride.size? s with
    | none => some (0, cursor)
    | some n => (run? stride (cursor.skip n)).map fun r => (r.1 + 1, r.2)
termination_by utf8Len cursor.text - cursor.offset
decreasing_by
  obtain ⟨u, htext, hoffset⟩ := rest?_eq_some.1 _h
  obtain ⟨c, v, t, rfl, rfl⟩ := stride.takes _hsize
  have hlength := congrArg utf8Len htext
  have hpos := c.utf8Size_pos
  rw [String.utf8Len_append, String.utf8Len_append, String.utf8Len_cons] at hlength
  show utf8Len cursor.text - (cursor.offset + utf8Len (c :: v)) < _
  rw [String.utf8Len_cons]
  omega

theorem run?_eq (h : cursor.rest? = some s) :
    cursor.run? stride = match stride.size? s with
      | none => some (0, cursor)
      | some n => (run? stride (cursor.skip n)).map fun r => (r.1 + 1, r.2) := by
  rw [run?]
  split
  · next hnone =>
    rw [h] at hnone
    cases hnone
  · next t ht =>
    obtain rfl : s = t := Option.some.inj (h.symm.trans ht)
    split <;> simp_all

/-- The loop over blanks comes to the first character that is none. -/
theorem run?_blank (h : cursor.rest? = some s) :
    cursor.run? .blank = some (s.length - (skipBlank s).length, cursor.skip (utf8Len (s.takeWhile isBlank))) := by
  induction s generalizing cursor with
  | nil =>
    rw [run?_eq h]
    rfl
  | cons c s ih =>
    rw [run?_eq h]
    by_cases hblank : isBlank c = true
    · have hstep : Stride.blank.size? (c :: s) = some (utf8Len [c]) := (if_pos hblank).trans (by simp)
      have hle := length_skipBlank_le s
      rw [hstep]
      dsimp only
      rw [ih (rest?_skip (v := [c]) h), skip_skip, ← String.utf8Len_append, Option.map_some,
        skipBlank_of_blank hblank, List.takeWhile_cons_of_pos hblank, List.length_cons, List.singleton_append,
        Nat.succ_sub hle]
    · have hstep : Stride.blank.size? (c :: s) = none := if_neg hblank
      rw [hstep, skipBlank_of_not_blank (Bool.eq_false_iff.2 hblank), List.takeWhile_cons_of_neg hblank,
        Nat.sub_self, skip_nil]

/-- The loop over a name comes to its end. -/
theorem run?_name (h : cursor.rest? = some s) :
    ∃ rounds, cursor.run? .name = some (rounds, cursor.skip (utf8Len (identSpan s).1)) := by
  fun_induction identSpan s generalizing cursor with
  | case1 => exact ⟨0, run?_eq h⟩
  | case2 => exact ⟨0, run?_eq h⟩
  | case3 c s ih =>
    have hstep : Stride.name.size? ('\\' :: c :: s) = some (utf8Len ['\\', c]) := by
      show some (1 + c.utf8Size) = some (0 + c.utf8Size + 1)
      congr 1
      omega
    obtain ⟨rounds, hrun⟩ := ih (rest?_skip (v := ['\\', c]) h)
    refine ⟨rounds + 1, ?_⟩
    rw [run?_eq h, hstep]
    dsimp only
    rw [hrun, skip_skip, ← String.utf8Len_append]
    rfl
  | case4 c s hnil hcons hident ih =>
    have hstep : Stride.name.size? (c :: s) = some (utf8Len [c]) := by
      rw [Stride.name_cons (ne_backslash_of_cases hnil hcons), if_pos hident]
      simp
    obtain ⟨rounds, hrun⟩ := ih (rest?_skip (v := [c]) h)
    refine ⟨rounds + 1, ?_⟩
    rw [run?_eq h, hstep]
    dsimp only
    rw [hrun, skip_skip, ← String.utf8Len_append]
    rfl
  | case5 c s hnil hcons hident =>
    have hstep : Stride.name.size? (c :: s) = none := by
      rw [Stride.name_cons (ne_backslash_of_cases hnil hcons), if_neg hident]
    refine ⟨0, ?_⟩
    rw [run?_eq h, hstep, skip_nil]

end Cursor

/-! ## Moves -/

/-- What a reader does with the text from its cursor on. -/
inductive Move
  /-- To look at the text and stay. -/
  | look
  /-- To take the next character. -/
  | bump
  /-- To take the next character if it is this one. -/
  | eat (c : Char)
  /-- To skip blanks and count them. -/
  | blanks
  /-- To take a name, if there is one. -/
  | name
  /-- To take a quoted string, if it is closed. -/
  | string
  /-- To take an argument in parentheses, if it is closed. -/
  | group
  /-- To take the text up to the end of the branch. -/
  | branch

/-- What a reader learns from a move. -/
def Move.Reply : Move → Type
  | look => List Char
  | bump => Option Char
  | eat _ => Bool
  | blanks => Nat
  | name => Option Ident
  | string | group => Option (List Char)
  | branch => List Char

/-- What was read and the text behind it, or nothing and the text as it was. -/
def attempt {α : Type} (s : List Char) : Option (α × List Char) → Option α × List Char
  | some (value, rest) => (some value, rest)
  | none => (none, s)

/-- A move along the characters: the answer, and the text that is left. -/
def Move.read : (move : Move) → List Char → move.Reply × List Char
  | look, s => (s, s)
  | bump, s => (s.head?, s.drop 1)
  | eat c, s => if s.head? == some c then (true, s.drop 1) else (false, s)
  | blanks, s => (s.length - (skipBlank s).length, skipBlank s)
  | name, s => attempt s (ident? s)
  | string, s => attempt s (quoted? s)
  | group, s => attempt s (group? s)
  | branch, s => branchSpan s

/-- A move by bytes. It fails where it would cut the text at a number of bytes that is no place. -/
def Move.perform? : (move : Move) → Cursor → Option (move.Reply × Cursor)
  | look, cursor => cursor.rest?.map fun s => (s, cursor)
  | bump, cursor => cursor.rest?.map fun
    | [] => (none, cursor)
    | c :: _ => (some c, cursor.skip c.utf8Size)
  | eat c, cursor => cursor.rest?.map fun s =>
    if s.head? == some c then (true, cursor.skip c.utf8Size) else (false, cursor)
  | blanks, cursor => cursor.run? .blank
  | name, cursor => (cursor.run? .name).bind fun (_, behind) =>
    if cursor.offset < behind.offset then
      (slice? cursor.text cursor.offset behind.offset).map fun raw => (some ⟨String.ofList raw⟩, behind)
    else some (none, behind)
  | string, cursor => cursor.rest?.map fun s => match s.head?.filter isQuote with
    | none => (none, cursor)
    | some mark => match closeOffset? mark ((charIndices 0 s).drop 1) with
      | none => (none, cursor)
      | some (content, last) => (some content, cursor.skip last)
  | group, cursor => cursor.rest?.bind fun s =>
    if s.head? == some '(' then
      match scanOffset? ')' 0 none ((charIndices 0 s).dropWhile (·.1 < 1)) with
      | none => some (none, cursor)
      | some last => (slice? s 1 last).map fun inner => (some inner, cursor.skip (last + 1))
    else some (none, cursor)
  | branch, cursor => cursor.rest?.bind fun s =>
    let last := (scanOffset? ',' 0 none ((charIndices 0 s).dropWhile (·.1 < 0))).getD (utf8Len s)
    (slice? s 0 last).map fun span => (span, cursor.skip last)

namespace Move

variable {cursor : Cursor}

/-- What a move does by bytes if it does what it does along the characters: it skips the bytes of some
characters. -/
def Agrees (move : Move) (cursor : Cursor) (s : List Char) : Prop :=
  ∃ u, s = u ++ (move.read s).2 ∧ move.perform? cursor = some ((move.read s).1, cursor.skip (utf8Len u))

theorem agrees_look (h : cursor.rest? = some s) : look.Agrees cursor s := by
  refine ⟨[], rfl, ?_⟩
  rw [perform?, h]
  rfl

theorem agrees_bump (h : cursor.rest? = some s) : bump.Agrees cursor s := by
  cases s with
  | nil =>
    refine ⟨[], rfl, ?_⟩
    rw [perform?, h]
    rfl
  | cons c s =>
    refine ⟨[c], rfl, ?_⟩
    rw [perform?, h, String.utf8Len_cons, String.utf8Len_nil, Nat.zero_add]
    rfl

theorem agrees_eat (c : Char) (h : cursor.rest? = some s) : (eat c).Agrees cursor s := by
  unfold Agrees
  rw [read, perform?, h, Option.map_some]
  split
  · next hhead =>
    obtain ⟨t, rfl⟩ := List.head?_eq_some_iff.1 (beq_iff_eq.1 hhead)
    refine ⟨[c], rfl, ?_⟩
    rw [String.utf8Len_cons, String.utf8Len_nil, Nat.zero_add]
  · exact ⟨[], rfl, rfl⟩

theorem agrees_blanks (h : cursor.rest? = some s) : blanks.Agrees cursor s :=
  ⟨s.takeWhile isBlank, List.takeWhile_append_dropWhile.symm, Cursor.run?_blank h⟩

theorem agrees_name (h : cursor.rest? = some s) : name.Agrees cursor s := by
  obtain ⟨rounds, hrun⟩ := Cursor.run?_name h
  unfold Agrees
  rw [read, perform?, hrun, Option.bind_some]
  have happ := identSpan_append s
  cases hspan : identSpan s with
  | mk raw rest =>
    rw [hspan] at happ
    cases raw with
    | nil =>
      have hident : ident? s = none := by rw [ident?, hspan]
      rw [hident]
      exact ⟨[], rfl, if_neg (Nat.lt_irrefl _)⟩
    | cons c raw =>
      have hident : ident? s = some (⟨String.ofList (c :: raw)⟩, rest) := by rw [ident?, hspan]
      have hlt : cursor.offset < (cursor.skip (utf8Len (c :: raw))).offset :=
        Nat.lt_add_of_pos_right (Nat.lt_of_lt_of_le c.utf8Size_pos (Nat.le_add_left _ _))
      have hslice := Cursor.slice?_skip (v := c :: raw) (s := rest) (h.trans (congrArg some happ.symm))
      rw [hident]
      refine ⟨c :: raw, happ.symm, (if_pos hlt).trans ?_⟩
      dsimp only
      rw [hslice]
      rfl

theorem agrees_string (h : cursor.rest? = some s) : string.Agrees cursor s := by
  unfold Agrees
  rw [read, perform?, h, Option.map_some]
  cases s with
  | nil => exact ⟨[], rfl, rfl⟩
  | cons c t =>
    by_cases hquote : isQuote c = true
    · have hmark : (c :: t).head?.filter isQuote = some c := Option.filter_some_pos hquote
      have hquoted : quoted? (c :: t) = closeQuote? c t := if_pos hquote
      rw [hmark, hquoted, charIndices, List.drop_succ_cons, List.drop_zero]
      cases hclose : closeQuote? c t with
      | none =>
        dsimp only
        rw [closeOffset?_of_none hclose]
        exact ⟨[], rfl, rfl⟩
      | some r =>
        obtain ⟨content, rest⟩ := r
        obtain ⟨u, rfl, hu⟩ := closeOffset?_of_some hclose
        dsimp only
        rw [hu]
        refine ⟨c :: u, rfl, ?_⟩
        rw [String.utf8Len_cons, Nat.zero_add, Nat.add_comm]
        rfl
    · have hmark : (c :: t).head?.filter isQuote = none := Option.filter_some_neg (Bool.eq_false_iff.2 hquote)
      have hquoted : quoted? (c :: t) = none := if_neg hquote
      rw [hmark, hquoted]
      exact ⟨[], rfl, rfl⟩

/-- The indices of a text are not smaller than the first. -/
theorem dropWhile_charIndices (offset : Nat) (s : List Char) :
    (charIndices offset s).dropWhile (·.1 < offset) = charIndices offset s := by
  cases s with
  | nil => rfl
  | cons c s => exact List.dropWhile_cons_of_neg (by simp)

theorem agrees_group (h : cursor.rest? = some s) : group.Agrees cursor s := by
  unfold Agrees
  rw [read, perform?, h, Option.bind_some]
  split
  · next hhead =>
    obtain ⟨t, rfl⟩ := List.head?_eq_some_iff.1 (beq_iff_eq.1 hhead)
    have hindices : (charIndices 0 ('(' :: t)).dropWhile (·.1 < 1) = charIndices 1 t :=
      (List.dropWhile_cons_of_pos (by simp)).trans (dropWhile_charIndices 1 t)
    have hgroup : group? ('(' :: t) = (scan? ')' .start t).map fun r => (r.1, r.2.drop 1) := rfl
    rw [hindices, scanOffset?_start, hgroup]
    cases hscan : scan? ')' .start t with
    | none => exact ⟨[], rfl, rfl⟩
    | some r =>
      obtain ⟨inner, rest⟩ := r
      obtain ⟨tail, rfl, rfl, -⟩ := scan?_eq_some.1 hscan
      have hslice := slice?_append ['('] inner (')' :: tail)
      have hbytes : utf8Len ('(' :: (inner ++ [')'])) = 1 + utf8Len inner + 1 := by
        rw [String.utf8Len_cons, String.utf8Len_append]
        exact (Nat.add_comm _ _).trans (Nat.add_assoc _ _ _).symm
      refine ⟨'(' :: (inner ++ [')']), by simp [attempt], ?_⟩
      show (slice? ('(' :: (inner ++ ')' :: tail)) 1 (1 + utf8Len inner)).map _ = _
      rw [hbytes, show slice? ('(' :: (inner ++ ')' :: tail)) 1 (1 + utf8Len inner) = some inner from hslice]
      rfl
  · next hhead =>
    have hgroup : group? s = none := by
      unfold group?
      split
      · exact absurd rfl hhead
      · rfl
    rw [hgroup]
    exact ⟨[], rfl, rfl⟩

theorem agrees_branch (h : cursor.rest? = some s) : branch.Agrees cursor s := by
  have happ := branchSpan_append s
  have hlast : ((scan? ',' .start s).map fun r => 0 + utf8Len r.1).getD (utf8Len s) =
      utf8Len (branchSpan s).1 := by
    unfold branchSpan
    cases scan? ',' .start s with
    | none => rfl
    | some r => exact Nat.zero_add _
  have hslice := slice?_append [] (branchSpan s).1 (branchSpan s).2
  rw [List.nil_append, happ, String.utf8Len_nil, Nat.zero_add] at hslice
  refine ⟨(branchSpan s).1, happ.symm, ?_⟩
  rw [perform?, h, Option.bind_some, dropWhile_charIndices, scanOffset?_start, hlast]
  show (slice? s 0 (utf8Len (branchSpan s).1)).map _ = _
  rw [hslice]
  rfl

/-- Where the cursor stands at a place, every move does by bytes what it does along the characters. -/
theorem agrees (move : Move) (h : cursor.rest? = some s) : move.Agrees cursor s := by
  cases move with
  | look => exact agrees_look h
  | bump => exact agrees_bump h
  | eat c => exact agrees_eat c h
  | blanks => exact agrees_blanks h
  | name => exact agrees_name h
  | string => exact agrees_string h
  | group => exact agrees_group h
  | branch => exact agrees_branch h

/-! ## Runs of moves -/

/-- The answers to moves one after the other, and the text that is left. -/
def readAll : List Move → List Char → List ((move : Move) × move.Reply) × List Char
  | [], s => ([], s)
  | move :: moves, s => (readAll moves (move.read s).2).map (⟨move, (move.read s).1⟩ :: ·) id

/-- The moves by bytes, one after the other. -/
def performAll? : List Move → Cursor → Option (List ((move : Move) × move.Reply) × Cursor)
  | [], cursor => some ([], cursor)
  | move :: moves, cursor => (move.perform? cursor).bind fun first =>
    (performAll? moves first.2).map fun r => (⟨move, first.1⟩ :: r.1, r.2)

/-- Moves one after the other do by bytes what they do along the characters. -/
theorem performAll?_eq (moves : List Move) (h : cursor.rest? = some s) :
    ∃ u, s = u ++ (readAll moves s).2 ∧
      performAll? moves cursor = some ((readAll moves s).1, cursor.skip (utf8Len u)) := by
  induction moves generalizing cursor s with
  | nil => exact ⟨[], rfl, rfl⟩
  | cons move moves ih =>
    obtain ⟨u, hs, hmove⟩ := move.agrees h
    rw [hs] at h
    obtain ⟨v, hrest, hmoves⟩ := ih (Cursor.rest?_skip h)
    refine ⟨u ++ v, ?_, ?_⟩
    · rw [List.append_assoc]
      exact hs.trans (congrArg (u ++ ·) hrest)
    · rw [performAll?, hmove, Option.bind_some]
      dsimp only
      rw [hmoves, Option.map_some, Cursor.skip_skip, String.utf8Len_append]
      rfl

/-- From the start of a text no run of moves fails. It answers as the functions on characters do, its places lie
within the text and between two characters, and the text between two of its places is a slice. -/
theorem exists_performAll? (text : List Char) (earlier later : List Move) :
    ∃ cursor behind : Cursor,
      performAll? earlier ⟨text, 0⟩ = some ((readAll earlier text).1, cursor) ∧
      performAll? later cursor = some ((readAll later (readAll earlier text).2).1, behind) ∧
      (String.Pos.Raw.mk cursor.offset).IsValid (String.ofList text) ∧
      (String.Pos.Raw.mk behind.offset).IsValid (String.ofList text) ∧
      ∃ between, slice? text cursor.offset behind.offset = some between ∧
        (readAll earlier text).2 = between ++ (readAll later (readAll earlier text).2).2 := by
  have hstart : (Cursor.mk text 0).rest? = some text := Cursor.rest?_eq_some.2 ⟨[], rfl, rfl⟩
  obtain ⟨u, htext, hearlier⟩ := performAll?_eq earlier hstart
  have hplace := Cursor.rest?_skip (v := u) (hstart.trans (congrArg some htext))
  obtain ⟨v, hrest, hlater⟩ := performAll?_eq later hplace
  have hbetween := hplace.trans (congrArg some hrest)
  have hbehind := Cursor.rest?_skip hbetween
  exact ⟨_, _, hearlier, hlater, Cursor.isValid_of_rest? hplace, Cursor.isValid_of_rest? hbehind, v,
    Cursor.slice?_skip hbetween, hrest⟩

end Move
end TreeQuery.Text
