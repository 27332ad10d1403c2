import TreeQuery.Text.Blank
import TreeQuery.Text.Ident
import TreeQuery.Text.Nesting
import Mathlib.Data.List.Basic

/-!
# The scan over brackets and quotes

`Nesting.run` is the nesting after a whole text. A text is even when it leaves the nesting as it was
outside of quotes, however many brackets are open: blanks, identifiers and quoted strings are. A scan
for a character passes over a text when it does not stop in it, and then goes on behind the text with
the nesting there.
-/

namespace TreeQuery.Text

/-- The nesting after a text. -/
def Nesting.run (n : Nesting) (s : List Char) : Nesting := s.foldl Nesting.step n

/-- Outside every quote, with some open brackets. -/
def Nesting.inBrackets (depth : Nat) : Nesting := ⟨depth, none, false⟩

variable {n : Nesting} {stop c : Char} {s u v : List Char} {depth : Nat}

@[simp]
theorem Nesting.run_nil (n : Nesting) : n.run [] = n := rfl

@[simp]
theorem Nesting.run_cons (n : Nesting) (c : Char) (s : List Char) :
    n.run (c :: s) = (n.step c).run s := rfl

theorem Nesting.run_append (n : Nesting) (u v : List Char) : n.run (u ++ v) = (n.run u).run v :=
  List.foldl_append

/-- The text does not end in a backslash that escapes what follows it. -/
def EndsUnescaped (s : List Char) : Prop := (Nesting.start.run s).escaped = false

instance (s : List Char) : Decidable (EndsUnescaped s) := decEq (Nesting.start.run s).escaped false

theorem endsUnescaped_of_run (h : Nesting.start.run u = .start) : EndsUnescaped u := by
  rw [EndsUnescaped, h]
  rfl

/-- A backslash escapes the next character, unless it is escaped itself. -/
theorem Nesting.escaped_step (n : Nesting) (c : Char) :
    (n.step c).escaped = (!n.escaped && c == '\\') := by
  obtain ⟨depth, mark, escaped⟩ := n
  unfold step
  cases mark <;> dsimp only <;> split_ifs <;> simp_all

/-- Whether a text ends escaped depends on whether it starts escaped, and on nothing else around it. -/
theorem Nesting.escaped_run {m n : Nesting} (h : m.escaped = n.escaped) (s : List Char) :
    (m.run s).escaped = (n.run s).escaped := by
  induction s generalizing m n with
  | nil => exact h
  | cons c s ih =>
    apply ih
    rw [escaped_step, escaped_step, h]

theorem endsUnescaped_append (hu : EndsUnescaped u) : EndsUnescaped (u ++ v) ↔ EndsUnescaped v := by
  rw [EndsUnescaped, Nesting.run_append, Nesting.escaped_run (n := .start) hu]
  rfl

theorem endsUnescaped_singleton (h : c ≠ '\\') : EndsUnescaped [c] := by
  rw [EndsUnescaped, Nesting.run_cons, Nesting.run_nil, Nesting.escaped_step]
  simpa [Nesting.start] using h

/-! ## Passing over a text -/

/-- The scan for `stop` does not stop in the text. -/
def Passes (stop : Char) (n : Nesting) (s : List Char) : Prop := scan? stop n s = none

@[simp]
theorem passes_nil (stop : Char) (n : Nesting) : Passes stop n [] := rfl

theorem passes_cons : Passes stop n (c :: s) ↔
    ¬ (n.isOutside = true ∧ c = stop) ∧ Passes stop (n.step c) s := by
  rw [Passes, scan?]
  split
  · next h =>
    rw [Bool.and_eq_true, beq_iff_eq] at h
    simp [h]
  · next h =>
    rw [Bool.and_eq_true, beq_iff_eq] at h
    simp [h, Passes]

theorem passes_append : Passes stop n (u ++ v) ↔ Passes stop n u ∧ Passes stop (n.run u) v := by
  induction u generalizing n with
  | nil => simp
  | cons c u ih => rw [List.cons_append, passes_cons, passes_cons, ih, Nesting.run_cons, and_assoc]

/-- A scan stops at the first `stop` outside, and before it passes over the text. -/
theorem scan?_eq_some {rest : List Char} :
    scan? stop n s = some (u, rest) ↔
      ∃ tail, rest = stop :: tail ∧ s = u ++ rest ∧ Passes stop n u ∧ (n.run u).isOutside = true := by
  induction s generalizing n u with
  | nil =>
    constructor
    · intro h; cases h
    · rintro ⟨tail, rfl, happ, -⟩
      simp at happ
  | cons c s ih =>
    rw [scan?]
    split
    · next h =>
      rw [Bool.and_eq_true, beq_iff_eq] at h
      obtain ⟨hout, rfl⟩ := h
      constructor
      · rintro ⟨⟩
        exact ⟨s, rfl, rfl, passes_nil _ _, hout⟩
      · rintro ⟨tail, rfl, happ, hpass, -⟩
        cases u with
        | nil => rw [happ, List.nil_append]
        | cons d u =>
          obtain ⟨rfl, -⟩ := List.cons_eq_cons.1 happ
          exact absurd ⟨hout, rfl⟩ (passes_cons.1 hpass).1
    · next h =>
      rw [Bool.and_eq_true, beq_iff_eq] at h
      rw [Option.map_eq_some_iff]
      constructor
      · rintro ⟨⟨u', rest'⟩, hscan, heq⟩
        obtain ⟨rfl, rfl⟩ := Prod.mk.inj heq
        obtain ⟨tail, rfl, rfl, hpass, hout⟩ := ih.1 hscan
        exact ⟨tail, rfl, rfl, passes_cons.2 ⟨h, hpass⟩, hout⟩
      · rintro ⟨tail, rfl, happ, hpass, hout⟩
        cases u with
        | nil =>
          obtain ⟨rfl, rfl⟩ := List.cons_eq_cons.1 happ
          exact absurd ⟨hout, rfl⟩ h
        | cons d u =>
          obtain ⟨rfl, rfl⟩ := List.cons_eq_cons.1 happ
          exact ⟨(u, stop :: tail), ih.2 ⟨tail, rfl, rfl, (passes_cons.1 hpass).2, hout⟩, rfl⟩

theorem Nesting.isOutside_iff : n.isOutside = true ↔ n = .start := by
  obtain ⟨depth, mark, escaped⟩ := n
  simp [isOutside, start, and_assoc]

/-- A branch goes on to the end of the text exactly if no comma stands outside. -/
theorem branchSpan_of_passes (h : Passes ',' .start s) : branchSpan s = (s, []) := by
  rw [branchSpan, h, Option.getD_none]

/-- No comma stands outside in a branch. -/
theorem passes_branchSpan (s : List Char) : Passes ',' .start (branchSpan s).1 := by
  unfold branchSpan
  cases h : scan? ',' .start s with
  | none => exact h
  | some r =>
    obtain ⟨tail, -, -, hpass, -⟩ := scan?_eq_some.1 h
    exact hpass

/-- Behind a branch stands a comma, or nothing. -/
theorem branchSpan_eq_nil_or_comma (s : List Char) :
    (branchSpan s).2 = [] ∨ ∃ tail, (branchSpan s).2 = ',' :: tail := by
  unfold branchSpan
  cases hscan : scan? ',' .start s with
  | none => exact .inl rfl
  | some r =>
    obtain ⟨tail, hr, -⟩ := scan?_eq_some.1 hscan
    exact .inr ⟨tail, hr⟩

/-! ## Even texts -/

/-- A text that leaves the nesting as it was outside of quotes, and in which no comma stands outside,
however many brackets are open. -/
structure Even (u : List Char) : Prop where
  run : ∀ depth, (Nesting.inBrackets depth).run u = .inBrackets depth
  passes : ∀ depth, Passes ',' (.inBrackets depth) u

/-- A character that the scan takes no notice of, and no comma. -/
def isPlain (c : Char) : Bool :=
  !(c == '\\' || isQuote c || c == '(' || c == '[' || c == ')' || c == ']' || c == ',')

theorem step_of_isPlain (h : isPlain c = true) (depth : Nat) :
    (Nesting.inBrackets depth).step c = .inBrackets depth := by
  simp only [isPlain, Bool.not_eq_true', Bool.or_eq_false_iff] at h
  simp [Nesting.step, Nesting.inBrackets, h]

/-- The characters that are not plain. -/
def specials : List Char := ['\\', '"', '\'', '(', '[', ')', ']', ',']

/-- A kind of characters to which no special character belongs has plain characters only. -/
theorem isPlain_of_not_special {P : Char → Bool} (hspecial : (specials.all fun c => !P c) = true)
    (h : P c = true) : isPlain c = true := by
  by_contra hplain
  have hmem : c ∈ specials := by
    simpa only [isPlain, isQuote, specials, Bool.not_eq_true, Bool.not_eq_false', Bool.or_eq_true,
      beq_iff_eq, or_assoc, List.mem_cons, List.not_mem_nil, or_false] using hplain
  have hfalse := List.all_eq_true.1 hspecial c hmem
  rw [h] at hfalse
  cases hfalse

theorem isPlain_of_isBlank (h : isBlank c = true) : isPlain c = true :=
  isPlain_of_not_special (by decide) h

theorem isPlain_of_isIdentChar (h : isIdentChar c = true) : isPlain c = true :=
  isPlain_of_not_special (by decide) h

theorem even_nil : Even [] := ⟨fun _ => rfl, fun _ => rfl⟩

theorem Even.append (hu : Even u) (hv : Even v) : Even (u ++ v) := by
  refine ⟨fun depth => ?_, fun depth => ?_⟩
  · rw [Nesting.run_append, hu.run, hv.run]
  · rw [passes_append, hu.run]
    exact ⟨hu.passes depth, hv.passes depth⟩

theorem Even.cons (h : isPlain c = true) (hu : Even u) : Even (c :: u) := by
  have hstep := step_of_isPlain h
  have hcomma : c ≠ ',' := by
    rintro rfl
    cases h
  refine ⟨fun depth => ?_, fun depth => ?_⟩
  · rw [Nesting.run_cons, hstep, hu.run]
  · rw [passes_cons, hstep]
    exact ⟨fun hstop => hcomma hstop.2, hu.passes depth⟩

theorem even_of_isPlain (h : u.all isPlain = true) : Even u := by
  induction u with
  | nil => exact even_nil
  | cons c u ih =>
    rw [List.all_cons, Bool.and_eq_true] at h
    exact .cons h.1 (ih h.2)

/-- An escape hides its character. -/
theorem Even.escape (c : Char) (hu : Even u) : Even ('\\' :: c :: u) := by
  have hstep : ∀ depth, ((Nesting.inBrackets depth).step '\\').step c = .inBrackets depth :=
    fun depth => rfl
  refine ⟨fun depth => ?_, fun depth => ?_⟩
  · rw [Nesting.run_cons, Nesting.run_cons, hstep, hu.run]
  · rw [passes_cons, passes_cons, hstep]
    refine ⟨fun hstop => ?_, fun hstop => ?_, hu.passes depth⟩
    · cases hstop.2
    · simp [Nesting.step, Nesting.inBrackets, Nesting.isOutside] at hstop

/-- An identifier is even. -/
theorem even_identSpan (s : List Char) : Even (identSpan s).1 := by
  fun_induction identSpan s with
  | case1 => exact even_nil
  | case2 => exact even_nil
  | case3 c s ih => exact .escape c ih
  | case4 c s _ _ hc ih => exact .cons (isPlain_of_isIdentChar hc) ih
  | case5 => exact even_nil

/-- Square brackets around an even text make an even text. -/
theorem Even.bracket (hu : Even u) : Even ('[' :: (u ++ [']'])) := by
  have hopen : ∀ depth, (Nesting.inBrackets depth).step '[' = .inBrackets (depth + 1) :=
    fun depth => rfl
  have hclose : ∀ depth, (Nesting.inBrackets (depth + 1)).step ']' = .inBrackets depth :=
    fun depth => rfl
  refine ⟨fun depth => ?_, fun depth => ?_⟩
  · rw [Nesting.run_cons, hopen, Nesting.run_append, hu.run, Nesting.run_cons, hclose,
      Nesting.run_nil]
  · rw [passes_cons, hopen, passes_append, hu.run, passes_cons]
    exact ⟨fun hstop => absurd hstop.2 (by decide), hu.passes _,
      fun hstop => absurd hstop.2 (by decide), passes_nil _ _⟩

/-- Inside a quote with some open brackets. -/
def Nesting.inQuote (depth : Nat) (mark : Char) : Nesting := ⟨depth, some mark, false⟩

/-- What is neither a single backslash nor an escape does not start with a backslash. -/
theorem ne_backslash_of_cases (hnil : c = '\\' → s = [] → False)
    (hcons : ∀ d t, c = '\\' → s = d :: t → False) : c ≠ '\\' := by
  intro heq
  cases hsplit : s with
  | nil => exact hnil heq hsplit
  | cons d t => exact hcons d t heq hsplit

/-- A character that is no backslash closes the quote or belongs to its content. -/
theorem closeQuote?_cons {mark : Char} (hslash : c ≠ '\\') (s : List Char) :
    closeQuote? mark (c :: s) =
      if c == mark then some ([], s) else (closeQuote? mark s).map fun r => (c :: r.1, r.2) := by
  rw [closeQuote?]
  · intro heq
    exact absurd heq hslash
  · intro d t heq
    exact absurd heq hslash

/-- Reading up to the closing quote takes a text that ends the quote and in which no scan stops. -/
theorem exists_of_closeQuote? {mark : Char} {content rest : List Char} (hmark : mark ≠ '\\')
    (h : closeQuote? mark s = some (content, rest)) :
    ∃ u, s = u ++ rest ∧ ∀ depth, (Nesting.inQuote depth mark).run u = .inBrackets depth ∧
      ∀ stop, Passes stop (.inQuote depth mark) u := by
  have hinside : ∀ depth, (Nesting.inQuote depth mark).isOutside = false := fun depth => by
    simp [Nesting.inQuote, Nesting.isOutside]
  fun_induction closeQuote? mark s generalizing content with
  | case1 => cases h
  | case2 => cases h
  | case3 c s ih =>
    obtain ⟨r, hr, heq⟩ := Option.map_eq_some_iff.1 h
    obtain ⟨-, rfl⟩ := Prod.mk.inj heq
    obtain ⟨u, rfl, hu⟩ := ih hr
    have hstep : ∀ depth,
        ((Nesting.inQuote depth mark).step '\\').step c = .inQuote depth mark := fun depth => rfl
    refine ⟨'\\' :: c :: u, rfl, fun depth => ⟨?_, fun stop => ?_⟩⟩
    · rw [Nesting.run_cons, Nesting.run_cons, hstep]
      exact (hu depth).1
    · rw [passes_cons, passes_cons, hstep]
      refine ⟨fun hstop => ?_, fun hstop => ?_, (hu depth).2 stop⟩
      · rw [hinside] at hstop
        cases hstop.1
      · simp [Nesting.step, Nesting.inQuote, Nesting.isOutside] at hstop
  | case4 c s _ _ heq =>
    obtain ⟨-, rfl⟩ := Prod.mk.inj (Option.some.inj h)
    obtain rfl := beq_iff_eq.1 heq
    have hstep : ∀ depth, (Nesting.inQuote depth c).step c = .inBrackets depth := by
      intro depth
      simp [Nesting.step, Nesting.inQuote, Nesting.inBrackets, hmark]
    refine ⟨[c], rfl, fun depth => ⟨?_, fun stop => ?_⟩⟩
    · rw [Nesting.run_cons, hstep]
      rfl
    · rw [passes_cons, hstep]
      refine ⟨fun hstop => ?_, passes_nil _ _⟩
      rw [hinside] at hstop
      cases hstop.1
  | case5 c s hnil hcons hne ih =>
    obtain ⟨r, hr, heq⟩ := Option.map_eq_some_iff.1 h
    obtain ⟨-, rfl⟩ := Prod.mk.inj heq
    obtain ⟨u, rfl, hu⟩ := ih hr
    have hslash := ne_backslash_of_cases hnil hcons
    have hstep : ∀ depth, (Nesting.inQuote depth mark).step c = .inQuote depth mark := by
      intro depth
      rw [beq_iff_eq] at hne
      simp [Nesting.step, Nesting.inQuote, hslash, hne]
    refine ⟨c :: u, rfl, fun depth => ⟨?_, fun stop => ?_⟩⟩
    · rw [Nesting.run_cons, hstep]
      exact (hu depth).1
    · rw [passes_cons, hstep]
      refine ⟨fun hstop => ?_, (hu depth).2 stop⟩
      rw [hinside] at hstop
      cases hstop.1

/-- Reading a quoted string takes a text that leaves the nesting as it was, and in which a scan stops at no
character but a quote. -/
theorem run_of_quoted? {content rest : List Char} (h : quoted? s = some (content, rest)) :
    ∃ u, s = u ++ rest ∧ ∀ depth, (Nesting.inBrackets depth).run u = .inBrackets depth ∧
      ∀ stop, isQuote stop = false → Passes stop (.inBrackets depth) u := by
  cases s with
  | nil => cases h
  | cons c s =>
    obtain ⟨hquote, hclose⟩ := Option.ite_none_right_eq_some.1 h
    have hslash : c ≠ '\\' := by
      rintro rfl
      cases hquote
    have hopen : ∀ depth, (Nesting.inBrackets depth).step c = .inQuote depth c := by
      intro depth
      simp [Nesting.step, Nesting.inBrackets, Nesting.inQuote, hslash, hquote]
    obtain ⟨u, rfl, hu⟩ := exists_of_closeQuote? hslash hclose
    refine ⟨c :: u, rfl, fun depth => ⟨?_, fun stop hstop => ?_⟩⟩
    · rw [Nesting.run_cons, hopen, (hu depth).1]
    · rw [passes_cons, hopen]
      refine ⟨fun h => ?_, (hu depth).2 stop⟩
      rw [← h.2, hquote] at hstop
      cases hstop

/-- A quoted string is even. -/
theorem exists_of_quoted? {content rest : List Char} (h : quoted? s = some (content, rest)) :
    ∃ u, s = u ++ rest ∧ Even u := by
  obtain ⟨u, hs, hu⟩ := run_of_quoted? h
  exact ⟨u, hs, fun depth => (hu depth).1, fun depth => (hu depth).2 ',' (by decide)⟩

/-- No comma is a blank. -/
theorem passes_of_isBlank (h : ∀ c ∈ u, isBlank c = true) (n : Nesting) : Passes ',' n u := by
  induction u generalizing n with
  | nil => exact passes_nil _ n
  | cons c u ih =>
    refine passes_cons.2 ⟨fun hstop => ?_, ih (fun d hd => h d (List.mem_cons_of_mem c hd)) _⟩
    have hblank := h c List.mem_cons_self
    rw [hstop.2] at hblank
    exact absurd hblank (by decide)

/-- Every open quote is a quote character. -/
theorem Nesting.isQuote_of_mark (h : ∀ m, n.mark = some m → isQuote m = true) (s : List Char) :
    ∀ m, (n.run s).mark = some m → isQuote m = true := by
  induction s generalizing n with
  | nil => exact h
  | cons c s ih =>
    refine ih fun m hm => ?_
    obtain ⟨depth, mark, escaped⟩ := n
    unfold step at hm
    cases mark <;> dsimp only at h hm <;> split_ifs at hm <;> simp_all

/-- Blanks change nothing outside of an escape. -/
theorem Nesting.run_of_isBlank (hescaped : n.escaped = false)
    (hmark : ∀ m, n.mark = some m → isQuote m = true) (h : ∀ c ∈ u, isBlank c = true) :
    n.run u = n := by
  induction u with
  | nil => rfl
  | cons c u ih =>
    have hblank := h c List.mem_cons_self
    have hplain := isPlain_of_isBlank hblank
    simp only [isPlain, Bool.not_eq_true', Bool.or_eq_false_iff] at hplain
    have hstep : n.step c = n := by
      obtain ⟨depth, mark, escaped⟩ := n
      obtain rfl : escaped = false := hescaped
      cases mark with
      | none => simp [step, hplain]
      | some m =>
        -- a blank closes no quote, since quotes are quote characters
        have hne : c ≠ m := by
          rintro rfl
          have hquote := hmark c rfl
          rw [hplain.1.1.1.1.1.2] at hquote
          cases hquote
        simp [step, hplain, hne]
    rw [run_cons, hstep]
    exact ih fun d hd => h d (List.mem_cons_of_mem _ hd)

/-! ## Groups in parentheses -/

theorem Nesting.step_le {m n : Nesting} {extra : Nat} (c : Char) (hmark : m.mark = n.mark)
    (hescaped : m.escaped = n.escaped) (hdepth : m.depth ≤ n.depth + extra) :
    (m.step c).mark = (n.step c).mark ∧ (m.step c).escaped = (n.step c).escaped ∧
      (m.step c).depth ≤ (n.step c).depth + extra := by
  obtain ⟨depth, mark, escaped⟩ := m
  obtain ⟨depth', mark', escaped'⟩ := n
  obtain rfl : mark = mark' := hmark
  obtain rfl : escaped = escaped' := hescaped
  unfold step
  cases mark <;> dsimp only at hdepth ⊢ <;> split_ifs <;> refine ⟨rfl, rfl, ?_⟩ <;> dsimp only <;> omega

/-- With fewer open brackets at the start there are no more at the end, and quotes and escapes are the
same. -/
theorem Nesting.run_le {m n : Nesting} {extra : Nat} (hmark : m.mark = n.mark)
    (hescaped : m.escaped = n.escaped) (hdepth : m.depth ≤ n.depth + extra) :
    (m.run s).mark = (n.run s).mark ∧ (m.run s).escaped = (n.run s).escaped ∧
      (m.run s).depth ≤ (n.run s).depth + extra := by
  induction s generalizing m n with
  | nil => exact ⟨hmark, hescaped, hdepth⟩
  | cons c s ih =>
    obtain ⟨hmark, hescaped, hdepth⟩ := step_le c hmark hescaped hdepth
    exact ih hmark hescaped hdepth

/-- A text that ends outside ends there in parentheses too. A closing bracket without an open one closes
the parenthesis before its time, and the closing parenthesis is then passed over. -/
theorem run_group (h : Nesting.start.run u = .start) :
    Nesting.start.run ('(' :: (u ++ [')'])) = .start := by
  have hopen : Nesting.start.step '(' = .inBrackets 1 := rfl
  -- the depth inside is compared with the depth of the same text read outside
  have hle : (Nesting.inBrackets 1).depth ≤ Nesting.start.depth + 1 := Nat.le_refl 1
  obtain ⟨hmark, hescaped, hdepth⟩ :=
    Nesting.run_le (m := .inBrackets 1) (n := .start) (s := u) rfl rfl hle
  rw [h] at hmark hescaped hdepth
  rw [Nesting.run_cons, hopen, Nesting.run_append]
  generalize (Nesting.inBrackets 1).run u = n at hmark hescaped hdepth
  obtain ⟨depth, mark, escaped⟩ := n
  obtain rfl : mark = none := hmark
  obtain rfl : escaped = false := hescaped
  have hzero : depth - 1 = 0 := by
    have : depth ≤ 0 + 1 := hdepth
    omega
  show Nesting.mk (depth - 1) none false = _
  rw [hzero]
  rfl

/-- Reading a group: its text ends outside, and the closing parenthesis is the first one outside. -/
theorem group?_eq_some {inner rest : List Char} :
    group? s = some (inner, rest) ↔
      s = '(' :: (inner ++ ')' :: rest) ∧ Passes ')' .start inner ∧
        Nesting.start.run inner = .start := by
  unfold group?
  split
  · next t =>
    rw [Option.map_eq_some_iff]
    constructor
    · rintro ⟨⟨before, behind⟩, hscan, heq⟩
      obtain ⟨rfl, rfl⟩ := Prod.mk.inj heq
      obtain ⟨tail, rfl, rfl, hpass, hout⟩ := scan?_eq_some.1 hscan
      exact ⟨rfl, hpass, Nesting.isOutside_iff.1 hout⟩
    · rintro ⟨heq, hpass, hrun⟩
      obtain rfl := (List.cons_eq_cons.1 heq).2
      exact ⟨(inner, ')' :: rest), scan?_eq_some.2 ⟨rest, rfl, rfl, hpass,
        Nesting.isOutside_iff.2 hrun⟩, rfl⟩
  · next hne =>
    constructor
    · rintro ⟨⟩
    · rintro ⟨rfl, -⟩
      exact absurd rfl (hne _)

end TreeQuery.Text
