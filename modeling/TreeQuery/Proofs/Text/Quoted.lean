import TreeQuery.Proofs.Reader.Behind

/-!
# A quoted string is one token

Three functions know of quotes and escapes: the reader of a quoted string, the one that takes the quotes off, and
the scan over brackets. They agree on what `quote` writes. The scan looks at a quoted string as it looks at
nothing, so the ends of arguments and of branches stay where they are when a quoted string is put into the text
(`KeepsCut`).
-/

namespace TreeQuery.Text

variable {s u : List Char} {depth : Nat}

/-- `cut` takes a text apart. With `token` between `u` and `s` it takes the text apart at the same place as
without it, and `token` stays in one piece. -/
inductive KeepsCut (cut : List Char → Option (List Char × List Char)) (u token s : List Char) : Prop
  /-- The place is in front of `token`. -/
  | before (first w : List Char) (hw : w <:+ u) (hwithout : cut (u ++ s) = some (first, w ++ s))
      (hwith : cut (u ++ (token ++ s)) = some (first, w ++ (token ++ s)))
  /-- The place is behind `token`. -/
  | behind (t rest : List Char) (ht : t <+: s) (hwithout : cut (u ++ s) = some (u ++ t, rest))
      (hwith : cut (u ++ (token ++ s)) = some (u ++ (token ++ t), rest))
  /-- There is no place to take the text apart. -/
  | nowhere (hwithout : cut (u ++ s) = none) (hwith : cut (u ++ (token ++ s)) = none)

/-! ## What `quote` writes is read back -/

/-- The quotes come off, and the escapes with them. -/
theorem unquote_quote (s : List Char) : unquote (quote s) = s := by
  have hread := quoted?_quote s []
  rw [List.append_nil] at hread
  rw [unquote, hread]

/-- No scan for a character that is no quote stops in a quoted string. -/
theorem passes_quote {stop : Char} (hstop : isQuote stop = false) (s : List Char) (depth : Nat) :
    Passes stop (.inBrackets depth) (quote s) := by
  obtain ⟨u, hu, hpasses⟩ := run_of_quoted? (quoted?_quote s [])
  rw [List.append_nil, List.append_nil] at hu
  exact hu ▸ (hpasses depth).2 stop hstop

/-- A scan goes on behind a quoted string as it came to it. -/
theorem scan?_quote_append {stop : Char} (hstop : isQuote stop = false) (v s : List Char) (depth : Nat) :
    scan? stop (.inBrackets depth) (quote v ++ s) =
      (scan? stop (.inBrackets depth) s).map fun r => (quote v ++ r.1, r.2) := by
  have hpasses : scan? stop (.inBrackets depth) (quote v) = none := passes_quote hstop v depth
  rw [scan?_append, hpasses, (even_quote v).run, Option.map_none, Option.none_or]

/-! ## Cuts -/

/-- A scan comes to the same place with a quoted string in the text as without it. -/
theorem keepsCut_scan? (stop : Char) (hstop : isQuote stop = false) (hu : Nesting.start.run u = .inBrackets depth)
    (v s : List Char) : KeepsCut (scan? stop .start) u (quote v) s := by
  have hwith := scan?_append stop .start u (quote v ++ s)
  have hwithout := scan?_append stop .start u s
  rw [hu] at hwith hwithout
  rw [scan?_quote_append hstop] at hwith
  cases hscan : scan? stop .start u with
  | some r =>
    rw [hscan] at hwith hwithout
    exact .before r.1 r.2 ⟨r.1, append_of_scan? hscan⟩ hwithout hwith
  | none =>
    rw [hscan] at hwith hwithout
    cases hbehind : scan? stop (.inBrackets depth) s with
    | some r =>
      rw [hbehind] at hwith hwithout
      exact .behind r.1 r.2 ⟨r.2, append_of_scan? hbehind⟩ hwithout hwith
    | none =>
      rw [hbehind] at hwith hwithout
      exact .nowhere hwithout hwith

/-- An argument in parentheses ends where it would end without the quoted string. -/
theorem keepsCut_group? (hu : Nesting.start.run u = .inBrackets depth) (v s : List Char) :
    KeepsCut (fun t => group? ('(' :: t)) u (quote v) s := by
  have hgroup : ∀ t, group? ('(' :: t) = (scan? ')' .start t).map fun r => (r.1, r.2.drop 1) := fun _ => rfl
  rcases keepsCut_scan? ')' (by decide) hu v s with
    ⟨first, w, hw, hwithout, hwith⟩ | ⟨t, rest, ht, hwithout, hwith⟩ | ⟨hwithout, hwith⟩
  · cases w with
    | nil =>
      -- a quoted string does not start with a parenthesis
      obtain ⟨tail, htail, -⟩ := scan?_eq_some.1 hwith
      cases htail
    | cons c w =>
      refine .before first w ((List.suffix_cons c w).trans hw) ?_ ?_
      · rw [hgroup, hwithout]
        rfl
      · rw [hgroup, hwith]
        rfl
  · refine .behind t (rest.drop 1) ht ?_ ?_
    · rw [hgroup, hwithout]
      rfl
    · rw [hgroup, hwith]
      rfl
  · refine .nowhere ?_ ?_
    · rw [hgroup, hwithout]
      rfl
    · rw [hgroup, hwith]
      rfl

/-- A branch ends where it would end without the quoted string. -/
theorem keepsCut_branchSpan (hu : Nesting.start.run u = .inBrackets depth) (v s : List Char) :
    KeepsCut (fun t => some (branchSpan t)) u (quote v) s := by
  rcases keepsCut_scan? ',' (by decide) hu v s with
    ⟨first, w, hw, hwithout, hwith⟩ | ⟨t, rest, ht, hwithout, hwith⟩ | ⟨hwithout, hwith⟩
  · refine .before first w hw ?_ ?_
    · rw [branchSpan, hwithout, Option.getD_some]
    · rw [branchSpan, hwith, Option.getD_some]
  · refine .behind t rest ht ?_ ?_
    · rw [branchSpan, hwithout, Option.getD_some]
    · rw [branchSpan, hwith, Option.getD_some]
  · -- the branch goes on to the end of the text
    refine .behind s [] (List.prefix_refl s) ?_ ?_
    · rw [branchSpan, hwithout, Option.getD_none]
    · rw [branchSpan, hwith, Option.getD_none]

/-- Every quoted string is read back by each of its readers, whatever it holds and whatever stands behind it. The
scans for the end of an argument and of a branch that come to it outside of quotes do not stop in it and go on
behind it with as many open brackets and no open quote, so neither an argument nor a branch ends in it. -/
theorem quote_read_whole (v s : List Char) :
    quoted? (quote v ++ s) = some (v, s) ∧ unquote (quote v) = v ∧
      (∀ stop ∈ [')', ','], ∀ depth,
        Passes stop (.inBrackets depth) (quote v) ∧
        (Nesting.inBrackets depth).run (quote v) = .inBrackets depth ∧
        scan? stop (.inBrackets depth) (quote v ++ s) =
          (scan? stop (.inBrackets depth) s).map fun r => (quote v ++ r.1, r.2)) ∧
      ∀ u depth, Nesting.start.run u = .inBrackets depth →
        KeepsCut (fun t => group? ('(' :: t)) u (quote v) s ∧
        KeepsCut (fun t => some (branchSpan t)) u (quote v) s := by
  refine ⟨quoted?_quote v s, unquote_quote v, fun stop hmem depth => ?_, fun u depth hu => ?_⟩
  · have hstop : isQuote stop = false := by
      rw [List.mem_cons, List.mem_singleton] at hmem
      rcases hmem with rfl | rfl <;> rfl
    exact ⟨passes_quote hstop v depth, (even_quote v).run depth, scan?_quote_append hstop v s depth⟩
  · exact ⟨keepsCut_group? hu v s, keepsCut_branchSpan hu v s⟩

/-- A quoted string of quotes, backslashes, brackets and commas, two brackets deep. -/
theorem quote_read_whole_of_specials :
    let value := "\\\"),(]'\\".toList
    let before := ":is([a=".toList
    let behind := "]),b) c".toList
    ')' ∈ [')', ','] ∧ ',' ∈ [')', ','] ∧ Nesting.start.run before = .inBrackets 2 ∧
      Passes ')' (.inBrackets 2) (quote value) ∧ Passes ',' (.inBrackets 2) (quote value) ∧
      KeepsCut (fun t => group? ('(' :: t)) before (quote value) behind ∧
      KeepsCut (fun t => some (branchSpan t)) before (quote value) behind := by
  intro value before behind
  have hround : ')' ∈ [')', ','] := by decide
  have hcomma : ',' ∈ [')', ','] := by decide
  have hrun : Nesting.start.run before = .inBrackets 2 := by decide
  obtain ⟨-, -, hscan, hcut⟩ := quote_read_whole value behind
  exact ⟨hround, hcomma, hrun, (hscan ')' hround 2).1, (hscan ',' hcomma 2).1, hcut before 2 hrun⟩

end TreeQuery.Text
