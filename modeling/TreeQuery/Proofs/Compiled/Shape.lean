import TreeQuery.Proofs.Compiled.Selector

/-!
# The shape in a compiled part

When a compiled part is finished, its shape is put into all its pseudo-classes that compare with like
siblings. Each of them then stores what the shape of the part compiles to, whatever stands before or behind
it in the part (`Part.neutral_of_relative`).
-/

namespace TreeQuery

/-- Of the conditions that are no pseudo-classes, the shape has those of the part. -/
theorem Part.filterMap_shape {α : Type} {f : Clause → Option α} (h : ∀ clause, f (.pseudo clause) = none)
    (part : Part) : part.shape.clauses.filterMap f = part.clauses.filterMap f := by
  have hskip (clause : Clause) : (if !clause.isRelative then f clause else none) = f clause := by
    rcases clause with _ | _ | _ | clause
    · rfl
    · rfl
    · rfl
    · rw [h, ite_self]
  rw [shape, List.filterMap_filter]
  simp only [hskip]

theorem Part.id?_shape (part : Part) : part.shape.id? = part.id? := by
  rw [id?, id?, ← List.head?_filterMap, ← List.head?_filterMap, filterMap_shape fun _ => rfl]

/-- What a part compiles to before the shape is put into its pseudo-classes. -/
def Part.unshaped (p : Profile) (part : Part) : Compiled.Part where
  combinator := part.combinator
  subject := part.subject
  tag := part.tag.map (·.value)
  id := part.id?.map (·.value)
  classes := part.classes.map (·.value)
  attributes := part.attributes
  pseudos := (Clause.compiledAll p part.clauses).filterMap Compiled.Clause.pseudo?
  containment := Selector.compiledWithin p part.containment
  searchName := part.searchName?
  getter := ((Clause.compiledAll p part.clauses).filterMap (Compiled.Clause.getter? p)).getLast?
  directLookups := UInt8.ofNat (part.directLookups p)
  prefersNative := part.prefersNative p

theorem Part.compiled_eq (p : Profile) (part : Part) : part.compiled p = (part.unshaped p).attachShapes := by
  cases part
  rfl

/-- The pseudo-classes of the shape are those of the part that do not compare with like siblings. -/
theorem Part.pseudos_unshaped_shape (p : Profile) (part : Part) :
    (part.shape.unshaped p).pseudos = (part.unshaped p).pseudos.filter (!·.pseudo.isRelative) := by
  simp only [unshaped, shape, Clause.compiledAll_eq_map, List.filterMap_map]
  induction part.clauses with
  | nil => rfl
  | cons clause rest ih =>
    rcases clause with _ | _ | _ | ⟨pseudo, hasGetter, written, argument⟩
    · exact ih
    · exact ih
    · exact ih
    · cases hrelative : pseudo.isRelative <;>
        simpa [Clause.isRelative, Clause.pseudo?, Clause.compiled, Compiled.Clause.pseudo?, hrelative] using ih

/-- Pseudo-classes that do not compare with like siblings store no shape. -/
theorem Compiled.Part.attachShapes_of_none {part : Compiled.Part}
    (h : ∀ pseudo ∈ part.pseudos, pseudo.pseudo.isRelative = false) : part.attachShapes = part := by
  have hattach : part.pseudos.map (·.attach part.shape) = part.pseudos := by
    refine (List.map_congr_left fun pseudo hmem => ?_).trans (List.map_id _)
    obtain ⟨kind, tier, argument⟩ := pseudo
    have hkind : kind.isRelative = false := h _ hmem
    cases argument with
    | relative formula old => simp [Pseudo.attach, hkind]
    | _ => rfl
  unfold attachShapes
  rw [hattach]
  cases part
  rfl

/-- All pseudo-classes of a compiled part that compare with like siblings store the same shape: what the shape
of the part compiles to, but for how it is looked up. -/
theorem Part.neutral_of_relative (p : Profile) (part : Part) {pseudo : Compiled.Pseudo}
    (hmem : pseudo ∈ (part.compiled p).pseudos) (hrelative : pseudo.pseudo.isRelative = true)
    {formula : Option Formula} {shape : Compiled.Part}
    (hargument : pseudo.argument = .relative formula shape) :
    shape.neutral = (part.shape.compiled p).neutral := by
  have hstored : shape = (part.unshaped p).shape := by
    rw [compiled_eq] at hmem
    obtain ⟨⟨kind, tier, argument⟩, hraw, rfl⟩ := List.mem_map.1 hmem
    rw [Compiled.Pseudo.pseudo_attach] at hrelative
    cases argument with
    | relative formula' old =>
      simp only [Compiled.Pseudo.attach, if_pos hrelative] at hargument
      exact (Compiled.Argument.relative.inj hargument).2.symm
    | _ => cases hargument
  have hnone : ∀ pseudo ∈ (part.shape.unshaped p).pseudos, pseudo.pseudo.isRelative = false := by
    intro pseudo hpseudo
    rw [pseudos_unshaped_shape] at hpseudo
    simpa using (List.mem_filter.1 hpseudo).2
  have hclasses : part.shape.classes = part.classes := filterMap_shape (fun _ => rfl) part
  have hattributes : part.shape.attributes = part.attributes := filterMap_shape (fun _ => rfl) part
  have hsearch : part.shape.searchName? = part.searchName? := by
    rw [searchName?, searchName?, filterMap_shape fun _ => rfl]
  rw [hstored, compiled_eq, Compiled.Part.attachShapes_of_none hnone, Compiled.Part.shape,
    ← pseudos_unshaped_shape]
  simp only [unshaped, Compiled.Part.neutral, id?_shape, hclasses, hattributes, hsearch]
  rfl

end TreeQuery
