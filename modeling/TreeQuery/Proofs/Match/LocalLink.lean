import TreeQuery.Match
import TreeQuery.Proofs.Text.Pieces
import TreeQuery.Proofs.Tree.Ancestors

/-!
# Links into the open location

The open location and the target of a link are compared as texts: the path of the target has to start with
the first segments of the path of the location, joined by slashes. This asks for the segments one by one, up
to the last of them, which may go on in the target (`Location.Overruns`). So a link is local if the path of
its target starts with the segments, and also if it overruns them (`accepts_localLink_iff`): the host
`example.community` passes for `example.com`.
-/

namespace TreeQuery

namespace Location

variable {s a b c x : List Char} {lead path : List (List Char)}

/-! ## Paths and their segments -/

/-- What stands behind the scheme is found wherever there is a scheme. -/
theorem afterScheme?_isSome (h : "://".toList <:+: s) : (afterScheme? s).isSome = true := by
  fun_induction afterScheme? s with
  | case1 => exact absurd (List.infix_nil.1 h) (by decide)
  | case2 s => rfl
  | case3 c s hscheme ih =>
    refine ih ((List.infix_cons_iff.1 h).resolve_left fun hprefix => ?_)
    obtain ⟨rest, hrest⟩ := hprefix
    obtain ⟨hcolon, hslashes⟩ := List.cons.inj hrest
    exact hscheme rest hcolon.symm hslashes.symm

/-- A location with a scheme has a path. -/
theorem exists_path (h : "://".toList <:+: s) : ∃ path, path? s = some path := by
  obtain ⟨rest, hrest⟩ := Option.isSome_iff_exists.1 (afterScheme?_isSome h)
  exact ⟨_, by rw [path?, hrest]; rfl⟩

theorem segments_of_not_mem (h : '/' ∉ s) : segments s = [s] :=
  Text.pieces_of_forall fun _ hc => beq_false_of_ne fun heq => h (heq ▸ hc)

theorem segments_append_slash (h : '/' ∉ a) : segments (a ++ '/' :: b) = a :: segments b :=
  calc segments (a ++ '/' :: b)
    _ = segments a ++ segments b := Text.pieces_append_cons a b (beq_self_eq_true '/')
    _ = a :: segments b := by rw [segments_of_not_mem h, List.singleton_append]

theorem slash_not_mem (h : a ∈ segments s) : '/' ∉ a := fun hmem => by
  have := Text.forall_of_mem_pieces h '/' hmem
  simp at this

/-! ## Paths that start with segments -/

/-- A path overruns segments when it has them but for the last, which goes on in the path. -/
def Overruns (lead path : List (List Char)) : Prop :=
  ∃ shared last more rest, more ≠ [] ∧ lead = shared ++ [last] ∧
    path = shared ++ (last ++ more) :: rest

theorem overruns_singleton : Overruns [c] (a :: path) ↔ ∃ more, more ≠ [] ∧ a = c ++ more := by
  constructor
  · rintro ⟨shared, last, more, rest, hmore, hlead, hpath⟩
    cases shared with
    | nil =>
      obtain ⟨rfl, -⟩ := List.cons.inj hlead
      exact ⟨more, hmore, (List.cons.inj hpath).1⟩
    | cons first shared => simp at hlead
  · rintro ⟨more, hmore, rfl⟩
    exact ⟨[], c, more, path, hmore, rfl, rfl⟩

theorem overruns_cons_cons (h : lead ≠ []) :
    Overruns (c :: lead) (a :: path) ↔ c = a ∧ Overruns lead path := by
  constructor
  · rintro ⟨shared, last, more, rest, hmore, hlead, hpath⟩
    cases shared with
    | nil => exact absurd (List.cons.inj hlead).2 h
    | cons first shared =>
      obtain ⟨rfl, hlead'⟩ := List.cons.inj hlead
      obtain ⟨rfl, hpath'⟩ := List.cons.inj hpath
      exact ⟨rfl, shared, last, more, rest, hmore, hlead', hpath'⟩
  · rintro ⟨rfl, shared, last, more, rest, hmore, rfl, rfl⟩
    exact ⟨c :: shared, last, more, rest, hmore, rfl, rfl⟩

theorem not_overruns_nil : ¬ Overruns lead [] := by
  rintro ⟨shared, last, more, rest, -, -, hpath⟩
  simp at hpath

/-- A text without a slash starts a path exactly if it starts the first segment. -/
theorem prefix_append_slash (hc : '/' ∉ c) : c <+: a ++ '/' :: b ↔ c <+: a := by
  induction c generalizing a with
  | nil => simp
  | cons d c ih =>
    obtain ⟨hd, hc⟩ := List.ne_and_not_mem_of_not_mem_cons hc
    cases a with
    | nil => simp [List.cons_prefix_cons, hd.symm]
    | cons e a => rw [List.cons_append, List.cons_prefix_cons, List.cons_prefix_cons, ih hc]

/-- Up to their first slashes, one text starts another only if the two are the same. -/
theorem append_slash_prefix_append_slash (hc : '/' ∉ c) (ha : '/' ∉ a) :
    c ++ '/' :: x <+: a ++ '/' :: b ↔ c = a ∧ x <+: b := by
  induction c generalizing a with
  | nil =>
    cases a with
    | nil => simp [List.cons_prefix_cons]
    | cons e a => simp [List.cons_prefix_cons, (List.ne_and_not_mem_of_not_mem_cons ha).1]
  | cons d c ih =>
    obtain ⟨hd, hc⟩ := List.ne_and_not_mem_of_not_mem_cons hc
    cases a with
    | nil => simp [List.cons_prefix_cons, hd.symm]
    | cons e a =>
      rw [List.cons_append, List.cons_append, List.cons_prefix_cons, ih hc (List.ne_and_not_mem_of_not_mem_cons ha).2,
        List.cons.injEq, and_assoc]

/-- A path starts with segments as a text exactly if its segments start with them, or overrun them. -/
theorem intercalate_prefix_iff (h : ∀ segment ∈ lead, '/' ∉ segment) :
    ['/'].intercalate lead <+: s ↔ lead <+: segments s ∨ Overruns lead (segments s) := by
  induction lead generalizing s with
  | nil => simp
  | cons c lead ih =>
    obtain ⟨hc, hlead⟩ := List.forall_mem_cons.1 h
    -- the first segment of the path
    obtain ⟨a, path, hsegments, hs⟩ : ∃ a path, segments s = a :: path ∧
        (path = [] ∧ s = a ∨ ∃ b, '/' ∉ a ∧ path = segments b ∧ s = a ++ '/' :: b) := by
      by_cases hslash : '/' ∈ s
      · obtain ⟨a, b, rfl, ha⟩ := List.eq_append_cons_of_mem hslash
        exact ⟨a, segments b, segments_append_slash ha, .inr ⟨b, ha, rfl, rfl⟩⟩
      · exact ⟨s, [], segments_of_not_mem hslash, .inl ⟨rfl, rfl⟩⟩
    rw [hsegments]
    cases lead with
    | nil =>
      have hfirst : c <+: s ↔ c <+: a := by
        rcases hs with ⟨-, rfl⟩ | ⟨b, -, -, rfl⟩
        · rfl
        · exact prefix_append_slash hc
      rw [List.intercalate_singleton, hfirst, overruns_singleton, List.cons_prefix_cons]
      constructor
      · rintro ⟨more, rfl⟩
        by_cases hmore : more = []
        · exact .inl ⟨by simp [hmore], List.nil_prefix⟩
        · exact .inr ⟨more, hmore, rfl⟩
      · rintro (⟨rfl, -⟩ | ⟨more, -, rfl⟩)
        · exact List.prefix_rfl
        · exact List.prefix_append c more
    | cons d lead =>
      rw [List.intercalate_cons_cons, List.append_assoc, List.singleton_append, List.cons_prefix_cons,
        overruns_cons_cons (List.cons_ne_nil d lead), ← and_or_left]
      rcases hs with ⟨rfl, rfl⟩ | ⟨b, ha, rfl, rfl⟩
      · -- a path of one segment has no slash
        have hno : ¬ c ++ '/' :: ['/'].intercalate (d :: lead) <+: s := fun hprefix => by
          have hslash := hprefix.subset (List.mem_append_right c List.mem_cons_self)
          exact slash_not_mem (hsegments ▸ List.mem_cons_self) hslash
        simp [hno, not_overruns_nil]
      · rw [append_slash_prefix_append_slash hc ha, ih hlead]

/-- A target is inside a location, up to a depth, exactly if the location has so many segments and the
target has them or overruns them. -/
theorem isInside_iff {location target : String} {current path : List Char} (depth : Option Nat)
    (hlocation : path? location.toList = some current) (htarget : path? target.toList = some path) :
    isInside depth location target = true ↔
      depth.getD (segments current).length ≤ (segments current).length ∧
        ((segments current).take (depth.getD (segments current).length) <+: segments path ∨
          Overruns ((segments current).take (depth.getD (segments current).length))
            (segments path)) := by
  have hslash : ∀ d, ∀ segment ∈ (segments current).take d, '/' ∉ segment :=
    fun d segment hmem => slash_not_mem (List.mem_of_mem_take hmem)
  rw [isInside, hlocation, htarget]
  simp only [Bool.and_eq_true, decide_eq_true_eq, leading, List.isPrefixOf_iff_prefix,
    intercalate_prefix_iff (hslash _)]

end Location

/-! ## Local links -/

/-- A link with a target is an element that may have one, and its attribute for it. -/
theorem View.linkTarget_of_attr {v : View} {node : NodeId} {name tag target : String}
    (hname : name ∈ ["a", "area", "link"]) (htag : v.tag node = some tag)
    (hsame : Text.sameLetters name tag = true) (htarget : v.attr node "href" = some target) :
    v.linkTarget node = some target := by
  have hlink : ["a", "area", "link"].any (v.hasTag node) = true :=
    List.any_eq_true.2 ⟨name, hname, by rw [View.hasTag, htag, Option.any_some, hsame]⟩
  rw [View.linkTarget, if_pos hlink, htarget]

/-- A link is local, up to a depth or for the whole of the location, exactly if the location has so many
segments and the path of the target starts with them, or overruns them. -/
theorem accepts_localLink_iff {sc : Scene} {node : NodeId} {name tag target location : String}
    (hname : name ∈ ["a", "area", "link"]) (htag : sc.view.tag node = some tag)
    (hsame : Text.sameLetters name tag = true) (htarget : sc.view.attr node "href" = some target)
    (hlocation : sc.host.location = some location) (hscheme : "://".toList <:+: target.toList)
    (hscheme' : "://".toList <:+: location.toList) (hasGetter : Bool) (written : Option String)
    (depth : Option Nat) :
    ∃ path current, Location.path? target.toList = some path ∧
      Location.path? location.toList = some current ∧
      ∀ count, count = depth.getD (Location.segments current).length →
        (Clause.accepts sc (.pseudo ⟨.localLink, hasGetter, written, .linkDepth depth⟩) node = true ↔
          count ≤ (Location.segments current).length ∧
            ((Location.segments current).take count <+: Location.segments path ∨
              Location.Overruns ((Location.segments current).take count)
                (Location.segments path))) := by
  obtain ⟨path, hpath⟩ := Location.exists_path hscheme
  obtain ⟨current, hcurrent⟩ := Location.exists_path hscheme'
  refine ⟨path, current, hpath, hcurrent, ?_⟩
  rintro count rfl
  have hlink := View.linkTarget_of_attr hname htag hsame htarget
  have haccepts : Clause.accepts sc (.pseudo ⟨.localLink, hasGetter, written, .linkDepth depth⟩) node =
      Location.isInside depth location target := by
    rw [Clause.accepts, Scene.satisfies, hlink, hlocation]
  rw [haccepts, Location.isInside_iff depth hcurrent hpath]

/-- A page with a link to another host, whose name goes on where that of the open one ends. -/
def Tree.linkPage : Tree :=
  (Tree.new.addAll? [(0, .element ⟨"a", [("href", "https://example.community/docs")]⟩)]).getD .new

/-- The page, opened from a host of its own. -/
def Scene.linkPage : Scene :=
  ⟨Tree.linkPage.view, { location := some "https://example.com/docs" }⟩

/-- The link overruns the first segment of the open location, its host. -/
theorem accepts_localLink_linkPage :
    Scene.linkPage.view.attr 1 "href" = some "https://example.community/docs" ∧
      Scene.linkPage.host.location = some "https://example.com/docs" ∧
      ∃ path current, Location.path? "https://example.community/docs".toList = some path ∧
        Location.path? "https://example.com/docs".toList = some current ∧
        (Clause.accepts Scene.linkPage (.pseudo ⟨.localLink, false, some "1", .linkDepth (some 1)⟩) 1 =
            true ↔
          1 ≤ (Location.segments current).length ∧
            ((Location.segments current).take 1 <+: Location.segments path ∨
              Location.Overruns ((Location.segments current).take 1) (Location.segments path))) := by
  have htag : Scene.linkPage.view.tag 1 = some "a" := by decide +kernel
  have htarget : Scene.linkPage.view.attr 1 "href" = some "https://example.community/docs" := by
    decide +kernel
  have hscheme : "://".toList <:+: "https://example.community/docs".toList := by
    decide +kernel
  have hscheme' : "://".toList <:+: "https://example.com/docs".toList := by decide +kernel
  obtain ⟨path, current, hpath, hcurrent, haccepts⟩ := accepts_localLink_iff
    (List.mem_cons_self : "a" ∈ ["a", "area", "link"]) htag (by decide +kernel) htarget rfl hscheme hscheme'
    false (some "1") (some 1)
  exact ⟨htarget, rfl, path, current, hpath, hcurrent, haccepts 1 rfl⟩

/-- So the link counts as local up to the host, and the two hosts are different segments. -/
theorem accepts_localLink_otherHost :
    Location.path? "https://example.community/docs".toList = some "example.community/docs".toList ∧
      Location.path? "https://example.com/docs".toList = some "example.com/docs".toList ∧
      Clause.accepts Scene.linkPage (.pseudo ⟨.localLink, false, some "1", .linkDepth (some 1)⟩) 1 = true ∧
      1 ≤ (Location.segments "example.com/docs".toList).length ∧
      ¬ (Location.segments "example.com/docs".toList).take 1 <+:
        Location.segments "example.community/docs".toList := by
  decide +kernel

end TreeQuery
