import TreeQuery.Text.Blank

/-!
# Locations

Comparison of the targets of links with the open location, by the segments of their paths.
-/

namespace TreeQuery

namespace Location

/-- The text after the scheme and its `://`. -/
def afterScheme? : List Char → Option (List Char)
  | [] => none
  | ':' :: '/' :: '/' :: s => some s
  | _ :: s => afterScheme? s

/-- The path of a location, its host included: what stands after the scheme and before a query or
a fragment. One slash at its start does not count. -/
def path? (location : List Char) : Option (List Char) :=
  (afterScheme? location).map fun s =>
    let s := match s with
      | '/' :: rest => rest
      | _ => s
    s.takeWhile fun c => c != '?' && c != '#'

/-- The segments of a path. -/
def segments (path : List Char) : List (List Char) := Text.pieces (· == '/') path

/-- The text of the first segments of a path, as many as `depth` says. -/
def leading (depth : Nat) (path : List Char) : List Char :=
  ['/'].intercalate ((segments path).take depth)

/-- Whether the path of the target starts with the first segments of the path of the location, as
many as `depth` says, or all of them. -/
def isInside (depth : Option Nat) (location target : String) : Bool :=
  match path? location.toList, path? target.toList with
  | some current, some path =>
    let count := (segments current).length
    let depth := depth.getD count
    depth ≤ count && (leading depth current).isPrefixOf path
  | _, _ => false

end Location
end TreeQuery
