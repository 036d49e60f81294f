import CodeAtlas.Path.Name

/-!
# Canonical paths

A path walks through directories: an empty segment or `.` stays, `..` goes up, any other segment
goes down. The canonical form takes the same walk in the fewest steps.

## Main definitions

* `CodeAtlas.SlashPath` — a path as its segments and whether it starts at the root.
* `CodeAtlas.SlashPath.canonical` — the path with its detours removed.
* `CodeAtlas.Path.normalize` — the canonical form as a text; `.` stands for the empty walk.
-/

set_option autoImplicit false

namespace CodeAtlas

/-- A path as its segments and whether it starts at the root. -/
structure SlashPath where
  /-- Whether the path starts at the root rather than at the current directory. -/
  absolute : Bool
  /-- The segments, outermost first. -/
  segments : List String
  deriving DecidableEq, Repr

namespace SlashPath

/-- The path that a text spells. -/
def parse (text : String) : SlashPath := ⟨text.toList.head? == some '/', Path.segments text⟩

/-- One segment more after the segments kept so far, innermost first. Going up undoes the last
step down; at the root it does nothing, and outside of any known directory it is kept. -/
def keep (absolute : Bool) (kept : List String) (segment : String) : List String :=
  if Path.isStill segment then kept
  else if segment = ".." then
    match kept with
    | [] => if absolute then [] else [".."]
    | last :: before =>
      if last ≠ ".." then before else if absolute then kept else ".." :: kept
  else segment :: kept

/-- The path without the segments that stay in place and without the steps that are undone. -/
def canonical (path : SlashPath) : SlashPath :=
  ⟨path.absolute, (path.segments.foldl (keep path.absolute) []).reverse⟩

/-- The text of a path. The relative path without segments is written `.`. -/
def render (path : SlashPath) : String :=
  if path.absolute then "/" ++ "/".intercalate path.segments
  else if path.segments.isEmpty then "."
  else "/".intercalate path.segments

end SlashPath

namespace Path

/-- The canonical form of a path. -/
def normalize (path : String) : String := (SlashPath.parse path).canonical.render

end Path

end CodeAtlas
