import SemanticVersioning.Best
import SemanticVersioning.Range.Basic

/-!
# The lowest version of a range

`Range.minimum?` looks for the lowest version that a range admits among a few candidates. The two
lowest versions without and with a pre-release, `0.0.0` and `0.0.0-0`, come first, in this order.
After them each set has one candidate: the highest of the starting points of its comparators. The
lowest of these candidates is the answer, provided that the range admits it.

A comparator that admits versions above its operand starts at the operand's `successor`, one that
demands the operand or more starts at the operand itself. A comparator that only bounds from above
has no starting point.
-/

namespace SemanticVersioning

/-- The version from which the search above `v` starts: the next patch of a release, and the first
continuation of a pre-release. It is built from `v` and keeps its text and options. -/
def Version.successor (v : Version) : Version :=
  if v.isPrerelease then
    { v.withoutBuild with preRelease := v.preRelease ++ [.numeric 0] }
  else
    { v.withoutBuild with core := { v.core with patch := v.core.patch + 1 } }

/-- The version from which a comparator starts to admit, if it bounds from below. -/
def Comparator.start? (c : Comparator) : Option Version :=
  match c.operator with
  | .greater => some c.version.successor
  | .greaterOrEqual | .exact => some c.version
  | .less | .lessOrEqual => none

/-- The version from which a set starts to admit: the first of the highest starting points of its
comparators, if there are any. -/
def ComparatorSet.start? (set : ComparatorSet) : Option Version :=
  best? (fun v kept => (compare v kept).isGT) (set.comparators.filterMap (·.start?))

/-- The first of the lowest starting points of the sets of a range, if there are any. -/
def Range.start? (range : Range) : Option Version :=
  best? (fun v kept => (compare v kept).isLT) (range.sets.filterMap (·.start?))

/-- The lowest version that a range admits, as far as the candidates show it. -/
def Range.minimum? (range : Range) : Option Version :=
  if range.admits (.release 0 0 0) then
    some (.release 0 0 0)
  else if range.admits .lowest then
    some .lowest
  else
    range.start?.filter range.admits

end SemanticVersioning
