import SemanticVersioning.Range.Basic

/-!
# Intervals of precedence, and whether ranges meet

The versions that meet all comparators of a set form an interval of ranks. `ComparatorSet.interval`
finds its two edges by taking the tightest demand on each side. Two ranges meet if a set of one and
a set of the other have intervals with a non-empty intersection; the exclusion of pre-releases is
left out of account.

An interval counts as empty if its lower edge is above its upper edge, or at the same rank with one
of the two excluding it. A missing lower edge stands at the lowest rank `0.0.0-0`. The order of
ranks is not dense, and an interval between neighbours, such as the one above `1.0.0` and below
`1.0.1-0`, holds no version although it does not count as empty.
-/

namespace SemanticVersioning

/-! ## Edges -/

/-- One end of an interval. -/
inductive Edge where
  | unbounded
  | including (rank : Rank)
  | excluding (rank : Rank)
deriving DecidableEq, Repr, Inhabited

namespace Edge

/-- The rank at which an edge stands. -/
def rank? : Edge → Option Rank
  | unbounded => none
  | including r | excluding r => some r

/-- Whether an edge leaves its own rank out. -/
def isExcluding : Edge → Bool
  | excluding _ => true
  | unbounded | including _ => false

/-- Whether the first edge cuts off more than the second. Lower edges are tighter the `greater` they
are, upper edges the `less`; of two edges at one rank the excluding one is tighter. -/
def tighter (towards : Ordering) (e f : Edge) : Bool :=
  match e.rank?, f.rank? with
  | none, _ => false
  | some _, none => true
  | some r, some s =>
      match compare r s with
      | .eq => e.isExcluding && !f.isExcluding
      | o => o == towards

/-- Whether a rank stands on the inner side of a lower edge. -/
def admitsAbove : Edge → Rank → Bool
  | unbounded, _ => true
  | including r, s => (compare s r).isGE
  | excluding r, s => (compare s r).isGT

/-- Whether a rank stands on the inner side of an upper edge. -/
def admitsBelow : Edge → Rank → Bool
  | unbounded, _ => true
  | including r, s => (compare s r).isLE
  | excluding r, s => (compare s r).isLT

end Edge

/-! ## Intervals -/

/-- The ranks between a lower and an upper edge. -/
structure Interval where
  lower : Edge := .unbounded
  upper : Edge := .unbounded
deriving DecidableEq, Repr, Inhabited

namespace Interval

/-- Whether a rank lies between the edges. -/
def admits (interval : Interval) (r : Rank) : Bool :=
  interval.lower.admitsAbove r && interval.upper.admitsBelow r

/-- The interval with a lower edge moved up to the given one, if that is tighter. -/
def raise (interval : Interval) (edge : Edge) : Interval :=
  if edge.tighter .gt interval.lower then { interval with lower := edge } else interval

/-- The interval with an upper edge moved down to the given one, if that is tighter. -/
def cap (interval : Interval) (edge : Edge) : Interval :=
  if edge.tighter .lt interval.upper then { interval with upper := edge } else interval

/-- The interval cut down to what a comparator admits. -/
def tighten (interval : Interval) (c : Comparator) : Interval :=
  let r := c.version.toRank
  match c.operator with
  | .greater => interval.raise (.excluding r)
  | .greaterOrEqual => interval.raise (.including r)
  | .less => interval.cap (.excluding r)
  | .lessOrEqual => interval.cap (.including r)
  | .exact => (interval.raise (.including r)).cap (.including r)

/-- The common part of two intervals. -/
def intersect (a b : Interval) : Interval :=
  (a.raise b.lower).cap b.upper

/-- The lower edge, which stands at the lowest rank if the interval has no other. -/
def floor (interval : Interval) : Edge :=
  match interval.lower with
  | .unbounded => .including Version.lowest.toRank
  | edge => edge

/-- Whether the edges have crossed. -/
def isEmpty (interval : Interval) : Bool :=
  match interval.floor.rank?, interval.upper.rank? with
  | some low, some high =>
      match compare low high with
      | .gt => true
      | .eq => interval.floor.isExcluding || interval.upper.isExcluding
      | .lt => false
  | _, _ => false

end Interval

/-! ## Sets and ranges -/

/-- The interval of the ranks that meet all comparators of a set. -/
def ComparatorSet.interval (set : ComparatorSet) : Interval :=
  set.comparators.foldl Interval.tighten {}

/-- Whether the intervals of two sets have a common part. -/
def ComparatorSet.meets (a b : ComparatorSet) : Bool :=
  !(a.interval.intersect b.interval).isEmpty

/-- Whether some set of one range meets some set of the other. -/
def Range.meets (a b : Range) : Bool :=
  a.sets.any fun s => b.sets.any fun t => s.meets t

end SemanticVersioning
