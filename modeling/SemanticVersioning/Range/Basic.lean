import SemanticVersioning.Range.Comparator

/-!
# Ranges

A range is a choice between comparator sets, with the options it was read with. It admits a version
if one of its sets does. The range without sets admits nothing, the range of one empty set admits
each release.

Two ranges make the same demands if their sets, in order, demand the same relations to operands of
the same rank, and their options agree (`sameDemands`). The texts from which the operands were read
do not count.
-/

namespace SemanticVersioning

/-- A choice between comparator sets. -/
structure Range where
  sets : List ComparatorSet
  options : Options := {}
deriving DecidableEq, Repr, Inhabited

namespace Range

/-- The range that admits each release. -/
def anyRelease : Range := { sets := [{}] }

/-- The range that admits nothing. -/
def nothing : Range := { sets := [] }

/-- Whether a range admits a version. -/
def admits (range : Range) (v : Version) : Bool :=
  range.sets.any (·.admits range.options.includePrerelease v)

/-- Whether two ranges demand the same. -/
def sameDemands (a b : Range) : Bool :=
  a.sets.map (·.demands) == b.sets.map (·.demands) && a.options == b.options

theorem admits_nothing (v : Version) : nothing.admits v = false := rfl

theorem admits_anyRelease (v : Version) : anyRelease.admits v = !v.isPrerelease := by
  simp [admits, anyRelease, ComparatorSet.admits, ComparatorSet.test, ComparatorSet.permits]

theorem sameDemands_iff {a b : Range} : a.sameDemands b = true ↔
    a.sets.map (·.demands) = b.sets.map (·.demands) ∧ a.options = b.options := by
  simp [sameDemands]

theorem sameDemands_refl (range : Range) : range.sameDemands range = true :=
  sameDemands_iff.2 ⟨rfl, rfl⟩

end Range
end SemanticVersioning
