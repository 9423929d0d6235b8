import SemanticVersioning.Range.Basic
import SemanticVersioning.Range.Term

/-!
# From terms to comparators

Each term stands for at most two comparators. A complete operand is itself the operand of a
comparator. A partial operand stands for a stretch of versions, which is closed below by its first
version (`floor`) and open above at the first pre-release of the version that follows (`ceiling`),
so that the pre-releases of that version are outside.

If all pre-releases are included, a floor is lowered to the first pre-release of its version. The
operands of such comparators are made up: they have no text, and their options are the default
ones.
-/

namespace SemanticVersioning

/-! ## Ends of stretches -/

namespace Comparator

/-- The comparator that closes a stretch below. -/
def floor (includePrerelease : Bool) (major minor patch : Nat) : Comparator :=
  if includePrerelease then
    .atLeast (.numbered major minor patch 0)
  else
    .atLeast (.release major minor patch)

/-- The comparator that ends a stretch before a version and its pre-releases. -/
def ceiling (major minor patch : Nat) : Comparator :=
  .below (.numbered major minor patch 0)

end Comparator

/-! ## The meaning of terms -/

namespace Extent

open Comparator

/-- The versions that agree with an operand as far as it goes. -/
def agreeing (includePrerelease : Bool) : Extent → List Comparator
  | any => []
  | major M => [floor includePrerelease M 0 0, ceiling (M + 1) 0 0]
  | minor M m => [floor includePrerelease M m 0, ceiling M (m + 1) 0]
  | full v => [⟨.exact, v⟩]

/-- The versions in a relation to an operand. A partial operand is the stretch of the versions that
agree with it: what is greater is above the whole stretch, what is less is below it. Nothing is
above or below an operand that gives nothing. -/
def compared (includePrerelease : Bool) (operator : Operator) : Extent → List Comparator
  | full v => [⟨operator, v⟩]
  | any =>
      match operator with
      | .greater | .less => [.below .lowest]
      | .exact | .greaterOrEqual | .lessOrEqual => []
  | major M =>
      match operator with
      | .exact => agreeing includePrerelease (major M)
      | .greater => [floor includePrerelease (M + 1) 0 0]
      | .greaterOrEqual => [floor includePrerelease M 0 0]
      | .less => [ceiling M 0 0]
      | .lessOrEqual => [ceiling (M + 1) 0 0]
  | minor M m =>
      match operator with
      | .exact => agreeing includePrerelease (minor M m)
      | .greater => [floor includePrerelease M (m + 1) 0]
      | .greaterOrEqual => [floor includePrerelease M m 0]
      | .less => [ceiling M m 0]
      | .lessOrEqual => [ceiling M (m + 1) 0]

/-- The versions from an operand on that agree with it in the major and minor numbers, as far as it
gives them. -/
def tilde (includePrerelease : Bool) : Extent → List Comparator
  | any => []
  | major M => [floor includePrerelease M 0 0, ceiling (M + 1) 0 0]
  | minor M m => [floor includePrerelease M m 0, ceiling M (m + 1) 0]
  | full v => [.atLeast v, ceiling v.core.major (v.core.minor + 1) 0]

/-- The versions from an operand on that agree with it up to its first number other than zero. -/
def caret (includePrerelease : Bool) : Extent → List Comparator
  | any => []
  | major M => [floor includePrerelease M 0 0, ceiling (M + 1) 0 0]
  | minor 0 m => [floor includePrerelease 0 m 0, ceiling 0 (m + 1) 0]
  | minor M m => [floor includePrerelease M m 0, ceiling (M + 1) 0 0]
  | full v =>
      match v.core with
      | ⟨0, 0, p⟩ => [.atLeast v, ceiling 0 0 (p + 1)]
      | ⟨0, m, _⟩ => [.atLeast v, ceiling 0 (m + 1) 0]
      | ⟨M, _, _⟩ => [.atLeast v, ceiling (M + 1) 0 0]

/-- The comparator at the lower end of a hyphenated pair, which starts with the first version that
agrees with the operand. -/
def lowerEnd (includePrerelease : Bool) : Extent → List Comparator
  | any => []
  | major M => [floor includePrerelease M 0 0]
  | minor M m => [floor includePrerelease M m 0]
  | full v => [.atLeast v]

/-- The comparator at the upper end of a hyphenated pair, which ends with the last version that
agrees with the operand. -/
def upperEnd : Extent → List Comparator
  | any => []
  | major M => [ceiling (M + 1) 0 0]
  | minor M m => [ceiling M (m + 1) 0]
  | full v => [⟨.lessOrEqual, v⟩]

end Extent

/-- The comparators that a term stands for. -/
def Term.expand (includePrerelease : Bool) : Term Extent → List Comparator
  | compare operator operand => operand.compared includePrerelease operator
  | tilde operand => operand.tilde includePrerelease
  | caret operand => operand.caret includePrerelease
  | hyphen lower upper => lower.lowerEnd includePrerelease ++ upper.upperEnd

/-- The range that alternatives stand for: a set for each, of the comparators of its terms. -/
def Range.ofAlternatives (options : Options) (alternatives : Alternatives Extent) : Range where
  sets := alternatives.segments.map fun segment =>
    ⟨segment.flatMap (Term.expand options.includePrerelease)⟩
  options := options

end SemanticVersioning
