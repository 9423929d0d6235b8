import SemanticVersioning.Version.Basic

/-!
# Comparators, and sets of them

A comparator asks one thing of a version: that it stands in a given relation to an operand. A
comparator set asks several things at once.

On top of the order there is the *exclusion of pre-releases*. Whoever asks for versions above some
release rarely wants the unfinished versions of later releases. A set therefore admits a pre-release
only if one of its comparators names a pre-release of the same core, unless all pre-releases are
included. The exclusion is a matter of the set: a comparator alone knows nothing of it.
-/

namespace SemanticVersioning

/-! ## Operators -/

/-- The relation that a comparator demands between a version and its operand. -/
inductive Operator where
  | exact
  | greater
  | greaterOrEqual
  | less
  | lessOrEqual
deriving DecidableEq, Hashable, Repr, Inhabited

namespace Operator

/-- Whether a version that compares to the operand in the given way is in the relation. -/
def admits : Operator → Ordering → Bool
  | exact, o => o.isEq
  | greater, o => o.isGT
  | greaterOrEqual, o => o.isGE
  | less, o => o.isLT
  | lessOrEqual, o => o.isLE

/-- The sign of an operator. Exactness is written by the bare operand. -/
def symbol : Operator → String
  | exact => ""
  | greater => ">"
  | greaterOrEqual => ">="
  | less => "<"
  | lessOrEqual => "<="

end Operator

/-! ## Comparators -/

/-- A demand on versions: to stand in a relation to an operand. -/
structure Comparator where
  operator : Operator
  version : Version
deriving DecidableEq, Repr, Inhabited

namespace Comparator

/-- The comparator that admits a version and all above it. -/
def atLeast (v : Version) : Comparator := ⟨.greaterOrEqual, v⟩

/-- The comparator that admits all versions below a version. -/
def below (v : Version) : Comparator := ⟨.less, v⟩

/-- Whether a version is in the relation, by precedence alone. -/
def test (c : Comparator) (v : Version) : Bool :=
  c.operator.admits (compare v c.version)

/-- Whether a comparator names a pre-release of a core. -/
def namesPrereleaseOf (c : Comparator) (core : Core) : Bool :=
  c.version.isPrerelease && c.version.core == core

/-- What a comparator demands: the relation and the rank of the operand. -/
def demand (c : Comparator) : Operator × Rank :=
  (c.operator, c.version.toRank)

theorem test_congr {c : Comparator} {v w : Version} (h : v.toRank = w.toRank) :
    c.test v = c.test w := by
  rw [test, test, Version.compare_def, Version.compare_def, h]

theorem test_eq_of_demand_eq {c d : Comparator} (h : c.demand = d.demand) (v : Version) :
    c.test v = d.test v := by
  obtain ⟨hoperator, hrank⟩ := Prod.mk.inj h
  rw [test, test, hoperator, Version.compare_def, Version.compare_def, hrank]

end Comparator

/-! ## Comparator sets -/

/-- Comparators that are demanded together. The empty set demands nothing. -/
structure ComparatorSet where
  comparators : List Comparator := []
deriving DecidableEq, Repr, Inhabited

namespace ComparatorSet

/-- Whether a set demands nothing. -/
def isAny (set : ComparatorSet) : Bool :=
  set.comparators.isEmpty

/-- Whether a version meets each comparator of a set. -/
def test (set : ComparatorSet) (v : Version) : Bool :=
  set.comparators.all (·.test v)

/-- Whether the exclusion of pre-releases lets a version pass. -/
def permits (set : ComparatorSet) (v : Version) : Bool :=
  !v.isPrerelease || set.comparators.any (·.namesPrereleaseOf v.core)

/-- Whether a set admits a version: it meets each comparator, and it is not excluded. -/
def admits (set : ComparatorSet) (includePrerelease : Bool) (v : Version) : Bool :=
  set.test v && (includePrerelease || set.permits v)

variable {set : ComparatorSet} {includePrerelease : Bool} {v w : Version}

/-- The exclusion treats all pre-releases of a core alike. -/
theorem permits_congr (hcore : v.core = w.core) (hpre : v.isPrerelease = w.isPrerelease) :
    set.permits v = set.permits w := by
  rw [permits, permits, hcore, hpre]

theorem test_of_admits (h : set.admits includePrerelease v = true) : set.test v = true :=
  (Bool.and_eq_true_iff.1 h).1

/-- Of a release, and of any version if all pre-releases are included, a set asks only that each
comparator is met. -/
theorem admits_eq_test (hv : v.isPrerelease = false ∨ includePrerelease = true) :
    set.admits includePrerelease v = set.test v := by
  rcases hv with hrelease | rfl
  · rw [admits, permits, hrelease, Bool.not_false, Bool.true_or, Bool.or_true, Bool.and_true]
  · rw [admits, Bool.true_or, Bool.and_true]

/-- What the comparators of a set demand, in order. -/
def demands (set : ComparatorSet) : List (Operator × Rank) :=
  set.comparators.map (·.demand)

end ComparatorSet
end SemanticVersioning
