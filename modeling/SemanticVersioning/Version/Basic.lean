import SemanticVersioning.Options
import SemanticVersioning.Version.Hashing

/-!
# Versions

A version is a rank with attachments: its build metadata, the text it was read from (if it was read
at all) and the options it was read with. The attachments are kept for writing and for diagnostics.
Comparison, the notion of sameness and hashing go through the rank and never see them.

Equality of the type `Version` compares the attachments too. Two versions that agree in rank have
the same precedence, which is what `samePrecedence` asks and what `compare` answers with `.eq`.
-/

namespace SemanticVersioning

/-- A version: what decides its precedence, and what is carried along. -/
structure Version extends Rank where
  build : List String := []
  /-- The text the version was read from. -/
  raw : Option String := none
  /-- The options the version was read with. -/
  options : Options := {}
deriving DecidableEq, Repr, Inhabited

namespace Version

/-! ## Making versions -/

/-- The release of a core. -/
def release (major minor patch : Nat) : Version :=
  { core := ⟨major, minor, patch⟩ }

/-- The pre-release of a core whose only identifier is a number. -/
def numbered (major minor patch preRelease : Nat) : Version :=
  { core := ⟨major, minor, patch⟩, preRelease := [.numeric preRelease] }

/-- The lowest of all versions. -/
def lowest : Version := numbered 0 0 0 0

/-- The same version without build metadata. -/
def withoutBuild (v : Version) : Version :=
  { v with build := [] }

/-- Whether a version is a pre-release. -/
def isPrerelease (v : Version) : Bool :=
  v.toRank.isPrerelease

@[simp] theorem toRank_withoutBuild (v : Version) : v.withoutBuild.toRank = v.toRank := rfl

@[simp] theorem isPrerelease_withoutBuild (v : Version) :
    v.withoutBuild.isPrerelease = v.isPrerelease := rfl

@[simp] theorem isPrerelease_release (major minor patch : Nat) :
    (release major minor patch).isPrerelease = false := rfl

@[simp] theorem isPrerelease_numbered (major minor patch preRelease : Nat) :
    (numbered major minor patch preRelease).isPrerelease = true := rfl

/-! ## Precedence -/

/-- Precedence of versions is that of their ranks. -/
instance : Ord Version where
  compare := compareOn toRank

theorem compare_def (v w : Version) : compare v w = compare v.toRank w.toRank := rfl

instance : Std.TransOrd Version :=
  inferInstanceAs (Std.TransCmp (compareOn toRank))

/-- Whether two versions agree in rank. -/
def samePrecedence (v w : Version) : Bool :=
  v.toRank == w.toRank

theorem samePrecedence_iff {v w : Version} :
    v.samePrecedence w = true ↔ v.toRank = w.toRank :=
  beq_iff_eq

theorem compare_eq_eq_iff {v w : Version} : compare v w = .eq ↔ v.toRank = w.toRank := by
  rw [compare_def]
  exact Std.compare_eq_iff_eq

/-- The pieces that a version gives a hasher are those of its rank. -/
def hashInputs (v : Version) : List HashInput :=
  v.toRank.hashInputs

/-- Versions are hashed by their pieces. -/
instance : Hashable Version where
  hash v := hash v.hashInputs

theorem hash_def (v : Version) : hash v = hash v.hashInputs := rfl

/-! ## Collections of versions -/

/-- The versions from the lowest to the highest. Those of the same precedence keep their order. -/
def sort (versions : List Version) : List Version :=
  versions.mergeSort fun v w => (compare v w).isLE

/-- How many precedences occur among the versions. -/
def countDistinct (versions : List Version) : Nat :=
  (versions.map toRank).eraseDups.length

end Version
end SemanticVersioning
