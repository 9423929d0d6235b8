import SemanticVersioning.Best
import SemanticVersioning.Range.Basic

/-!
# Choosing from a list of versions

From the versions of a list that a range admits, `selectHighest?` chooses one of the highest and
`selectLowest?` one of the lowest, and both say where in the list it stands. Versions of one
precedence are told apart by their place: of the highest the last one is chosen, of the lowest the
first.
-/

namespace SemanticVersioning

/-- A version chosen from a list, with its index there. -/
structure Choice where
  index : Nat
  version : Version
deriving DecidableEq, Repr, Inhabited

namespace Range

/-- The admitted versions of a list, with their indexes. -/
def admitted (range : Range) (versions : List Version) : List Choice :=
  (versions.zipIdx.map fun entry => ⟨entry.2, entry.1⟩).filter fun choice =>
    range.admits choice.version

/-- The last of the highest admitted versions. -/
def selectHighest? (range : Range) (versions : List Version) : Option Choice :=
  best? (fun choice kept => (compare choice.version kept.version).isGE) (range.admitted versions)

/-- The first of the lowest admitted versions. -/
def selectLowest? (range : Range) (versions : List Version) : Option Choice :=
  best? (fun choice kept => (compare choice.version kept.version).isLT) (range.admitted versions)

end Range
end SemanticVersioning
